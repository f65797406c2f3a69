import SlhaV2.CalibrationManifest

/-!
# The manifest of a run

The validation writes the policy, the status of a file and its errors into the report, and none
of these texts has a control character. So the manifest of a run depends on the caller's strings
alone.
-/
namespace SlhaV2.ManifestRuns
open CalibrationManifest DocumentText PrintedLine
open Calibration hiding FileReport DirReport

/-- The report of a run and the hashes of a file before and after it. -/
def fileOfRun (hashes : Calibration.FileReport → String × String)
    (f : Calibration.FileReport) : FileReport where
  layerId := f.layerId
  status := f.status
  scan := f.scan
  rowsObserved := f.rowsObserved
  rowsAccepted := f.rowsAccepted
  rowsRejected := f.rowsRejected
  rawSha256 := (hashes f).1
  cleanSha256 := (hashes f).2
  rewritten := f.rewritten

def reportOfRun (hashes : Calibration.FileReport → String × String)
    (rep : Calibration.DirReport) : DirReport where
  policy := rep.policy
  files := rep.files.map (fileOfRun hashes)
  expectedDim := rep.expectedDim
  observedDim := rep.observedDim
  expectedLayers := rep.expectedLayers
  missingLayers := rep.missingLayers.map Nat.cast
  duplicateLayers := rep.duplicateLayers.map Nat.cast
  totalRowsObserved := rep.totalRowsObserved
  totalRowsAccepted := rep.totalRowsAccepted
  totalRowsRejected := rep.totalRowsRejected
  totalNanRows := rep.totalNanRows
  totalPosinfRows := rep.totalPosinfRows
  totalNeginfRows := rep.totalNeginfRows
  totalNonfiniteScalars := rep.totalNonfiniteScalars
  dimConsistent := rep.dimConsistent
  sanitized := rep.sanitized
  valid := rep.valid
  error := rep.error

theorem noControl_append {s t : String} : NoControl (s ++ t) ↔ NoControl s ∧ NoControl t := by
  unfold NoControl
  rw [String.toList_append]
  exact List.forall_mem_append

theorem noControl_of_all {s : String} (h : s.toList.all (fun c => 0x20 ≤ c.toNat) = true) :
    NoControl s :=
  isControl_of_printable (Printable.of_all h)

theorem noControl_toString (n : ℕ) : NoControl (toString n) := by
  refine isControl_of_printable fun c hc => digit_printable ?_
  rw [Nat.toString_eq_repr, Nat.toList_repr] at hc
  exact Nat.isDigit_of_mem_toDigits (by decide) (by decide) hc

/-- What is said of a file that is refused. -/
theorem noControl_readCalibFile {file : Option (List UInt8)} {dim : ℕ} {r : ReadOut}
    (h : readCalibFile file dim = some r) : NoControl r.err := by
  unfold readCalibFile at h
  split at h
  · cases h
    exact noControl_of_all rfl
  · rename_i b
    have hmismatch : ∀ size expect rows cols : ℕ, NoControl ("size mismatch: file=" ++
        toString size ++ " expected=" ++ toString expect ++ " (rows=" ++ toString rows ++
          " cols=" ++ toString cols ++ ")") := by
      intro size expect rows cols
      simp only [noControl_append, noControl_toString, and_true]
      refine ⟨⟨⟨⟨?_, ?_⟩, ?_⟩, ?_⟩, ?_⟩ <;> exact noControl_of_all rfl
    have hdim : ∀ cols expect : ℕ, NoControl ("dimension mismatch: cols=" ++ toString cols ++
        " expected=" ++ toString expect) := by
      intro cols expect
      simp only [noControl_append, noControl_toString, and_true]
      exact ⟨noControl_of_all rfl, noControl_of_all rfl⟩
    dsimp only at h
    split_ifs at h
    all_goals cases h
    · exact (noControl_of_all rfl : NoControl "fewer than 12 header bytes")
    · exact (noControl_of_all rfl : NoControl "bad magic")
    · exact (noControl_of_all rfl : NoControl "zero columns")
    · exact hmismatch _ _ _ _
    · exact (noControl_of_all rfl : NoControl "zero rows")
    · exact hdim _ _
    · exact (noControl_of_all rfl : NoControl "short read of payload")
    · exact (noControl_of_all rfl : NoControl "")

/-- The strings that the run writes itself. -/
def OwnTexts (rep : Calibration.DirReport) : Prop := NoControl rep.policy ∧ NoControl rep.error

theorem OwnTexts.withError {rep : Calibration.DirReport} {text : String} (h : OwnTexts rep)
    (ht : NoControl text) : OwnTexts (rep.withError text) := by
  unfold DirReport.withError
  split_ifs
  · exact ⟨h.1, ht⟩
  · exact h

/-- A turn adds no error but one that names a status or a failed rewrite. -/
theorem OwnTexts.visitRead {policy : NonFinitePolicy} {s : State} {lf : LayerFile} {magic : ℕ}
    {r : Except (FileStatus × String) Matrix} (h : OwnTexts s.rep)
    (hr : ∀ st err, r = .error (st, err) → NoControl err) :
    OwnTexts (Calibration.visitRead policy s lf magic r).rep := by
  have hstart : NoControl ("layer " ++ toString lf.layerId) := by
    rw [noControl_append]
    exact ⟨noControl_of_all rfl, noControl_toString _⟩
  cases r with
  | error e =>
      obtain ⟨status, err⟩ := e
      have htext : NoControl ("layer " ++ toString lf.layerId ++ ": " ++
          fileStatusName status ++ " (" ++ err ++ ")") := by
        have herr := hr status err rfl
        simp only [noControl_append, noControl_fileStatusName, herr, and_true] at hstart ⊢
        refine ⟨⟨⟨hstart, ?_⟩, ?_⟩, ?_⟩ <;> exact noControl_of_all rfl
      exact h.withError htext
  | ok m =>
      unfold Calibration.visitRead
      dsimp only
      split_ifs
      · split
        · rename_i werr hwrite
          have hwerr : NoControl werr := by
            unfold writeCalibFile at hwrite
            split_ifs at hwrite
            cases hwrite
            exact noControl_of_all rfl
          have htext : NoControl ("layer " ++ toString lf.layerId ++ ": rewrite failed (" ++
              werr ++ ")") := by
            simp only [noControl_append, hwerr, and_true] at hstart ⊢
            refine ⟨⟨hstart, ?_⟩, ?_⟩ <;> exact noControl_of_all rfl
          exact (show OwnTexts (s.rep.observe m _) from h).withError htext
        · exact h
      · exact h

theorem OwnTexts.visits {policy : NonFinitePolicy} {dim : ℕ} {files : List LayerFile} {s t : State}
    (h : OwnTexts s.rep) (hrun : files.foldlM (visit policy dim) s = .ok t) : OwnTexts t.rep := by
  induction files generalizing s with
  | nil =>
      cases hrun
      exact h
  | cons lf files ih =>
      rw [List.foldlM_cons] at hrun
      unfold visit at hrun
      cases hread : readCalibFile (s.dir.find lf.name) dim with
      | none =>
          rw [hread] at hrun
          cases hrun
      | some r =>
          rw [hread] at hrun
          refine ih (h.visitRead fun st err he => ?_) hrun
          unfold ReadOut.matrix at he
          split_ifs at he
          cases he
          exact noControl_readCalibFile hread

theorem ownTexts_start (policy : NonFinitePolicy) (expectedLayers : ℤ) (expectedDim : ℕ)
    (missing duplicates : List ℕ) :
    OwnTexts (Calibration.DirReport.start policy expectedLayers expectedDim missing
      duplicates) := by
  refine ⟨?_, noControl_of_all rfl⟩
  cases policy with
  | reject => exact (noControl_of_all rfl : NoControl "reject")
  | dropRow => exact (noControl_of_all rfl : NoControl "drop-row")

theorem OwnTexts.finish {policy : NonFinitePolicy} {minRows : ℕ} {s : State}
    (h : OwnTexts s.rep) : OwnTexts (Calibration.finish policy minRows s) := by
  unfold Calibration.finish
  dsimp only
  split_ifs
  · exact h
  · exact h.withError (noControl_of_all rfl)

theorem ownTexts_validateDir {sorting : SortById} {d d' : Dir} {names : Listing d}
    {policy : NonFinitePolicy} {expectedLayers : ℤ} {expectedDim minRows : ℕ}
    {rep : Calibration.DirReport}
    (h : validateDir sorting d names policy expectedLayers expectedDim minRows = .ok (rep, d')) :
    OwnTexts rep := by
  have hstart := ownTexts_start policy expectedLayers expectedDim
  unfold validateDir at h
  split at h
  · cases h
    exact ⟨(hstart [] []).1,
      (noControl_of_all rfl : NoControl "no layer-<id>-k.bin files found")⟩
  · rename_i files duplicates _ _
    cases hrun : files.foldlM (visit policy expectedDim)
        ⟨d, .start policy expectedLayers expectedDim (missingOf expectedLayers files) duplicates,
          true⟩ with
    | error e =>
        dsimp only at h
        rw [hrun] at h
        cases h
    | ok s =>
        dsimp only at h
        rw [hrun] at h
        cases h
        exact ((hstart _ _).visits hrun).finish

/-- The manifest of a run can be read whenever the caller's strings can: the run itself writes no
control character. -/
theorem validateDir_manifest {sorting : SortById} {d d' : Dir} {names : Listing d}
    {policy : NonFinitePolicy} {expectedLayers : ℤ} {expectedDim minRows : ℕ}
    {rep : Calibration.DirReport} {hashes : Calibration.FileReport → String × String}
    (h : validateDir sorting d names policy expectedLayers expectedDim minRows = .ok (rep, d'))
    (hhashes : ∀ f, NoControl (hashes f).1 ∧ NoControl (hashes f).2) (prov : ManifestProvenance)
    (hprov : ∀ s ∈ prov.texts, NoControl s) :
    DenotesText (contents (reportOfRun hashes rep) prov)
      (buildManifestJson (reportOfRun hashes rep) prov) := by
  apply denotes_manifest
  obtain ⟨hpolicy, herror⟩ := ownTexts_validateDir h
  unfold texts DirReport.texts
  simp only [List.forall_mem_append, List.forall_mem_cons, List.forall_mem_flatMap]
  refine ⟨hprov, ⟨hpolicy, herror, fun _ hs => absurd hs List.not_mem_nil⟩, fun f hf => ?_⟩
  obtain ⟨g, -, rfl⟩ := List.mem_map.mp hf
  exact ⟨(hhashes g).1, (hhashes g).2, fun _ hs => absurd hs List.not_mem_nil⟩

end SlhaV2.ManifestRuns
