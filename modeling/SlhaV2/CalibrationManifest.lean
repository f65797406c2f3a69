import SlhaV2.Calibration
import SlhaV2.DocumentText
import SlhaV2.PrintedLine

/-!
# The calibration manifest

The manifest of a validated directory is written member by member. A string is escaped byte by
byte, and no escape is written for the other control characters. So the manifest is an object
with the contents of the report and of its provenance exactly if none of its strings has one.
-/
namespace SlhaV2.CalibrationManifest
open DecimalText Documents JsonGrammar JsonValue JsonStrings DocumentText PrintedLine Utf8Text
open Calibration (FileStatus RowScan fileStatusName)

/-- The report of a file, as far as the manifest prints it. Strings are valid UTF-8. -/
structure FileReport where
  layerId : ℤ
  status : FileStatus
  scan : RowScan
  rowsObserved : ℕ
  rowsAccepted : ℕ
  rowsRejected : ℕ
  rawSha256 : String
  cleanSha256 : String
  rewritten : Bool

structure ManifestProvenance where
  formatVersion : ℤ
  implementationCommit : String
  llamaCppCommit : String
  modelIdentifier : String
  modelSha256 : String
  datasetSha256 : String
  collectionCommand : String
  timestampUtc : String
  codec : String
  minRows : ℕ

structure DirReport where
  policy : String
  files : List FileReport
  expectedDim : ℕ
  observedDim : ℕ
  expectedLayers : ℤ
  missingLayers : List ℤ
  duplicateLayers : List ℤ
  totalRowsObserved : ℕ
  totalRowsAccepted : ℕ
  totalRowsRejected : ℕ
  totalNanRows : ℕ
  totalPosinfRows : ℕ
  totalNeginfRows : ℕ
  totalNonfiniteScalars : ℕ
  dimConsistent : Bool
  sanitized : Bool
  valid : Bool
  error : String

def escapeByte (c : UInt8) : List UInt8 :=
  if c = byte '"' then bytes "\\\""
  else if c = byte '\\' then bytes "\\\\"
  else if c = byte '\n' then bytes "\\n"
  else if c = byte '\r' then bytes "\\r"
  else if c = byte '\t' then bytes "\\t"
  else [c]

def jstr (s : String) : List UInt8 := bytes "\"" ++ ((bytes s).flatMap escapeByte ++ bytes "\"")

def jbool (b : Bool) : List UInt8 := bytes (if b then "true" else "false")

def jnum (i : ℤ) : List UInt8 := encode (writeInt i)

def jarr (v : List ℤ) : List UInt8 :=
  bytes "[" ++ (List.intercalate (bytes ",") (v.map jnum) ++ bytes "]")

def jarrU64 (v : List ℕ) : List UInt8 := jarr (v.map Nat.cast)

def jarrI32 (v : List ℤ) : List UInt8 := jarr v

/-- A name of a member and the text of its value. -/
def member (e : String × List UInt8) : List UInt8 :=
  bytes "\"" ++ (bytes e.1 ++ (bytes "\": " ++ e.2))

/-- A comma ends every line but the last. -/
def lines (pad : String) : List (List UInt8) → List UInt8
  | [] => []
  | [l] => bytes pad ++ (l ++ bytes "\n")
  | l :: ls => bytes pad ++ (l ++ (bytes ",\n" ++ lines pad ls))

def fileMembers (f : FileReport) : List (String × List UInt8) :=
  [("layer", jnum f.layerId),
    ("status", jstr (fileStatusName f.status)),
    ("rows_observed", jnum f.rowsObserved),
    ("cols", jnum f.scan.cols),
    ("finite_rows", jnum f.scan.finiteRows),
    ("nan_rows", jnum f.scan.nanRows),
    ("posinf_rows", jnum f.scan.posinfRows),
    ("neginf_rows", jnum f.scan.neginfRows),
    ("nonfinite_rows", jnum f.scan.nonfiniteRows),
    ("nonfinite_scalars", jnum f.scan.nonfiniteScalars),
    ("nonfinite_row_indices", jarrU64 f.scan.nonfiniteRowIndices),
    ("rows_accepted", jnum f.rowsAccepted),
    ("rows_rejected", jnum f.rowsRejected),
    ("rewritten", jbool f.rewritten),
    ("raw_sha256", jstr f.rawSha256),
    ("clean_sha256", jstr f.cleanSha256)]

def fileText (f : FileReport) : List UInt8 :=
  bytes "\x7b\n" ++ (lines "      " ((fileMembers f).map member) ++ bytes "    \x7d")

def layersText (files : List FileReport) : List UInt8 :=
  bytes "[\n" ++ (lines "    " (files.map fileText) ++ bytes "  ]")

def manifestMembers (rep : DirReport) (prov : ManifestProvenance) : List (String × List UInt8) :=
  [("format_version", jnum prov.formatVersion),
    ("kind", bytes "\"slha-calibration-manifest\""),
    ("implementation_commit", jstr prov.implementationCommit),
    ("llama_cpp_commit", jstr prov.llamaCppCommit),
    ("model_identifier", jstr prov.modelIdentifier),
    ("model_sha256", jstr prov.modelSha256),
    ("dataset_sha256", jstr prov.datasetSha256),
    ("codec", jstr prov.codec),
    ("collection_command", jstr prov.collectionCommand),
    ("timestamp_utc", jstr prov.timestampUtc),
    ("policy", jstr rep.policy),
    ("min_rows", jnum prov.minRows),
    ("num_layers", jnum rep.files.length),
    ("expected_layers", jnum rep.expectedLayers),
    ("expected_dim", jnum rep.expectedDim),
    ("observed_dim", jnum rep.observedDim),
    ("dim_consistent", jbool rep.dimConsistent),
    ("missing_layers", jarrI32 rep.missingLayers),
    ("duplicate_layers", jarrI32 rep.duplicateLayers),
    ("total_rows_observed", jnum rep.totalRowsObserved),
    ("total_rows_accepted", jnum rep.totalRowsAccepted),
    ("total_rows_rejected", jnum rep.totalRowsRejected),
    ("nan_row_count", jnum rep.totalNanRows),
    ("posinf_row_count", jnum rep.totalPosinfRows),
    ("neginf_row_count", jnum rep.totalNeginfRows),
    ("nonfinite_scalar_count", jnum rep.totalNonfiniteScalars),
    ("sanitized", jbool rep.sanitized),
    ("error", jstr rep.error),
    ("valid", jbool rep.valid),
    ("layers", layersText rep.files)]

def buildManifestJson (rep : DirReport) (prov : ManifestProvenance) : List UInt8 :=
  bytes "\x7b\n" ++ (lines "  " ((manifestMembers rep prov).map member) ++ bytes "\x7d\n")

def numbers (v : List ℤ) : Document ℤ String := .arr (v.map .num)

def fileContents (f : FileReport) : Document ℤ String :=
  .obj [("layer", .num f.layerId),
    ("status", .str (fileStatusName f.status)),
    ("rows_observed", .num f.rowsObserved),
    ("cols", .num f.scan.cols),
    ("finite_rows", .num f.scan.finiteRows),
    ("nan_rows", .num f.scan.nanRows),
    ("posinf_rows", .num f.scan.posinfRows),
    ("neginf_rows", .num f.scan.neginfRows),
    ("nonfinite_rows", .num f.scan.nonfiniteRows),
    ("nonfinite_scalars", .num f.scan.nonfiniteScalars),
    ("nonfinite_row_indices", numbers (f.scan.nonfiniteRowIndices.map Nat.cast)),
    ("rows_accepted", .num f.rowsAccepted),
    ("rows_rejected", .num f.rowsRejected),
    ("rewritten", .bool f.rewritten),
    ("raw_sha256", .str f.rawSha256),
    ("clean_sha256", .str f.cleanSha256)]

/-- What a reader of the manifest should find. -/
def contents (rep : DirReport) (prov : ManifestProvenance) : Document ℤ String :=
  .obj [("format_version", .num prov.formatVersion),
    ("kind", .str "slha-calibration-manifest"),
    ("implementation_commit", .str prov.implementationCommit),
    ("llama_cpp_commit", .str prov.llamaCppCommit),
    ("model_identifier", .str prov.modelIdentifier),
    ("model_sha256", .str prov.modelSha256),
    ("dataset_sha256", .str prov.datasetSha256),
    ("codec", .str prov.codec),
    ("collection_command", .str prov.collectionCommand),
    ("timestamp_utc", .str prov.timestampUtc),
    ("policy", .str rep.policy),
    ("min_rows", .num prov.minRows),
    ("num_layers", .num rep.files.length),
    ("expected_layers", .num rep.expectedLayers),
    ("expected_dim", .num rep.expectedDim),
    ("observed_dim", .num rep.observedDim),
    ("dim_consistent", .bool rep.dimConsistent),
    ("missing_layers", numbers rep.missingLayers),
    ("duplicate_layers", numbers rep.duplicateLayers),
    ("total_rows_observed", .num rep.totalRowsObserved),
    ("total_rows_accepted", .num rep.totalRowsAccepted),
    ("total_rows_rejected", .num rep.totalRowsRejected),
    ("nan_row_count", .num rep.totalNanRows),
    ("posinf_row_count", .num rep.totalPosinfRows),
    ("neginf_row_count", .num rep.totalNeginfRows),
    ("nonfinite_scalar_count", .num rep.totalNonfiniteScalars),
    ("sanitized", .bool rep.sanitized),
    ("error", .str rep.error),
    ("valid", .bool rep.valid),
    ("layers", .arr (rep.files.map fileContents))]

def ManifestProvenance.texts (prov : ManifestProvenance) : List String :=
  [prov.implementationCommit, prov.llamaCppCommit, prov.modelIdentifier, prov.modelSha256,
    prov.datasetSha256, prov.codec, prov.collectionCommand, prov.timestampUtc]

def DirReport.texts (rep : DirReport) : List String :=
  [rep.policy, rep.error] ++ rep.files.flatMap fun f => [f.rawSha256, f.cleanSha256]

/-- The strings that the manifest takes over. -/
def texts (rep : DirReport) (prov : ManifestProvenance) : List String := prov.texts ++ rep.texts

/-- A control character other than a tab or a line break. -/
def isControl (c : Char) : Bool := c.toNat < 0x20 ∧ c ≠ '\t' ∧ c ≠ '\n' ∧ c ≠ '\r'

def NoControl (s : String) : Prop := ∀ c ∈ s.toList, isControl c = false

theorem flatMap_escapeByte {c : Char}
    (h : c ≠ '"' ∧ c ≠ '\\' ∧ c ≠ '\n' ∧ c ≠ '\r' ∧ c ≠ '\t') :
    (String.utf8EncodeChar c).flatMap escapeByte = String.utf8EncodeChar c := by
  have hcopied : ∀ b ∈ String.utf8EncodeChar c, escapeByte b = [b] := by
    intro b hb
    have hother : ∀ k : Char, k.toNat < 128 → c ≠ k → b ≠ byte k := by
      rintro k hk hne rfl
      exact hne (eq_of_byte_mem hk hb)
    unfold escapeByte
    rw [if_neg (hother '"' (by decide) h.1), if_neg (hother '\\' (by decide) h.2.1),
      if_neg (hother '\n' (by decide) h.2.2.1), if_neg (hother '\r' (by decide) h.2.2.2.1),
      if_neg (hother '\t' (by decide) h.2.2.2.2)]
  rw [List.flatMap_congr hcopied, List.flatMap_singleton']

theorem exists_piece {c : Char} (h : isControl c = false) :
    ∃ q : Piece, encode q.text = (String.utf8EncodeChar c).flatMap escapeByte ∧ Adds [q] c := by
  by_cases hquote : c = '"'
  · subst hquote
    exact ⟨.escape '"' rfl, rfl, adds_escape '"' rfl⟩
  by_cases hback : c = '\\'
  · subst hback
    exact ⟨.escape '\\' rfl, rfl, adds_escape '\\' rfl⟩
  by_cases hline : c = '\n'
  · subst hline
    exact ⟨.escape 'n' rfl, rfl, adds_escape 'n' rfl⟩
  by_cases hreturn : c = '\r'
  · subst hreturn
    exact ⟨.escape 'r' rfl, rfl, adds_escape 'r' rfl⟩
  by_cases htab : c = '\t'
  · subst htab
    exact ⟨.escape 't' rfl, rfl, adds_escape 't' rfl⟩
  have hspace : 0x20 ≤ c.toNat := by
    by_contra hlt
    exact of_decide_eq_false h ⟨not_le.mp hlt, htab, hline, hreturn⟩
  refine ⟨.plain c ⟨hspace, hquote, hback⟩, ?_, adds_plain c _⟩
  rw [flatMap_escapeByte ⟨hquote, hback, hline, hreturn, htab⟩]
  exact List.append_nil _

theorem exists_pieces {cs : List Char} (h : ∀ c ∈ cs, isControl c = false) :
    ∃ ps : List Piece, decode ps = some cs ∧
      encode (ps.flatMap Piece.text) = (encode cs).flatMap escapeByte := by
  induction cs with
  | nil => exact ⟨[], rfl, rfl⟩
  | cons c cs ih =>
      obtain ⟨q, hq, hadds⟩ := exists_piece (h c List.mem_cons_self)
      obtain ⟨ps, hdecode, hps⟩ := ih fun d hd => h d (List.mem_cons_of_mem c hd)
      refine ⟨q :: ps, ?_, ?_⟩
      · have hall := hadds ps
        rw [hdecode] at hall
        exact hall
      · rw [List.flatMap_cons, encode_append, hq, hps, encode_cons, List.flatMap_append]

theorem spells_jstr {s : String} (h : NoControl s) : Spells s (jstr s) := by
  obtain ⟨ps, hdecode, hps⟩ := exists_pieces h
  refine ⟨ps, hdecode, ?_⟩
  unfold stringText jstr
  rw [encode_cons, encode_append, hps]
  rfl

/-- A name that needs no escape is written as it is. -/
theorem spells_name {k : String} (h : (k.toList.all fun c =>
    0x20 ≤ c.toNat ∧ c ≠ '"' ∧ c ≠ '\\') = true) :
    Spells k (bytes "\"" ++ (bytes k ++ bytes "\"")) := by
  have hchars : ∀ c ∈ k.toList, 0x20 ≤ c.toNat ∧ c ≠ '"' ∧ c ≠ '\\' := fun c hc =>
    of_decide_eq_true (List.all_eq_true.mp h c hc)
  have hprinted : ∀ c ∈ k.toList, ∀ d : Char, d.toNat < 0x20 → c ≠ d := by
    rintro c hc d hd rfl
    exact absurd hd (not_lt.mpr (hchars c hc).1)
  have hcopied : (bytes k).flatMap escapeByte = bytes k := by
    unfold bytes encode
    rw [List.flatMap_assoc]
    refine List.flatMap_congr fun c hc => ?_
    have hc' := hprinted c hc
    exact flatMap_escapeByte ⟨(hchars c hc).2.1, (hchars c hc).2.2, hc' '\n' (by decide),
      hc' '\r' (by decide), hc' '\t' (by decide)⟩
  have hcontrol : NoControl k := fun c hc =>
    decide_eq_false fun hlow => absurd hlow.1 (not_lt.mpr (hchars c hc).1)
  have hspells := spells_jstr hcontrol
  unfold jstr at hspells
  rwa [hcopied] at hspells

/-- The line break before a line is whitespace in front of its item. -/
theorem lines_eq (pad : String) {ls : List (List UInt8)} (hne : ls ≠ []) :
    bytes "\n" ++ lines pad ls =
      List.intercalate (bytes ",") (ls.map (encode ('\n' :: pad.toList) ++ ·)) ++ bytes "\n" := by
  induction ls with
  | nil => exact absurd rfl hne
  | cons l ls ih =>
      cases ls with
      | nil => simp [lines, List.intercalate, bytes]
      | cons k ls =>
          have hrest := ih (List.cons_ne_nil k ls)
          have hcomma : bytes ",\n" = bytes "," ++ bytes "\n" := rfl
          have hbreak : encode ('\n' :: pad.toList) = bytes "\n" ++ bytes pad := rfl
          have hfirst : List.intercalate (bytes ",") (((l :: k :: ls)).map
              (encode ('\n' :: pad.toList) ++ ·)) = encode ('\n' :: pad.toList) ++ l ++
                bytes "," ++ List.intercalate (bytes ",") ((k :: ls).map
                  (encode ('\n' :: pad.toList) ++ ·)) := List.intercalate_cons_cons
          rw [hfirst, lines, hcomma, List.append_assoc, hrest, hbreak]
          · simp only [List.append_assoc]
          · exact List.cons_ne_nil k ls

theorem denotes_jarr (v : List ℤ) : Denotes (numbers v) (jarr v) := by
  unfold numbers jarr
  have hnone : Whitespace [] := by simp [Whitespace]
  by_cases hv : v = []
  · subst hv
    exact Denotes.emptyArr hnone
  · have hall : List.Forall₂ Denotes (v.map .num) (v.map jnum) := by
      rw [List.forall₂_map_left_iff, List.forall₂_map_right_iff, List.forall₂_same]
      exact fun i _ => Denotes.int i
    have harr := Denotes.arr hall (by simpa using hv) hnone hnone
    simpa [Function.comp_def] using harr

theorem denotes_jarrU64 (v : List ℕ) : Denotes (numbers (v.map Nat.cast)) (jarrU64 v) :=
  denotes_jarr _

/-- A member with a name that needs no escape. -/
theorem denotesMember {k : String} {v : Document ℤ String} {b : List UInt8}
    (h : (k.toList.all fun c => 0x20 ≤ c.toNat ∧ c ≠ '"' ∧ c ≠ '\\') = true)
    (hv : Denotes v b) : DenotesMember (k, v) (member (k, b)) := by
  have hspace : Whitespace [' '] := by simp [Whitespace, isWhitespace]
  have hnone : Whitespace [] := by simp [Whitespace]
  have hmember := (spells_name h).member hv hnone hspace
  have htext : member (k, b) = bytes "\"" ++ (bytes k ++ bytes "\"") ++
      (encode [] ++ (bytes ":" ++ (encode [' '] ++ b))) := by
    have hcolon : bytes "\": " = bytes "\"" ++ (bytes ":" ++ encode [' ']) := rfl
    unfold member
    simp [hcolon]
  rwa [htext]

/-- An object with one line for each member. -/
theorem denotes_lines (pad close : String) {es : List (String × Document ℤ String)}
    {ms : List (List UInt8)} (h : List.Forall₂ DenotesMember es ms) (hne : es ≠ [])
    (hpad : Whitespace pad.toList) (hclose : Whitespace close.toList) :
    Denotes (.obj es) (bytes "\x7b\n" ++ (lines pad ms ++ (bytes close ++ bytes "\x7d"))) := by
  have hbreak : ∀ {w : List Char}, Whitespace w → Whitespace ('\n' :: w) := by
    intro w hw c hc
    rcases List.mem_cons.mp hc with rfl | hc
    · rfl
    · exact hw c hc
  have hne' : ms ≠ [] := by
    rintro rfl
    exact hne (List.forall₂_nil_right_iff.mp h)
  have hobj := Denotes.obj h hne (hbreak hpad) (hbreak hclose)
  have hopen : bytes "\x7b\n" = bytes "\x7b" ++ bytes "\n" := rfl
  have hend : encode ('\n' :: close.toList) = bytes "\n" ++ bytes close := rfl
  rw [hend] at hobj
  rw [hopen, List.append_assoc, ← List.append_assoc (bytes "\n"), lines_eq pad hne']
  simpa only [List.append_assoc] using hobj

theorem whitespace_of_all {w : List Char} (h : w.all isWhitespace = true) : Whitespace w :=
  fun c hc => List.all_eq_true.mp h c hc

theorem denotes_jstr {s : String} (h : NoControl s) : Denotes (.str s) (jstr s) :=
  (spells_jstr h).denotes

theorem noControl_fileStatusName (st : FileStatus) : NoControl (fileStatusName st) := by
  have hall : (fileStatusName st).toList.all (fun c => !isControl c) = true := by cases st <;> rfl
  intro c hc
  simpa using List.all_eq_true.mp hall c hc

theorem denotes_file {f : FileReport} (hraw : NoControl f.rawSha256)
    (hclean : NoControl f.cleanSha256) : Denotes (fileContents f) (fileText f) := by
  have hmembers : List.Forall₂ DenotesMember _ ((fileMembers f).map member) :=
    .cons (denotesMember rfl (.int f.layerId)) <|
    .cons (denotesMember rfl (denotes_jstr (noControl_fileStatusName f.status))) <|
    .cons (denotesMember rfl (.int f.rowsObserved)) <|
    .cons (denotesMember rfl (.int f.scan.cols)) <|
    .cons (denotesMember rfl (.int f.scan.finiteRows)) <|
    .cons (denotesMember rfl (.int f.scan.nanRows)) <|
    .cons (denotesMember rfl (.int f.scan.posinfRows)) <|
    .cons (denotesMember rfl (.int f.scan.neginfRows)) <|
    .cons (denotesMember rfl (.int f.scan.nonfiniteRows)) <|
    .cons (denotesMember rfl (.int f.scan.nonfiniteScalars)) <|
    .cons (denotesMember rfl (denotes_jarrU64 f.scan.nonfiniteRowIndices)) <|
    .cons (denotesMember rfl (.int f.rowsAccepted)) <|
    .cons (denotesMember rfl (.int f.rowsRejected)) <|
    .cons (denotesMember rfl (.bool f.rewritten)) <|
    .cons (denotesMember rfl (denotes_jstr hraw)) <|
    .cons (denotesMember rfl (denotes_jstr hclean)) .nil
  exact denotes_lines "      " "    " hmembers (List.cons_ne_nil _ _) (whitespace_of_all rfl)
    (whitespace_of_all rfl)

theorem denotes_layers {files : List FileReport}
    (h : ∀ f ∈ files, NoControl f.rawSha256 ∧ NoControl f.cleanSha256) :
    Denotes (.arr (files.map fileContents)) (layersText files) := by
  have hclose : Whitespace ('\n' :: "  ".toList) := whitespace_of_all rfl
  have hopen : bytes "[\n" = bytes "[" ++ bytes "\n" := rfl
  have hend : encode ('\n' :: "  ".toList) = bytes "\n" ++ bytes "  " := rfl
  have hbracket : bytes "  ]" = bytes "  " ++ bytes "]" := rfl
  unfold layersText
  by_cases hfiles : files = []
  · subst hfiles
    exact Denotes.emptyArr hclose
  · have hall : List.Forall₂ Denotes (files.map fileContents) (files.map fileText) := by
      rw [List.forall₂_map_left_iff, List.forall₂_map_right_iff, List.forall₂_same]
      exact fun f hf => denotes_file (h f hf).1 (h f hf).2
    have harr := Denotes.arr hall (by simpa using hfiles)
      (whitespace_of_all (w := '\n' :: "    ".toList) rfl) hclose
    rw [hend] at harr
    rw [hopen, hbracket, List.append_assoc, ← List.append_assoc (bytes "\n"),
      lines_eq "    " (by simpa using hfiles)]
    simpa only [List.append_assoc] using harr

theorem denotes_manifest {rep : DirReport} {prov : ManifestProvenance}
    (h : ∀ s ∈ texts rep prov, NoControl s) :
    DenotesText (contents rep prov) (buildManifestJson rep prov) := by
  unfold texts ManifestProvenance.texts DirReport.texts at h
  simp only [List.forall_mem_append, List.forall_mem_cons, List.not_mem_nil, false_implies,
    implies_true, and_true, List.forall_mem_flatMap] at h
  obtain ⟨⟨himplementation, hllama, hmodel, hmodelSha, hdatasetSha, hcodec, hcommand, htimestamp⟩,
    ⟨hpolicy, herror⟩, hfiles⟩ := h
  have hkind : Denotes (.str "slha-calibration-manifest")
      (bytes "\"slha-calibration-manifest\"") := (spells_name rfl).denotes
  have hmembers : List.Forall₂ DenotesMember _ ((manifestMembers rep prov).map member) :=
    .cons (denotesMember rfl (.int prov.formatVersion)) <|
    .cons (denotesMember rfl hkind) <|
    .cons (denotesMember rfl (denotes_jstr himplementation)) <|
    .cons (denotesMember rfl (denotes_jstr hllama)) <|
    .cons (denotesMember rfl (denotes_jstr hmodel)) <|
    .cons (denotesMember rfl (denotes_jstr hmodelSha)) <|
    .cons (denotesMember rfl (denotes_jstr hdatasetSha)) <|
    .cons (denotesMember rfl (denotes_jstr hcodec)) <|
    .cons (denotesMember rfl (denotes_jstr hcommand)) <|
    .cons (denotesMember rfl (denotes_jstr htimestamp)) <|
    .cons (denotesMember rfl (denotes_jstr hpolicy)) <|
    .cons (denotesMember rfl (.int prov.minRows)) <|
    .cons (denotesMember rfl (.int rep.files.length)) <|
    .cons (denotesMember rfl (.int rep.expectedLayers)) <|
    .cons (denotesMember rfl (.int rep.expectedDim)) <|
    .cons (denotesMember rfl (.int rep.observedDim)) <|
    .cons (denotesMember rfl (.bool rep.dimConsistent)) <|
    .cons (denotesMember rfl (denotes_jarr rep.missingLayers)) <|
    .cons (denotesMember rfl (denotes_jarr rep.duplicateLayers)) <|
    .cons (denotesMember rfl (.int rep.totalRowsObserved)) <|
    .cons (denotesMember rfl (.int rep.totalRowsAccepted)) <|
    .cons (denotesMember rfl (.int rep.totalRowsRejected)) <|
    .cons (denotesMember rfl (.int rep.totalNanRows)) <|
    .cons (denotesMember rfl (.int rep.totalPosinfRows)) <|
    .cons (denotesMember rfl (.int rep.totalNeginfRows)) <|
    .cons (denotesMember rfl (.int rep.totalNonfiniteScalars)) <|
    .cons (denotesMember rfl (.bool rep.sanitized)) <|
    .cons (denotesMember rfl (denotes_jstr herror)) <|
    .cons (denotesMember rfl (.bool rep.valid)) <|
    .cons (denotesMember rfl (denotes_layers hfiles)) .nil
  obtain ⟨t, s, hvalue, hmeaning, hbytes⟩ := denotes_lines "  " "" hmembers
    (List.cons_ne_nil _ _) (whitespace_of_all rfl) (whitespace_of_all rfl)
  have hspace : Whitespace [] ∧ Whitespace ['\n'] := ⟨whitespace_of_all rfl, whitespace_of_all rfl⟩
  refine ⟨t, s ++ ['\n'], ⟨[], s, ['\n'], hspace.1, hvalue, hspace.2, rfl⟩, hmeaning, ?_⟩
  have hend : bytes "\x7d\n" = bytes "" ++ bytes "\x7d" ++ encode ['\n'] := rfl
  rw [encode_append, hbytes, buildManifestJson, hend]
  simp only [List.append_assoc]

theorem isControl_of_printable {cs : List Char} (h : Printable cs) :
    ∀ c ∈ cs, isControl c = false :=
  fun c hc => decide_eq_false fun hlow => absurd hlow.1 (not_lt.mpr (h c hc))

/-- No text of the grammar has one of these characters. -/
theorem noControl_parts : OfParts fun cs => ∀ c ∈ cs, isControl c = false where
  nil := isControl_of_printable Printable.nil
  append h h' := List.forall_mem_append.mpr ⟨h, h'⟩
  space h := by
    refine List.forall_mem_singleton.mpr ?_
    rcases of_decide_eq_true h with rfl | rfl | rfl | rfl <;> rfl
  mark h := by
    have hall : marks.all (fun c => !isControl c) = true := rfl
    refine List.forall_mem_singleton.mpr ?_
    simpa using List.all_eq_true.mp hall _ h
  word h := by
    simp only [List.mem_cons, List.not_mem_nil, or_false] at h
    rcases h with rfl | rfl | rfl <;> exact isControl_of_printable (Printable.of_all rfl)
  number n := isControl_of_printable (Number.printable n)
  string ps := by
    have hps : Printable (ps.flatMap Piece.text) := Printable.flatMap fun q _ => Piece.printable q
    exact isControl_of_printable ((hps.append (Printable.of_all rfl)).cons (by decide))

theorem ascii_of_isControl {c : Char} (h : isControl c = true) : c.toNat < 128 :=
  lt_trans (of_decide_eq_true h).1 (by decide)

/-- The byte of such a character is in no encoded text. -/
theorem byte_notMem {t : Syntax} {s : List Char} (h : Text t s) {c : Char}
    (hc : isControl c = true) : byte c ∉ encode s := by
  intro hin
  obtain ⟨d, hd, hbyte⟩ := List.mem_flatMap.mp hin
  have heq := eq_of_byte_mem (ascii_of_isControl hc) hbyte
  subst heq
  exact Bool.false_ne_true ((noControl_parts.text h d hd).symm.trans hc)

/-- It is copied into the text of the string. -/
theorem byte_mem_jstr {s : String} {c : Char} (hin : c ∈ s.toList) (hc : isControl c = true) :
    byte c ∈ jstr s := by
  have hchar : ∀ d, isControl d = false → c ≠ d := by
    rintro d hd rfl
    exact Bool.false_ne_true (hd.symm.trans hc)
  have hcopied := flatMap_escapeByte ⟨hchar '"' rfl, hchar '\\' rfl, hchar '\n' rfl,
    hchar '\r' rfl, hchar '\t' rfl⟩
  rw [utf8EncodeChar_ascii (ascii_of_isControl hc)] at hcopied
  have hself : byte c ∈ escapeByte (byte c) := by
    rw [List.flatMap_singleton] at hcopied
    exact hcopied ▸ List.mem_singleton_self _
  have hbytes : byte c ∈ bytes s := by
    refine List.mem_flatMap.mpr ⟨c, hin, ?_⟩
    rw [utf8EncodeChar_ascii (ascii_of_isControl hc)]
    exact List.mem_singleton_self _
  have hbody := List.mem_flatMap.mpr ⟨byte c, hbytes, hself⟩
  exact List.mem_append_right _ (List.mem_append_left _ hbody)

theorem mem_lines {pad : String} {ls : List (List UInt8)} {l : List UInt8} (hl : l ∈ ls) {b : UInt8}
    (hb : b ∈ l) : b ∈ lines pad ls := by
  induction ls with
  | nil => cases hl
  | cons k ls ih =>
      cases ls with
      | nil =>
          rw [List.mem_singleton] at hl
          simp [lines, ← hl, hb]
      | cons k' ls =>
          rcases List.mem_cons.mp hl with rfl | hl
          · simp [lines, hb]
          · have hrest := ih hl
            simp [lines, hrest]

/-- The bytes of a member's value are bytes of its object. -/
theorem mem_lines_member {pad : String} {ms : List (String × List UInt8)}
    {e : String × List UInt8} (he : e ∈ ms) {b : UInt8} (hb : b ∈ e.2) :
    b ∈ lines pad (ms.map member) := by
  refine mem_lines (List.mem_map_of_mem he) ?_
  unfold member
  simp [hb]

theorem mem_layersText {files : List FileReport} {f : FileReport} (hf : f ∈ files) {b : UInt8}
    (hb : b ∈ jstr f.rawSha256 ∨ b ∈ jstr f.cleanSha256) : b ∈ layersText files := by
  have hfile : b ∈ fileText f := by
    rcases hb with hb | hb
    · have hin : ("raw_sha256", jstr f.rawSha256) ∈ fileMembers f := by simp [fileMembers]
      exact List.mem_append_right _ (List.mem_append_left _ (mem_lines_member hin hb))
    · have hin : ("clean_sha256", jstr f.cleanSha256) ∈ fileMembers f := by simp [fileMembers]
      exact List.mem_append_right _ (List.mem_append_left _ (mem_lines_member hin hb))
  exact List.mem_append_right _ (List.mem_append_left _
    (mem_lines (List.mem_map_of_mem hf) hfile))

theorem mem_buildManifestJson {rep : DirReport} {prov : ManifestProvenance} {s : String}
    (hs : s ∈ texts rep prov) {b : UInt8} (hb : b ∈ jstr s) : b ∈ buildManifestJson rep prov := by
  have hmember : ∃ e ∈ manifestMembers rep prov, b ∈ e.2 := by
    unfold texts DirReport.texts at hs
    rw [← List.append_assoc, List.mem_append] at hs
    rcases hs with hs | hs
    · have hvalues : ∀ s ∈ prov.texts ++ [rep.policy, rep.error],
          jstr s ∈ (manifestMembers rep prov).map Prod.snd := by
        simp [ManifestProvenance.texts, manifestMembers]
      obtain ⟨e, he, heq⟩ := List.mem_map.mp (hvalues s hs)
      exact ⟨e, he, heq ▸ hb⟩
    · obtain ⟨f, hf, hs⟩ := List.mem_flatMap.mp hs
      have hlayers : ("layers", layersText rep.files) ∈ manifestMembers rep prov := by
        simp [manifestMembers]
      refine ⟨_, hlayers, mem_layersText hf ?_⟩
      rcases List.mem_pair.mp hs with rfl | rfl
      · exact .inl hb
      · exact .inr hb
  obtain ⟨e, he, hb⟩ := hmember
  exact List.mem_append_right _ (List.mem_append_left _ (mem_lines_member he hb))

theorem noControl_of_denotes {rep : DirReport} {prov : ManifestProvenance}
    (h : DenotesText (contents rep prov) (buildManifestJson rep prov)) :
    ∀ s ∈ texts rep prov, NoControl s := by
  obtain ⟨t, cs, htext, -, hbytes⟩ := h
  intro s hs c hc
  by_contra hcontrol
  rw [Bool.not_eq_false] at hcontrol
  have hin := mem_buildManifestJson hs (byte_mem_jstr hc hcontrol)
  rw [← hbytes] at hin
  exact byte_notMem htext hcontrol hin

/-- The manifest is one object with the strings, numbers and lists of the report exactly if no
string has a control character that is copied. -/
theorem manifest_exact_iff (rep : DirReport) (prov : ManifestProvenance) :
    DenotesText (contents rep prov) (buildManifestJson rep prov) ↔
      ∀ s ∈ texts rep prov, NoControl s :=
  ⟨noControl_of_denotes, denotes_manifest⟩

/-- The report of a directory without layer files. -/
def noFiles : DirReport where
  policy := "reject"
  files := []
  expectedDim := 0
  observedDim := 0
  expectedLayers := -1
  missingLayers := []
  duplicateLayers := []
  totalRowsObserved := 0
  totalRowsAccepted := 0
  totalRowsRejected := 0
  totalNanRows := 0
  totalPosinfRows := 0
  totalNeginfRows := 0
  totalNonfiniteScalars := 0
  dimConsistent := true
  sanitized := false
  valid := false
  error := "no layer-<id>-k.bin files found"

/-- The command has an escape character before a colour code. -/
def colouredCommand : ManifestProvenance where
  formatVersion := 1
  implementationCommit := ""
  llamaCppCommit := ""
  modelIdentifier := ""
  modelSha256 := ""
  datasetSha256 := ""
  collectionCommand := "collect --tag \x1b[1m"
  timestampUtc := ""
  codec := ""
  minRows := 0

theorem colouredCommand_unreadable :
    ¬ DenotesText (contents noFiles colouredCommand)
      (buildManifestJson noFiles colouredCommand) := by
  intro h
  have hcommand := noControl_of_denotes h colouredCommand.collectionCommand
    (by simp [texts, ManifestProvenance.texts])
  have hescape : '\x1b' ∈ colouredCommand.collectionCommand.toList := by
    simp [colouredCommand]
  exact Bool.false_ne_true (hcommand _ hescape).symm

end SlhaV2.CalibrationManifest
