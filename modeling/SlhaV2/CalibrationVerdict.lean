import SlhaV2.CalibrationRuns

/-!
# When a directory passes

The gate is compared with what it stands for: a sound directory whose rows
pass the policy. After a rewrite the same holds of the directory it leaves,
except that a file which kept no row is no longer a layer file at all.
-/
namespace SlhaV2.CalibrationVerdict
open MachineWord OrderedMap FloatingPoint Calibration CalibrationFiles CalibrationRuns

def IsLayer (d : Dir) (name : String) (id : ℕ) (bytes : List UInt8) : Prop :=
  (name, bytes) ∈ d ∧ layerIdOf name = some id

/-- The structural check accepts the file, with these rows. -/
def Accepts (dim : ℕ) (bytes : List UInt8) (cols : ℕ) (rows : List (List F32)) : Prop :=
  Holds bytes cols rows ∧ DimOk dim cols

structure Sound (d : Dir) (expectedLayers : ℤ) (dim : ℕ) : Prop where
  inhabited : ∃ name id bytes, IsLayer d name id bytes
  structural : ∀ name id bytes, IsLayer d name id bytes → ∃ cols rows, Accepts dim bytes cols rows
  common : ∀ name id bytes cols rows name' id' bytes' cols' rows',
    IsLayer d name id bytes → Accepts dim bytes cols rows →
    IsLayer d name' id' bytes' → Accepts dim bytes' cols' rows' → cols = cols'
  distinct : ∀ name name' id bytes bytes',
    IsLayer d name id bytes → IsLayer d name' id bytes' → name = name'
  present : ∀ i : ℕ, (i : ℤ) < expectedLayers → ∃ name bytes, IsLayer d name i bytes

/-- What holds of the rows of every accepted layer file. -/
def EveryAccepted (d : Dir) (dim : ℕ) (P : List (List F32) → Prop) : Prop :=
  ∀ name id bytes cols rows, IsLayer d name id bytes → Accepts dim bytes cols rows → P rows

/-- What the policy asks of the rows. -/
def RowsPass (policy : NonFinitePolicy) (minRows : ℕ) (rows : List (List F32)) : Prop :=
  match policy with
  | .reject => ∀ row ∈ rows, finiteRow row = true
  | .dropRow => minRows ≤ (rows.filter finiteRow).length

theorem foldl_dimStep (o : ℕ) (b : Bool) (cs : List ℕ) (ho : o ≠ 0) :
    (cs.foldl dimStep (o, b)).2 = true ↔ b = true ∧ ∀ c ∈ cs, o = c := by
  induction cs generalizing b with
  | nil => simp
  | cons c cs ih =>
      have hstep : dimStep (o, b) c = (o, if o ≠ 0 ∧ o ≠ c then false else b) :=
        Prod.ext (if_neg ho) rfl
      rw [List.foldl_cons, hstep, ih, List.forall_mem_cons]
      by_cases hc : o = c
      · simp [hc]
      · simp [ho, hc]

/-- The running check finds out whether all dimensions agree. -/
theorem dims_agree {cs : List ℕ} (h : ∀ c ∈ cs, c ≠ 0) :
    (cs.foldl dimStep (0, true)).2 = true ↔ ∀ a ∈ cs, ∀ b ∈ cs, a = b := by
  cases cs with
  | nil => simp
  | cons c cs =>
      have hstep : dimStep (0, true) c = (c, true) := rfl
      rw [List.foldl_cons, hstep, foldl_dimStep c true cs (h c List.mem_cons_self)]
      constructor
      · intro hall a ha b hb
        have heq : ∀ x ∈ c :: cs, c = x := by
          intro x hx
          cases List.mem_cons.mp hx with
          | inl hx => exact hx.symm
          | inr hx => exact hall.2 x hx
        rw [← heq a ha, ← heq b hb]
      · intro hall
        exact ⟨rfl, fun x hx => hall c List.mem_cons_self x (List.mem_cons_of_mem c hx)⟩

section
variable {sorting : SortById} {d : Dir} {names : Listing d}

theorem mem_discovered {lf : LayerFile} : lf ∈ (discoverLayerFiles sorting names.1).1 ↔
    ∃ bytes, IsLayer d lf.name lf.layerId bytes := by
  unfold discoverLayerFiles IsLayer
  dsimp only
  rw [(sorting.perm _).mem_iff, (discover_found names.1).1, mem_layerFiles, names.2.2]
  exact ⟨fun h => ⟨h.1.choose, h.1.choose_spec, h.2⟩, fun ⟨b, hb, hid⟩ => ⟨⟨b, hb⟩, hid⟩⟩

theorem ready (hfit : ∀ name id bytes, IsLayer d name id bytes → Fits bytes) :
    Ready d (discoverLayerFiles sorting names.1).1 := by
  constructor
  · unfold discoverLayerFiles
    dsimp only
    rw [((sorting.perm _).map LayerFile.name).nodup_iff, (discover_found names.1).1]
    exact nodup_names names.2.1
  · intro lf hlf
    obtain ⟨bytes, hb⟩ := mem_discovered.mp hlf
    exact ⟨bytes, hb.1, hfit _ _ _ hb⟩
  · intro lf hlf
    obtain ⟨bytes, hb⟩ := mem_discovered.mp hlf
    exact hb.2

theorem duplicates_eq_nil : (discoverLayerFiles sorting names.1).2 = [] ↔
    ∀ name name' id bytes bytes', IsLayer d name id bytes → IsLayer d name' id bytes' →
      name = name' := by
  have hnil : (discoverLayerFiles sorting names.1).2 = [] ↔
      ((discoverLayerFiles sorting names.1).1.map LayerFile.layerId).Nodup := by
    unfold discoverLayerFiles
    dsimp only
    rw [((sorting.perm _).map LayerFile.layerId).nodup_iff, (discover_found names.1).1,
      ← (discover_found names.1).2.2, List.eq_nil_iff_forall_not_mem,
      List.eq_nil_iff_forall_not_mem]
    simp only [List.mem_dedup, List.mem_mergeSort]
  have hnodup : (discoverLayerFiles sorting names.1).1.Nodup := by
    unfold discoverLayerFiles
    dsimp only
    rw [(sorting.perm _).nodup_iff, (discover_found names.1).1]
    exact (nodup_names names.2.1).of_map _
  rw [hnil]
  constructor
  · intro h name name' id bytes bytes' hl hl'
    have hm : (⟨id, name⟩ : LayerFile) ∈ (discoverLayerFiles sorting names.1).1 :=
      mem_discovered.mpr ⟨bytes, hl⟩
    have hm' : (⟨id, name'⟩ : LayerFile) ∈ (discoverLayerFiles sorting names.1).1 :=
      mem_discovered.mpr ⟨bytes', hl'⟩
    exact congrArg LayerFile.name (List.inj_on_of_nodup_map h hm hm' rfl)
  · intro h
    apply hnodup.map_on
    intro a ha b hb hid
    obtain ⟨bytes, hla⟩ := mem_discovered.mp ha
    obtain ⟨bytes', hlb⟩ := mem_discovered.mp hb
    rw [← hid] at hlb
    have hname := h _ _ _ _ _ hla hlb
    cases a
    cases b
    exact LayerFile.mk.injEq .. ▸ ⟨hid, hname⟩

theorem missing_eq_nil {expectedLayers : ℤ} :
    missingOf expectedLayers (discoverLayerFiles sorting names.1).1 = [] ↔
      ∀ i : ℕ, (i : ℤ) < expectedLayers → ∃ name bytes, IsLayer d name i bytes := by
  unfold missingOf
  rw [List.filter_eq_nil_iff]
  apply forall_congr'
  intro i
  rw [List.mem_range, Int.lt_toNat]
  apply imp_congr_right
  intro _
  rw [Bool.not_eq_true', Bool.not_eq_false, List.any_eq_true]
  constructor
  · intro h
    obtain ⟨lf, hlf, hid⟩ := h
    obtain ⟨bytes, hb⟩ := mem_discovered.mp hlf
    rw [of_decide_eq_true hid] at hb
    exact ⟨lf.name, bytes, hb⟩
  · intro h
    obtain ⟨name, bytes, hb⟩ := h
    exact ⟨⟨i, name⟩, mem_discovered.mpr ⟨bytes, hb⟩, decide_eq_true rfl⟩

theorem content_iff {dim : ℕ} {name : String} {id : ℕ} {bytes : List UInt8} {cols : ℕ}
    {rows : List (List F32)} (h : IsLayer d name id bytes) :
    content d dim name = some (cols, rows) ↔ Accepts dim bytes cols rows := by
  rw [content_eq_some]
  constructor
  · intro hc
    obtain ⟨bytes', hb', ha⟩ := hc
    rw [(Prod.mk.inj (Table.eq_of_key h.1 hb' rfl)).2]
    exact ha
  · intro ha
    exact ⟨bytes, h.1, ha⟩

/-- A property of all the files that were found is one of all layer files. -/
theorem forall_discovered {P : String → Prop} :
    (∀ lf ∈ (discoverLayerFiles sorting names.1).1, P lf.name) ↔
      ∀ name id bytes, IsLayer d name id bytes → P name := by
  constructor
  · intro h name id bytes hl
    exact h ⟨id, name⟩ (mem_discovered.mpr ⟨bytes, hl⟩)
  · intro h lf hlf
    obtain ⟨bytes, hl⟩ := mem_discovered.mp hlf
    exact h _ _ _ hl

theorem structural_iff {dim : ℕ} :
    (∀ lf ∈ (discoverLayerFiles sorting names.1).1, (content d dim lf.name).isSome = true) ↔
      ∀ name id bytes, IsLayer d name id bytes → ∃ cols rows, Accepts dim bytes cols rows := by
  rw [forall_discovered (P := fun name => (content d dim name).isSome = true)]
  apply forall_congr'; intro name
  apply forall_congr'; intro id
  apply forall_congr'; intro bytes
  apply imp_congr_right
  intro hl
  rw [Option.isSome_iff_exists]
  constructor
  · intro h
    obtain ⟨p, hp⟩ := h
    exact ⟨p.1, p.2, (content_iff hl).mp hp⟩
  · intro h
    obtain ⟨cols, rows, ha⟩ := h
    exact ⟨(cols, rows), (content_iff hl).mpr ha⟩

theorem rows_iff {dim : ℕ} {P : List (List F32) → Prop} :
    (∀ lf ∈ (discoverLayerFiles sorting names.1).1, ∀ p, content d dim lf.name = some p → P p.2) ↔
      EveryAccepted d dim P := by
  rw [forall_discovered (P := fun name => ∀ p, content d dim name = some p → P p.2)]
  constructor
  · intro h name id bytes cols rows hl ha
    exact h name id bytes hl (cols, rows) ((content_iff hl).mpr ha)
  · intro h name id bytes hl p hp
    exact h name id bytes p.1 p.2 hl ((content_iff hl).mp hp)

theorem common_iff {dim : ℕ} :
    ((((discoverLayerFiles sorting names.1).1.filterMap fun lf =>
        (content d dim lf.name).map Prod.fst).foldl dimStep (0, true)).2 = true) ↔
      ∀ name id bytes cols rows name' id' bytes' cols' rows',
        IsLayer d name id bytes → Accepts dim bytes cols rows →
        IsLayer d name' id' bytes' → Accepts dim bytes' cols' rows' → cols = cols' := by
  have hmem : ∀ c, (c ∈ (discoverLayerFiles sorting names.1).1.filterMap fun lf =>
      (content d dim lf.name).map Prod.fst) ↔
      ∃ name id bytes rows, IsLayer d name id bytes ∧ Accepts dim bytes c rows := by
    intro c
    rw [List.mem_filterMap]
    constructor
    · intro h
      obtain ⟨lf, hlf, hc⟩ := h
      obtain ⟨p, hp, hc⟩ := Option.map_eq_some_iff.mp hc
      obtain ⟨bytes, hl⟩ := mem_discovered.mp hlf
      rw [← hc]
      exact ⟨lf.name, lf.layerId, bytes, p.2, hl, (content_iff hl).mp hp⟩
    · intro h
      obtain ⟨name, id, bytes, rows, hl, ha⟩ := h
      refine ⟨⟨id, name⟩, mem_discovered.mpr ⟨bytes, hl⟩, ?_⟩
      rw [(content_iff hl).mpr ha]
      rfl
  rw [dims_agree]
  · constructor
    · intro h name id bytes cols rows name' id' bytes' cols' rows' hl ha hl' ha'
      exact h cols ((hmem cols).mpr ⟨name, id, bytes, rows, hl, ha⟩) cols'
        ((hmem cols').mpr ⟨name', id', bytes', rows', hl', ha'⟩)
    · intro h a ha b hb
      obtain ⟨name, id, bytes, rows, hl, hacc⟩ := (hmem a).mp ha
      obtain ⟨name', id', bytes', rows', hl', hacc'⟩ := (hmem b).mp hb
      exact h _ _ _ _ _ _ _ _ _ _ hl hacc hl' hacc'
  · intro c hc
    obtain ⟨_, _, _, _, _, ha⟩ := (hmem c).mp hc
    exact ha.1.colsPos.ne'

/-- The reports say of each file whether enough rows are left in it. -/
theorem enoughRows_iff {dim minRows : ℕ} {files : List LayerFile} {reports : List FileReport}
    (h : List.Forall₂ (fun lf fr => Matches fr (content d dim lf.name)) files reports) :
    enoughRows minRows reports = true ↔
      ∀ lf ∈ files, ∀ p, content d dim lf.name = some p → minRows ≤ kept p.2 := by
  unfold enoughRows
  induction h with
  | nil => simp
  | @cons lf fr files reports hm _ ih =>
      rw [List.all_cons, Bool.and_eq_true, ih, List.forall_mem_cons, decide_eq_true_eq]
      apply and_congr_left
      intro _
      cases hc : content d dim lf.name with
      | none =>
          rw [hc] at hm
          have hs : fr.status ≠ .ok := fun he => by cases hm.status.mp he
          exact iff_of_true (Or.inl hs) (fun p hp => by cases hp)
      | some p =>
          rw [hc] at hm
          obtain ⟨ho, -, hr⟩ := hm.rows p rfl
          have hle := kept_le p.2
          rw [ho, hr]
          constructor
          · intro he q hq
            rw [← Option.some.inj hq]
            rcases he with he | he
            · exact absurd (hm.status.mpr rfl) he
            · omega
          · intro he
            right
            have := he p rfl
            omega

theorem rowsPass_iff (rows : List (List F32)) :
    rows.length - kept rows = 0 ↔ ∀ row ∈ rows, finiteRow row = true := by
  have hle := kept_le rows
  rw [← List.filter_eq_self]
  unfold kept at *
  constructor
  · intro h
    exact List.filter_sublist.eq_of_length (by omega)
  · intro h
    rw [h]
    exact Nat.sub_self _

/-- Files the structural check accepts, by name. -/
def AcceptedName (d : Dir) (dim : ℕ) (name : String) : Prop :=
  ∃ id bytes cols rows, IsLayer d name id bytes ∧ Accepts dim bytes cols rows

/-- An accepted layer file with a row to drop. -/
def Rewritten (d : Dir) (dim : ℕ) (layer : String) : Prop :=
  ∃ id bytes cols rows, IsLayer d layer id bytes ∧ Accepts dim bytes cols rows ∧
    ∃ row ∈ rows, finiteRow row = false

/-- What validation says and leaves, whatever the policy. -/
structure Validated (d : Dir) (policy : NonFinitePolicy) (expectedLayers : ℤ)
    (dim minRows : ℕ) (rep : DirReport) (e : Dir) : Prop where
  valid : rep.valid = true ↔
    Sound d expectedLayers dim ∧ EveryAccepted d dim (RowsPass policy minRows)
  reports : ∀ fr ∈ rep.files, fr.rowsObserved = fr.rowsAccepted + fr.rowsRejected
  reject : policy = .reject → e = d
  clean : policy = .dropRow → ∀ name id bytes cols rows, IsLayer d name id bytes →
    Accepts dim bytes cols rows → e.find name = some (layerBytes cols (rows.filter finiteRow))
  others : ∀ name, ¬ AcceptedName d dim name →
    (∀ layer, Rewritten d dim layer → name ≠ layer ++ ".tmp") → e.find name = d.find name
  renamed : policy = .dropRow → ∀ layer, Rewritten d dim layer →
    e.find (layer ++ ".tmp") = none

theorem Matches.rows_add {fr : FileReport} {c : Option (ℕ × List (List F32))}
    (h : Matches fr c) : fr.rowsObserved = fr.rowsAccepted + fr.rowsRejected := by
  cases c with
  | none =>
      obtain ⟨h₁, h₂, h₃⟩ := h.none rfl
      omega
  | some p =>
      obtain ⟨h₁, h₂, h₃⟩ := h.rows p rfl
      have hle := kept_le p.2
      omega

theorem dropped_iff (rows : List (List F32)) :
    rows.length - kept rows > 0 ↔ ∃ row ∈ rows, finiteRow row = false := by
  rw [gt_iff_lt, Nat.pos_iff_ne_zero, ne_eq, rowsPass_iff]
  simp

/-- The policy rewrites the files that have a row to drop. -/
theorem rewrites_iff {dim : ℕ} {policy : NonFinitePolicy} {name : String} {id : ℕ}
    {bytes : List UInt8} (hl : IsLayer d name id bytes) :
    Rewrites policy (content d dim name) ↔ policy = .dropRow ∧ Rewritten d dim name := by
  unfold Rewrites Rewritten
  apply and_congr_right
  intro _
  constructor
  · rintro ⟨p, hp, hk⟩
    exact ⟨id, bytes, p.1, p.2, hl, (content_iff hl).mp hp, (dropped_iff p.2).mp hk⟩
  · rintro ⟨id', bytes', cols, rows, hl', ha, hrow⟩
    exact ⟨(cols, rows), (content_iff hl').mpr ha, (dropped_iff rows).mpr hrow⟩

/-- What the last part of the gate asks for. -/
def RowsGate (policy : NonFinitePolicy) (minRows : ℕ) (s : State) : Prop :=
  match policy with
  | .reject => s.rep.totalRowsRejected = 0
  | .dropRow => enoughRows minRows s.rep.files = true

/-- The final gate asks for what the loop found. -/
theorem finish_valid (policy : NonFinitePolicy) (minRows : ℕ) (s : State) :
    (finish policy minRows s).valid = true ↔
      s.structuralOk = true ∧ s.rep.dimConsistent = true ∧ s.rep.missingLayers = [] ∧
        s.rep.duplicateLayers = [] ∧ RowsGate policy minRows s := by
  obtain ⟨h₁, h₂, -, h₄, h₅, h₆⟩ :=
    withError_other s.rep "inconsistent dimensions across layers"
  unfold finish RowsGate
  cases policy <;> by_cases hd : s.rep.dimConsistent = true <;>
    simp [hd, h₁, h₂, h₄, h₅, h₆, and_assoc]

theorem finish_files (policy : NonFinitePolicy) (minRows : ℕ) (s : State) :
    (finish policy minRows s).files = s.rep.files := by
  unfold finish
  dsimp only
  split_ifs
  · rfl
  · exact (withError_other s.rep _).2.2.2.2.2

/-- Validation runs to its end, and says and leaves what it should. -/
theorem validateDir_spec (sorting : SortById) (d : Dir) (names : Listing d)
    (policy : NonFinitePolicy) (expectedLayers : ℤ) (dim minRows : ℕ)
    (hfit : ∀ name id bytes, IsLayer d name id bytes → Fits bytes) :
    ∃ rep e, validateDir sorting d names policy expectedLayers dim minRows = .ok (rep, e) ∧
      Validated d policy expectedLayers dim minRows rep e := by
  have hready := @ready sorting d names hfit
  have hmem := @mem_discovered sorting d names
  have hmissing := @missing_eq_nil sorting d names expectedLayers
  have hdups := @duplicates_eq_nil sorting d names
  have hstruct := @structural_iff sorting d names dim
  have hcommon := @common_iff sorting d names dim
  have hrows := @rows_iff sorting d names dim
  unfold validateDir
  rcases hdis : discoverLayerFiles sorting names.1 with ⟨files, duplicates⟩
  rw [hdis] at hready hmem hmissing hdups hstruct hcommon hrows
  dsimp only at hready hmem hmissing hdups hstruct hcommon hrows
  cases files with
  | nil =>
      have hno : ∀ name id bytes, ¬ IsLayer d name id bytes := by
        intro name id bytes hl
        cases (@hmem ⟨id, name⟩).mpr ⟨bytes, hl⟩
      refine ⟨_, d, rfl, ?_⟩
      constructor
      · apply iff_of_false
        · exact Bool.false_ne_true
        · intro h
          obtain ⟨name, id, bytes, hl⟩ := h.1.inhabited
          exact hno _ _ _ hl
      · intro fr hfr
        cases hfr
      · intro _
        rfl
      · intro _ name id bytes cols rows hl
        exact absurd hl (hno _ _ _)
      · intro _ _ _
        rfl
      · rintro _ layer ⟨id, bytes, _, _, hl, _⟩
        exact absurd hl (hno _ _ _)
  | cons lf rest =>
      have hlayer : ∃ name id bytes, IsLayer d name id bytes := by
        obtain ⟨bytes, hl⟩ := hmem.mp List.mem_cons_self
        exact ⟨_, _, _, hl⟩
      obtain ⟨t, ht, ha⟩ := visitAll policy dim (s := ⟨d, DirReport.start policy expectedLayers
        dim (missingOf expectedLayers (lf :: rest)) duplicates, true⟩) hready
      obtain ⟨reports, hreports, hall⟩ := ha.reports
      have hrep : t.rep.files = reports := hreports
      refine ⟨finish policy minRows t, t.dir, ?_, ?_⟩
      · dsimp only
        rw [ht]
        rfl
      constructor
      · rw [finish_valid, ha.structural, ha.missing, ha.duplicates]
        have hdims := congrArg Prod.snd ha.dims
        dsimp only [DirReport.start] at hdims ⊢
        have hpass : RowsGate policy minRows t ↔
            EveryAccepted d dim (RowsPass policy minRows) := by
          rw [← hrows]
          unfold RowsGate
          cases policy with
          | reject =>
              dsimp only
              rw [ha.rejected]
              constructor
              · intro h g hg p hp
                exact (rowsPass_iff p.2).mp (h.2 g hg p hp)
              · intro h
                exact ⟨rfl, fun g hg p hp => (rowsPass_iff p.2).mpr (h g hg p hp)⟩
          | dropRow =>
              dsimp only
              rw [hrep]
              exact enoughRows_iff hall
        rw [hpass, hdims, hmissing, hdups, hstruct, hcommon]
        constructor
        · intro ⟨⟨_, h₁⟩, h₂, h₃, h₄, h₅⟩
          exact ⟨⟨hlayer, h₁, h₂, h₄, h₃⟩, h₅⟩
        · intro ⟨h, h₅⟩
          exact ⟨⟨rfl, h.structural⟩, h.common, h.present, h.distinct, h₅⟩
      · intro fr hfr
        rw [finish_files, hrep] at hfr
        obtain ⟨i, hi⟩ := List.mem_iff_getElem?.mp hfr
        have hlen := hall.length_eq
        have hlt : i < reports.length := (List.getElem?_eq_some_iff.mp hi).1
        have hm := (List.forall₂_iff_get.mp hall).2 i (by omega) hlt
        rw [List.get_eq_getElem, List.get_eq_getElem] at hm
        rw [← (List.getElem?_eq_some_iff.mp hi).2]
        exact Matches.rows_add hm
      · exact ha.reject
      · intro hp name id bytes cols rows hl hacc
        exact ha.clean hp ⟨id, name⟩ (hmem.mpr ⟨bytes, hl⟩) cols rows
          ((content_iff hl).mpr hacc)
      · intro name hnot htmp
        by_cases hl : ∃ g ∈ lf :: rest, g.name = name
        · obtain ⟨g, hg, he⟩ := hl
          obtain ⟨bytes, hgl⟩ := hmem.mp hg
          rw [← he]
          apply ha.bad g hg
          rw [Option.eq_none_iff_forall_ne_some]
          intro p hp
          apply hnot
          rw [← he]
          exact ⟨g.layerId, bytes, p.1, p.2, hgl, (content_iff hgl).mp hp⟩
        · apply ha.others name
          intro g hg
          constructor
          · intro he
            exact hl ⟨g, hg, he.symm⟩
          · intro he hrw
            obtain ⟨bytes, hgl⟩ := hmem.mp hg
            exact htmp g.name ((rewrites_iff hgl).mp hrw).2 he
      · intro hp layer hrw
        obtain ⟨id, bytes, -, -, hl, -⟩ := id hrw
        exact ha.renamed ⟨id, layer⟩ (hmem.mpr ⟨bytes, hl⟩) ((rewrites_iff hl).mpr ⟨hp, hrw⟩)

end

section
variable {d e : Dir} {expectedLayers : ℤ} {dim minRows : ℕ} {rep : DirReport}

/-- A layer file after the rewrite is an accepted one that was cleaned, or as it was. -/
theorem Validated.layer_cases (h : Validated d .dropRow expectedLayers dim minRows rep e)
    {name : String} {id : ℕ} {bytes : List UInt8} (hl : IsLayer e name id bytes) :
    (∃ old cols rows, IsLayer d name id old ∧ Accepts dim old cols rows ∧
      bytes = layerBytes cols (rows.filter finiteRow)) ∨
    IsLayer d name id bytes ∧ ¬ AcceptedName d dim name := by
  have hfind := Table.find_eq_some.mpr hl.1
  by_cases hacc : AcceptedName d dim name
  · left
    obtain ⟨id', old, cols, rows, hold, ha⟩ := hacc
    have hid : id' = id := Option.some.inj (hold.2.symm.trans hl.2)
    rw [hid] at hold
    rw [h.clean rfl name id old cols rows hold ha] at hfind
    exact ⟨old, cols, rows, hold, ha, (Option.some.inj hfind).symm⟩
  · right
    have htmp : ∀ layer, Rewritten d dim layer → name ≠ layer ++ ".tmp" := by
      intro layer _ hn
      have hid := hl.2
      rw [hn, layerIdOf_tmp] at hid
      cases hid
    rw [h.others name hacc htmp, Table.find_eq_some] at hfind
    exact ⟨⟨hfind, hl.2⟩, hacc⟩

theorem Validated.fits (h : Validated d .dropRow expectedLayers dim minRows rep e)
    (hfit : ∀ name id bytes, IsLayer d name id bytes → Fits bytes) (name : String) (id : ℕ)
    (bytes : List UInt8) (hl : IsLayer e name id bytes) : Fits bytes := by
  rcases h.layer_cases hl with ⟨old, cols, rows, hold, ha, hb⟩ | ⟨hold, -⟩
  · rw [hb]
    exact ha.1.fits_filter (hfit name id old hold)
  · exact hfit name id bytes hold

theorem Validated.layer_after (h : Validated d .dropRow expectedLayers dim minRows rep e)
    {name : String} {id : ℕ} {old : List UInt8} {cols : ℕ} {rows : List (List F32)}
    (hold : IsLayer d name id old) (ha : Accepts dim old cols rows) :
    IsLayer e name id (layerBytes cols (rows.filter finiteRow)) :=
  ⟨Table.find_eq_some.mp (h.clean rfl name id old cols rows hold ha), hold.2⟩

/-- A sound directory whose files all keep a row is sound after the rewrite, and clean. -/
theorem Validated.sound_after (h : Validated d .dropRow expectedLayers dim minRows rep e)
    (hs : Sound d expectedLayers dim)
    (hk : EveryAccepted d dim fun rows => rows.filter finiteRow ≠ []) :
    Sound e expectedLayers dim ∧ EveryAccepted e dim (RowsPass .reject minRows) := by
  have hall : ∀ name id bytes, IsLayer e name id bytes → ∃ old cols rows,
      IsLayer d name id old ∧ Accepts dim old cols rows ∧
        Holds bytes cols (rows.filter finiteRow) := by
    intro name id bytes hl
    rcases h.layer_cases hl with ⟨old, cols, rows, hold, ha, hb⟩ | ⟨hold, hnot⟩
    · rw [hb]
      exact ⟨old, cols, rows, hold, ha, ha.1.filter (hk name id old cols rows hold ha)⟩
    · obtain ⟨cols, rows, ha⟩ := hs.structural name id bytes hold
      exact absurd ⟨id, bytes, cols, rows, hold, ha⟩ hnot
  refine ⟨?_, ?_⟩
  constructor
  · obtain ⟨name, id, bytes, hl⟩ := hs.inhabited
    obtain ⟨cols, rows, ha⟩ := hs.structural name id bytes hl
    exact ⟨name, id, _, h.layer_after hl ha⟩
  · intro name id bytes hl
    obtain ⟨old, cols, rows, -, ha, hh⟩ := hall name id bytes hl
    exact ⟨cols, _, hh, ha.2⟩
  · intro name id bytes cols rows name' id' bytes' cols' rows' hl ha hl' ha'
    obtain ⟨old, c, r, hold, hacc, hh⟩ := hall name id bytes hl
    obtain ⟨old', c', r', hold', hacc', hh'⟩ := hall name' id' bytes' hl'
    rw [(ha.1.unique hh).1, (ha'.1.unique hh').1]
    exact hs.common _ _ _ _ _ _ _ _ _ _ hold hacc hold' hacc'
  · intro name name' id bytes bytes' hl hl'
    obtain ⟨old, -, -, hold, -, -⟩ := hall name id bytes hl
    obtain ⟨old', -, -, hold', -, -⟩ := hall name' id bytes' hl'
    exact hs.distinct _ _ _ _ _ hold hold'
  · intro i hi
    obtain ⟨name, bytes, hl⟩ := hs.present i hi
    obtain ⟨cols, rows, ha⟩ := hs.structural name i bytes hl
    exact ⟨name, _, h.layer_after hl ha⟩
  · intro name id bytes cols rows hl ha row hrow
    obtain ⟨old, c, r, -, -, hh⟩ := hall name id bytes hl
    rw [(ha.1.unique hh).2] at hrow
    exact (List.mem_filter.mp hrow).2

/-- The files of a directory in the order of their names. -/
def sortedListing (d : Dir) : Listing d where
  val := d.entries.map Prod.fst
  property := by
    constructor
    · rw [List.Nodup, List.pairwise_map]
      exact d.ordered.imp fun h => ne_of_lt h
    · intro n
      rw [List.mem_map]
      constructor
      · intro ⟨x, hx, hn⟩
        exact ⟨x.2, hn ▸ hx⟩
      · intro ⟨b, hb⟩
        exact ⟨(n, b), hb, rfl⟩

/-- Reject mode changes no file and passes the sound directories whose scalars are all finite. -/
def RejectRight (sorting : SortById) (d : Dir) (names : Listing d) (expectedLayers : ℤ)
    (dim minRows : ℕ) : Prop :=
  ∃ rep, validateDir sorting d names .reject expectedLayers dim minRows = .ok (rep, d) ∧
    (rep.valid = true ↔ Sound d expectedLayers dim ∧
      EveryAccepted d dim fun rows => ∀ row ∈ rows, finiteRow row = true)

/-- Drop-row mode leaves each accepted layer file with its finite rows and every other file as
it was, accounts for every row, and passes only what reject mode passes next. -/
def DropRight (sorting : SortById) (d : Dir) (names : Listing d) (expectedLayers : ℤ)
    (dim minRows : ℕ) : Prop :=
  ∃ rep e, validateDir sorting d names .dropRow expectedLayers dim minRows = .ok (rep, e) ∧
    (∀ name id bytes cols rows, IsLayer d name id bytes → Accepts dim bytes cols rows →
      e.find name = some (layerBytes cols (rows.filter finiteRow))) ∧
    (∀ name, ¬ AcceptedName d dim name → e.find name = d.find name) ∧
    (∀ fr ∈ rep.files, fr.rowsObserved = fr.rowsAccepted + fr.rowsRejected) ∧
    (∀ names' : Listing e, rep.valid = true → ∃ rep',
      validateDir sorting e names' .reject expectedLayers dim minRows = .ok (rep', e) ∧
        rep'.valid = true)

/-- Some layer file has no finite row. -/
def Emptied (d : Dir) (dim : ℕ) : Prop :=
  ∃ name id bytes cols rows, IsLayer d name id bytes ∧ Accepts dim bytes cols rows ∧
    ∀ row ∈ rows, finiteRow row = false

theorem rejectRight (sorting : SortById) (d : Dir) (names : Listing d) (expectedLayers : ℤ)
    (dim minRows : ℕ) (hfit : ∀ name id bytes, IsLayer d name id bytes → Fits bytes) :
    RejectRight sorting d names expectedLayers dim minRows := by
  obtain ⟨rep, e, he, hv⟩ :=
    validateDir_spec sorting d names .reject expectedLayers dim minRows hfit
  rw [hv.reject rfl] at he
  exact ⟨rep, he, hv.valid⟩

/-- Without a bound on the rows an emptied file passes once, and is refused from then on. -/
theorem emptied_refused {sorting : SortById} {names : Listing d}
    (hfit : ∀ name id bytes, IsLayer d name id bytes → Fits bytes)
    (hs : Sound d expectedLayers dim) (hempty : Emptied d dim) :
    ∃ rep e, validateDir sorting d names .dropRow expectedLayers dim 0 = .ok (rep, e) ∧
      rep.valid = true ∧ ∀ names' : Listing e, ∃ rep',
        validateDir sorting e names' .reject expectedLayers dim 0 = .ok (rep', e) ∧
          rep'.valid = false := by
  obtain ⟨rep, e, he, hv⟩ := validateDir_spec sorting d names .dropRow expectedLayers dim 0 hfit
  obtain ⟨name, id, bytes, cols, rows, hl, ha, hno⟩ := hempty
  refine ⟨rep, e, he, hv.valid.mpr ⟨hs, ?_⟩, ?_⟩
  · intro _ _ _ _ _ _ _
    exact Nat.zero_le _
  · intro names'
    obtain ⟨rep', e', hrun, hv'⟩ := validateDir_spec sorting e names' .reject expectedLayers
      dim 0 (hv.fits hfit)
    rw [hv'.reject rfl] at hrun
    refine ⟨rep', hrun, ?_⟩
    rw [Bool.eq_false_iff]
    intro hvalid
    have hnil : rows.filter finiteRow = [] := by
      rw [List.filter_eq_nil_iff]
      intro row hrow
      rw [hno row hrow]
      exact Bool.false_ne_true
    have hafter := hv.layer_after hl ha
    rw [hnil] at hafter
    obtain ⟨cols', rows', ha'⟩ := (hv'.valid.mp hvalid).1.structural _ _ _ hafter
    exact not_holds_nil ha.1.colsWord cols' rows' ha'.1

/-- No rewrite finds a file under the name it uses on its way. -/
def TemporariesFree (d : Dir) (dim : ℕ) : Prop :=
  ∀ layer, Rewritten d dim layer → d.find (layer ++ ".tmp") = none

theorem Validated.find_eq (h : Validated d .dropRow expectedLayers dim minRows rep e) :
    (∀ name, ¬ AcceptedName d dim name → e.find name = d.find name) ↔ TemporariesFree d dim := by
  constructor
  · intro hsame layer hrw
    have hnot : ¬ AcceptedName d dim (layer ++ ".tmp") := by
      rintro ⟨id, bytes, cols, rows, hl, _⟩
      have hid := hl.2
      rw [layerIdOf_tmp] at hid
      cases hid
    rw [← hsame _ hnot]
    exact h.renamed rfl layer hrw
  · intro hfree name hnot
    by_cases htmp : ∃ layer, Rewritten d dim layer ∧ name = layer ++ ".tmp"
    · obtain ⟨layer, hrw, rfl⟩ := htmp
      rw [hfree layer hrw]
      exact h.renamed rfl layer hrw
    · apply h.others name hnot
      intro layer hrw he
      exact htmp ⟨layer, hrw, he⟩

/-- Everything holds unless an otherwise sound directory has a file without finite rows and
no file is asked to keep any, or a file to be rewritten has a `.tmp` file beside it. -/
theorem validation_right_iff (sorting : SortById) (d : Dir) (names : Listing d)
    (expectedLayers : ℤ) (dim minRows : ℕ)
    (hfit : ∀ name id bytes, IsLayer d name id bytes → Fits bytes) :
    (RejectRight sorting d names expectedLayers dim minRows ∧
      DropRight sorting d names expectedLayers dim minRows) ↔
    (¬ (Sound d expectedLayers dim ∧ minRows = 0 ∧ Emptied d dim) ∧ TemporariesFree d dim) := by
  constructor
  · intro ⟨_, rep', e', he', _, hothers, _, hagain⟩
    obtain ⟨rep₀, e₀, he₀, hv⟩ :=
      validateDir_spec sorting d names .dropRow expectedLayers dim minRows hfit
    cases he₀.symm.trans he'
    refine ⟨?_, hv.find_eq.mp hothers⟩
    intro ⟨hs, hz, hempty⟩
    subst hz
    obtain ⟨rep, e, he, hvalid, hrefused⟩ :=
      @emptied_refused d expectedLayers dim sorting names hfit hs hempty
    cases he.symm.trans he'
    obtain ⟨rep₂, hrun, hvalid₂⟩ := hagain (sortedListing e') hvalid
    obtain ⟨rep₃, hrun₃, hvalid₃⟩ := hrefused (sortedListing e')
    cases hrun.symm.trans hrun₃
    rw [hvalid₂] at hvalid₃
    cases hvalid₃
  · intro ⟨hcond, hfree⟩
    obtain ⟨rep, e, he, hv⟩ :=
      validateDir_spec sorting d names .dropRow expectedLayers dim minRows hfit
    refine ⟨rejectRight sorting d names expectedLayers dim minRows hfit, rep, e, he,
      hv.clean rfl, hv.find_eq.mpr hfree, hv.reports, ?_⟩
    intro names' hvalid
    obtain ⟨hs, hkeep⟩ := hv.valid.mp hvalid
    have hk : EveryAccepted d dim fun rows => rows.filter finiteRow ≠ [] := by
      intro name id bytes cols rows hl ha hnil
      apply hcond
      have hpass : minRows ≤ (rows.filter finiteRow).length :=
        hkeep name id bytes cols rows hl ha
      rw [hnil, List.length_nil] at hpass
      refine ⟨hs, Nat.le_zero.mp hpass, name, id, bytes, cols, rows, hl, ha, ?_⟩
      intro row hrow
      exact Bool.eq_false_iff.mpr (List.filter_eq_nil_iff.mp hnil row hrow)
    obtain ⟨rep', e', hrun, hv'⟩ := validateDir_spec sorting e names' .reject expectedLayers
      dim minRows (hv.fits hfit)
    rw [hv'.reject rfl] at hrun
    exact ⟨rep', hrun, hv'.valid.mpr (hv.sound_after hs hk)⟩

end

def byId : SortById where
  sort l := l.mergeSort fun a b => decide (a.layerId ≤ b.layerId)
  perm l := List.mergeSort_perm l _
  sorted l := by
    have h := @List.pairwise_mergeSort LayerFile (fun a b => decide (a.layerId ≤ b.layerId))
      (fun a b c => by simp only [decide_eq_true_eq]; omega)
      (fun a b => by simp only [Bool.or_eq_true, decide_eq_true_eq]; omega) l
    exact h.imp fun hab => of_decide_eq_true hab

def nanRows : List (List F32) := [[⟨0x7FC00000⟩]]

def nanDir : Dir := Table.singleton "layer-0-k.bin" (layerBytes 1 nanRows)

theorem isLayer_nanDir {name : String} {id : ℕ} {bytes : List UInt8} :
    IsLayer nanDir name id bytes ↔
      name = "layer-0-k.bin" ∧ id = 0 ∧ bytes = layerBytes 1 nanRows := by
  have hid : layerIdOf "layer-0-k.bin" = some 0 := by decide +kernel
  unfold IsLayer nanDir
  rw [Table.mem_singleton, Prod.mk.injEq]
  constructor
  · intro ⟨⟨hn, hb⟩, hl⟩
    rw [hn, hid] at hl
    exact ⟨hn, (Option.some.inj hl).symm, hb⟩
  · intro ⟨hn, hi, hb⟩
    rw [hn, hi, hb]
    exact ⟨⟨rfl, rfl⟩, hid⟩

theorem fits_nanDir (name : String) (id : ℕ) (bytes : List UInt8)
    (h : IsLayer nanDir name id bytes) : Fits bytes := by
  rw [(isLayer_nanDir.mp h).2.2]
  exact ⟨by decide +kernel, by decide +kernel⟩

theorem accepts_nanRows : Accepts 1 (layerBytes 1 nanRows) 1 nanRows := by
  refine ⟨⟨rfl, by decide, by decide, by decide, by decide, ?_⟩, fun _ => rfl⟩
  intro r hr
  rw [List.mem_singleton.mp hr]
  rfl

theorem sound_nanDir : Sound nanDir 1 1 where
  inhabited := ⟨_, _, _, isLayer_nanDir.mpr ⟨rfl, rfl, rfl⟩⟩
  structural name id bytes h := by
    rw [(isLayer_nanDir.mp h).2.2]
    exact ⟨1, nanRows, accepts_nanRows⟩
  common name id bytes cols rows name' id' bytes' cols' rows' hl ha hl' ha' := by
    rw [(isLayer_nanDir.mp hl).2.2] at ha
    rw [(isLayer_nanDir.mp hl').2.2] at ha'
    exact (ha.1.unique ha'.1).1
  distinct name name' id bytes bytes' hl hl' :=
    (isLayer_nanDir.mp hl).1.trans (isLayer_nanDir.mp hl').1.symm
  present i hi := ⟨_, _, isLayer_nanDir.mpr ⟨rfl, by omega, rfl⟩⟩

theorem emptied_nanDir : Emptied nanDir 1 := by
  refine ⟨_, _, _, _, _, isLayer_nanDir.mpr ⟨rfl, rfl, rfl⟩, accepts_nanRows, ?_⟩
  intro row hrow
  rw [List.mem_singleton.mp hrow]
  decide +kernel

theorem temporariesFree_nanDir : TemporariesFree nanDir 1 := by
  rintro layer ⟨id, bytes, cols, rows, hl, -⟩
  rw [(isLayer_nanDir.mp hl).1]
  decide +kernel

/-- Asked to keep a row, the gate does what it should. -/
theorem validation_right_nanDir :
    RejectRight byId nanDir (sortedListing nanDir) 1 1 1 ∧
      DropRight byId nanDir (sortedListing nanDir) 1 1 1 :=
  (validation_right_iff byId nanDir (sortedListing nanDir) 1 1 1 fits_nanDir).mpr
    ⟨fun h => Nat.one_ne_zero h.2.1, temporariesFree_nanDir⟩

/-- Asked to keep none, it passes the directory it has just made unacceptable. -/
theorem nanDir_valid_then_invalid :
    (∃ rep e, validateDir byId nanDir (sortedListing nanDir) .dropRow 1 1 0 = .ok (rep, e) ∧
      rep.valid = true ∧ ∀ names' : Listing e, ∃ rep',
        validateDir byId e names' .reject 1 1 0 = .ok (rep', e) ∧ rep'.valid = false) ∧
      ¬ DropRight byId nanDir (sortedListing nanDir) 1 1 0 := by
  have hwrong : ∃ rep e, validateDir byId nanDir (sortedListing nanDir) .dropRow 1 1 0 =
      .ok (rep, e) ∧ rep.valid = true ∧ ∀ names' : Listing e, ∃ rep',
        validateDir byId e names' .reject 1 1 0 = .ok (rep', e) ∧ rep'.valid = false :=
    emptied_refused fits_nanDir sound_nanDir emptied_nanDir
  refine ⟨hwrong, ?_⟩
  intro ⟨rep', e', he', _, _, _, hagain⟩
  obtain ⟨rep, e, he, hvalid, hrefused⟩ := hwrong
  cases he.symm.trans he'
  obtain ⟨rep₂, hrun, hvalid₂⟩ := hagain (sortedListing e') hvalid
  obtain ⟨rep₃, hrun₃, hvalid₃⟩ := hrefused (sortedListing e')
  cases hrun.symm.trans hrun₃
  rw [hvalid₂] at hvalid₃
  cases hvalid₃

end SlhaV2.CalibrationVerdict
