import SlhaV2.CalibrationFiles
import Mathlib.Data.List.Dedup
import Mathlib.Data.List.Forall2
import Mathlib.Data.List.Nodup

/-!
# What validation of a directory says and leaves

Each turn of the loop reads one layer file, and a rewrite touches no file but
that one and its temporary sibling, which it truncates and renames away. The
sibling's name is no layer's, so what the loop finds is what the directory held
before it began.
-/
namespace SlhaV2.CalibrationRuns
open MachineWord OrderedMap FloatingPoint Calibration CalibrationFiles

theorem layerIdOf_tmp (name : String) : layerIdOf (name ++ ".tmp") = none := by
  have hlast : ∀ n, ((name ++ ".tmp").toList.drop n).getLast? = some 'n' → False := by
    intro n h
    have hmem : ((name ++ ".tmp").toList.drop n).getLast? = (name ++ ".tmp").toList.getLast? ∨
        (name ++ ".tmp").toList.drop n = [] := by
      by_cases hn : n < (name ++ ".tmp").toList.length
      · left
        rw [List.getLast?_drop, if_neg (by omega)]
      · right
        exact List.drop_eq_nil_of_le (by omega)
    rcases hmem with he | he
    · rw [he, String.toList_append, List.getLast?_append] at h
      cases h
    · rw [he] at h
      cases h
  unfold layerIdOf
  dsimp only
  split_ifs with h₁ h₂ h₃ h₄ h₅ h₆ <;> try rfl
  exfalso
  apply hlast _ _
  · exact (name ++ ".tmp").toList.length - nameSuffix.length
  · rw [not_not.mp h₃]
    rfl

def layerFileOf (name : String) : Option LayerFile :=
  (layerIdOf name).map fun id => ⟨id, name⟩

theorem discover_found (names : List String) :
    (names.foldl discoverStep ⟨[], [], []⟩).found = names.filterMap layerFileOf ∧
      (names.foldl discoverStep ⟨[], [], []⟩).seen =
        (names.filterMap layerFileOf).map LayerFile.layerId ∧
      ((names.foldl discoverStep ⟨[], [], []⟩).duplicates = [] ↔
        ((names.filterMap layerFileOf).map LayerFile.layerId).Nodup) := by
  induction names using List.reverseRecOn with
  | nil => exact ⟨rfl, rfl, iff_of_true rfl List.nodup_nil⟩
  | append_singleton names name ih =>
      obtain ⟨h₁, h₂, h₃⟩ := ih
      rw [List.foldl_append, List.foldl_cons, List.foldl_nil, List.filterMap_append]
      unfold discoverStep layerFileOf at *
      cases hid : layerIdOf name with
      | none => simp [hid, h₁, h₂, h₃]
      | some id =>
          simp only [hid, Option.map_some, List.filterMap_cons, List.filterMap_nil, h₁, h₂,
            List.map_append, List.map_cons, List.map_nil, true_and]
          rw [List.nodup_append]
          by_cases hs : id ∈ List.map LayerFile.layerId
              (names.filterMap fun name => (layerIdOf name).map fun id => (⟨id, name⟩ : LayerFile))
          · rw [if_pos hs]
            apply iff_of_false
            · simp
            · intro hn
              exact hn.2.2 id hs id List.mem_cons_self rfl
          · rw [if_neg hs, h₃]
            constructor
            · intro hn
              refine ⟨hn, List.nodup_singleton id, ?_⟩
              intro a ha b hb
              rw [List.mem_singleton.mp hb]
              intro hab
              exact hs (hab ▸ ha)
            · intro hn
              exact hn.1

theorem mem_layerFiles {names : List String} {lf : LayerFile} :
    lf ∈ names.filterMap layerFileOf ↔ lf.name ∈ names ∧ layerIdOf lf.name = some lf.layerId := by
  rw [List.mem_filterMap]
  unfold layerFileOf
  constructor
  · intro h
    obtain ⟨name, hn, he⟩ := h
    obtain ⟨id, hid, he⟩ := Option.map_eq_some_iff.mp he
    rw [← he]
    exact ⟨hn, hid⟩
  · intro h
    exact ⟨lf.name, h.1, by rw [h.2]; rfl⟩

theorem nodup_names {names : List String} (h : names.Nodup) :
    ((names.filterMap layerFileOf).map LayerFile.name).Nodup := by
  have hsub : ((names.filterMap layerFileOf).map LayerFile.name).Sublist names := by
    clear h
    induction names with
    | nil => exact List.Sublist.slnil
    | cons name names ih =>
        rw [List.filterMap_cons]
        unfold layerFileOf at ih ⊢
        cases layerIdOf name with
        | none => exact ih.cons name
        | some id => exact ih.cons_cons name
  exact h.sublist hsub

open Classical in
/-- The matrix in a layer file the structural check accepts. -/
noncomputable def content (d : Dir) (dim : ℕ) (name : String) : Option (ℕ × List (List F32)) :=
  if h : ∃ p : ℕ × List (List F32), ∃ bytes, (name, bytes) ∈ d ∧ Holds bytes p.1 p.2 ∧
    DimOk dim p.1 then some h.choose else none

theorem content_eq_some {d : Dir} {dim : ℕ} {name : String} {cols : ℕ} {rows : List (List F32)} :
    content d dim name = some (cols, rows) ↔
      ∃ bytes, (name, bytes) ∈ d ∧ Holds bytes cols rows ∧ DimOk dim cols := by
  unfold content
  constructor
  · intro h
    split_ifs at h with hex
    have hspec := hex.choose_spec
    rw [Option.some.inj h] at hspec
    exact hspec
  · intro h
    have hex : ∃ p : ℕ × List (List F32), ∃ bytes, (name, bytes) ∈ d ∧ Holds bytes p.1 p.2 ∧
      DimOk dim p.1 := ⟨(cols, rows), h⟩
    rw [dif_pos hex]
    obtain ⟨bytes, hb, hh, -⟩ := h
    obtain ⟨bytes', hb', hh', -⟩ := hex.choose_spec
    have he := Table.eq_of_key hb hb' rfl
    rw [← (Prod.mk.inj he).2] at hh'
    obtain ⟨h₁, h₂⟩ := hh.unique hh'
    rw [Option.some.injEq]
    exact Prod.ext h₁.symm h₂.symm

/-- The content depends on the file of that name only. -/
theorem content_congr {d e : Dir} {dim : ℕ} {name : String} (h : e.find name = d.find name) :
    content e dim name = content d dim name := by
  have hmem : ∀ bytes, (name, bytes) ∈ e ↔ (name, bytes) ∈ d := by
    intro bytes
    rw [← Table.find_eq_some, ← Table.find_eq_some, h]
  apply Option.ext
  intro p
  obtain ⟨cols, rows⟩ := p
  rw [content_eq_some, content_eq_some]
  simp only [hmem]

def kept (rows : List (List F32)) : ℕ := (rows.filter finiteRow).length

/-- What a report says of a file with this content. -/
structure Matches (fr : FileReport) (c : Option (ℕ × List (List F32))) : Prop where
  status : fr.status = .ok ↔ c.isSome = true
  rows : ∀ p, c = some p → fr.rowsObserved = p.2.length ∧ fr.rowsAccepted = kept p.2 ∧
    fr.rowsRejected = p.2.length - kept p.2
  none : c = none → fr.rowsObserved = 0 ∧ fr.rowsAccepted = 0 ∧ fr.rowsRejected = 0

def dimStep (s : ℕ × Bool) (cols : ℕ) : ℕ × Bool :=
  (if s.1 = 0 then cols else s.1, if s.1 ≠ 0 ∧ s.1 ≠ cols then false else s.2)

/-- The directory after a file with this content has been visited. -/
def cleaned (policy : NonFinitePolicy) (d : Dir) (name : String) (cols : ℕ)
    (rows : List (List F32)) : Dir :=
  if policy = .dropRow ∧ rows.length - kept rows > 0 then
    replaceFile d name (layerBytes cols (rows.filter finiteRow))
  else d

/-- What one turn of the loop does. -/
structure Turn (policy : NonFinitePolicy) (lf : LayerFile) (c : Option (ℕ × List (List F32)))
    (s t : State) : Prop where
  missing : t.rep.missingLayers = s.rep.missingLayers
  duplicates : t.rep.duplicateLayers = s.rep.duplicateLayers
  structural : t.structuralOk = (s.structuralOk && c.isSome)
  dims : (t.rep.observedDim, t.rep.dimConsistent) =
    ((c.map Prod.fst).toList).foldl dimStep (s.rep.observedDim, s.rep.dimConsistent)
  rejected : t.rep.totalRowsRejected = s.rep.totalRowsRejected +
    ((c.map fun p => p.2.length - kept p.2).getD 0)
  files : ∃ fr, t.rep.files = s.rep.files ++ [fr] ∧ Matches fr c
  dir : t.dir = (c.map fun p => cleaned policy s.dir lf.name p.1 p.2).getD s.dir

theorem kept_le (rows : List (List F32)) : kept rows ≤ rows.length := List.length_filter_le _ _

theorem withError_other (rep : DirReport) (text : String) :
    (rep.withError text).missingLayers = rep.missingLayers ∧
      (rep.withError text).duplicateLayers = rep.duplicateLayers ∧
      (rep.withError text).observedDim = rep.observedDim ∧
      (rep.withError text).dimConsistent = rep.dimConsistent ∧
      (rep.withError text).totalRowsRejected = rep.totalRowsRejected ∧
      (rep.withError text).files = rep.files := by
  unfold DirReport.withError
  split_ifs
  · exact ⟨rfl, rfl, rfl, rfl, rfl, rfl⟩
  · exact ⟨rfl, rfl, rfl, rfl, rfl, rfl⟩

/-- A file that could not be read is reported and left. -/
theorem turn_error (policy : NonFinitePolicy) (s : State) (lf : LayerFile) (magic : ℕ)
    {e : FileStatus × String} (he : e.1 ≠ .ok) :
    Turn policy lf none s (visitRead policy s lf magic (.error e)) := by
  obtain ⟨status, err⟩ := e
  obtain ⟨h₁, h₂, h₃, h₄, h₅, -⟩ := withError_other s.rep ("layer " ++ toString lf.layerId ++
    ": " ++ fileStatusName status ++ " (" ++ err ++ ")")
  unfold visitRead
  dsimp only
  constructor
  · exact h₁
  · exact h₂
  · simp
  · rw [h₃, h₄]
    rfl
  · rw [h₅]
    rfl
  · refine ⟨_, rfl, ?_⟩
    constructor
    · exact iff_of_false he Bool.false_ne_true
    · intro p hp
      cases hp
    · intro _
      exact ⟨rfl, rfl, rfl⟩
  · rfl

/-- A file that could be read is counted, and cleaned if the policy says so. -/
theorem turn_ok (policy : NonFinitePolicy) (s : State) (lf : LayerFile) {bytes : List UInt8}
    {cols : ℕ} {rows : List (List F32)} (h : Holds bytes cols rows) :
    Turn policy lf (some (cols, rows)) s
      (visitRead policy s lf kCalibMagic (.ok ⟨rows.length, cols, rows.flatten⟩)) := by
  have hle := kept_le rows
  obtain ⟨hfin, hnon⟩ := h.scan
  unfold visitRead
  dsimp only
  rw [h.drop, h.write]
  by_cases hp : policy = .dropRow ∧
      (scanMatrix rows.flatten rows.length cols).nonfiniteRows > 0
  · rw [if_pos hp]
    have hclean : cleaned policy s.dir lf.name cols rows =
        replaceFile s.dir lf.name (layerBytes cols (rows.filter finiteRow)) := by
      unfold cleaned kept
      rw [← hnon, if_pos hp]
    constructor
    · rfl
    · rfl
    · exact (Bool.and_true _).symm
    · rfl
    · exact congrArg _ hnon
    · refine ⟨_, rfl, ?_⟩
      constructor
      · exact iff_of_true rfl rfl
      · intro p hp
        rw [← Option.some.inj hp]
        refine ⟨rfl, ?_, hnon⟩
        dsimp only
        rw [hnon]
        unfold kept
        unfold kept at hle
        omega
      · intro hn
        cases hn
    · exact hclean.symm
  · rw [if_neg hp]
    have hclean : cleaned policy s.dir lf.name cols rows = s.dir := by
      unfold cleaned kept
      rw [← hnon, if_neg hp]
    constructor
    · rfl
    · rfl
    · exact (Bool.and_true _).symm
    · rfl
    · exact congrArg _ hnon
    · refine ⟨_, rfl, ?_⟩
      constructor
      · exact iff_of_true rfl rfl
      · intro p hp
        rw [← Option.some.inj hp]
        exact ⟨rfl, hfin, hnon⟩
      · intro hn
        cases hn
    · exact hclean.symm

/-- Every turn over a file whose size fits a word runs to its end. -/
theorem turn (policy : NonFinitePolicy) (dim : ℕ) (s : State) (lf : LayerFile)
    {bytes : List UInt8} (hb : (lf.name, bytes) ∈ s.dir) (hf : Fits bytes) :
    ∃ t, visit policy dim s lf = .ok t ∧ Turn policy lf (content s.dir dim lf.name) s t := by
  have hfind := Table.find_eq_some.mpr hb
  unfold visit
  rw [hfind]
  rcases readCalibFile_cases hf dim with ⟨cols, rows, n, hh, hd, hr⟩ | ⟨r, hr, he, hn⟩
  · rw [hr, content_eq_some.mpr ⟨bytes, hb, hh, hd⟩]
    exact ⟨_, rfl, turn_ok policy s lf hh⟩
  · have hnone : content s.dir dim lf.name = none := by
      rw [Option.eq_none_iff_forall_ne_some]
      intro p hp
      obtain ⟨bytes', hb', hh, hd⟩ := content_eq_some.mp hp
      have hsame := Table.eq_of_key hb hb' rfl
      rw [← (Prod.mk.inj hsame).2] at hh
      exact hn _ _ hh hd
    have hm : r.matrix = .error (r.status, r.err) := if_neg he
    rw [hr, hnone]
    refine ⟨_, rfl, ?_⟩
    rw [hm]
    exact turn_error policy s lf r.magic he

/-- The policy has a file with this content rewritten. -/
def Rewrites (policy : NonFinitePolicy) (c : Option (ℕ × List (List F32))) : Prop :=
  policy = .dropRow ∧ ∃ p, c = some p ∧ p.2.length - kept p.2 > 0

theorem find_cleaned {policy : NonFinitePolicy} {d : Dir} {name n : String} {cols : ℕ}
    {rows : List (List F32)} (hn : n ≠ name)
    (ht : n = name ++ ".tmp" → ¬ Rewrites policy (some (cols, rows))) :
    (cleaned policy d name cols rows).find n = d.find n := by
  unfold cleaned
  split_ifs with hr
  · have htmp : n ≠ name ++ ".tmp" := fun he => ht he ⟨hr.1, (cols, rows), rfl, hr.2⟩
    apply Option.ext
    intro bytes
    unfold replaceFile
    rw [Table.find_eq_some, Table.find_eq_some, Table.mem_insert, Table.mem_erase]
    simp [hn, htmp]
  · rfl

theorem ne_append_tmp (name : String) : name ++ ".tmp" ≠ name := by
  intro he
  have hl := congrArg String.length he
  rw [String.length_append] at hl
  exact absurd hl (by simp)

/-- A turn leaves every file but its own and, where it rewrites, the temporary one. -/
theorem Turn.find {policy : NonFinitePolicy} {lf : LayerFile}
    {c : Option (ℕ × List (List F32))} {s t : State} (h : Turn policy lf c s t) {n : String}
    (hn : n ≠ lf.name) (ht : n = lf.name ++ ".tmp" → ¬ Rewrites policy c) :
    t.dir.find n = s.dir.find n := by
  rw [h.dir]
  cases c with
  | none => rfl
  | some p => exact find_cleaned hn ht

/-- After a rewrite nothing is left under the temporary name. -/
theorem Turn.find_tmp {policy : NonFinitePolicy} {lf : LayerFile}
    {c : Option (ℕ × List (List F32))} {s t : State} (h : Turn policy lf c s t)
    (hr : Rewrites policy c) : t.dir.find (lf.name ++ ".tmp") = none := by
  obtain ⟨hp, p, rfl, hk⟩ := hr
  rw [h.dir, Option.map_some, Option.getD_some, cleaned, if_pos ⟨hp, hk⟩,
    Table.find_eq_none]
  intro e he
  unfold replaceFile at he
  rw [Table.mem_insert, Table.mem_erase] at he
  rcases he with rfl | ⟨⟨_, hn⟩, _⟩
  · exact (ne_append_tmp lf.name).symm
  · exact hn

/-- What a turn leaves of its own file. -/
theorem Turn.find_self {policy : NonFinitePolicy} {lf : LayerFile} {dim : ℕ} {s t : State}
    (h : Turn policy lf (content s.dir dim lf.name) s t) :
    (∀ cols rows, policy = .dropRow → content s.dir dim lf.name = some (cols, rows) →
      t.dir.find lf.name = some (layerBytes cols (rows.filter finiteRow))) ∧
    (content s.dir dim lf.name = none → t.dir = s.dir) ∧
    (policy = .reject → t.dir = s.dir) := by
  refine ⟨?_, ?_, ?_⟩
  · intro cols rows hp hc
    rw [h.dir, hc]
    dsimp only [Option.map_some, Option.getD_some]
    unfold cleaned
    by_cases hr : policy = .dropRow ∧ rows.length - kept rows > 0
    · rw [if_pos hr, Table.find_eq_some]
      unfold replaceFile
      rw [Table.mem_insert]
      exact Or.inl rfl
    · have hall : rows.filter finiteRow = rows := by
        apply List.filter_sublist.eq_of_length
        have hle := kept_le rows
        unfold kept at hle hr
        by_contra hne
        exact hr ⟨hp, by omega⟩
      obtain ⟨bytes, hb, hh, -⟩ := content_eq_some.mp hc
      rw [if_neg hr, hall, ← hh.image]
      exact Table.find_eq_some.mpr hb
  · intro hc
    rw [h.dir, hc]
    rfl
  · intro hp
    rw [h.dir]
    cases content s.dir dim lf.name with
    | none => rfl
    | some p =>
        dsimp only [Option.map_some, Option.getD_some]
        unfold cleaned
        rw [hp, if_neg]
        intro hr
        cases hr.1

/-- The loop over these files can run to its end from this directory. -/
structure Ready (d : Dir) (files : List LayerFile) : Prop where
  distinct : (files.map LayerFile.name).Nodup
  present : ∀ lf ∈ files, ∃ bytes, (lf.name, bytes) ∈ d ∧ Fits bytes
  named : ∀ lf ∈ files, layerIdOf lf.name = some lf.layerId

theorem Ready.ne_tmp {d : Dir} {files : List LayerFile} (h : Ready d files) {a b : LayerFile}
    (ha : a ∈ files) : a.name ≠ b.name ++ ".tmp" := by
  intro he
  have hid := h.named a ha
  rw [he, layerIdOf_tmp] at hid
  cases hid

/-- What the whole loop does, in terms of the directory before it. -/
structure After (policy : NonFinitePolicy) (dim : ℕ) (files : List LayerFile) (s t : State) :
    Prop where
  missing : t.rep.missingLayers = s.rep.missingLayers
  duplicates : t.rep.duplicateLayers = s.rep.duplicateLayers
  structural : t.structuralOk = true ↔ s.structuralOk = true ∧
    ∀ lf ∈ files, (content s.dir dim lf.name).isSome = true
  dims : (t.rep.observedDim, t.rep.dimConsistent) =
    (files.filterMap fun lf => (content s.dir dim lf.name).map Prod.fst).foldl dimStep
      (s.rep.observedDim, s.rep.dimConsistent)
  rejected : t.rep.totalRowsRejected = 0 ↔ s.rep.totalRowsRejected = 0 ∧
    ∀ lf ∈ files, ∀ p, content s.dir dim lf.name = some p → p.2.length - kept p.2 = 0
  reports : ∃ reports, t.rep.files = s.rep.files ++ reports ∧
    List.Forall₂ (fun lf fr => Matches fr (content s.dir dim lf.name)) files reports
  others : ∀ n, (∀ lf ∈ files, n ≠ lf.name ∧
    (n = lf.name ++ ".tmp" → ¬ Rewrites policy (content s.dir dim lf.name))) →
    t.dir.find n = s.dir.find n
  renamed : ∀ lf ∈ files, Rewrites policy (content s.dir dim lf.name) →
    t.dir.find (lf.name ++ ".tmp") = none
  clean : policy = .dropRow → ∀ lf ∈ files, ∀ cols rows,
    content s.dir dim lf.name = some (cols, rows) →
      t.dir.find lf.name = some (layerBytes cols (rows.filter finiteRow))
  bad : ∀ lf ∈ files, content s.dir dim lf.name = none →
    t.dir.find lf.name = s.dir.find lf.name
  reject : policy = .reject → t.dir = s.dir

theorem After.nil (policy : NonFinitePolicy) (dim : ℕ) (s : State) : After policy dim [] s s where
  missing := rfl
  duplicates := rfl
  structural := by simp
  dims := rfl
  rejected := by simp
  reports := ⟨[], by simp, List.Forall₂.nil⟩
  others n _ := rfl
  renamed lf h := by cases h
  clean _ lf h := by cases h
  bad lf h := by cases h
  reject _ := rfl

/-- The first turn and the rest make the loop. -/
theorem After.cons {policy : NonFinitePolicy} {dim : ℕ} {lf : LayerFile}
    {files : List LayerFile} {s u t : State} (hr : Ready s.dir (lf :: files))
    (h : Turn policy lf (content s.dir dim lf.name) s u) (ha : After policy dim files u t) :
    After policy dim (lf :: files) s t := by
  have hnd := hr.distinct
  rw [List.map_cons, List.nodup_cons] at hnd
  have hne : ∀ g ∈ files, g.name ≠ lf.name := by
    intro g hg he
    apply hnd.1
    rw [← he]
    exact List.mem_map_of_mem hg
  have hfind : ∀ g ∈ files, u.dir.find g.name = s.dir.find g.name := by
    intro g hg
    exact h.find (hne g hg) fun he => absurd he (hr.ne_tmp (List.mem_cons_of_mem lf hg))
  have hcont : ∀ g ∈ files, content u.dir dim g.name = content s.dir dim g.name :=
    fun g hg => content_congr (hfind g hg)
  have hlf : ∀ g ∈ files, lf.name ≠ g.name ∧
      (lf.name = g.name ++ ".tmp" → ¬ Rewrites policy (content u.dir dim g.name)) :=
    fun g hg => ⟨(hne g hg).symm, fun he => absurd he (hr.ne_tmp List.mem_cons_self)⟩
  have hself := h.find_self
  constructor
  · rw [ha.missing, h.missing]
  · rw [ha.duplicates, h.duplicates]
  · rw [ha.structural, h.structural, Bool.and_eq_true, List.forall_mem_cons, and_assoc]
    apply and_congr_right
    intro _
    apply and_congr_right
    intro _
    exact forall₂_congr fun g hg => by rw [hcont g hg]
  · rw [ha.dims, h.dims, ← List.foldl_append]
    congr 1
    rw [List.filterMap_cons, List.filterMap_congr fun g hg => by rw [hcont g hg]]
    cases content s.dir dim lf.name with
    | none => rfl
    | some p => rfl
  · rw [ha.rejected, h.rejected, List.forall_mem_cons, Nat.add_eq_zero_iff, and_assoc]
    apply and_congr_right
    intro _
    apply and_congr
    · cases content s.dir dim lf.name with
      | none => simp
      | some p => simp
    · exact forall₂_congr fun g hg => by rw [hcont g hg]
  · obtain ⟨fr, hfr, hm⟩ := h.files
    obtain ⟨reports, hrep, hall⟩ := ha.reports
    refine ⟨fr :: reports, ?_, List.Forall₂.cons hm ?_⟩
    · rw [hrep, hfr, List.append_assoc, List.singleton_append]
    · apply List.Forall₂.imp _ ((List.forall₂_and_left files reports).mpr ⟨hcont, hall⟩)
      intro g fr hg
      rw [← hg.1]
      exact hg.2
  · intro n hn
    rw [List.forall_mem_cons] at hn
    rw [ha.others n fun g hg => by rw [hcont g hg]; exact hn.2 g hg]
    exact h.find hn.1.1 hn.1.2
  · intro g hg hrw
    rcases List.mem_cons.mp hg with rfl | hg
    · rw [ha.others, h.find_tmp hrw]
      intro f hf
      refine ⟨fun he => hr.ne_tmp (List.mem_cons_of_mem g hf) he.symm, ?_⟩
      intro he
      exact absurd ((String.append_left_inj ".tmp").mp he).symm (hne f hf)
    · rw [← hcont g hg] at hrw
      exact ha.renamed g hg hrw
  · intro hp g hg cols rows hc
    cases List.mem_cons.mp hg with
    | inl he =>
        rw [he] at hc ⊢
        rw [ha.others lf.name hlf]
        exact hself.1 cols rows hp hc
    | inr hg =>
        rw [← hcont g hg] at hc
        exact ha.clean hp g hg cols rows hc
  · intro g hg hc
    cases List.mem_cons.mp hg with
    | inl he =>
        rw [he] at hc ⊢
        rw [ha.others lf.name hlf, hself.2.1 hc]
    | inr hg =>
        rw [← hcont g hg] at hc
        rw [ha.bad g hg hc]
        exact hfind g hg
  · intro hp
    rw [ha.reject hp]
    exact hself.2.2 hp

/-- The loop runs to its end. -/
theorem visitAll (policy : NonFinitePolicy) (dim : ℕ) {files : List LayerFile} {s : State}
    (hr : Ready s.dir files) :
    ∃ t, files.foldlM (visit policy dim) s = .ok t ∧ After policy dim files s t := by
  induction files generalizing s with
  | nil => exact ⟨s, rfl, After.nil policy dim s⟩
  | cons lf files ih =>
      obtain ⟨bytes, hb, hf⟩ := hr.present lf List.mem_cons_self
      obtain ⟨u, hu, hturn⟩ := turn policy dim s lf hb hf
      have hnd := hr.distinct
      rw [List.map_cons, List.nodup_cons] at hnd
      have hrest : Ready u.dir files := by
        constructor
        · exact hnd.2
        · intro g hg
          obtain ⟨bytes, hb, hf⟩ := hr.present g (List.mem_cons_of_mem lf hg)
          refine ⟨bytes, ?_, hf⟩
          have hne : g.name ≠ lf.name := by
            intro he
            apply hnd.1
            rw [← he]
            exact List.mem_map_of_mem hg
          rw [← Table.find_eq_some,
            hturn.find hne fun he => absurd he (hr.ne_tmp (List.mem_cons_of_mem lf hg)),
            Table.find_eq_some]
          exact hb
        · intro g hg
          exact hr.named g (List.mem_cons_of_mem lf hg)
      obtain ⟨t, ht, hafter⟩ := ih hrest
      refine ⟨t, ?_, After.cons hr hturn hafter⟩
      rw [List.foldlM_cons, hu]
      exact ht

end SlhaV2.CalibrationRuns
