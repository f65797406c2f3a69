import SlhaV2.RankCollector

/-!
# What the calls record, and what is read back

A recording keeps the accepted rows of a layer in order, and for each chunk the
block last given for it. The collector's columns are its image. A written file
reads back as the recording exactly when every row's chunk has a block with
enough keys, the blocks have keys of one width, and their scalars are finite.
-/
namespace SlhaV2.RankDataset
open MachineWord ByteBuffer OrderedMap FloatingPoint CalibrationFiles
open Calibration (scalarBytes)
open RankReader RankFormat RankCollector

instance (xs : List F32) : Decidable (AllFinite xs) :=
  inferInstanceAs (Decidable (∀ x ∈ xs, x.isFinite = true))

/-- A row with a query and scores for at least one key, all finite. -/
structure Row where
  head : Int32
  gqaGroup : Int32
  token : Int64
  chunk : ℕ
  q : List F32
  b : List F32
  s : List F32
  positive : 0 < q.length ∧ 0 < b.length
  paired : s.length = b.length
  finite : AllFinite q ∧ AllFinite b ∧ AllFinite s

/-- A matrix of keys. -/
structure Block where
  nRows : ℕ
  dim : ℕ
  data : List F32
  positive : 0 < nRows ∧ 0 < dim
  size : data.length = nRows * dim

/-- The recording of one layer. -/
structure Recorded where
  rows : List Row := []
  slots : ℕ := 0
  blocks : ℕ → Option Block := fun _ => none
  keyDim : ℕ := 0

/-- The width of the queries, that of the first row. -/
def Recorded.qDim (rec : Recorded) : ℕ :=
  match rec.rows with
  | [] => 0
  | r :: _ => r.q.length

structure History where
  on : Bool := false
  chunk : ℕ := 0
  layers : ℤ → Recorded := fun _ => {}

/-- A row can be recorded: it is not empty and its scalars are finite. -/
def Sound (q : ℕ → F32) (qDim : ℕ) (b s : ℕ → F32) (nVisible : ℕ) : Prop :=
  (0 < qDim ∧ 0 < nVisible) ∧
    AllFinite (view q qDim) ∧ AllFinite (view b nVisible) ∧ AllFinite (view s nVisible)

instance (q : ℕ → F32) (qDim : ℕ) (b s : ℕ → F32) (nVisible : ℕ) :
    Decidable (Sound q qDim b s nVisible) :=
  inferInstanceAs (Decidable (_ ∧ _))

@[simp] theorem length_view (p : ℕ → F32) (n : ℕ) : (view p n).length = n := by
  unfold view
  rw [List.length_map, List.length_range]

def rowOf (head gqaGroup : Int32) (token : Int64) (chunk : ℕ) {q : ℕ → F32} {qDim : ℕ}
    {b s : ℕ → F32} {nVisible : ℕ} (h : Sound q qDim b s nVisible) : Row where
  head := head
  gqaGroup := gqaGroup
  token := token
  chunk := chunk
  q := view q qDim
  b := view b nVisible
  s := view s nVisible
  positive := by
    rw [length_view, length_view]
    exact h.1
  paired := by rw [length_view, length_view]
  finite := h.2

def blockOf (rows : ℕ → F32) {nRows dim : ℕ} (h : 0 < nRows ∧ 0 < dim) : Block where
  nRows := nRows
  dim := dim
  data := view rows (nRows * dim)
  positive := h
  size := length_view rows _

/-- The first row sets the width of the queries; others of another width are refused. -/
def Recorded.addRow (rec : Recorded) (row : Row) : Recorded :=
  if rec.rows = [] ∨ rec.qDim = row.q.length then { rec with rows := rec.rows ++ [row] } else rec

def Recorded.addKeys (rec : Recorded) (chunk : ℕ) (block : Block) : Recorded :=
  { rec with
    slots := max rec.slots (chunk + 1)
    blocks := Function.update rec.blocks chunk (some block)
    keyDim := block.dim }

def History.update (h : History) (layer : ℤ) (rec : Recorded) : History :=
  { h with layers := Function.update h.layers layer rec }

/-- What a call records. -/
def record (h : History) : Call → History
  | .enable none => { h with on := false }
  | .enable (some dir) => { h with on := dir ≠ "" }
  | .beginChunk => if h.on then { h with chunk := h.chunk + 1 } else h
  | .addRow layer head gqaGroup t q qDim b s nVisible =>
      if hs : h.on = true ∧ Sound q qDim b s nVisible then
        h.update layer ((h.layers layer).addRow (rowOf head gqaGroup t h.chunk hs.2))
      else h
  | .addKeys _ none _ _ => h
  | .addKeys layer (some rows) nRows dim =>
      if hs : h.on = true ∧ 0 < nRows ∧ 0 < dim then
        h.update layer ((h.layers layer).addKeys h.chunk (blockOf rows hs.2))
      else h

/-- What the calls recorded for the layer. -/
def recorded (calls : List Call) (layer : ℤ) : Recorded :=
  (calls.foldl record {}).layers layer

/-- The scalars of a chunk's block; a chunk without one has none. -/
def Recorded.data (rec : Recorded) (c : ℕ) : List F32 :=
  match rec.blocks c with
  | some block => block.data
  | none => []

def Recorded.count (rec : Recorded) (c : ℕ) : ℕ :=
  match rec.blocks c with
  | some block => block.nRows
  | none => 0

/-- The recording as the reader should return it. -/
def asRead (layer : ℤ) (rec : Recorded) : LayerRows where
  layer := (layer % 2 ^ 32).toNat
  qDim := rec.qDim
  keyDim := rec.keyDim
  rows := rec.rows.length
  heads := rec.rows.map Row.head
  gqaGroups := rec.rows.map Row.gqaGroup
  tokens := rec.rows.map Row.token
  nVisible := rec.rows.map fun r => r.b.length
  chunks := rec.rows.map Row.chunk
  q := rec.rows.flatMap Row.q
  baseline := rec.rows.flatMap Row.b
  controlScores := rec.rows.flatMap Row.s
  keys := (List.range rec.slots).map rec.data
  starts := (rec.rows.map fun r => r.b.length).scanl (· + ·) 0

/-- Every row finds its keys, the keys have one width, and their scalars are finite. -/
structure Readable (rec : Recorded) : Prop where
  rows : ∀ r ∈ rec.rows, ∃ block, rec.blocks r.chunk = some block ∧ r.b.length ≤ block.nRows
  width : ∀ c c' block block', rec.blocks c = some block → rec.blocks c' = some block' →
    block.dim = block'.dim
  finite : ∀ c block, rec.blocks c = some block → AllFinite block.data

/-- The columns of a layer are the image of its recording. -/
structure Images (L : LayerData) (rec : Recorded) : Prop where
  head : L.head = rec.rows.map Row.head
  gqaGroup : L.gqaGroup = rec.rows.map Row.gqaGroup
  token : L.token = rec.rows.map Row.token
  nVisible : L.nVisible = rec.rows.map fun r => Int32.ofNat r.b.length
  chunk : L.chunk = rec.rows.map fun r => Int32.ofNat r.chunk
  q : L.q = rec.rows.flatMap Row.q
  b : L.b = rec.rows.flatMap Row.b
  s : L.s = rec.rows.flatMap Row.s
  rows : L.rows = rec.rows.length
  qDim : L.qDim = rec.qDim
  queries : ∀ r ∈ rec.rows, r.q.length = rec.qDim
  keys : L.keys = (List.range rec.slots).map rec.data
  keyRows : L.keyRows = (List.range rec.slots).map rec.count
  keyDim : L.keyDim = rec.keyDim
  bounded : ∀ c block, rec.blocks c = some block → c < rec.slots
  last : 0 < rec.slots → ∃ c block, rec.blocks c = some block ∧ block.dim = rec.keyDim

theorem images_empty : Images {} {} := by
  constructor <;> simp [Recorded.qDim]

theorem Images.rejected {L : LayerData} {rec : Recorded} (h : Images L rec) (n : ℕ) :
    Images { L with rejectedNonfinite := n } rec :=
  ⟨h.head, h.gqaGroup, h.token, h.nVisible, h.chunk, h.q, h.b, h.s, h.rows, h.qDim, h.queries,
    h.keys, h.keyRows, h.keyDim, h.bounded, h.last⟩

theorem qDim_eq_zero {rec : Recorded} : rec.qDim = 0 ↔ rec.rows = [] := by
  unfold Recorded.qDim
  cases hr : rec.rows with
  | nil => simp
  | cons r rs =>
      have hpos := r.positive.1
      simp only [reduceCtorEq, iff_false]
      omega

theorem addRow_of_accepts {rec : Recorded} {row : Row}
    (h : rec.rows = [] ∨ rec.qDim = row.q.length) :
    rec.addRow row = { rec with rows := rec.rows ++ [row] } := if_pos h

theorem qDim_addRow {rec : Recorded} {row : Row} (h : rec.rows = [] ∨ rec.qDim = row.q.length) :
    (rec.addRow row).qDim = row.q.length := by
  rw [addRow_of_accepts h]
  unfold Recorded.qDim at h ⊢
  cases hr : rec.rows with
  | nil => rfl
  | cons r rs =>
      rw [hr] at h
      rcases h with h | h
      · cases h
      · exact h

/-- The columns with a row at their ends. -/
def appendRow (L : LayerData) (row : Row) : LayerData :=
  { L with
    head := L.head ++ [row.head]
    gqaGroup := L.gqaGroup ++ [row.gqaGroup]
    token := L.token ++ [row.token]
    nVisible := L.nVisible ++ [Int32.ofNat row.b.length]
    chunk := L.chunk ++ [Int32.ofNat row.chunk]
    q := L.q ++ row.q
    b := L.b ++ row.b
    s := L.s ++ row.s
    qDim := row.q.length
    rows := L.rows + 1 }

theorem Images.appendRow {L : LayerData} {rec : Recorded} (h : Images L rec) {row : Row}
    (hw : rec.rows = [] ∨ rec.qDim = row.q.length) :
    Images (appendRow L row) (rec.addRow row) := by
  have hq := qDim_addRow hw
  rw [addRow_of_accepts hw] at hq ⊢
  unfold RankDataset.appendRow
  constructor
  · rw [h.head, List.map_append, List.map_singleton]
  · rw [h.gqaGroup, List.map_append, List.map_singleton]
  · rw [h.token, List.map_append, List.map_singleton]
  · rw [h.nVisible, List.map_append, List.map_singleton]
  · rw [h.chunk, List.map_append, List.map_singleton]
  · rw [h.q, List.flatMap_append, List.flatMap_singleton]
  · rw [h.b, List.flatMap_append, List.flatMap_singleton]
  · rw [h.s, List.flatMap_append, List.flatMap_singleton]
  · rw [h.rows, List.length_append, List.length_singleton]
  · exact hq.symm
  · intro r hr
    rw [hq]
    rcases List.mem_append.mp hr with hr | hr
    · have hne : rec.rows ≠ [] := List.ne_nil_of_mem hr
      rw [h.queries r hr]
      exact hw.resolve_left hne
    · rw [List.mem_singleton.mp hr]
  · exact h.keys
  · exact h.keyRows
  · exact h.keyDim
  · exact h.bounded
  · exact h.last

theorem length_resize {α : Type} (xs : List α) (n : ℕ) (x : α) : (resize xs n x).length = n := by
  unfold resize
  rw [List.length_append, List.length_take, List.length_replicate]
  omega

/-- Growing a table of values, and setting one of them. -/
theorem set_resize_range {α : Type} {f g : ℕ → α} {n c : ℕ} {x d : α} (hx : g c = x)
    (hf : ∀ i, i ≠ c → g i = f i) (hd : ∀ i, n ≤ i → f i = d) :
    (if n ≤ c then resize ((List.range n).map f) (c + 1) d else (List.range n).map f).set c x =
      (List.range (max n (c + 1))).map g := by
  apply List.ext_getElem?
  intro i
  have hlen : ((List.range n).map f).length = n := by rw [List.length_map, List.length_range]
  by_cases hn : n ≤ c
  · rw [if_pos hn, show max n (c + 1) = c + 1 by omega]
    rw [List.getElem?_set, length_resize]
    by_cases hic : c = i
    · subst hic
      rw [if_pos rfl, if_pos (by omega), List.getElem?_map,
        List.getElem?_range (by omega : c < c + 1), Option.map_some, hx]
    · rw [if_neg hic]
      by_cases hi : i < c + 1
      · rw [List.getElem?_map, List.getElem?_range hi, Option.map_some, hf i (Ne.symm hic)]
        unfold resize
        rw [List.take_of_length_le (by omega)]
        by_cases hin : i < n
        · rw [List.getElem?_append_left (by omega), List.getElem?_map, List.getElem?_range hin,
            Option.map_some]
        · rw [List.getElem?_append_right (by omega), List.getElem?_replicate,
            if_pos (by omega), hd i (by omega)]
      · rw [List.getElem?_eq_none (by rw [length_resize]; omega),
          List.getElem?_eq_none (by rw [List.length_map, List.length_range]; omega)]
  · rw [if_neg hn, show max n (c + 1) = n by omega, List.getElem?_set, hlen]
    by_cases hic : c = i
    · subst hic
      rw [if_pos rfl, if_pos (by omega), List.getElem?_map, List.getElem?_range (by omega),
        Option.map_some, hx]
    · rw [if_neg hic, List.getElem?_map, List.getElem?_map]
      cases hr : (List.range n)[i]? with
      | none => rfl
      | some j =>
          obtain ⟨_, hj⟩ := List.getElem?_eq_some_iff.mp hr
          rw [List.getElem_range] at hj
          rw [Option.map_some, Option.map_some, ← hj, hf i (Ne.symm hic)]

/-- The columns with the block of a chunk replaced. -/
def setBlock (L : LayerData) (c : ℕ) (block : Block) : LayerData :=
  { L with
    keys := (if L.keys.length ≤ c then resize L.keys (c + 1) [] else L.keys).set c block.data
    keyRows := (if L.keys.length ≤ c then resize L.keyRows (c + 1) 0 else L.keyRows).set c
      block.nRows
    keyDim := block.dim }

theorem Images.setBlock {L : LayerData} {rec : Recorded} (h : Images L rec) (c : ℕ)
    (block : Block) : Images (setBlock L c block) (rec.addKeys c block) := by
  have hlen : L.keys.length = rec.slots := by
    rw [h.keys, List.length_map, List.length_range]
  have hout : ∀ i, rec.slots ≤ i → rec.blocks i = none := by
    intro i hi
    cases hb : rec.blocks i with
    | none => rfl
    | some old =>
        have := h.bounded i old hb
        omega
  have hsame : (rec.addKeys c block).blocks c = some block := Function.update_self _ _ _
  have hother : ∀ i, i ≠ c → (rec.addKeys c block).blocks i = rec.blocks i := fun i hi =>
    Function.update_of_ne hi _ _
  refine ⟨h.head, h.gqaGroup, h.token, h.nVisible, h.chunk, h.q, h.b, h.s, h.rows, h.qDim,
    h.queries, ?_, ?_, rfl, ?_, ?_⟩
  · unfold RankDataset.setBlock
    dsimp only
    rw [hlen, h.keys]
    apply set_resize_range
    · unfold Recorded.data
      rw [hsame]
    · intro i hi
      unfold Recorded.data
      rw [hother i hi]
    · intro i hi
      unfold Recorded.data
      rw [hout i hi]
  · unfold RankDataset.setBlock
    dsimp only
    rw [hlen, h.keyRows]
    apply set_resize_range
    · unfold Recorded.count
      rw [hsame]
    · intro i hi
      unfold Recorded.count
      rw [hother i hi]
    · intro i hi
      unfold Recorded.count
      rw [hout i hi]
  · intro i b hb
    by_cases hi : i = c
    · subst hi
      exact lt_of_lt_of_le (Nat.lt_succ_self i) (le_max_right _ _)
    · rw [hother i hi] at hb
      exact lt_of_lt_of_le (h.bounded i b hb) (le_max_left _ _)
  · intro _
    exact ⟨c, block, hsame, rfl⟩

theorem layer_put (s : State) (k : ℤ) (L : LayerData) (layer : ℤ) :
    (s.put k L).layer layer = if layer = k then L else s.layer layer := by
  unfold State.layer State.put
  by_cases hk : layer = k
  · subst hk
    rw [if_pos rfl, Table.find_eq_some.mpr (Table.mem_insert.mpr (Or.inl rfl)), Option.getD_some]
  · rw [if_neg hk]
    congr 1
    apply Option.ext
    intro v
    rw [Table.find_eq_some, Table.find_eq_some, Table.mem_insert]
    constructor
    · rintro (he | ⟨hm, -⟩)
      · exact absurd (Prod.mk.inj he).1 hk
      · exact hm
    · intro hm
      exact Or.inr ⟨hm, hk⟩

/-- The collector's state is the image of what the calls recorded. -/
structure Tracks (s : State) (h : History) : Prop where
  on : s.on = h.on
  chunk : s.chunk = h.chunk
  layers : ∀ layer, Images (s.layer layer) (h.layers layer)

theorem Tracks.put {s : State} {h : History} (ht : Tracks s h) {k : ℤ} {L : LayerData}
    {rec : Recorded} (hi : Images L rec) : Tracks (s.put k L) (h.update k rec) where
  on := ht.on
  chunk := ht.chunk
  layers layer := by
    rw [layer_put]
    unfold History.update
    dsimp only
    by_cases hk : layer = k
    · subst hk
      rw [if_pos rfl, Function.update_self]
      exact hi
    · rw [if_neg hk, Function.update_of_ne hk]
      exact ht.layers layer

theorem History.update_self (h : History) (k : ℤ) : h.update k (h.layers k) = h := by
  unfold History.update
  rw [Function.update_eq_self]

/-- A change of the counter of rejected rows records nothing. -/
theorem Tracks.put_same {s : State} {h : History} (ht : Tracks s h) {k : ℤ} {L : LayerData}
    (hi : Images L (h.layers k)) : Tracks (s.put k L) h := by
  have hp := ht.put (k := k) hi
  rw [History.update_self] at hp
  exact hp

theorem Tracks.reject {s : State} {h : History} (ht : Tracks s h) (layer : ℤ) :
    Tracks (reject s layer) h :=
  ht.put_same ((ht.layers layer).rejected _)

theorem any_view {p : ℕ → F32} {n : ℕ} :
    ((view p n).any fun x => !x.isFinite) = true ↔ ¬ AllFinite (view p n) := by
  unfold AllFinite
  simp

theorem any_pairs {b s : ℕ → F32} {n : ℕ} :
    ((List.range n).any fun i => !(b i).isFinite || !(s i).isFinite) = true ↔
      ¬ (AllFinite (view b n) ∧ AllFinite (view s n)) := by
  have hall : AllFinite (view b n) ∧ AllFinite (view s n) ↔
      ∀ i < n, (b i).isFinite = true ∧ (s i).isFinite = true := by
    unfold AllFinite view
    simp only [List.forall_mem_map, List.mem_range]
    exact forall₂_and.symm
  rw [hall, List.any_eq_true]
  constructor
  · rintro ⟨i, hi, h⟩ hn
    have hf := hn i (List.mem_range.mp hi)
    rw [hf.1, hf.2] at h
    cases h
  · intro h
    by_contra hn
    apply h
    intro i hi
    by_contra hf
    apply hn
    refine ⟨i, List.mem_range.mpr hi, ?_⟩
    cases hb : (b i).isFinite with
    | false => rfl
    | true =>
        cases hs : (s i).isFinite with
        | false => rfl
        | true => exact absurd ⟨hb, hs⟩ hf

/-- The collector keeps a row exactly when the recording does. -/
theorem Tracks.addRow {s : State} {h : History} (ht : Tracks s h) (layer : ℤ)
    (head gqaGroup : Int32) (t : Int64) (q : ℕ → F32) (qDim : ℕ) (b sc : ℕ → F32) (n : ℕ) :
    Tracks (addRow s layer head gqaGroup t q qDim b sc n)
      (record h (.addRow layer head gqaGroup t q qDim b sc n)) := by
  unfold RankCollector.addRow record
  dsimp only
  by_cases h₁ : s.on = false ∨ n = 0 ∨ qDim = 0
  · have hn : ¬ (h.on = true ∧ Sound q qDim b sc n) := by
      rintro ⟨hon, ⟨hq, hv⟩, -⟩
      rw [← ht.on] at hon
      rcases h₁ with h₁ | h₁ | h₁
      · rw [hon] at h₁
        cases h₁
      · omega
      · omega
    rw [if_pos h₁, dif_neg hn]
    exact ht
  · rw [if_neg h₁]
    rw [not_or, not_or] at h₁
    by_cases h₂ : ¬ AllFinite (view q qDim)
    · rw [if_pos (any_view.mpr h₂), dif_neg (fun hs => h₂ hs.2.2.1)]
      exact ht.reject layer
    · rw [if_neg (fun ha => h₂ (any_view.mp ha))]
      by_cases h₃ : ¬ (AllFinite (view b n) ∧ AllFinite (view sc n))
      · rw [if_pos (any_pairs.mpr h₃), dif_neg (fun hs => h₃ hs.2.2.2)]
        exact ht.reject layer
      · rw [if_neg (fun ha => h₃ (any_pairs.mp ha))]
        rw [not_not] at h₂ h₃
        have hon : h.on = true := by
          rw [← ht.on]
          exact Bool.eq_true_of_not_eq_false h₁.1
        have hsound : Sound q qDim b sc n :=
          ⟨⟨Nat.pos_of_ne_zero h₁.2.2, Nat.pos_of_ne_zero h₁.2.1⟩, h₂, h₃⟩
        have hi := ht.layers layer
        have hq := hi.qDim
        rw [dif_pos ⟨hon, hsound⟩]
        by_cases hw : (h.layers layer).rows = [] ∨ (h.layers layer).qDim = qDim
        · have hnv : (rowOf head gqaGroup t h.chunk hsound).b.length = n := length_view b n
          have hqv : (rowOf head gqaGroup t h.chunk hsound).q.length = qDim := length_view q qDim
          have hrow : Images (appendRow (s.layer layer) (rowOf head gqaGroup t h.chunk hsound))
              ((h.layers layer).addRow (rowOf head gqaGroup t h.chunk hsound)) := by
            apply hi.appendRow
            rw [hqv]
            exact hw
          have hput := ht.put (k := layer) hrow
          unfold appendRow at hput
          rw [hnv, hqv] at hput
          by_cases hz : (s.layer layer).qDim = 0
          · rw [if_pos hz, if_neg (by simp), ht.chunk]
            exact hput
          · have heq : (s.layer layer).qDim = qDim := by
              rcases hw with hw | hw
              · rw [hq] at hz
                exact absurd (qDim_eq_zero.mpr hw) hz
              · rw [hq, hw]
            subst heq
            rw [if_neg hz, if_neg (not_not.mpr rfl), ht.chunk]
            exact hput
        · rw [not_or] at hw
          have hz : (s.layer layer).qDim ≠ 0 := by
            rw [hq]
            exact fun h₀ => hw.1 (qDim_eq_zero.mp h₀)
          have hne : (s.layer layer).qDim ≠ qDim := by
            rw [hq]
            exact hw.2
          have hrefuse : (h.layers layer).addRow (rowOf head gqaGroup t h.chunk hsound) =
              h.layers layer := by
            unfold Recorded.addRow
            rw [if_neg]
            rw [not_or, show (rowOf head gqaGroup t h.chunk hsound).q.length = qDim from
              length_view q qDim]
            exact hw
          rw [hrefuse, History.update_self]
          rw [if_neg hz, if_pos hne]
          exact ht.put_same hi

theorem Tracks.addKeys {s : State} {h : History} (ht : Tracks s h) (layer : ℤ)
    (rows : Option (ℕ → F32)) (nRows dim : ℕ) :
    Tracks (addKeys s layer rows nRows dim) (record h (.addKeys layer rows nRows dim)) := by
  cases rows with
  | none => exact ht
  | some rows =>
      unfold RankCollector.addKeys record
      dsimp only
      by_cases hs : h.on = true ∧ 0 < nRows ∧ 0 < dim
      · have hon : s.on = true := ht.on.trans hs.1
        rw [dif_pos hs, if_neg (by
          rw [hon]
          simp only [Bool.true_eq_false, false_or, not_or]
          omega)]
        have hput := ht.put (k := layer) ((ht.layers layer).setBlock h.chunk (blockOf rows hs.2))
        unfold setBlock at hput
        rw [← ht.chunk] at hput ⊢
        by_cases hc : (s.layer layer).keys.length ≤ s.chunk
        · rw [if_pos hc, if_pos hc] at hput
          rw [if_pos hc]
          exact hput
        · rw [if_neg hc, if_neg hc] at hput
          rw [if_neg hc]
          exact hput
      · rw [dif_neg hs, if_pos (by
          rw [ht.on]
          cases hon : h.on with
          | false => exact Or.inl rfl
          | true =>
              rw [hon] at hs
              simp only [true_and] at hs
              omega)]
        exact ht

theorem Tracks.step {s : State} {h : History} (ht : Tracks s h) (c : Call) :
    Tracks (step s c) (record h c) := by
  cases c with
  | enable dir =>
      cases dir with
      | none => exact ⟨rfl, ht.chunk, ht.layers⟩
      | some dir =>
          by_cases hd : dir = ""
          · subst hd
            exact ⟨rfl, ht.chunk, ht.layers⟩
          · unfold RankCollector.step record enable
            dsimp only
            rw [if_neg hd]
            exact ⟨(decide_eq_true hd).symm, ht.chunk, ht.layers⟩
  | beginChunk =>
      unfold RankCollector.step record beginChunk
      dsimp only
      rw [ht.on]
      by_cases hon : h.on = true
      · rw [if_pos hon, if_pos hon]
        exact ⟨rfl, congrArg (· + 1) ht.chunk, ht.layers⟩
      · rw [if_neg hon, if_neg hon]
        exact ht
  | addRow layer head gqaGroup t q qDim b sc n => exact ht.addRow layer head gqaGroup t q qDim b sc n
  | addKeys layer rows nRows dim => exact ht.addKeys layer rows nRows dim

theorem run_tracks (calls : List Call) : Tracks (run calls) (calls.foldl record {}) := by
  have hrun : ∀ s h, Tracks s h → Tracks (calls.foldl RankCollector.step s) (calls.foldl record h) := by
    induction calls with
    | nil => exact fun s h ht => ht
    | cons c calls ih => exact fun s h ht => ih _ _ (ht.step c)
  exact hrun _ _ ⟨rfl, rfl, fun _ => images_empty⟩

theorem run_images (calls : List Call) (layer : ℤ) :
    Images ((run calls).layer layer) (recorded calls layer) :=
  (run_tracks calls).layers layer

end SlhaV2.RankDataset
