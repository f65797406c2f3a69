import SlhaV2.ScoreOracle
import SlhaV2.SingleFloat
import SlhaV2.TieGroups

/-!
# Rank metrics, offline and in the process

The offline evaluation ranks a row by `total_cmp`, the metrics of the process by `<` on
`float`, in the opposite direction. Ranks are read as exact rationals.
-/
namespace SlhaV2.RankMetrics
open FloatingPoint RankOrders ScoreOracle TieGroups

/-- A slice as a row that is read by position. -/
def row (values : List F32) (i : ℕ) : F32 := values.getD i .zero

/-- `==` on finite values: both zeros are equal. -/
def numEq (x y : F32) : Bool := floatOrder x = floatOrder y

/-- Indices sorted by ascending `total_cmp`, and of equal patterns the smaller index first. -/
def sortedUp (values : List F32) : List ℕ :=
  ranking (fun i => -(row values i).orderKey) values.length

/-- Indices sorted by descending `total_cmp`, and of equal patterns the smaller index first. -/
def sortedDown (values : List F32) : List ℕ :=
  ranking (fun i => (row values i).orderKey) values.length

/-- The average rank of the indices from `start` to just below `stop`. -/
def averageRank (start stop : ℕ) : ℚ := ((start + stop - 1 : ℕ) : ℚ) / 2

/-- Fractional zero-based ranks; `none` is a rank that is not a number. -/
def ranks (values : List F32) : List (Option ℚ) :=
  if values.all F32.isFinite then
    (scatter (List.replicate values.length 0)
      (groupMarks (fun j i => numEq (row values j) (row values i)) averageRank 0
        (sortedUp values))).map some
  else List.replicate values.length none

/-- How many of the first `k` indices of one ranking are among those of the other. -/
def hits (truth approx : List ℕ) (k : ℕ) : ℕ :=
  (truth.take k).countP fun i => i ∈ approx.take k

/-- The share of the top `k` indices; `none` is the panic on lengths that do not fit. -/
def topkOverlap (truth approx : List F32) (k : ℕ) : Option Float32 :=
  if truth.length ≠ approx.length then none
  else if k = 0 then some 0
  else if ¬k ≤ truth.length then none
  else if (truth.all F32.isFinite && approx.all F32.isFinite) = false then some Float32.nan
  else some (Float32.ofNat (hits (sortedDown truth) (sortedDown approx) k) / Float32.ofNat k)

def kTopK : Fin 5 → ℕ := ![1, 2, 4, 8, 16]

def kMaxLayers : ℤ := 128

/-- The average of a group, one-based; `i` and `stop - 1` are its first and last places. -/
def averagePlace (i stop : ℕ) : ℚ := ((i : ℚ) + ((stop - 1 : ℕ) : ℚ)) / 2 + 1

def fractionalRanks (v : ℕ → F32) (perm : List ℕ) (n : ℕ) : List ℚ :=
  scatter (List.replicate n 0)
    (groupMarks (fun j i => numEq (v j) (v i)) averagePlace 0 (perm.take n))

/-- Row counts and sums of a layer, five of each for the values of `kTopK`. -/
structure LayerMetrics where
  rows : ℕ
  activeKeys : ℕ
  topkOverlap : Fin 5 → ℕ
  topkRows : Fin 5 → ℕ
  boundaryTies : Fin 5 → ℕ

def LayerMetrics.merge (m o : LayerMetrics) : LayerMetrics where
  rows := m.rows + o.rows
  activeKeys := m.activeKeys + o.activeKeys
  topkOverlap t := m.topkOverlap t + o.topkOverlap t
  topkRows t := m.topkRows t + o.topkRows t
  boundaryTies t := m.boundaryTies t + o.boundaryTies t

/-- The enabling flag, the layers, and the permutations that the thread keeps. -/
structure State where
  enabled : Bool
  layers : ℤ → LayerMetrics
  pb : List ℕ
  ps : List ℕ

/-- The scores in places `k - 1` and `k` are equal. -/
def boundaryTie (b : ℕ → F32) (pb : List ℕ) (n k : ℕ) : Bool :=
  decide (k < n) && numEq (b (pb.getD (k - 1) 0)) (b (pb.getD k 0))

/-- The metrics of one row from its two permutations; a `k` above the length is skipped. -/
def rowMetrics (b : ℕ → F32) (n : ℕ) (pb ps : List ℕ) : LayerMetrics where
  rows := 1
  activeKeys := n
  topkOverlap t := if kTopK t ≤ n then hits pb ps (kTopK t) else 0
  topkRows t := if kTopK t ≤ n then 1 else 0
  boundaryTies t := if kTopK t ≤ n ∧ boundaryTie b pb n (kTopK t) = true then 1 else 0

/-- The row is merged into its layer, and the thread keeps the permutations. -/
def State.count (st : State) (layerId : ℤ) (b : ℕ → F32) (n : ℕ) (pb ps : List ℕ) : State :=
  { st with
    layers := Function.update st.layers layerId
      ((st.layers layerId).merge (rowMetrics b n pb ps))
    pb := pb
    ps := ps }

/-- `none` is a read beside a row. -/
def addRow (st : State) (layerId : ℤ) (b s : ℕ → F32) (n : ℕ) : Option State :=
  if st.enabled = false then some st
  else if layerId < 0 ∨ layerId ≥ kMaxLayers ∨ n = 0 then some st
  else do
    let pb ← rankPermutation b n st.pb
    let ps ← rankPermutation s n st.ps
    some (st.count layerId b n pb.1 ps.1)

/-- Entries below the one at `i`, and half of the other entries equal to it. -/
def rankOfEntry (v : List F32) (i : ℕ) : ℚ :=
  ((List.range v.length).countP fun j => floatOrder (row v j) < floatOrder (row v i) : ℕ) +
    ((List.range v.length).countP fun j =>
      j ≠ i ∧ floatOrder (row v j) = floatOrder (row v i) : ℕ) / 2

/-- Both ranks of an entry, counted from opposite ends, are read off the values. -/
def RanksAgree (v : List F32) (perm : List ℕ) : Prop :=
  ∀ i < v.length, (ranks v)[i]? = some (some (rankOfEntry v i)) ∧
    (fractionalRanks (row v) perm v.length)[i]? = some ((v.length : ℚ) - rankOfEntry v i)

/-- `k` times the overlap is what the row adds to the hits of the layer. -/
def TopkAgrees (b s : List F32) (before after : LayerMetrics) : Prop :=
  ∀ t, kTopK t ≤ b.length → ∃ (o : Float32) (h : ℕ), topkOverlap b s (kTopK t) = some o ∧
    after.topkOverlap t = before.topkOverlap t + h ∧ Float32.ofNat (kTopK t) * o = Float32.ofNat h

/-- Whatever was added before, the row is added and both metrics agree on it. -/
def Agrees (b s : List F32) : Prop :=
  ∀ (st : State) (layer : ℤ), st.enabled = true → 0 ≤ layer → layer < kMaxLayers →
    ∃ st', addRow st layer (row b) (row s) b.length = some st' ∧
      TopkAgrees b s (st.layers layer) (st'.layers layer) ∧
      RanksAgree b st'.pb ∧ RanksAgree s st'.ps

/-- Positions in front of `i` in numeric order: larger values and equal ones before it. -/
def ahead (v : List F32) (i : ℕ) : ℕ :=
  (List.range v.length).countP fun j => floatOrder (row v i) < floatOrder (row v j) ∨
    floatOrder (row v i) = floatOrder (row v j) ∧ j < i

/-- Among the first `k` in numeric order. -/
def Top (v : List F32) (k i : ℕ) : Prop := i < v.length ∧ ahead v i < k

def minusZero : F32 := ⟨0x80000000⟩

/-- A `-0.0` of the top `k` with `k` entries that are positive, `+0.0`, or an earlier `-0.0`. -/
def PushedOut (v : List F32) (k i : ℕ) : Prop :=
  Top v k i ∧ row v i = minusZero ∧
    k ≤ (List.range v.length).countP fun j => 0 < floatOrder (row v j) ∨ row v j = .zero ∨
      row v j = minusZero ∧ j < i

/-- A `+0.0` beside the top `k` with less than `k` entries that are positive or an earlier
`+0.0`. -/
def PulledIn (v : List F32) (k i : ℕ) : Prop :=
  i < v.length ∧ ¬Top v k i ∧ row v i = .zero ∧
    ((List.range v.length).countP fun j => 0 < floatOrder (row v j) ∨
      row v j = .zero ∧ j < i) < k

/-- In the top `k` and not pushed out. -/
def Kept (v : List F32) (k i : ℕ) : Prop := Top v k i ∧ ¬PushedOut v k i

instance (v : List F32) (k i : ℕ) : Decidable (Top v k i) := instDecidableAnd
instance (v : List F32) (k i : ℕ) : Decidable (PushedOut v k i) := instDecidableAnd
instance (v : List F32) (k i : ℕ) : Decidable (PulledIn v k i) := instDecidableAnd
instance (v : List F32) (k i : ℕ) : Decidable (Kept v k i) := instDecidableAnd

/-- Of the keys common to both rows, as many are pushed out of one of them as are pulled in. -/
def Balanced (b s : List F32) (k : ℕ) : Prop :=
  ((List.range b.length).countP fun i => Top b k i ∧ Top s k i ∧
    (PushedOut b k i ∨ PushedOut s k i)) =
  (List.range b.length).countP fun i => (PulledIn b k i ∨ Kept b k i) ∧
    (PulledIn s k i ∨ Kept s k i) ∧ (PulledIn b k i ∨ PulledIn s k i)

instance (b s : List F32) (k : ℕ) : Decidable (Balanced b s k) := instDecidableEqNat _ _

theorem bits_lt (x : F32) : x.bits.toNat < 2 ^ 32 := x.bits.toNat_lt

theorem eq_of_toNat {x y : F32} (h : x.bits.toNat = y.bits.toNat) : x = y := by
  cases x
  cases y
  exact congrArg F32.mk (UInt32.toNat_inj.mp h)

/-- The total order is the numeric one, with `-0.0` below `+0.0`. -/
theorem orderKey_lt (x y : F32) : x.orderKey < y.orderKey ↔
    floatOrder x < floatOrder y ∨ x = minusZero ∧ y = .zero := by
  have hx := bits_lt x
  have hy := bits_lt y
  have hminus : x = minusZero ↔ x.bits.toNat = 2 ^ 31 :=
    ⟨fun h => h ▸ rfl, fun h => eq_of_toNat h⟩
  have hzero : y = .zero ↔ y.bits.toNat = 0 := ⟨fun h => h ▸ rfl, fun h => eq_of_toNat h⟩
  rw [hminus, hzero]
  unfold F32.orderKey floatOrder
  split_ifs <;> omega

theorem orderKey_inj {x y : F32} : x.orderKey = y.orderKey ↔ x = y := by
  constructor
  · intro h
    have hx := bits_lt x
    have hy := bits_lt y
    apply eq_of_toNat
    unfold F32.orderKey at h
    split_ifs at h <;> omega
  · exact congrArg F32.orderKey

/-- Values that are equal without being the same are the two zeros. -/
theorem floatOrder_eq {x y : F32} : floatOrder x = floatOrder y ↔
    x = y ∨ (x = minusZero ∨ x = .zero) ∧ (y = minusZero ∨ y = .zero) := by
  have hx := bits_lt x
  have hy := bits_lt y
  have hminus : ∀ z : F32, z = minusZero ↔ z.bits.toNat = 2 ^ 31 :=
    fun z => ⟨fun h => h ▸ rfl, fun h => eq_of_toNat h⟩
  have hzero : ∀ z : F32, z = .zero ↔ z.bits.toNat = 0 :=
    fun z => ⟨fun h => h ▸ rfl, fun h => eq_of_toNat h⟩
  have heq : x = y ↔ x.bits.toNat = y.bits.toNat := ⟨fun h => h ▸ rfl, eq_of_toNat⟩
  rw [hminus, hminus, hzero, hzero, heq]
  unfold floatOrder
  split_ifs <;> omega

section Places
variable {v : List F32} {i k : ℕ}

theorem mem_take_rankOf (hi : i < v.length) :
    i ∈ (rankOf (row v) v.length).take k ↔ Top v k i := by
  rw [rankOf, mem_take_ranking hi, Top]
  exact (and_iff_right hi).symm

/-- Ahead of an entry other than a zero are the same entries in both orders. -/
theorem before_nonzero (hm : row v i ≠ minusZero) (hz : row v i ≠ .zero) (j : ℕ) :
    Before (fun i => (row v i).orderKey) j i ↔ floatOrder (row v i) < floatOrder (row v j) ∨
      floatOrder (row v i) = floatOrder (row v j) ∧ j < i := by
  rw [Before, orderKey_lt, orderKey_inj, floatOrder_eq]
  simp only [hm, hz, false_and, or_false]

theorem floatOrder_minusZero : floatOrder minusZero = 0 := by decide

theorem floatOrder_zero : floatOrder .zero = 0 := by decide

theorem minusZero_ne_zero : minusZero ≠ .zero := by decide

theorem before_minusZero (h : row v i = minusZero) (j : ℕ) :
    Before (fun i => (row v i).orderKey) j i ↔ 0 < floatOrder (row v j) ∨ row v j = .zero ∨
      row v j = minusZero ∧ j < i := by
  rw [Before, orderKey_lt, orderKey_inj, h, floatOrder_minusZero, or_assoc, eq_self, true_and,
    eq_comm (a := minusZero)]

theorem before_zero (h : row v i = .zero) (j : ℕ) :
    Before (fun i => (row v i).orderKey) j i ↔ 0 < floatOrder (row v j) ∨
      row v j = .zero ∧ j < i := by
  rw [Before, orderKey_lt, orderKey_inj, h, floatOrder_zero, @eq_comm F32 .zero (row v j)]
  simp only [minusZero_ne_zero.symm, false_and, or_false]

theorem ahead_le_minusZero (h : row v i = minusZero) : ahead v i ≤
    (List.range v.length).countP fun j => 0 < floatOrder (row v j) ∨ row v j = .zero ∨
      row v j = minusZero ∧ j < i := by
  apply List.countP_mono_left
  intro j _ hj
  rw [decide_eq_true_eq, h, floatOrder_eq, floatOrder_minusZero] at hj
  apply decide_eq_true
  rcases hj with hpos | ⟨heq | ⟨_, heq⟩, hlt⟩
  · exact .inl hpos
  · exact .inr (.inr ⟨heq.symm, hlt⟩)
  · rcases heq with heq | heq
    · exact .inr (.inr ⟨heq, hlt⟩)
    · exact .inr (.inl heq)

theorem zero_le_ahead (h : row v i = .zero) : ((List.range v.length).countP fun j =>
    0 < floatOrder (row v j) ∨ row v j = .zero ∧ j < i) ≤ ahead v i := by
  apply List.countP_mono_left
  intro j _ hj
  rw [decide_eq_true_eq] at hj
  apply decide_eq_true
  rw [h, floatOrder_zero]
  rcases hj with hpos | ⟨heq, hlt⟩
  · exact .inl hpos
  · rw [heq, floatOrder_zero]
    exact .inr ⟨rfl, hlt⟩

/-- In the order of the bits the top `k` are those kept and those pulled in. -/
theorem mem_take_sortedDown (hi : i < v.length) :
    i ∈ (sortedDown v).take k ↔ PulledIn v k i ∨ Kept v k i := by
  rw [sortedDown, mem_take_ranking hi]
  by_cases hm : row v i = minusZero
  · simp only [before_minusZero hm]
    have hin : ¬PulledIn v k i := fun h => minusZero_ne_zero (hm.symm.trans h.2.2.1)
    rw [Kept, or_iff_right hin, PushedOut, and_iff_right hm]
    constructor
    · intro h
      exact ⟨⟨hi, (ahead_le_minusZero hm).trans_lt h⟩, fun hout => hout.2.not_gt h⟩
    · rintro ⟨htop, hout⟩
      exact not_le.mp fun hle => hout ⟨htop, hle⟩
  · by_cases hz : row v i = .zero
    · simp only [before_zero hz]
      have hout : ¬PushedOut v k i := fun h => minusZero_ne_zero (h.2.1.symm.trans hz)
      rw [Kept, and_iff_left hout, PulledIn, and_iff_right hi, and_iff_right hz]
      constructor
      · intro h
        by_cases htop : Top v k i
        · exact .inr htop
        · exact .inl ⟨htop, h⟩
      · rintro (⟨_, h⟩ | htop)
        · exact h
        · exact (zero_le_ahead hz).trans_lt htop.2
    · simp only [before_nonzero hm hz]
      have hout : ¬PushedOut v k i := fun h => hm h.2.1
      have hin : ¬PulledIn v k i := fun h => hz h.2.2.1
      rw [Kept, or_iff_right hin, and_iff_left hout]
      exact (and_iff_right hi).symm

end Places

section Hits
variable {b s : List F32} {k : ℕ}

/-- Hits are counted over the keys. -/
theorem hits_eq {l l' : List ℕ} {n : ℕ} (hl : l.Perm (List.range n)) :
    hits l l' k = (List.range n).countP fun i => i ∈ l.take k ∧ i ∈ l'.take k := by
  have hnodup : (l.take k ++ l.drop k).Nodup := by
    rw [List.take_append_drop]
    exact hl.nodup_iff.mpr List.nodup_range
  have hdrop : ((l.drop k).countP fun i => i ∈ l.take k ∧ i ∈ l'.take k) = 0 := by
    rw [List.countP_eq_zero]
    intro i hi
    rw [decide_eq_true_eq]
    rintro ⟨htake, _⟩
    exact (List.disjoint_of_nodup_append hnodup) htake hi
  rw [← hl.countP_eq]
  conv_rhs => rw [← List.take_append_drop k l, List.countP_append]
  rw [List.take_append_drop, hdrop, Nat.add_zero, hits]
  apply List.countP_congr
  intro i hi
  simp [hi]

theorem hits_numeric (hlen : b.length = s.length) :
    hits (rankOf (row b) b.length) (rankOf (row s) b.length) k =
      (List.range b.length).countP fun i => Top b k i ∧ Top s k i := by
  rw [hits_eq (rankOf_perm _ _)]
  apply List.countP_congr
  intro i hi
  have hb : i < b.length := List.mem_range.mp hi
  rw [decide_eq_true_eq, decide_eq_true_eq, mem_take_rankOf hb, hlen,
    mem_take_rankOf (hlen ▸ hb)]

theorem hits_bits (hlen : b.length = s.length) :
    hits (sortedDown b) (sortedDown s) k =
      (List.range b.length).countP fun i =>
        (PulledIn b k i ∨ Kept b k i) ∧ (PulledIn s k i ∨ Kept s k i) := by
  have hperm : (sortedDown b).Perm (List.range b.length) := ranking_perm
  rw [hits_eq hperm]
  apply List.countP_congr
  intro i hi
  have hb : i < b.length := List.mem_range.mp hi
  rw [decide_eq_true_eq, decide_eq_true_eq, mem_take_sortedDown hb,
    mem_take_sortedDown (hlen ▸ hb)]

theorem countP_and_not {α : Type} (p q : α → Prop) [DecidablePred p] [DecidablePred q]
    (l : List α) : (l.countP fun x => p x) =
      (l.countP fun x => p x ∧ q x) + l.countP fun x => p x ∧ ¬q x := by
  induction l with
  | nil => rfl
  | cons x l ih =>
      rw [List.countP_cons, List.countP_cons, List.countP_cons, ih]
      by_cases hp : p x <;> by_cases hq : q x <;> simp [hp, hq] <;> omega

/-- The hits are equal exactly when what is pushed out is made up for. -/
theorem hits_eq_iff (hlen : b.length = s.length) :
    hits (sortedDown b) (sortedDown s) k =
      hits (rankOf (row b) b.length) (rankOf (row s) b.length) k ↔ Balanced b s k := by
  have hnumeric := countP_and_not (fun i => Top b k i ∧ Top s k i)
    (fun i => PushedOut b k i ∨ PushedOut s k i) (List.range b.length)
  have hbits := countP_and_not (fun i => (PulledIn b k i ∨ Kept b k i) ∧
    (PulledIn s k i ∨ Kept s k i)) (fun i => PulledIn b k i ∨ PulledIn s k i)
    (List.range b.length)
  have hkept : ((List.range b.length).countP fun i => ((PulledIn b k i ∨ Kept b k i) ∧
      (PulledIn s k i ∨ Kept s k i)) ∧ ¬(PulledIn b k i ∨ PulledIn s k i)) =
      (List.range b.length).countP fun i => (Top b k i ∧ Top s k i) ∧
        ¬(PushedOut b k i ∨ PushedOut s k i) := by
    apply List.countP_congr
    intro i _
    rw [decide_eq_true_eq, decide_eq_true_eq]
    unfold Kept
    have hb : PulledIn b k i → ¬Top b k i := fun h => h.2.1
    have hs : PulledIn s k i → ¬Top s k i := fun h => h.2.1
    tauto
  rw [hits_numeric hlen, hits_bits hlen, hnumeric, hbits, hkept, Nat.add_right_cancel_iff,
    Balanced]
  simp only [and_assoc]
  exact eq_comm

theorem hits_le (l l' : List ℕ) : hits l l' k ≤ k :=
  (List.countP_le_length).trans (List.length_take_le k l)

end Hits

section Overlap
variable {b s : List F32}

theorem kTopK_le (t : Fin 5) : kTopK t ≤ 16 := by
  revert t
  decide

theorem kTopK_ne_zero (t : Fin 5) : kTopK t ≠ 0 := by
  revert t
  decide

/-- Dividing by a power of two and multiplying by it again is exact. -/
theorem share_mul : ∀ t : Fin 5, ∀ h < 17,
    Float32.ofNat (kTopK t) * (Float32.ofNat h / Float32.ofNat (kTopK t)) = Float32.ofNat h := by
  decide +kernel

theorem ofNat_inj : ∀ h < 17, ∀ h' < 17, Float32.ofNat h = Float32.ofNat h' → h = h' := by
  decide +kernel

theorem topkOverlap_eq (hlen : b.length = s.length) (hb : ∀ x ∈ b, x.isFinite = true)
    (hs : ∀ x ∈ s, x.isFinite = true) {t : Fin 5} (ht : kTopK t ≤ b.length) :
    topkOverlap b s (kTopK t) =
      some (Float32.ofNat (hits (sortedDown b) (sortedDown s) (kTopK t)) /
        Float32.ofNat (kTopK t)) := by
  unfold topkOverlap
  rw [if_neg (not_not.mpr hlen), if_neg (kTopK_ne_zero t), if_neg (not_not.mpr ht), if_neg]
  rw [List.all_eq_true.mpr hb, List.all_eq_true.mpr hs]
  decide

/-- `k` times the overlap is a number of hits exactly when the bits give that many. -/
theorem overlap_eq_iff (hlen : b.length = s.length) (hb : ∀ x ∈ b, x.isFinite = true)
    (hs : ∀ x ∈ s, x.isFinite = true) {t : Fin 5} (ht : kTopK t ≤ b.length) {h : ℕ}
    (hle : h ≤ kTopK t) :
    (∃ o, topkOverlap b s (kTopK t) = some o ∧
      Float32.ofNat (kTopK t) * o = Float32.ofNat h) ↔
    hits (sortedDown b) (sortedDown s) (kTopK t) = h := by
  have hbound := kTopK_le t
  have hhits := hits_le (k := kTopK t) (sortedDown b) (sortedDown s)
  have hshare := share_mul t _ (Nat.lt_succ_of_le (hhits.trans hbound))
  rw [topkOverlap_eq hlen hb hs ht]
  constructor
  · rintro ⟨o, ho, hmul⟩
    rw [Option.some.injEq] at ho
    rw [← ho, hshare] at hmul
    exact ofNat_inj _ (by omega) _ (by omega) hmul
  · rintro rfl
    exact ⟨_, rfl, hshare⟩

end Overlap

section Ranks
variable {v : List F32}

theorem sortedUp_values (v : List F32) : (sortedUp v).Pairwise fun a b =>
    floatOrder (row v a) ≤ floatOrder (row v b) := by
  have hsorted : (sortedUp v).Pairwise fun a b =>
      -(row v b).orderKey ≤ -(row v a).orderKey := ranking_values
  apply hsorted.imp
  intro a b hle
  by_contra hlt
  have hkey := (orderKey_lt (row v b) (row v a)).mpr (.inl (not_le.mp hlt))
  omega

theorem rankOf_sorted (v : List F32) : (rankOf (row v) v.length).Pairwise fun a b =>
    -floatOrder (row v a) ≤ -floatOrder (row v b) := by
  have hsorted : (rankOf (row v) v.length).Pairwise fun a b =>
      floatOrder (row v b) ≤ floatOrder (row v a) := ranking_values
  exact hsorted.imp fun h => neg_le_neg h

/-- An entry is equal to itself, and so is each of the others counted. -/
theorem countP_equal {n i : ℕ} (hi : i < n) (w : ℕ → ℤ) :
    ((List.range n).countP fun j => w j = w i) =
      ((List.range n).countP fun j => j ≠ i ∧ w j = w i) + 1 := by
  have hone : (List.range n).count i = 1 :=
    List.count_eq_one_of_mem List.nodup_range (List.mem_range.mpr hi)
  rw [countP_and_not (fun j => w j = w i) (fun j => j ≠ i), ← hone]
  congr 1
  · apply List.countP_congr
    intro j _
    rw [decide_eq_true_eq, decide_eq_true_eq]
    exact and_comm
  · apply List.countP_congr
    intro j _
    rw [decide_eq_true_eq, not_not, beq_iff_eq]
    exact and_iff_right_of_imp fun h => congrArg w h

/-- Every entry is below, equal to, or above a given one. -/
theorem countP_three (w : ℕ → ℤ) (i : ℕ) (l : List ℕ) :
    (l.countP fun j => w j < w i) + (l.countP fun j => w j = w i) +
      (l.countP fun j => w i < w j) = l.length := by
  induction l with
  | nil => rfl
  | cons a l ih =>
      rw [List.countP_cons, List.countP_cons, List.countP_cons, List.length_cons, ← ih]
      simp only [decide_eq_true_eq]
      split_ifs <;> omega

theorem ranks_read (hfinite : ∀ x ∈ v, x.isFinite = true) {i : ℕ} (hi : i < v.length) :
    (ranks v)[i]? = some (some (rankOfEntry v i)) := by
  have hsame : ∀ a b, numEq (row v a) (row v b) = true ↔
      floatOrder (row v a) = floatOrder (row v b) := fun a b => decide_eq_true_iff
  have hperm : (sortedUp v).Perm (List.range v.length) := ranking_perm
  unfold ranks
  rw [if_pos (List.all_eq_true.mpr hfinite), List.getElem?_map,
    marks_read hsame hperm (sortedUp_values v) 0 hi, countP_equal hi, Option.map_some]
  congr 2
  unfold averageRank rankOfEntry
  rw [← Nat.add_assoc, ← Nat.add_assoc, Nat.add_sub_cancel]
  push_cast
  ring

theorem fractionalRanks_read (rest : List ℕ) {i : ℕ} (hi : i < v.length) :
    (fractionalRanks (row v) (rankOf (row v) v.length ++ rest) v.length)[i]? =
      some ((v.length : ℚ) - rankOfEntry v i) := by
  have hsame : ∀ a b, numEq (row v a) (row v b) = true ↔
      -floatOrder (row v a) = -floatOrder (row v b) := by
    intro a b
    rw [neg_inj]
    exact decide_eq_true_iff
  unfold fractionalRanks
  rw [List.take_left' (length_rankOf _ _),
    marks_read hsame (rankOf_perm _ _) (rankOf_sorted v) 0 hi]
  have hthree := countP_three (fun j => floatOrder (row v j)) i (List.range v.length)
  rw [List.length_range] at hthree
  simp only [neg_lt_neg_iff, neg_inj]
  rw [countP_equal hi fun j => floatOrder (row v j)] at hthree ⊢
  have hlength := congrArg (Nat.cast : ℕ → ℚ) hthree
  rw [← hlength]
  congr 1
  unfold averagePlace rankOfEntry
  rw [← Nat.add_assoc, ← Nat.add_assoc, Nat.add_sub_cancel]
  push_cast
  ring

end Ranks

section Rows
variable {b s : List F32} {st : State} {layer : ℤ}

theorem exists_rankPermutation (v : ℕ → F32) (n : ℕ) (perm : List ℕ) (hkeys : KeysInRow n) :
    ∃ rest ties, rankPermutation v n perm = some (rankOf v n ++ rest, ties) := by
  unfold rankPermutation
  exact ⟨_, _, if_pos hkeys⟩

/-- A row that is counted is defined when its keys are positions, and adds the hits of the
two numeric rankings. -/
theorem addRow_eq (hen : st.enabled = true) (h0 : 0 ≤ layer) (hmax : layer < kMaxLayers)
    (hpos : 0 < b.length) (hkeys : KeysInRow b.length) :
    ∃ st' rb rs, addRow st layer (row b) (row s) b.length = some st' ∧
      st'.pb = rankOf (row b) b.length ++ rb ∧ st'.ps = rankOf (row s) b.length ++ rs ∧
      ∀ t, kTopK t ≤ b.length → (st'.layers layer).topkOverlap t =
        (st.layers layer).topkOverlap t +
          hits (rankOf (row b) b.length) (rankOf (row s) b.length) (kTopK t) := by
  obtain ⟨rb, tb, hrb⟩ := exists_rankPermutation (row b) b.length st.pb hkeys
  obtain ⟨rs, ts, hrs⟩ := exists_rankPermutation (row s) b.length st.ps hkeys
  have hgate : ¬(layer < 0 ∨ layer ≥ kMaxLayers ∨ b.length = 0) := by omega
  refine ⟨st.count layer (row b) b.length (rankOf (row b) b.length ++ rb)
    (rankOf (row s) b.length ++ rs), rb, rs, ?_, rfl, rfl, ?_⟩
  · unfold addRow
    rw [if_neg (by simp [hen]), if_neg hgate, hrb, hrs]
    rfl
  · intro t ht
    change (Function.update st.layers layer _ layer).topkOverlap t = _
    rw [Function.update_self]
    change _ + (if kTopK t ≤ b.length then _ else 0) = _
    rw [if_pos ht]
    congr 1
    unfold hits
    rw [List.take_append_of_le_length (by rwa [length_rankOf]),
      List.take_append_of_le_length (by rwa [length_rankOf])]

theorem keysInRow_of_addRow {st' : State} (hen : st.enabled = true) (h0 : 0 ≤ layer)
    (hmax : layer < kMaxLayers) (hpos : 0 < b.length)
    (h : addRow st layer (row b) (row s) b.length = some st') : KeysInRow b.length := by
  have hgate : ¬(layer < 0 ∨ layer ≥ kMaxLayers ∨ b.length = 0) := by omega
  by_contra hkeys
  unfold addRow rankPermutation at h
  rw [if_neg (by simp [hen]), if_neg hgate, if_neg hkeys] at h
  simp at h

/-- A state in which rows are counted. -/
def freshState : State where
  enabled := true
  layers _ := ⟨0, 0, fun _ => 0, fun _ => 0, fun _ => 0⟩
  pb := []
  ps := []

theorem balanced_of_agrees (hlen : b.length = s.length) (hpos : 1 ≤ b.length)
    (hb : ∀ x ∈ b, x.isFinite = true) (hs : ∀ x ∈ s, x.isFinite = true) (h : Agrees b s) :
    b.length ≤ 2 ^ 31 ∧ ∀ t, kTopK t ≤ b.length → Balanced b s (kTopK t) := by
  have hen : freshState.enabled = true := rfl
  have hmax : (0 : ℤ) < kMaxLayers := by decide
  obtain ⟨st', hadd, htopk, _⟩ := h freshState 0 hen le_rfl hmax
  have hkeys := keysInRow_of_addRow hen le_rfl hmax hpos hadd
  refine ⟨keysInRow_iff.mp hkeys, ?_⟩
  intro t ht
  obtain ⟨st'', rb, rs, hadd', _, _, hhits⟩ := addRow_eq (s := s) hen le_rfl hmax hpos hkeys
  rw [hadd, Option.some.injEq] at hadd'
  obtain ⟨o, n, ho, hn, hmul⟩ := htopk t ht
  rw [hadd', hhits t ht, Nat.add_left_cancel_iff] at hn
  have hle := hits_le (k := kTopK t) (rankOf (row b) b.length) (rankOf (row s) b.length)
  have hbits := (overlap_eq_iff hlen hb hs ht (hn ▸ hle)).mp ⟨o, ho, hmul⟩
  exact (hits_eq_iff hlen).mp (hbits.trans hn.symm)

theorem agrees_of_balanced (hlen : b.length = s.length) (hpos : 1 ≤ b.length)
    (hb : ∀ x ∈ b, x.isFinite = true) (hs : ∀ x ∈ s, x.isFinite = true)
    (hlong : b.length ≤ 2 ^ 31) (hbalanced : ∀ t, kTopK t ≤ b.length → Balanced b s (kTopK t)) :
    Agrees b s := by
  intro st layer hen h0 hmax
  obtain ⟨st', rb, rs, hadd, hpb, hps, hhits⟩ :=
    addRow_eq (s := s) hen h0 hmax hpos (keysInRow_iff.mpr hlong)
  refine ⟨st', hadd, ?_, ?_, ?_⟩
  · intro t ht
    have hle := hits_le (k := kTopK t) (rankOf (row b) b.length) (rankOf (row s) b.length)
    obtain ⟨o, ho, hmul⟩ :=
      (overlap_eq_iff hlen hb hs ht hle).mpr ((hits_eq_iff hlen).mpr (hbalanced t ht))
    exact ⟨o, _, ho, hhits t ht, hmul⟩
  · intro i hi
    rw [hpb]
    exact ⟨ranks_read hb hi, fractionalRanks_read rb hi⟩
  · intro i hi
    rw [hps, hlen]
    exact ⟨ranks_read hs hi, fractionalRanks_read rs hi⟩

/-- On finite rows of one length, the two metrics agree exactly when every position is a
32-bit key and the keys of a top that the sign of a zero moves out are made up for by those
that it moves in. -/
theorem agrees_iff (hlen : b.length = s.length) (hpos : 1 ≤ b.length)
    (hb : ∀ x ∈ b, x.isFinite = true) (hs : ∀ x ∈ s, x.isFinite = true) :
    Agrees b s ↔ b.length ≤ 2 ^ 31 ∧
      ∀ t, kTopK t ≤ b.length → Balanced b s (kTopK t) := by
  constructor
  · exact balanced_of_agrees hlen hpos hb hs
  · intro h
    exact agrees_of_balanced hlen hpos hb hs h.1 h.2

/-- Zeros of both signs behind a positive score. -/
def tiedRow : List F32 := [⟨0x3F800000⟩, minusZero, .zero]

theorem agrees_tied : Agrees tiedRow tiedRow := by
  apply (agrees_iff rfl (by decide) (by decide) (by decide)).mpr
  constructor
  · decide
  · decide

/-- The order of the bits prefers the second zero, the numeric order the first. -/
theorem signed_zeros_disagree : ¬Agrees [minusZero, .zero] [.zero, minusZero] := by
  intro h
  have hlen : [minusZero, F32.zero].length = [F32.zero, minusZero].length := rfl
  have hb : ∀ x ∈ [minusZero, F32.zero], x.isFinite = true := by decide
  have hs : ∀ x ∈ [F32.zero, minusZero], x.isFinite = true := by decide
  have hbalanced := (balanced_of_agrees hlen (by decide) hb hs h).2 0 (by decide)
  revert hbalanced
  decide

theorem not_moved {v : List F32} {k : ℕ}
    (h : ∀ i, ∀ j < v.length, row v i = minusZero → row v j = .zero → j < i) (i : ℕ) :
    ¬PushedOut v k i ∧ ¬PulledIn v k i := by
  constructor
  · rintro ⟨htop, hi, hle⟩
    apply (hle.trans _).not_gt htop.2
    apply List.countP_mono_left
    intro j hj' hj
    rw [decide_eq_true_eq] at hj
    apply decide_eq_true
    rw [hi, floatOrder_minusZero]
    rcases hj with hpos | hzero | ⟨hminus, hlt⟩
    · exact .inl hpos
    · rw [hzero, floatOrder_zero]
      exact .inr ⟨rfl, h i j (List.mem_range.mp hj') hi hzero⟩
    · rw [hminus, floatOrder_minusZero]
      exact .inr ⟨rfl, hlt⟩
  · rintro ⟨hlen, htop, hi, hlt⟩
    apply htop
    refine ⟨hlen, lt_of_le_of_lt (List.countP_mono_left ?_) hlt⟩
    intro j _ hj
    rw [decide_eq_true_eq, hi, floatOrder_eq, floatOrder_zero] at hj
    apply decide_eq_true
    rcases hj with hpos | ⟨heq | ⟨_, hminus | hzero⟩, hji⟩
    · exact .inl hpos
    · exact .inr ⟨heq.symm, hji⟩
    · exact absurd (h j i hlen hminus hi) hji.asymm
    · exact .inr ⟨hzero, hji⟩

/-- No sign moves a key when no `-0.0` stands before a `+0.0`. -/
theorem balanced_of_ordered {k : ℕ}
    (hb : ∀ i, ∀ j < b.length, row b i = minusZero → row b j = .zero → j < i)
    (hs : ∀ i, ∀ j < s.length, row s i = minusZero → row s j = .zero → j < i) : Balanced b s k := by
  have hbn := not_moved hb (k := k)
  have hsn := not_moved hs (k := k)
  unfold Balanced
  rw [List.countP_eq_zero.mpr, List.countP_eq_zero.mpr]
  · intro i _
    simp [hbn i, hsn i]
  · intro i _
    simp [hbn i, hsn i]

end Rows

end SlhaV2.RankMetrics
