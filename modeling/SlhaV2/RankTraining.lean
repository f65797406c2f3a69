import SlhaV2.FloatingPoint
import SlhaV2.Incoherence
import SlhaV2.TopRanks

/-!
# Labels and negatives of the ranking trainer

A row is cut to its first `maxKeys` keys before its baseline logits are ranked.
The best `k` of what is left are the positives, and each is set against
negatives from beyond that boundary: the nearest ones first, then keys picked at
random. The weights, the loss and the projection are left out: no label and no
negative depends on them.
-/
namespace SlhaV2.RankTraining
open FloatingPoint Incoherence TopRanks

/-- The number of a bit pattern: sign and magnitude, so that both zeros are one. -/
def number (x : F32) : ℤ :=
  if x.bits.toNat < 2 ^ 31 then x.bits.toNat else -((x.bits.toNat - 2 ^ 31 : ℕ) : ℤ)

def isNan (x : F32) : Bool := 0x7F800000 < x.bits.toNat % 2 ^ 31

/-- `f32::partial_cmp`. -/
def partialCmp (x y : F32) : Option Ordering :=
  if isNan x || isNan y then none else some (compare (number x) (number y))

/-- The comparison by which `baseline_topk` sorts: larger logits first, then lower indices. -/
def rankCmp (baseline : List F32) (a b : ℕ) : Ordering :=
  ((partialCmp (baseline.getD b F32.zero) (baseline.getD a F32.zero)).getD .eq).then (compare a b)

def Precedes (baseline : List F32) (a b : ℕ) : Prop := rankCmp baseline a b ≠ .gt

instance (baseline : List F32) : DecidableRel (Precedes baseline) :=
  fun a b => inferInstanceAs (Decidable (rankCmp baseline a b ≠ .gt))

/-- `sort_by` returns the sorted permutation; `Precedes` is total on finite logits. -/
def baselineTopk (baseline : List F32) (k : ℕ) : List ℕ :=
  top (Precedes baseline) (min k baseline.length) (List.range baseline.length)

/-- The sampling loop of `negatives_for`, for at most the given number of draws;
`none` stands for a loop that has not ended. -/
def sampleTail (order : List ℕ) (k want tail : ℕ) : ℕ → List ℕ → Rng → Option (List ℕ × Rng)
  | 0, _, _ => none
  | fuel + 1, out, rng =>
      if out.length < want ∧ 0 < tail then
        let (draw, rng) := rng.nextU64
        let pick := order.getD (k + draw.toNat % tail) 0
        if pick ∉ out then sampleTail order k want tail fuel (out ++ [pick]) rng
        else if tail ≤ out.length then some (out, rng)
        else sampleTail order k want tail fuel out rng
      else some (out, rng)

def negativesFor (order : List ℕ) (k want fuel : ℕ) (rng : Rng) : Option (List ℕ × Rng) :=
  if order.length ≤ k then some ([], rng)
  else sampleTail order k want (order.length - k) fuel ((order.drop k).take ((want + 1) / 2)) rng

/-- The positives in turn, each with the negatives drawn for it. -/
def drawNegatives (order : List ℕ) (k want fuel : ℕ) :
    List ℕ → Rng → Option (List (ℕ × List ℕ) × Rng)
  | [], rng => some ([], rng)
  | i :: positives, rng => do
      let (negatives, rng) ← negativesFor order k want fuel rng
      let (pairs, rng) ← drawNegatives order k want fuel positives rng
      return ((i, negatives) :: pairs, rng)

/-- What `add_pairwise` compares in a row with these logits. -/
def addPairwise (baseline : List F32) (k negatives fuel : ℕ) (rng : Rng) :
    Option (List (ℕ × List ℕ) × Rng) :=
  let n := baseline.length
  let order := baselineTopk baseline n
  let k := min k n
  drawNegatives order k negatives fuel (order.take k) rng

inductive Objective where
  | l2
  | pairwiseTopK (k negatives : ℕ)
  | listwise
  | hybrid (k negatives : ℕ)
deriving DecidableEq

/-- The parameters of the pairwise term, for the objectives that have one. -/
def Objective.pairwise : Objective → Option (ℕ × ℕ)
  | .pairwiseTopK k negatives | .hybrid k negatives => some (k, negatives)
  | .l2 | .listwise => none

structure Row where
  baseline : List F32
  nVisible : ℕ
deriving DecidableEq

structure TrainConfig where
  objective : Objective
  epochs : ℕ
  batch : ℕ
  seed : UInt64
  maxKeys : ℕ

/-- A row that was trained on, and its comparisons. -/
structure Visit where
  row : Row
  pairs : List (ℕ × List ℕ)
deriving DecidableEq

/-- The pairs of `row_weights`; the other terms compare nothing. -/
def rowPairs (cfg : TrainConfig) (fuel : ℕ) (baseline : List F32) (rng : Rng) :
    Option (List (ℕ × List ℕ) × Rng) :=
  match cfg.objective.pairwise with
  | some (k, negatives) => addPairwise baseline k negatives fuel rng
  | none => some ([], rng)

/-- The body of the row loop. A row with fewer logits than keys panics. -/
def trainRow (cfg : TrainConfig) (fuel : ℕ) (row : Row) (rng : Rng) :
    Option (List Visit × Rng) :=
  let n := min row.nVisible cfg.maxKeys
  if n = 0 then some ([], rng)
  else if row.baseline.length < n then none
  else do
    let (pairs, rng) ← rowPairs cfg fuel (row.baseline.take n) rng
    return ([⟨row, pairs⟩], rng)

/-- The row loop over all steps and epochs; each turn draws its row. -/
def trainRows (cfg : TrainConfig) (fuel : ℕ) (rows : List Row) : ℕ → Rng → Option (List Visit)
  | 0, _ => some []
  | turns + 1, rng => do
      let (draw, rng) := rng.nextU64
      let row ← rows[draw.toNat % rows.length]?
      let (visits, rng) ← trainRow cfg fuel row rng
      let later ← trainRows cfg fuel rows turns rng
      return visits ++ later

/-- The rows `train_ranking` trains on and what it compares in them. An empty batch divides by
zero. -/
def trainRanking (cfg : TrainConfig) (fuel : ℕ) (rows : List Row) : Option (List Visit) :=
  if rows = [] then some []
  else if cfg.batch = 0 then none
  else
    let steps := max (rows.length / cfg.batch) 1
    trainRows cfg fuel rows (cfg.epochs * (steps * cfg.batch)) (Rng.new cfg.seed)

theorem isNan_of_isFinite {x : F32} (h : x.isFinite = true) : isNan x = false := by
  have hexp : (x.bits.toNat / 2 ^ 23) % 256 ≠ 255 := of_decide_eq_true h
  apply decide_eq_false
  have hlt := x.bits.toNat_lt
  omega

/-- The number by which a key is ranked. -/
def logit (baseline : List F32) (i : ℕ) : ℤ := number (baseline.getD i F32.zero)

theorem isFinite_getD {baseline : List F32} (h : ∀ x ∈ baseline, x.isFinite = true) (i : ℕ) :
    (baseline.getD i F32.zero).isFinite = true := by
  by_cases hi : i < baseline.length
  · rw [List.getD_eq_getElem _ _ hi]
    exact h _ (List.getElem_mem hi)
  · rw [List.getD_eq_default _ _ (Nat.le_of_not_lt hi)]
    rfl

theorem baselineTopk_eq (baseline : List F32) (k : ℕ) : baselineTopk baseline k =
    top (Precedes baseline) k (List.range baseline.length) := by
  have hlen := (List.perm_insertionSort (Precedes baseline)
    (List.range baseline.length)).length_eq.trans List.length_range
  unfold baselineTopk top
  rw [List.take_eq_take_min (i := k), hlen]

/-- The keys of a row past the first `n`. -/
def cutOff (n visible : ℕ) : List ℕ := (List.range (visible - n)).map (n + ·)

theorem range_cut {n visible : ℕ} (h : n ≤ visible) :
    List.range visible = List.range n ++ cutOff n visible := by
  unfold cutOff
  rw [← List.range_add, Nat.add_sub_cancel' h]

theorem mem_cutOff {n visible j : ℕ} : j ∈ cutOff n visible ↔ n ≤ j ∧ j < visible := by
  unfold cutOff
  rw [List.mem_map]
  constructor
  · rintro ⟨x, hx, rfl⟩
    have hlt := List.mem_range.mp hx
    omega
  · intro hj
    exact ⟨j - n, List.mem_range.mpr (by omega), by omega⟩

section Finite
variable {baseline : List F32} (h : ∀ x ∈ baseline, x.isFinite = true)
include h

theorem precedes_iff (a b : ℕ) : Precedes baseline a b ↔
    logit baseline b < logit baseline a ∨ logit baseline b = logit baseline a ∧ a ≤ b := by
  have ha := isNan_of_isFinite (isFinite_getD h a)
  have hb := isNan_of_isFinite (isFinite_getD h b)
  unfold Precedes rankCmp partialCmp
  rw [ha, hb]
  change ((compare (logit baseline b) (logit baseline a)).then (compare a b)) ≠ .gt ↔ _
  rcases lt_trichotomy (logit baseline b) (logit baseline a) with hlt | heq | hgt
  · rw [compare_lt_iff_lt.mpr hlt]
    exact ⟨fun _ => .inl hlt, fun _ => (by decide : Ordering.lt ≠ .gt)⟩
  · rw [compare_eq_iff_eq.mpr heq]
    change compare a b ≠ .gt ↔ _
    rw [compare_le_iff_le]
    exact ⟨fun hle => .inr ⟨heq, hle⟩, fun hor => (hor.resolve_left heq.not_lt).2⟩
  · rw [compare_gt_iff_gt.mpr hgt]
    constructor
    · intro hne
      exact absurd rfl hne
    · rintro (hlt | ⟨heq, _⟩) <;> omega

theorem precedes_trans : IsTrans ℕ (Precedes baseline) where
  trans a b c hab hbc := by
    rw [precedes_iff h] at hab hbc ⊢
    omega

theorem precedes_total : Std.Total (Precedes baseline) where
  total a b := by
    rw [precedes_iff h, precedes_iff h]
    omega

theorem precedes_antisymm : Std.Antisymm (Precedes baseline) where
  antisymm a b hab hba := by
    rw [precedes_iff h] at hab hba
    omega

/-- The order of a prefix is the order of the whole row on it. -/
theorem mem_baselineTopk_take {n : ℕ} (hn : n ≤ baseline.length) (k i : ℕ) :
    i ∈ baselineTopk (baseline.take n) k ↔ i ∈ top (Precedes baseline) k (List.range n) := by
  have hcut : ∀ x ∈ baseline.take n, x.isFinite = true := fun x hx => h x (List.mem_of_mem_take hx)
  have hlogit : ∀ j, j < n → logit (baseline.take n) j = logit baseline j := by
    intro j hj
    unfold logit
    rw [List.getD_eq_getElem?_getD, List.getElem?_take_of_lt hj, ← List.getD_eq_getElem?_getD]
  have := precedes_trans h
  have := precedes_total h
  have := precedes_antisymm h
  have := precedes_trans hcut
  have := precedes_total hcut
  have := precedes_antisymm hcut
  rw [baselineTopk_eq, List.length_take, min_eq_left hn, mem_top_iff List.nodup_range,
    mem_top_iff List.nodup_range]
  apply and_congr_right
  intro hi
  have hsame : ahead (Precedes (baseline.take n)) (List.range n) i =
      ahead (Precedes baseline) (List.range n) i := by
    apply ahead_congr
    intro j hj
    rw [precedes_iff hcut, precedes_iff h, hlogit i (List.mem_range.mp hi),
      hlogit j (List.mem_range.mp hj)]
  rw [hsame]

theorem ahead_of_cut {n j : ℕ} (hj : n ≤ j) : ahead (Precedes baseline) (List.range n) j =
    ((List.range n).filter fun i => logit baseline j ≤ logit baseline i).length := by
  unfold ahead
  congr 1
  apply List.filter_congr
  intro i hi
  have hlt := List.mem_range.mp hi
  rw [decide_eq_decide, precedes_iff h]
  omega

/-- The best keys survive the cut exactly when each key cut off is outranked often enough. -/
theorem topk_kept_iff {n k : ℕ} (hn : n ≤ baseline.length) :
    (∀ i, i ∈ baselineTopk baseline k → i < n) ↔ ∀ j, n ≤ j → j < baseline.length →
      k ≤ ((List.range n).filter fun i => logit baseline j ≤ logit baseline i).length := by
  have := precedes_trans h
  have := precedes_total h
  have := precedes_antisymm h
  have hsplit := range_cut hn
  have hnodup : (List.range n ++ cutOff n baseline.length).Nodup := hsplit ▸ List.nodup_range
  have hiff := top_subset_iff (r := Precedes baseline) (k := k) hnodup
  rw [← hsplit, ← baselineTopk_eq] at hiff
  constructor
  · intro hall j hj hlt
    rw [← ahead_of_cut h hj]
    apply hiff.mp fun i hi => List.mem_range.mpr (hall i hi)
    exact mem_cutOff.mpr ⟨hj, hlt⟩
  · intro hall i hi
    apply List.mem_range.mp
    apply hiff.mpr _ i hi
    intro j hj
    have hcut := mem_cutOff.mp hj
    rw [ahead_of_cut h hcut.1]
    exact hall j hcut.1 hcut.2

/-- Once they survive, the labels of the cut row are those of the whole one. -/
theorem mem_baselineTopk_cut {n k : ℕ} (hn : n ≤ baseline.length)
    (hkept : ∀ i, i ∈ baselineTopk baseline k → i < n) (i : ℕ) :
    i ∈ baselineTopk baseline k ↔ i ∈ baselineTopk (baseline.take n) k := by
  have := precedes_trans h
  have := precedes_total h
  have := precedes_antisymm h
  have hsplit := range_cut hn
  have hnodup : (List.range n ++ cutOff n baseline.length).Nodup := hsplit ▸ List.nodup_range
  rw [mem_baselineTopk_take h hn, baselineTopk_eq, hsplit]
  apply mem_top_iff_prefix hnodup
  apply (top_subset_iff hnodup).mp
  intro i hi
  rw [← hsplit, ← baselineTopk_eq] at hi
  exact List.mem_range.mpr (hkept i hi)

end Finite

/-- Distinct keys from beyond the boundary, the nearest ones among them, as many as there are. -/
structure Drawn (order : List ℕ) (k want : ℕ) (out : List ℕ) : Prop where
  nodup : out.Nodup
  beyond : ∀ j ∈ out, j ∈ order.drop k
  nearest : ∀ j ∈ (order.drop k).take ((want + 1) / 2), j ∈ out
  length : out.length = min want (order.length - k)

section Sampling
variable {order : List ℕ} {k want : ℕ}

theorem getD_beyond (hk : k < order.length) (x : ℕ) :
    order.getD (k + x % (order.length - k)) 0 ∈ order.drop k := by
  have hmod := Nat.mod_lt x (Nat.sub_pos_of_lt hk)
  have hlt : k + x % (order.length - k) < order.length := by omega
  rw [List.getD_eq_getElem _ _ hlt, List.mem_drop_iff_getElem]
  exact ⟨x % (order.length - k), by omega, by simp only⟩

theorem length_le_beyond {out : List ℕ} (hd : out.Nodup) (hb : ∀ j ∈ out, j ∈ order.drop k) :
    out.length ≤ order.length - k := by
  rw [← List.length_drop]
  exact (List.subperm_of_subset hd hb).length_le

theorem sampleTail_drawn (hk : k < order.length) (fuel : ℕ) {out out' : List ℕ} {rng rng' : Rng}
    (hd : out.Nodup) (hb : ∀ j ∈ out, j ∈ order.drop k) (hw : out.length ≤ want)
    (hnear : ∀ j ∈ (order.drop k).take ((want + 1) / 2), j ∈ out)
    (h : sampleTail order k want (order.length - k) fuel out rng = some (out', rng')) :
    Drawn order k want out' := by
  induction fuel generalizing out rng with
  | zero => exact absurd h (by simp [sampleTail])
  | succ fuel ih =>
      have hle := length_le_beyond hd hb
      rcases hdraw : rng.nextU64 with ⟨draw, rng1⟩
      unfold sampleTail at h
      rw [hdraw] at h
      dsimp only at h
      split at h
      · rename_i hmore
        split at h
        · rename_i hnew
          apply ih _ _ _ _ h
          · exact List.nodup_append.mpr ⟨hd, List.nodup_singleton _, fun a ha b hb heq =>
              hnew (List.mem_singleton.mp hb ▸ heq ▸ ha)⟩
          · intro j hj
            rcases List.mem_append.mp hj with hj | hj
            · exact hb j hj
            · rw [List.mem_singleton.mp hj]
              exact getD_beyond hk _
          · rw [List.length_append, List.length_singleton]
            omega
          · intro j hj
            exact List.mem_append_left _ (hnear j hj)
        · split at h
          · rename_i hfull
            cases h
            exact ⟨hd, hb, hnear, by omega⟩
          · exact ih hd hb hw hnear h
      · rename_i hdone
        cases h
        exact ⟨hd, hb, hnear, by omega⟩

theorem negativesFor_drawn (hn : order.Nodup) {fuel : ℕ} {out : List ℕ} {rng rng' : Rng}
    (h : negativesFor order k want fuel rng = some (out, rng')) : Drawn order k want out := by
  unfold negativesFor at h
  split at h
  · rename_i hle
    cases h
    have hnil : order.drop k = [] := List.drop_eq_nil_iff.mpr hle
    refine ⟨List.nodup_nil, fun j hj => absurd hj List.not_mem_nil, ?_, ?_⟩
    · rw [hnil, List.take_nil]
      exact fun j hj => hj
    · rw [List.length_nil]
      omega
  · rename_i hlt
    apply sampleTail_drawn (Nat.lt_of_not_le hlt) fuel _ _ _ _ h
    · exact hn.sublist ((List.take_sublist _ _).trans (List.drop_sublist _ _))
    · exact fun j hj => List.mem_of_mem_take hj
    · rw [List.length_take]
      omega
    · exact fun j hj => hj

theorem drawNegatives_drawn (hn : order.Nodup) {fuel : ℕ} {positives : List ℕ} {rng rng' : Rng}
    {pairs : List (ℕ × List ℕ)}
    (h : drawNegatives order k want fuel positives rng = some (pairs, rng')) :
    pairs.map Prod.fst = positives ∧ ∀ p ∈ pairs, Drawn order k want p.2 := by
  induction positives generalizing rng rng' pairs with
  | nil =>
      cases h
      exact ⟨rfl, fun p hp => absurd hp List.not_mem_nil⟩
  | cons i positives ih =>
      obtain ⟨⟨out, rng1⟩, hout, h⟩ := Option.bind_eq_some_iff.mp h
      obtain ⟨⟨later, rng2⟩, hlater, h⟩ := Option.bind_eq_some_iff.mp h
      cases h
      obtain ⟨hfst, hall⟩ := ih hlater
      constructor
      · rw [List.map_cons, hfst]
      · intro p hp
        rcases List.mem_cons.mp hp with rfl | hp
        · exact negativesFor_drawn hn hout
        · exact hall p hp

end Sampling

theorem baselineTopk_length (baseline : List F32) :
    baselineTopk baseline baseline.length =
      (List.range baseline.length).insertionSort (Precedes baseline) := by
  unfold baselineTopk top
  rw [min_self, List.take_of_length_le]
  rw [(List.perm_insertionSort _ _).length_eq, List.length_range]

theorem ranked_perm (baseline : List F32) :
    (baselineTopk baseline baseline.length).Perm (List.range baseline.length) := by
  rw [baselineTopk_length]
  exact List.perm_insertionSort _ _

theorem take_ranked (baseline : List F32) (k : ℕ) :
    (baselineTopk baseline baseline.length).take k = baselineTopk baseline k := by
  rw [baselineTopk_length, baselineTopk_eq]
  rfl

/-- The positives are the best keys of what is ranked, and the negatives lie beyond them. -/
theorem addPairwise_drawn {baseline : List F32} {k negatives fuel : ℕ} {rng rng' : Rng}
    {pairs : List (ℕ × List ℕ)}
    (h : addPairwise baseline k negatives fuel rng = some (pairs, rng')) :
    pairs.map Prod.fst = baselineTopk baseline k ∧
      ∀ p ∈ pairs, Drawn (baselineTopk baseline baseline.length) k negatives p.2 := by
  have hperm := ranked_perm baseline
  have hlen : (baselineTopk baseline baseline.length).length = baseline.length :=
    hperm.length_eq.trans List.length_range
  have hdrop : (baselineTopk baseline baseline.length).drop (min k baseline.length) =
      (baselineTopk baseline baseline.length).drop k := by
    rcases Nat.le_total k baseline.length with hle | hle
    · rw [min_eq_left hle]
    · rw [min_eq_right hle, List.drop_eq_nil_of_le hlen.le,
        List.drop_eq_nil_of_le (hlen.le.trans hle)]
  obtain ⟨hfst, hall⟩ := drawNegatives_drawn (hperm.nodup_iff.mpr List.nodup_range) h
  constructor
  · rw [hfst, take_ranked]
    unfold baselineTopk
    rw [min_assoc, min_self]
  · intro p hp
    have hdrawn := hall p hp
    refine ⟨hdrawn.nodup, hdrop ▸ hdrawn.beyond, hdrop ▸ hdrawn.nearest, ?_⟩
    rw [hdrawn.length, hlen]
    omega

theorem not_mem_topk_of_beyond {baseline : List F32} {k j : ℕ}
    (h : j ∈ (baselineTopk baseline baseline.length).drop k) : j ∉ baselineTopk baseline k := by
  intro hin
  have hnodup := (ranked_perm baseline).nodup_iff.mpr List.nodup_range
  rw [← List.take_append_drop k (baselineTopk baseline baseline.length)] at hnodup
  rw [← take_ranked] at hin
  exact List.disjoint_of_nodup_append hnodup hin h

section Runs
variable {cfg : TrainConfig} {fuel k negatives : ℕ} {rows : List Row} {visit : Visit}

/-- A visit compares what the pairwise term draws in the cut row. -/
def Compared (cfg : TrainConfig) (fuel k negatives : ℕ) (visit : Visit) : Prop :=
  ∃ rng rng', addPairwise (visit.row.baseline.take (min visit.row.nVisible cfg.maxKeys)) k
    negatives fuel rng = some (visit.pairs, rng')

theorem trainRow_compared (hobj : cfg.objective.pairwise = some (k, negatives)) {row : Row}
    {rng rng' : Rng} {visits : List Visit} (h : trainRow cfg fuel row rng = some (visits, rng'))
    (hv : visit ∈ visits) : visit.row = row ∧ Compared cfg fuel k negatives visit := by
  unfold trainRow at h
  dsimp only at h
  split at h
  · cases h
    exact absurd hv List.not_mem_nil
  · split at h
    · cases h
    · obtain ⟨⟨pairs, rng1⟩, hpairs, h⟩ := Option.bind_eq_some_iff.mp h
      cases h
      rw [List.mem_singleton.mp hv]
      unfold rowPairs at hpairs
      rw [hobj] at hpairs
      exact ⟨rfl, rng, rng1, hpairs⟩

theorem trainRows_compared (hobj : cfg.objective.pairwise = some (k, negatives)) {turns : ℕ}
    {rng : Rng} {visits : List Visit} (h : trainRows cfg fuel rows turns rng = some visits)
    (hv : visit ∈ visits) : visit.row ∈ rows ∧ Compared cfg fuel k negatives visit := by
  induction turns generalizing rng visits with
  | zero =>
      cases h
      exact absurd hv List.not_mem_nil
  | succ turns ih =>
      unfold trainRows at h
      rcases rng.nextU64 with ⟨draw, rng1⟩
      dsimp only at h
      obtain ⟨row, hrow, h⟩ := Option.bind_eq_some_iff.mp h
      obtain ⟨⟨now, rng2⟩, hnow, h⟩ := Option.bind_eq_some_iff.mp h
      obtain ⟨later, hlater, h⟩ := Option.bind_eq_some_iff.mp h
      cases h
      rcases List.mem_append.mp hv with hv | hv
      · have hvisit := trainRow_compared hobj hnow hv
        exact ⟨hvisit.1 ▸ List.mem_of_getElem? hrow, hvisit.2⟩
      · exact ih hlater hv

theorem trainRanking_compared (hobj : cfg.objective.pairwise = some (k, negatives))
    {visits : List Visit} (h : trainRanking cfg fuel rows = some visits) (hv : visit ∈ visits) :
    visit.row ∈ rows ∧ Compared cfg fuel k negatives visit := by
  unfold trainRanking at h
  split at h
  · cases h
    exact absurd hv List.not_mem_nil
  · split at h
    · cases h
    · exact trainRows_compared hobj h hv

/-- One finite baseline logit per visible key. -/
structure Row.Labelled (row : Row) : Prop where
  length : row.baseline.length = row.nVisible
  finite : ∀ x ∈ row.baseline, x.isFinite = true

/-- The logits the cap retains. -/
def retained (maxKeys : ℕ) (row : Row) : List F32 := row.baseline.take (min row.nVisible maxKeys)

/-- The keys of a row in their ranking order. -/
def ranking (baseline : List F32) : List ℕ := baselineTopk baseline baseline.length

/-- The labels of a visit are those of the whole row, none is cut off, and the negatives of each
are distinct, are no labels, include the retained keys next in rank and are as many as asked for,
or as there are. -/
structure KeepsLabels (maxKeys k negatives : ℕ) (visit : Visit) : Prop where
  positives : ∀ i, i ∈ visit.pairs.map Prod.fst ↔ i ∈ baselineTopk visit.row.baseline k
  kept : ∀ i ∈ baselineTopk visit.row.baseline k, i < maxKeys
  distinct : ∀ p ∈ visit.pairs, p.2.Nodup
  outside : ∀ p ∈ visit.pairs, ∀ j ∈ p.2, j ∉ baselineTopk visit.row.baseline k
  nearest : ∀ p ∈ visit.pairs, ∀ j,
    j ∈ ((ranking (retained maxKeys visit.row)).drop k).take ((negatives + 1) / 2) → j ∈ p.2
  number : ∀ p ∈ visit.pairs,
    p.2.length = min negatives (min visit.row.nVisible maxKeys - k)

/-- At least `k` keys under the cap have logits no smaller than that of any key past it. -/
def CapHolds (maxKeys k : ℕ) (row : Row) : Prop :=
  ∀ j, maxKeys ≤ j → j < row.nVisible →
    k ≤ ((List.range maxKeys).filter fun i => logit row.baseline j ≤ logit row.baseline i).length

theorem Row.Labelled.kept_iff {row : Row} (h : row.Labelled) (maxKeys k : ℕ) :
    (∀ i ∈ baselineTopk row.baseline k, i < maxKeys) ↔ CapHolds maxKeys k row := by
  rcases Nat.le_total maxKeys row.nVisible with hle | hle
  · rw [topk_kept_iff h.finite (h.length ▸ hle), h.length]
    rfl
  · constructor
    · intro _ j hcut hj
      omega
    · intro _ i hi
      rw [baselineTopk_eq, h.length] at hi
      have hmem := (List.mem_insertionSort _).mp (List.mem_of_mem_take hi)
      exact (List.mem_range.mp hmem).trans_le hle

theorem Compared.keepsLabels (hrow : visit.row.Labelled) (h : Compared cfg fuel k negatives visit)
    (hkept : ∀ i ∈ baselineTopk visit.row.baseline k, i < cfg.maxKeys) :
    KeepsLabels cfg.maxKeys k negatives visit := by
  obtain ⟨rng, rng', hpairs⟩ := h
  obtain ⟨hfst, hdrawn⟩ := addPairwise_drawn hpairs
  have hn : min visit.row.nVisible cfg.maxKeys ≤ visit.row.baseline.length := by
    rw [hrow.length]
    exact min_le_left _ _
  have hcut : ∀ i, i ∈ baselineTopk visit.row.baseline k →
      i < min visit.row.nVisible cfg.maxKeys := by
    intro i hi
    apply lt_min _ (hkept i hi)
    rw [baselineTopk_eq, hrow.length] at hi
    exact List.mem_range.mp ((List.mem_insertionSort _).mp (List.mem_of_mem_take hi))
  have hsame := mem_baselineTopk_cut hrow.finite hn hcut
  constructor
  · intro i
    rw [hfst, hsame]
  · exact hkept
  · exact fun p hp => (hdrawn p hp).nodup
  · intro p hp j hj hlabel
    exact not_mem_topk_of_beyond ((hdrawn p hp).beyond j hj) ((hsame j).mp hlabel)
  · exact fun p hp => (hdrawn p hp).nearest
  · intro p hp
    rw [(hdrawn p hp).length, (ranked_perm _).length_eq, List.length_range, List.length_take,
      min_eq_left hn]

/-- The trainer keeps the labels of the rows in which the cap leaves enough keys to outrank every
key it cuts off, and only of those. -/
theorem keepsLabels_iff_capHolds (hobj : cfg.objective.pairwise = some (k, negatives))
    (hrows : ∀ row ∈ rows, row.Labelled) {visits : List Visit}
    (hrun : trainRanking cfg fuel rows = some visits) (hv : visit ∈ visits) :
    KeepsLabels cfg.maxKeys k negatives visit ↔ CapHolds cfg.maxKeys k visit.row := by
  obtain ⟨hmem, hcompared⟩ := trainRanking_compared hobj hrun hv
  have hrow := hrows _ hmem
  rw [← hrow.kept_iff]
  constructor
  · intro h
    exact h.kept
  · intro h
    exact hcompared.keepsLabels hrow h

end Runs

-- The largest of three logits lies past the cap.
def rising : Row := ⟨[⟨0x3F800000⟩, ⟨0x40000000⟩, ⟨0x40400000⟩], 3⟩

def falling : Row := ⟨[⟨0x40400000⟩, ⟨0x40000000⟩, ⟨0x3F800000⟩], 3⟩

def cappedAtTwo : TrainConfig := ⟨.pairwiseTopK 1 1, 1, 1, 7, 2⟩

theorem capHolds_falling : KeepsLabels 2 1 1 ⟨falling, [(0, [1])]⟩ ↔ CapHolds 2 1 falling :=
  @keepsLabels_iff_capHolds cappedAtTwo 2 1 1 [falling] ⟨falling, [(0, [1])]⟩ rfl
    (fun _ hrow => List.mem_singleton.mp hrow ▸ ⟨rfl, by decide⟩) _ (by decide +kernel)
    (List.mem_singleton_self _)

theorem label_cut_off : rising.Labelled ∧
    trainRanking cappedAtTwo 2 [rising] = some [⟨rising, [(1, [0])]⟩] ∧
      baselineTopk rising.baseline 1 = [2] ∧
      ¬ KeepsLabels cappedAtTwo.maxKeys 1 1 ⟨rising, [(1, [0])]⟩ := by
  refine ⟨⟨rfl, by decide⟩, by decide +kernel, by decide, fun h => ?_⟩
  exact absurd (h.kept 2 (by decide)) (by decide)

end SlhaV2.RankTraining
