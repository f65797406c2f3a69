import Mathlib.Algebra.BigOperators.Group.List.Lemmas
import Mathlib.Algebra.Order.BigOperators.Group.List
import Mathlib.Analysis.SpecialFunctions.Log.Base
import Mathlib.Tactic.Linarith
import SlhaV2.ScaleFit

/-!
# A scale fit does not depend on how its samples are split

Merging makes the accumulators a commutative monoid, and adding a sample is
merging the accumulator of that sample alone. What a fit has counted is then
read off one sample and carried along the merges.
-/
namespace SlhaV2.FitPartition
open ScaleFit ScaleFit.LayerAcc

section Monoid
variable {K : Type} [Field K]

theorem merge_assoc (a b c : LayerAcc K) : (a.merge b).merge c = a.merge (b.merge c) := by
  unfold merge
  simp only [add_assoc]

theorem merge_comm (a b : LayerAcc K) : a.merge b = b.merge a := by
  unfold merge
  congr 1
  all_goals exact add_comm _ _

theorem empty_merge (a : LayerAcc K) : LayerAcc.empty.merge a = a := by
  unfold merge LayerAcc.empty
  simp only [Pi.zero_apply, zero_add]

instance : Add (LayerAcc K) := ⟨merge⟩
instance : Zero (LayerAcc K) := ⟨LayerAcc.empty⟩

/-- Accumulators form a monoid under merging. -/
instance : AddCommMonoid (LayerAcc K) where
  nsmul := nsmulRec
  add_assoc := merge_assoc
  zero_add := empty_merge
  add_zero a := (merge_comm a _).trans (empty_merge a)
  add_comm := merge_comm

theorem merge_eq_add (a b : LayerAcc K) : a.merge b = a + b := rfl

theorem empty_eq_zero : (LayerAcc.empty : LayerAcc K) = 0 := rfl

theorem bump_eq_add {A : Type} [AddCommMonoid A] {m : ℕ} (f : Fin m → A) (i : ℤ) (a : A) :
    bump f i a = fun j => f j + bump 0 i a j := by
  funext j
  unfold bump
  split_ifs <;> simp

/-- An update that adds the same amounts to whatever has been accumulated. -/
def Adds (f : LayerAcc K → LayerAcc K) : Prop := ∀ acc, f acc = acc + f 0

theorem Adds.comp {f g : LayerAcc K → LayerAcc K} (hf : Adds f) (hg : Adds g) :
    Adds fun acc => f (g acc) := by
  intro acc
  calc f (g acc) = f (acc + g 0) := by rw [← hg acc]
    _ = acc + g 0 + f 0 := hf _
    _ = acc + (g 0 + f 0) := add_assoc _ _ _
    _ = acc + f (g 0) := by rw [← hf (g 0)]

theorem adds_id : Adds (fun acc : LayerAcc K => acc) := fun acc => (add_zero acc).symm

theorem addHead_adds (b s : K) (head : ℤ) : Adds fun acc : LayerAcc K => acc.addHead b s head := by
  unfold addHead
  split_ifs
  · intro acc
    rw [← merge_eq_add, ← empty_eq_zero]
    simp only [merge, LayerAcc.empty, add_zero, Pi.zero_apply]
    congr 1
    · exact bump_eq_add _ _ _
    · exact bump_eq_add _ _ _
    · exact bump_eq_add _ _ _
  · intro acc
    rw [← merge_eq_add, ← empty_eq_zero]
    simp [merge, LayerAcc.empty]
  · exact adds_id

theorem layers_mergeLayer (g : Registry K) (layerId : ℤ) (part : LayerAcc K)
    (i : Fin kMaxLayers) : (g.mergeLayer layerId part).layers i =
      if layerId = (i.val : ℤ) then g.layers i + part else g.layers i := by
  unfold Registry.mergeLayer
  have hi := i.isLt
  by_cases heq : layerId = (i.val : ℤ)
  · rw [if_neg (by omega), if_pos heq]
    exact if_pos heq.symm
  · rw [if_neg heq]
    split_ifs with hout
    · rfl
    · exact if_neg (Ne.symm heq)

end Monoid

section Adding
variable {K : Type} [Field K] [LinearOrder K]

theorem addSums_adds (b s : K) : Adds fun acc : LayerAcc K => acc.addSums b s := by
  intro acc
  rw [← merge_eq_add, ← empty_eq_zero]
  simp [addSums, merge, LayerAcc.empty]

variable [FloorRing K]

theorem addPosition_adds (b s : K) (tFrac : Option K) :
    Adds fun acc : LayerAcc K => acc.addPosition b s tFrac := by
  unfold addPosition
  cases tFrac with
  | none => exact adds_id
  | some t =>
      dsimp only
      split_ifs
      · intro acc
        rw [← merge_eq_add, ← empty_eq_zero]
        simp only [merge, LayerAcc.empty, add_zero, Pi.zero_apply]
        congr 1
        · exact bump_eq_add _ _ _
        · exact bump_eq_add _ _ _
        · exact bump_eq_add _ _ _
      · exact adds_id
      · exact adds_id

theorem addMagnitude_adds (log10 : K → K) (s : K) :
    Adds fun acc : LayerAcc K => acc.addMagnitude log10 s := by
  unfold addMagnitude
  dsimp only
  split_ifs
  · intro acc
    rw [← merge_eq_add, ← empty_eq_zero]
    simp only [merge, LayerAcc.empty, add_zero, Pi.zero_apply]
    congr 1
    · exact bump_eq_add _ _ _
    · exact bump_eq_add _ _ _
  · exact adds_id
  · intro acc
    rw [← merge_eq_add, ← empty_eq_zero]
    simp only [merge, LayerAcc.empty, add_zero, Pi.zero_apply]
    congr 1
    exact bump_eq_add _ _ _

theorem addRatio_adds (log10 : K → K) (b s : K) :
    Adds fun acc : LayerAcc K => acc.addRatio log10 b s := by
  unfold addRatio
  dsimp only
  split_ifs
  · intro acc
    rw [← merge_eq_add, ← empty_eq_zero]
    simp only [merge, LayerAcc.empty, add_zero, Pi.zero_apply]
    congr 1
    exact bump_eq_add _ _ _
  · intro acc
    rw [← merge_eq_add, ← empty_eq_zero]
    simp only [merge, LayerAcc.empty, add_zero, Pi.zero_apply]
    congr 1
    exact bump_eq_add _ _ _
  · intro acc
    rw [← merge_eq_add, ← empty_eq_zero]
    simp [merge, LayerAcc.empty]
  · intro acc
    rw [← merge_eq_add, ← empty_eq_zero]
    simp [merge, LayerAcc.empty]

/-- Adding a sample is merging the accumulator of that sample alone. -/
theorem add_adds (log10 : K → K) (x : Sample K) :
    Adds fun acc : LayerAcc K => acc.add log10 x := by
  unfold LayerAcc.add
  cases x.b with
  | none =>
      intro acc
      rw [← merge_eq_add, ← empty_eq_zero]
      simp [merge, LayerAcc.empty]
  | some b =>
      cases x.s with
      | none =>
          intro acc
          rw [← merge_eq_add, ← empty_eq_zero]
          simp [merge, LayerAcc.empty]
      | some s =>
          have hhead := (addHead_adds b s x.head).comp (addSums_adds b s)
          have hposition := (addPosition_adds b s x.tFrac).comp hhead
          have hmagnitude := (addMagnitude_adds log10 s).comp hposition
          exact (addRatio_adds log10 b s).comp hmagnitude

end Adding

section Partition
variable {K : Type} [Field K] [LinearOrder K] [FloorRing K]

/-- All samples added to one accumulator. -/
def accumulate (log10 : K → K) (xs : List (Sample K)) : LayerAcc K :=
  xs.foldl (fun acc x => acc.add log10 x) LayerAcc.empty

theorem foldl_add (log10 : K → K) (xs : List (Sample K)) (acc : LayerAcc K) :
    xs.foldl (fun acc x => acc.add log10 x) acc =
      acc + (xs.map fun x => LayerAcc.empty.add log10 x).sum := by
  induction xs generalizing acc with
  | nil => exact (add_zero acc).symm
  | cons x xs ih =>
      have hx : acc.add log10 x = acc + LayerAcc.empty.add log10 x := add_adds log10 x acc
      simp only [List.foldl_cons, List.map_cons, List.sum_cons]
      rw [ih, hx, add_assoc]

theorem accumulate_eq_sum (log10 : K → K) (xs : List (Sample K)) :
    accumulate log10 xs = (xs.map fun x => LayerAcc.empty.add log10 x).sum :=
  (foldl_add log10 xs _).trans (zero_add _)

theorem accumulate_append (log10 : K → K) (xs ys : List (Sample K)) :
    accumulate log10 (xs ++ ys) = accumulate log10 xs + accumulate log10 ys := by
  rw [accumulate_eq_sum, accumulate_eq_sum, accumulate_eq_sum, List.map_append, List.sum_append]

theorem accumulate_perm (log10 : K → K) {xs ys : List (Sample K)} (h : xs.Perm ys) :
    accumulate log10 xs = accumulate log10 ys := by
  rw [accumulate_eq_sum, accumulate_eq_sum]
  exact (h.map _).sum_eq

/-- How a partial accumulator comes about. -/
inductive Plan (K : Type) where
  | start
  | add (p : Plan K) (x : Sample K)
  | merge (p q : Plan K)

namespace Plan

def run (log10 : K → K) : Plan K → LayerAcc K
  | start => LayerAcc.empty
  | add p x => (p.run log10).add log10 x
  | merge p q => (p.run log10).merge (q.run log10)

def samples {K : Type} : Plan K → List (Sample K)
  | start => []
  | add p x => p.samples ++ [x]
  | merge p q => p.samples ++ q.samples

theorem run_eq (log10 : K → K) (p : Plan K) : p.run log10 = accumulate log10 p.samples := by
  induction p with
  | start => rfl
  | add p x ih =>
      unfold run samples
      rw [ih, accumulate_append]
      exact add_adds log10 x _
  | merge p q hp hq =>
      unfold run samples
      rw [hp, hq, accumulate_append]
      rfl

end Plan

/-- The calls that hand partial accumulators to the process, in the order they get the lock. -/
def mergeCalls (log10 : K → K) (calls : List (ℤ × Plan K)) (g : Registry K) : Registry K :=
  calls.foldl (fun g call => g.mergeLayer call.1 (call.2.run log10)) g

/-- The samples handed to one layer. -/
def handed {K : Type} (calls : List (ℤ × Plan K)) (i : Fin kMaxLayers) : List (Sample K) :=
  (calls.filter fun call => call.1 = (i.val : ℤ)).flatMap fun call => call.2.samples

theorem layers_mergeCalls (log10 : K → K) (calls : List (ℤ × Plan K)) (g : Registry K)
    (i : Fin kMaxLayers) : (mergeCalls log10 calls g).layers i =
      g.layers i + accumulate log10 (handed calls i) := by
  induction calls generalizing g with
  | nil => exact (add_zero _).symm
  | cons call calls ih =>
      have hstep : mergeCalls log10 (call :: calls) g =
        mergeCalls log10 calls (g.mergeLayer call.1 (call.2.run log10)) := rfl
      rw [hstep, ih, layers_mergeLayer]
      unfold handed
      rw [List.filter_cons]
      by_cases heq : call.1 = (i.val : ℤ)
      · rw [if_pos heq, if_pos (by simpa using heq), List.flatMap_cons, accumulate_append,
          Plan.run_eq, add_assoc]
      · rw [if_neg heq, if_neg (by simpa using heq)]

end Partition

section Tally
variable {K : Type} [Field K]

/-- What an accumulator holds of the finite pairs it was given: their number and sums,
and the numbers of the pairs it binned by ratio and by magnitude. -/
structure Tally (acc : LayerAcc K) (pairs : List (K × K)) (nonfinite ratios magnitudes : ℕ) :
    Prop where
  n : acc.n = pairs.length
  nNonfinite : acc.nNonfinite = nonfinite
  ratios : acc.histN + acc.nRobustExcluded = ratios
  hist : ∑ i, acc.hist i = acc.histN
  magnitudes : ∑ i, acc.magN i = magnitudes
  sumBs : acc.sumBs = (pairs.map fun p => p.1 * p.2).sum
  sumS2 : acc.sumS2 = (pairs.map fun p => p.2 * p.2).sum
  sumB2 : acc.sumB2 = (pairs.map fun p => p.1 * p.1).sum
  sumSqErr : acc.sumSqErr = (pairs.map fun p => (p.1 - p.2) * (p.1 - p.2)).sum

theorem Tally.zero : Tally (0 : LayerAcc K) [] 0 0 0 := by
  rw [← empty_eq_zero]
  constructor <;> simp [LayerAcc.empty]

theorem Tally.add {a b : LayerAcc K} {p q : List (K × K)} {nf r m nf' r' m' : ℕ}
    (ha : Tally a p nf r m) (hb : Tally b q nf' r' m') :
    Tally (a + b) (p ++ q) (nf + nf') (r + r') (m + m') := by
  rw [← merge_eq_add]
  constructor
  · simp only [merge, ha.n, hb.n, List.length_append, Nat.cast_add]
  · simp only [merge, ha.nNonfinite, hb.nNonfinite]
  · simp only [merge, ← ha.ratios, ← hb.ratios]
    omega
  · simp only [merge, Finset.sum_add_distrib, ha.hist, hb.hist]
  · simp only [merge, Finset.sum_add_distrib, ha.magnitudes, hb.magnitudes]
  · simp only [merge, ha.sumBs, hb.sumBs, List.map_append, List.sum_append]
  · simp only [merge, ha.sumS2, hb.sumS2, List.map_append, List.sum_append]
  · simp only [merge, ha.sumB2, hb.sumB2, List.map_append, List.sum_append]
  · simp only [merge, ha.sumSqErr, hb.sumSqErr, List.map_append, List.sum_append]

/-- One bump inside the array adds its amount to the total. -/
theorem sum_bump {m : ℕ} {i : ℤ} (h : 0 ≤ i ∧ i < m) : ∑ j, bump (0 : Fin m → ℕ) i 1 j = 1 := by
  obtain ⟨k, hk⟩ := Int.eq_ofNat_of_zero_le h.1
  have hlt : k < m := by omega
  rw [Finset.sum_eq_single (⟨k, hlt⟩ : Fin m)]
  · simp [bump, hk]
  · intro j _ hj
    have hne : ¬ (j.val : ℤ) = i := by
      intro hcon
      apply hj
      ext
      simp only
      omega
    simp [bump, hne]
  · exact fun hout => (hout (Finset.mem_univ _)).elim

theorem addHead_tally (b s : K) (head : ℤ) :
    Tally ((0 : LayerAcc K).addHead b s head) [] 0 0 0 := by
  rw [← empty_eq_zero]
  unfold addHead
  split_ifs <;> constructor <;> simp [LayerAcc.empty]

theorem nonfinite_tally :
    Tally { (0 : LayerAcc K) with nNonfinite := (0 : LayerAcc K).nNonfinite + 1 } [] 1 0 0 := by
  rw [← empty_eq_zero]
  constructor <;> simp [LayerAcc.empty]

variable [LinearOrder K]

theorem addSums_tally (b s : K) : Tally ((0 : LayerAcc K).addSums b s) [(b, s)] 0 0 0 := by
  rw [← empty_eq_zero]
  constructor <;> simp [addSums, LayerAcc.empty]

variable [FloorRing K]

theorem addPosition_tally (b s : K) (tFrac : Option K) :
    Tally ((0 : LayerAcc K).addPosition b s tFrac) [] 0 0 0 := by
  rw [← empty_eq_zero]
  unfold addPosition
  cases tFrac with
  | none => exact Tally.zero
  | some t =>
      dsimp only
      split_ifs <;> constructor <;> simp [LayerAcc.empty]

/-- A finite value falls into one of the bins. -/
theorem binOf_range (v lo hi : K) {nbins : ℕ} (h : 0 < nbins) :
    0 ≤ binOf (some v) lo hi nbins ∧ binOf (some v) lo hi nbins < nbins := by
  unfold binOf
  dsimp only
  split_ifs with hlow hhigh
  · omega
  · omega
  · have hpos := Int.floor_nonneg.mpr (le_of_not_ge hlow)
    have hlt := Int.floor_lt.mpr (lt_of_not_ge hhigh)
    omega

theorem addMagnitude_tally (log10 : K → K) (s : K) :
    Tally ((0 : LayerAcc K).addMagnitude log10 s) [] 0 0 1 := by
  rw [← empty_eq_zero]
  unfold addMagnitude
  dsimp only
  have hrange := binOf_range (log10 |s|) kMagLo kMagHi (by decide : 0 < kMagBins)
  have hzero : (0 : ℤ) ≤ 0 ∧ (0 : ℤ) < kMagBins := by decide
  split_ifs
  · have hsum := sum_bump hrange
    constructor <;> simp [LayerAcc.empty, hsum]
  · have hsum := sum_bump hzero
    constructor <;> simp [LayerAcc.empty, hsum]

theorem addRatio_tally (log10 : K → K) (b s : K) :
    Tally ((0 : LayerAcc K).addRatio log10 b s) [] 0 1 0 := by
  rw [← empty_eq_zero]
  unfold addRatio
  dsimp only
  have hrange := binOf_range (log10 (|b| / |s|)) kHistLo kHistHi (by decide : 0 < kHistBins)
  rw [if_pos hrange]
  split_ifs
  · have hsum := sum_bump hrange
    constructor <;> simp [LayerAcc.empty, hsum]
  · have hsum := sum_bump hrange
    constructor <;> simp [LayerAcc.empty, hsum]
  · constructor <;> simp [LayerAcc.empty]

/-- The pair of a sample, when both of its scores are finite. -/
def pairOf {K : Type} (x : Sample K) : Option (K × K) :=
  match x.b, x.s with
  | some b, some s => some (b, s)
  | _, _ => none

def finitePairs {K : Type} (xs : List (Sample K)) : List (K × K) := xs.filterMap pairOf

/-- A finite pair is counted, binned by magnitude and either binned or excluded by ratio. -/
theorem add_tally (log10 : K → K) (x : Sample K) {b s : K} (hx : pairOf x = some (b, s)) :
    Tally (LayerAcc.empty.add log10 x) [(b, s)] 0 1 1 := by
  obtain ⟨hb, hs⟩ : x.b = some b ∧ x.s = some s := by
    unfold pairOf at hx
    cases hb : x.b with
    | none =>
        rw [hb] at hx
        cases hx
    | some b' =>
        cases hs : x.s with
        | none =>
            rw [hb, hs] at hx
            cases hx
        | some s' =>
            rw [hb, hs] at hx
            obtain ⟨rfl, rfl⟩ := Prod.mk.inj (Option.some_inj.mp hx)
            exact ⟨rfl, rfl⟩
  have hparts : LayerAcc.empty.add log10 x = (0 : LayerAcc K).addSums b s +
      (0 : LayerAcc K).addHead b s x.head + (0 : LayerAcc K).addPosition b s x.tFrac +
      (0 : LayerAcc K).addMagnitude log10 s + (0 : LayerAcc K).addRatio log10 b s := by
    unfold LayerAcc.add
    rw [hb, hs, empty_eq_zero]
    dsimp only
    have hratio : ∀ acc : LayerAcc K, acc.addRatio log10 b s = acc + addRatio log10 0 b s :=
      addRatio_adds log10 b s
    have hmagnitude : ∀ acc : LayerAcc K, acc.addMagnitude log10 s = acc + addMagnitude log10 0 s :=
      addMagnitude_adds log10 s
    have hposition : ∀ acc : LayerAcc K, acc.addPosition b s x.tFrac =
        acc + addPosition 0 b s x.tFrac := addPosition_adds b s x.tFrac
    have hhead : ∀ acc : LayerAcc K, acc.addHead b s x.head = acc + addHead 0 b s x.head :=
      addHead_adds b s x.head
    rw [hratio, hmagnitude, hposition, hhead]
  rw [hparts]
  exact ((((addSums_tally b s).add (addHead_tally b s x.head)).add
    (addPosition_tally b s x.tFrac)).add (addMagnitude_tally log10 s)).add
    (addRatio_tally log10 b s)

theorem add_tally_nonfinite (log10 : K → K) (x : Sample K) (hx : pairOf x = none) :
    Tally (LayerAcc.empty.add log10 x) [] 1 0 0 := by
  have hadd : LayerAcc.empty.add log10 x =
      { (0 : LayerAcc K) with nNonfinite := (0 : LayerAcc K).nNonfinite + 1 } := by
    unfold pairOf at hx
    unfold LayerAcc.add
    cases hb : x.b with
    | none => rfl
    | some b =>
        cases hs : x.s with
        | none => rfl
        | some s =>
            rw [hb, hs] at hx
            cases hx
  rw [hadd]
  exact nonfinite_tally

/-- What a whole sequence leaves behind. -/
theorem accumulate_tally (log10 : K → K) (xs : List (Sample K)) :
    ∃ nonfinite, (finitePairs xs).length + nonfinite = xs.length ∧
      Tally (accumulate log10 xs) (finitePairs xs) nonfinite (finitePairs xs).length
        (finitePairs xs).length := by
  induction xs with
  | nil => exact ⟨0, rfl, Tally.zero⟩
  | cons x xs ih =>
      obtain ⟨nonfinite, hlen, htally⟩ := ih
      have hstep : accumulate log10 (x :: xs) =
          LayerAcc.empty.add log10 x + accumulate log10 xs := by
        rw [accumulate_eq_sum, accumulate_eq_sum, List.map_cons, List.sum_cons]
      rw [hstep]
      unfold finitePairs at hlen htally ⊢
      cases hx : pairOf x with
      | none =>
          have hsum := (add_tally_nonfinite log10 x hx).add htally
          rw [List.nil_append, Nat.zero_add] at hsum
          rw [List.filterMap_cons_none hx]
          refine ⟨1 + nonfinite, ?_, hsum⟩
          rw [List.length_cons]
          omega
      | some p =>
          have hsum := (add_tally log10 x hx).add htally
          rw [List.filterMap_cons_some hx, List.length_cons]
          rw [Nat.zero_add, Nat.add_comm 1] at hsum
          refine ⟨nonfinite, ?_, hsum⟩
          rw [List.length_cons]
          omega

end Tally

section Fit
variable {K : Type} [Field K]

/-- The squared errors under a scale, from the sums. -/
theorem sum_sq_eq (pairs : List (K × K)) (a : K) :
    (pairs.map fun p => (p.1 - a * p.2) ^ 2).sum =
      (pairs.map fun p => p.1 * p.1).sum - 2 * a * (pairs.map fun p => p.1 * p.2).sum +
        a * a * (pairs.map fun p => p.2 * p.2).sum := by
  induction pairs with
  | nil => simp
  | cons p pairs ih =>
      simp only [List.map_cons, List.sum_cons, ih]
      ring

/-- What an accumulator conserves of so many samples. -/
structure Conserved (acc : LayerAcc K) (samples : ℕ) : Prop where
  samples : acc.n + acc.nNonfinite = samples
  ratios : acc.histN + acc.nRobustExcluded = acc.n
  hist : ∑ i, acc.hist i = acc.histN
  magnitudes : ∑ i, (acc.magN i : K) = acc.n

theorem Tally.conserved {acc : LayerAcc K} {pairs : List (K × K)} {nonfinite samples : ℕ}
    (h : Tally acc pairs nonfinite pairs.length pairs.length)
    (hlen : pairs.length + nonfinite = samples) : Conserved acc samples := by
  constructor
  · rw [h.n, h.nNonfinite, ← hlen, Nat.cast_add]
  · rw [h.n, ← h.ratios, Nat.cast_add]
  · exact h.hist
  · rw [h.n, ← h.magnitudes, Nat.cast_sum]

variable [LinearOrder K] [IsStrictOrderedRing K]

theorem sum_sq_nonneg (pairs : List (K × K)) (f : K × K → K) :
    0 ≤ (pairs.map fun p => f p ^ 2).sum := by
  induction pairs with
  | nil => simp
  | cons p pairs ih =>
      simp only [List.map_cons, List.sum_cons]
      exact add_nonneg (sq_nonneg _) ih

/-- Without weight there is nothing to scale. -/
theorem sum_prod_of_sum_sq (pairs : List (K × K)) (h : (pairs.map fun p => p.2 * p.2).sum ≤ 0) :
    (pairs.map fun p => p.1 * p.2).sum = 0 ∧ (pairs.map fun p => p.2 * p.2).sum = 0 := by
  induction pairs with
  | nil => simp
  | cons p pairs ih =>
      have hrest : 0 ≤ (pairs.map fun p => p.2 * p.2).sum := by
        have hsq := sum_sq_nonneg pairs Prod.snd
        simpa only [sq] using hsq
      simp only [List.map_cons, List.sum_cons] at h ⊢
      have hhead : 0 ≤ p.2 * p.2 := mul_self_nonneg _
      obtain ⟨hprod, hsum⟩ := ih (by linarith)
      have hzero : p.2 = 0 := by
        rw [hsum, add_zero] at h
        exact mul_self_eq_zero.mp (le_antisymm h hhead)
      rw [hprod, hsum, hzero]
      simp

/-- What an accumulator reports of its pairs. -/
structure Reports (acc : LayerAcc K) (pairs : List (K × K)) : Prop where
  sseAfter : ∀ a, acc.sseAfter a = (pairs.map fun p => (p.1 - a * p.2) ^ 2).sum
  sseBefore : acc.sseBefore = acc.sseAfter 1
  optimal : ∀ a, acc.sseAfter acc.olsScale ≤ acc.sseAfter a
  reduction : acc.sseBefore - acc.sseAfter acc.olsScale = acc.sseReductionAtOls

theorem Tally.reports {acc : LayerAcc K} {pairs : List (K × K)} {nonfinite ratios magnitudes : ℕ}
    (h : Tally acc pairs nonfinite ratios magnitudes) : Reports acc pairs := by
  have hquad : ∀ a, acc.sumB2 - 2 * a * acc.sumBs + a * a * acc.sumS2 =
      (pairs.map fun p => (p.1 - a * p.2) ^ 2).sum := by
    intro a
    rw [h.sumB2, h.sumBs, h.sumS2]
    exact (sum_sq_eq pairs a).symm
  have hafter : ∀ a, acc.sseAfter a = acc.sumB2 - 2 * a * acc.sumBs + a * a * acc.sumS2 := by
    intro a
    unfold LayerAcc.sseAfter
    rw [hquad]
    exact max_eq_right (sum_sq_nonneg pairs fun p => p.1 - a * p.2)
  have hbefore : acc.sseBefore = acc.sseAfter 1 := by
    rw [hafter, hquad]
    unfold LayerAcc.sseBefore
    rw [h.sumSqErr]
    simp only [one_mul, sq]
  -- without weight the scale is one and nothing depends on it
  have hflat : ¬ 0 < acc.sumS2 → acc.sumBs = 0 ∧ acc.sumS2 = 0 := by
    intro hnot
    rw [h.sumBs, h.sumS2]
    apply sum_prod_of_sum_sq
    rw [← h.sumS2]
    exact le_of_not_gt hnot
  constructor
  · exact fun a => (hafter a).trans (hquad a)
  · exact hbefore
  · intro a
    rw [hafter, hafter]
    unfold LayerAcc.olsScale
    split_ifs with hpos
    · have hne : acc.sumS2 ≠ 0 := ne_of_gt hpos
      have hgap : acc.sumB2 - 2 * a * acc.sumBs + a * a * acc.sumS2 -
          (acc.sumB2 - 2 * (acc.sumBs / acc.sumS2) * acc.sumBs +
            acc.sumBs / acc.sumS2 * (acc.sumBs / acc.sumS2) * acc.sumS2) =
          acc.sumS2 * (a - acc.sumBs / acc.sumS2) ^ 2 := by
        field_simp
        ring
      have hnonneg : 0 ≤ acc.sumS2 * (a - acc.sumBs / acc.sumS2) ^ 2 :=
        mul_nonneg hpos.le (sq_nonneg _)
      linarith
    · obtain ⟨hprod, hsq⟩ := hflat hpos
      rw [hprod, hsq]
      simp
  · rw [hbefore, hafter, hafter]
    unfold LayerAcc.olsScale LayerAcc.sseReductionAtOls
    split_ifs with hpos hle
    · exact absurd hpos (not_lt_of_ge hle)
    · have hne : acc.sumS2 ≠ 0 := ne_of_gt hpos
      field_simp
      ring
    · obtain ⟨hprod, hsq⟩ := hflat hpos
      rw [hprod, hsq]
      simp
    · next hcon => exact (hcon (le_of_not_gt hpos)).elim

end Fit

section Contract
variable {K : Type} [Field K] [LinearOrder K] [IsStrictOrderedRing K] [FloorRing K]

/-- However the samples of a layer are spread over partial accumulators, and in whatever
order these are merged and handed over, the layer holds what one accumulator would hold
of all of them; it loses no sample and reports the errors of the samples. -/
theorem scaleFit_contract (log10 : K → K) (xs : List (Sample K)) (i : Fin kMaxLayers)
    (calls : List (ℤ × Plan K)) (h : (handed calls i).Perm xs) :
    (mergeCalls log10 calls Registry.reset).layers i = accumulate log10 xs ∧
      (∀ p : Plan K, p.samples.Perm xs → p.run log10 = accumulate log10 xs) ∧
      Conserved (accumulate log10 xs) xs.length ∧
      Reports (accumulate log10 xs) (finitePairs xs) := by
  obtain ⟨nonfinite, hlen, htally⟩ := accumulate_tally log10 xs
  refine ⟨?_, ?_, htally.conserved hlen, htally.reports⟩
  · have hreset : (Registry.reset : Registry K).layers i = 0 := rfl
    rw [layers_mergeCalls, hreset, zero_add, accumulate_perm log10 h]
  · intro p hp
    rw [Plan.run_eq, accumulate_perm log10 hp]

end Contract

/-- Two pairs, and a score that is not finite. -/
noncomputable def threeSamples : List (Sample ℝ) :=
  [⟨some 1, some 1, 0, some 0⟩, ⟨none, some 1, 1, none⟩, ⟨some 0, some 1, 40, some 1⟩]

/-- The last sample on one thread and the others on a second, which is handed over later. -/
noncomputable def twoThreads : List (ℤ × Plan ℝ) :=
  [(3, .add .start ⟨some 0, some 1, 40, some 1⟩),
    (3, .add (.add .start ⟨some 1, some 1, 0, some 0⟩) ⟨none, some 1, 1, none⟩)]

theorem scaleFit_contract_two_threads :
    (mergeCalls (Real.logb 10) twoThreads Registry.reset).layers ⟨3, by decide⟩ =
        accumulate (Real.logb 10) threeSamples ∧
      Conserved (accumulate (Real.logb 10) threeSamples) 3 ∧
      (accumulate (Real.logb 10) threeSamples).sseBefore = 1 := by
  have hhanded : handed twoThreads ⟨3, by decide⟩ =
      [⟨some 0, some 1, 40, some 1⟩, ⟨some 1, some 1, 0, some 0⟩, ⟨none, some 1, 1, none⟩] := rfl
  have hperm : (handed twoThreads ⟨3, by decide⟩).Perm threeSamples := by
    rw [hhanded]
    exact @List.perm_append_comm _ [_] [_, _]
  obtain ⟨hlayer, -, hconserved, hreports⟩ :=
    scaleFit_contract (Real.logb 10) threeSamples ⟨3, by decide⟩ twoThreads hperm
  refine ⟨hlayer, hconserved, ?_⟩
  have hpairs : finitePairs threeSamples = [(1, 1), (0, 1)] := rfl
  rw [hreports.sseBefore, hreports.sseAfter, hpairs]
  norm_num

end SlhaV2.FitPartition
