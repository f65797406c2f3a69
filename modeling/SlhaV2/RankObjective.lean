import Mathlib.Analysis.SpecialFunctions.Log.Deriv
import Mathlib.Analysis.SpecialFunctions.ExpDeriv
import SlhaV2.RankTraining
import SlhaV2.SingleFloat
import SlhaV2.SlhaTile

/-!
# The losses of the ranking trainer and their weights

For each row the trainer computes a loss of the scores and, beside it, one weight
a key, which is to be the derivative of the loss by the key's score. The two are
computed by separate formulas. Read over the reals they belong together wherever
none of the guards against a vanishing logarithm or variance is active.
-/
namespace SlhaV2.RankObjective
open FloatingPoint Incoherence SingleFloat Single

/-- The operations of `f32` that the losses need. -/
class Analytic (F : Type) extends Single F, Neg F where
  eq : F → F → Bool
  exp : F → F
  ln : F → F

open Analytic

instance : Analytic Float32 where
  eq x y := x == y
  exp := Float32.exp
  ln := Float32.log

noncomputable instance : Single ℝ where
  lit q := (q : ℝ)
  lt a b := decide (a < b)
  abs x := |x|
  max := Max.max
  round x := if x < 0 then -⌊-x + (1 / 2 : ℚ)⌋ else ⌊x + (1 / 2 : ℚ)⌋
  toInt lo hi x := Max.max lo (min hi (if x < 0 then -⌊-x⌋ else ⌊x⌋))

noncomputable instance : Analytic ℝ where
  eq a b := decide (a = b)
  exp := Real.exp
  ln := Real.log

section Program
variable {F : Type} [Analytic F]

-- Slices are functions of the index, read below the length that stands beside them.
def sumTo (n : ℕ) (f : ℕ → F) : F := (List.range n).foldl (fun s j => s + f j) (lit 0)

/-- `w[j] += f(j)` for every `j` below `n`. -/
def addEach (n : ℕ) (w f : ℕ → F) : ℕ → F := fun j => if j < n then w j + f j else w j

/-- The fold of `f32::max`; an infinity that every number exceeds is no start of its own. -/
def maximum (n : ℕ) (src : ℕ → F) : F :=
  (List.range n).foldl (fun m j => Single.max m (src j)) (src 0)

def softmaxInto (n : ℕ) (src : ℕ → F) (t : F) : ℕ → F :=
  let m := maximum n src
  let e := fun j => exp ((src j - m) / t)
  let sum := sumTo n e
  let inv := if lt (lit 0) sum then lit 1 / sum else lit 0
  fun j => e j * inv

def mean (n : ℕ) (v : ℕ → F) : F := sumTo n v / ofNat n

def variance (n : ℕ) (v : ℕ → F) : F :=
  if n < 2 then lit 0
  else sumTo n (fun j => (v j - mean n v) * (v j - mean n v)) / ofNat n

inductive Objective (F : Type) where
  | l2
  | pairwiseTopK (k : ℕ) (tau : F) (negatives : ℕ)
  | listwise (tTeacher tStudent : F)
  | hybrid (k : ℕ) (tau : F) (negatives : ℕ) (tTeacher tStudent wPairwise wListwise wL2 : F)

/-- What decides which keys are compared. -/
def Objective.labels : Objective F → RankTraining.Objective
  | .l2 => .l2
  | .pairwiseTopK k _ negatives => .pairwiseTopK k negatives
  | .listwise _ _ => .listwise
  | .hybrid k _ negatives _ _ _ _ _ => .hybrid k negatives

def Objective.isL2 : Objective F → Bool
  | .l2 => true
  | _ => false

structure TrainConfig (F : Type) where
  objective : Objective F
  geometryWeight : F
  epochs : ℕ
  lr : F
  batch : ℕ
  seed : UInt64
  maxKeys : ℕ
  l2Scale : F

def TrainConfig.labels (cfg : TrainConfig F) : RankTraining.TrainConfig :=
  ⟨cfg.objective.labels, cfg.epochs, cfg.batch, cfg.seed, cfg.maxKeys⟩

/-- Logistic ranking loss of a margin, in its numerically stable form. -/
def logisticLoss (m : F) : F :=
  if lt (lit 0) m then ln (lit 1 + exp (-m)) else -m + ln (lit 1 + exp m)

/-- One comparison: the weights and the loss after it. -/
def comparePair (tau scale : F) (scores : ℕ → F) (acc : (ℕ → F) × F) (pair : ℕ × ℕ) :
    (ℕ → F) × F :=
  let m := (scores pair.1 - scores pair.2) / tau
  let g := lit (-1) / (lit 1 + exp m)
  let w := Function.update acc.1 pair.1 (acc.1 pair.1 + scale * g / tau)
  (Function.update w pair.2 (w pair.2 - scale * g / tau), acc.2 + logisticLoss m)

/-- The comparisons in the order in which they are made. -/
def flatten (pairs : List (ℕ × List ℕ)) : List (ℕ × ℕ) :=
  pairs.flatMap fun p => p.2.map (p.1, ·)

def addPairwise (tau scale : F) (pairs : List (ℕ × List ℕ)) (scores w : ℕ → F) : (ℕ → F) × F :=
  let acc := (flatten pairs).foldl (comparePair tau scale scores) (w, lit 0)
  (acc.1, scale * acc.2)

def addListwise (n : ℕ) (tTeacher tStudent scale : F) (baseline scores w : ℕ → F) :
    (ℕ → F) × F :=
  let sb := softmaxInto n baseline tTeacher
  let ss := softmaxInto n scores tStudent
  let floor : F := lit (1 / 10 ^ 30)
  let l := (List.range n).foldl (fun l j =>
    if lt (lit 0) (sb j) then l + sb j * ln (Single.max (sb j) floor / Single.max (ss j) floor)
    else l) (lit 0)
  (addEach n w fun j => scale * (ss j - sb j) / tStudent, scale * l)

def addL2 (n : ℕ) (l2Scale scale : F) (baseline scores w : ℕ → F) : (ℕ → F) × F :=
  let norm := Single.max l2Scale (lit (1 / 2 ^ 126))
  let r := fun j => scores j - baseline j
  (addEach n w fun j => scale * lit 2 * r j / (norm * ofNat n),
    scale * sumTo n (fun j => r j * r j / norm) / ofNat n)

def addObjective (cfg : TrainConfig F) (pairs : List (ℕ × List ℕ)) (n : ℕ)
    (baseline scores w : ℕ → F) : (ℕ → F) × F :=
  match cfg.objective with
  | .l2 =>
      let l2 := addL2 n cfg.l2Scale (lit 1) baseline scores w
      (l2.1, lit 0 + l2.2)
  | .pairwiseTopK _ tau _ =>
      let pairwise := addPairwise tau (lit 1) pairs scores w
      (pairwise.1, lit 0 + pairwise.2)
  | .listwise tTeacher tStudent =>
      let listwise := addListwise n tTeacher tStudent (lit 1) baseline scores w
      (listwise.1, lit 0 + listwise.2)
  | .hybrid _ tau _ tTeacher tStudent wPairwise wListwise wL2 =>
      let pairwise := addPairwise tau wPairwise pairs scores w
      let listwise := addListwise n tTeacher tStudent wListwise baseline scores pairwise.1
      let l2 := addL2 n cfg.l2Scale wL2 baseline scores listwise.1
      (l2.1, lit 0 + pairwise.2 + listwise.2 + l2.2)

/-- The penalty applies to every objective but the control. -/
def hasGeometry (cfg : TrainConfig F) (n : ℕ) : Bool :=
  lt (lit 0) cfg.geometryWeight && !cfg.objective.isL2 && decide (2 ≤ n)

/-- The squared logarithm of the ratio of the variances. -/
def addGeometry (cfg : TrainConfig F) (n : ℕ) (baseline scores : ℕ → F) (acc : (ℕ → F) × F) :
    (ℕ → F) × F :=
  if hasGeometry cfg n then
    let vs := Single.max (variance n scores) (lit (1 / 10 ^ 12))
    let vb := Single.max (variance n baseline) (lit (1 / 10 ^ 12))
    let r := ln (vs / vb)
    let c := cfg.geometryWeight * lit 2 * r / vs * (lit 2 / ofNat n)
    (addEach n acc.1 fun j => c * (scores j - mean n scores), acc.2 + cfg.geometryWeight * r * r)
  else acc

/-- The weights and the loss of a row, given the pairs drawn in it. -/
def rowWeights (cfg : TrainConfig F) (pairs : List (ℕ × List ℕ)) (n : ℕ)
    (baseline scores : ℕ → F) : (ℕ → F) × F :=
  if n = 0 then (fun _ => lit 0, lit 0)
  else addGeometry cfg n baseline scores
    (addObjective cfg pairs n baseline scores fun _ => lit 0)

end Program

section Real
open Finset

theorem sumTo_eq (n : ℕ) (f : ℕ → ℝ) : sumTo n f = ∑ j ∈ range n, f j := by
  unfold sumTo
  induction n with
  | zero => simp [Single.lit]
  | succ n ih =>
      rw [List.range_succ, List.foldl_append, ih, sum_range_succ]
      rfl

/-- What a vector of weights says of a change of the scores. -/
def dot (n : ℕ) (w rate : ℕ → ℝ) : ℝ := ∑ j ∈ range n, w j * rate j

variable {n : ℕ} {w rate f : ℕ → ℝ}

theorem dot_addEach : dot n (addEach n w f) rate = dot n w rate + dot n f rate := by
  unfold dot
  rw [← sum_add_distrib]
  apply sum_congr rfl
  intro j hj
  unfold addEach
  rw [if_pos (mem_range.mp hj)]
  exact add_mul _ _ _

theorem dot_const_mul (c : ℝ) : dot n (fun j => c * f j) rate = c * dot n f rate := by
  unfold dot
  rw [mul_sum]
  exact sum_congr rfl fun j _ => mul_assoc _ _ _

theorem dot_update {i : ℕ} (hi : i < n) (c : ℝ) :
    dot n (Function.update w i c) rate = dot n w rate + (c - w i) * rate i := by
  have hmem : i ∈ range n := mem_range.mpr hi
  unfold dot
  rw [← add_sum_erase _ _ hmem, ← add_sum_erase _ (fun j => w j * rate j) hmem,
    Function.update_self]
  have hrest : ∑ j ∈ (range n).erase i, Function.update w i c j * rate j =
      ∑ j ∈ (range n).erase i, w j * rate j := by
    apply sum_congr rfl
    intro j hj
    rw [Function.update_of_ne (ne_of_mem_erase hj)]
  rw [hrest]
  ring

theorem softmaxInto_eq (hn : 0 < n) (src : ℕ → ℝ) (t : ℝ) (j : ℕ) :
    softmaxInto n src t j = Real.exp (src j / t) / ∑ i ∈ range n, Real.exp (src i / t) := by
  have hne : (range n).Nonempty := nonempty_range_iff.mpr hn.ne'
  have hsplit : ∀ i, Real.exp ((src i - maximum n src) / t) =
      Real.exp (src i / t) * Real.exp (-(maximum n src / t)) := by
    intro i
    rw [← Real.exp_add]
    congr 1
    ring
  have hsum : 0 < ∑ i ∈ range n, Real.exp ((src i - maximum n src) / t) :=
    sum_pos (fun i _ => Real.exp_pos _) hne
  have hlit : (Single.lit 0 : ℝ) = 0 := Rat.cast_zero
  have hone : (Single.lit 1 : ℝ) = 1 := Rat.cast_one
  have hpos : Single.lt (Single.lit 0 : ℝ) (sumTo n fun i => Analytic.exp
      ((src i - maximum n src) / t)) = true := by
    rw [sumTo_eq, hlit]
    exact decide_eq_true hsum
  unfold softmaxInto
  dsimp only
  rw [if_pos hpos, sumTo_eq, hone]
  show Real.exp ((src j - maximum n src) / t) *
    (1 / ∑ i ∈ range n, Real.exp ((src i - maximum n src) / t)) = _
  rw [sum_congr rfl fun i _ => hsplit i, ← sum_mul, hsplit j]
  have hexp := (Real.exp_pos (-(maximum n src / t))).ne'
  have hz : ∑ i ∈ range n, Real.exp (src i / t) ≠ 0 :=
    (sum_pos (fun i _ => Real.exp_pos _) hne).ne'
  field_simp

theorem softmaxInto_pos (hn : 0 < n) (src : ℕ → ℝ) (t : ℝ) (j : ℕ) :
    0 < softmaxInto n src t j := by
  rw [softmaxInto_eq hn]
  exact div_pos (Real.exp_pos _)
    (sum_pos (fun i _ => Real.exp_pos _) (nonempty_range_iff.mpr hn.ne'))

theorem sum_softmaxInto (hn : 0 < n) (src : ℕ → ℝ) (t : ℝ) :
    ∑ j ∈ range n, softmaxInto n src t j = 1 := by
  have hz : ∑ i ∈ range n, Real.exp (src i / t) ≠ 0 :=
    (sum_pos (fun i _ => Real.exp_pos _) (nonempty_range_iff.mpr hn.ne')).ne'
  simp_rw [softmaxInto_eq hn]
  rw [← sum_div, div_self hz]

theorem logisticLoss_eq (m : ℝ) : logisticLoss m = Real.log (1 + Real.exp (-m)) := by
  have hone : (Single.lit 1 : ℝ) = 1 := Rat.cast_one
  unfold logisticLoss
  rw [hone]
  split
  · rfl
  · show -m + Real.log (1 + Real.exp m) = _
    have hsplit : 1 + Real.exp m = Real.exp m * (1 + Real.exp (-m)) := by
      rw [mul_add, mul_one, ← Real.exp_add, add_neg_cancel, Real.exp_zero, add_comm]
    have hpos := Real.exp_pos (-m)
    rw [hsplit, Real.log_mul (Real.exp_pos m).ne' (by positivity), Real.log_exp]
    ring

theorem hasDerivAt_logisticLoss {m : ℝ → ℝ} {m' x : ℝ} (hm : HasDerivAt m m' x) :
    HasDerivAt (fun y => logisticLoss (m y)) (-1 / (1 + Real.exp (m x)) * m') x := by
  have hpos : 0 < Real.exp (-m x) := Real.exp_pos _
  have hlog := ((hm.neg.exp.const_add 1).log (ne_of_gt (add_pos one_pos hpos)))
  have hfun : (fun y => logisticLoss (m y)) = fun y => Real.log (1 + Real.exp (-m y)) := by
    funext y
    exact logisticLoss_eq (m y)
  rw [hfun]
  apply hlog.congr_deriv
  rw [Pi.neg_apply, Real.exp_neg]
  have hexp := Real.exp_pos (m x)
  field_simp
  ring

/-- A guard that is not active does not show in the derivative. -/
theorem hasDerivAt_max {g : ℝ → ℝ} {g' x c : ℝ} (hg : HasDerivAt g g' x) (hc : c < g x) :
    HasDerivAt (fun y => Single.max (g y) c) g' x := by
  apply hg.congr_of_eventuallyEq
  filter_upwards [hg.continuousAt.eventually (lt_mem_nhds hc)] with y hy
  exact max_eq_left hy.le

theorem log_max_div {c : ℝ} (hc : 0 < c) (a b : ℝ) :
    Real.log (Single.max a c / Single.max b c) =
      Real.log (Single.max a c) - Real.log (Single.max b c) :=
  Real.log_div (lt_max_of_lt_right hc).ne' (lt_max_of_lt_right hc).ne'

theorem hasDerivAt_log_max {g : ℝ → ℝ} {g' x c : ℝ} (hg : HasDerivAt g g' x) (hc : 0 < c)
    (hlt : c < g x) : HasDerivAt (fun y => Real.log (Single.max (g y) c)) (g' / g x) x := by
  have hlog := (hasDerivAt_max hg hlt).log (lt_max_of_lt_right hc).ne'
  rwa [show Single.max (g x) c = g x from max_eq_left hlt.le] at hlog

variable {s : ℕ → ℝ → ℝ} {x : ℝ}

/-- The scores that the curve passes at a point. -/
def scoresAt (s : ℕ → ℝ → ℝ) (y : ℝ) : ℕ → ℝ := fun j => s j y

theorem scoresAt_swap (f : ℝ → ℕ → ℝ) (y : ℝ) : scoresAt (fun j y => f y j) y = f y := rfl

/-- The derivative of a function of one real. -/
abbrev HasSlope (f : ℝ → ℝ) (slope x : ℝ) : Prop := HasDerivAt f slope x

/-- What a term adds to the loss has the derivative that it adds to the weights. -/
def Consistent (n : ℕ) (s : ℕ → ℝ → ℝ) (rate : ℕ → ℝ) (x : ℝ)
    (term : (ℕ → ℝ) → (ℕ → ℝ) → (ℕ → ℝ) × ℝ) : Prop :=
  ∀ w, HasSlope (fun y => (term (scoresAt s y) w).2)
    (dot n (term (scoresAt s x) w).1 rate - dot n w rate) x

/-- The scores move at the given rates. -/
def Moves (n : ℕ) (s : ℕ → ℝ → ℝ) (rate : ℕ → ℝ) (x : ℝ) : Prop :=
  ∀ j < n, HasSlope (s j) (rate j) x

theorem addL2_consistent (hs : Moves n s rate x) (l2Scale scale : ℝ) (baseline : ℕ → ℝ) :
    Consistent n s rate x (addL2 n l2Scale scale baseline) := by
  intro w
  have hnorm : (0 : ℝ) < Single.max l2Scale (Single.lit (1 / 2 ^ 126)) := by
    apply lt_max_of_lt_right
    show (0 : ℝ) < ((1 / 2 ^ 126 : ℚ) : ℝ)
    positivity
  have htwo : (Single.lit 2 : ℝ) = 2 := Rat.cast_ofNat 2
  unfold addL2
  dsimp only
  generalize Single.max l2Scale (Single.lit (1 / 2 ^ 126)) = norm at hnorm
  rw [dot_addEach, add_sub_cancel_left]
  simp_rw [sumTo_eq]
  have hterm : ∀ j ∈ range n, HasDerivAt
      (fun y => (s j y - baseline j) * (s j y - baseline j) / norm)
      (2 * (s j x - baseline j) * rate j / norm) x := by
    intro j hj
    have hr := (hs j (mem_range.mp hj)).sub_const (baseline j)
    exact ((hr.mul hr).div_const norm).congr_deriv (by ring)
  have hsum := ((HasDerivAt.fun_sum hterm).const_mul scale).div_const (Single.ofNat n)
  apply hsum.congr_deriv
  unfold dot
  rw [mul_sum, sum_div]
  apply sum_congr rfl
  intro j _
  rw [htwo]
  show scale * (2 * (s j x - baseline j) * rate j / norm) / (Single.ofNat n : ℝ) =
    scale * 2 * (s j x - baseline j) / (norm * Single.ofNat n) * rate j
  field_simp

theorem foldl_comparePair_consistent (hs : Moves n s rate x) (tau scale : ℝ)
    {pairs : List (ℕ × ℕ)} (hpairs : ∀ p ∈ pairs, p.1 < n ∧ p.2 < n) (acc : ℝ → (ℕ → ℝ) × ℝ)
    (w : ℕ → ℝ) {e : ℝ} (hacc : HasDerivAt (fun y => (acc y).2) e x)
    (he : scale * e = dot n (acc x).1 rate - dot n w rate) :
    ∃ e', HasDerivAt
        (fun y => (pairs.foldl (comparePair tau scale (scoresAt s y)) (acc y)).2) e' x ∧
      scale * e' =
        dot n (pairs.foldl (comparePair tau scale (scoresAt s x)) (acc x)).1 rate -
          dot n w rate := by
  induction pairs generalizing acc e with
  | nil => exact ⟨e, hacc, he⟩
  | cons p pairs ih =>
      obtain ⟨hi, hj⟩ := hpairs p List.mem_cons_self
      have hmargin := ((hs p.1 hi).sub (hs p.2 hj)).div_const tau
      have hloss := hasDerivAt_logisticLoss hmargin
      simp only [List.foldl_cons]
      apply ih (fun q hq => hpairs q (List.mem_cons_of_mem _ hq))
        (fun y => comparePair tau scale (scoresAt s y) (acc y) p) (hacc.add hloss)
      have hone : (Single.lit 1 : ℝ) = 1 := Rat.cast_one
      have hneg : (Single.lit (-1) : ℝ) = -1 := by simp [Single.lit]
      have hring : ∀ a b g : ℝ, a - b + scale * (g * ((rate p.1 - rate p.2) / tau)) =
          a + scale * g / tau * rate p.1 + -(scale * g / tau) * rate p.2 - b := by
        intro a b g
        ring
      unfold comparePair
      dsimp only
      rw [dot_update hj, dot_update hi, mul_add, he, hone, hneg, add_sub_cancel_left,
        sub_sub_cancel_left]
      exact hring _ _ _

theorem addPairwise_consistent (hs : Moves n s rate x) (tau scale : ℝ)
    {pairs : List (ℕ × List ℕ)} (hpairs : ∀ p ∈ flatten pairs, p.1 < n ∧ p.2 < n) :
    Consistent n s rate x (addPairwise tau scale pairs) := by
  intro w
  have hzero : HasDerivAt (fun _ : ℝ => (Single.lit 0 : ℝ)) 0 x := hasDerivAt_const x _
  obtain ⟨e, he, hdot⟩ := foldl_comparePair_consistent hs tau scale hpairs
    (fun _ => (w, Single.lit 0)) w hzero (by rw [mul_zero, sub_self])
  exact (he.const_mul scale).congr_deriv hdot

/-- The softmax moves towards the keys whose scores move faster than the mean. -/
theorem hasDerivAt_softmaxInto (hn : 0 < n) (hs : Moves n s rate x) (t : ℝ) {j : ℕ} (hj : j < n) :
    HasDerivAt (fun y => softmaxInto n (scoresAt s y) t j)
      (softmaxInto n (scoresAt s x) t j *
        ((rate j - dot n (softmaxInto n (scoresAt s x) t) rate) / t)) x := by
  have hz : ∑ i ∈ range n, Real.exp (s i x / t) ≠ 0 :=
    (sum_pos (fun i _ => Real.exp_pos _) (nonempty_range_iff.mpr hn.ne')).ne'
  have hexp : ∀ i ∈ range n, HasDerivAt (fun y => Real.exp (s i y / t))
      (Real.exp (s i x / t) * (rate i / t)) x :=
    fun i hi => ((hs i (mem_range.mp hi)).div_const t).exp
  have hquot := (hexp j (mem_range.mpr hj)).div (HasDerivAt.fun_sum hexp) hz
  have hfun : (fun y => softmaxInto n (scoresAt s y) t j) =
      fun y => Real.exp (s j y / t) / ∑ i ∈ range n, Real.exp (s i y / t) := by
    funext y
    exact softmaxInto_eq hn _ t j
  have hdot : dot n (softmaxInto n (scoresAt s x) t) rate =
      (∑ i ∈ range n, Real.exp (s i x / t) * rate i) / ∑ i ∈ range n, Real.exp (s i x / t) := by
    unfold dot
    rw [sum_div]
    apply sum_congr rfl
    intro i _
    rw [softmaxInto_eq hn]
    exact div_mul_eq_mul_div _ _ _
  have hrates : ∑ i ∈ range n, Real.exp (s i x / t) * (rate i / t) =
      (∑ i ∈ range n, Real.exp (s i x / t) * rate i) / t := by
    rw [sum_div]
    exact sum_congr rfl fun i _ => (mul_div_assoc _ _ _).symm
  rw [hfun]
  apply hquot.congr_deriv
  rw [hdot, softmaxInto_eq hn, hrates]
  show _ = Real.exp (s j x / t) / (∑ i ∈ range n, Real.exp (s i x / t)) * _
  field_simp

/-- No probability of the student is so small that the guard of the logarithm replaces it. -/
def ListwiseUnclamped (n : ℕ) (tStudent : ℝ) (scores : ℕ → ℝ) : Prop :=
  ∀ j < n, ((1 / 10 ^ 30 : ℚ) : ℝ) < softmaxInto n scores tStudent j

/-- The divergence that the listwise term measures. -/
theorem addListwise_loss (hn : 0 < n) (tTeacher tStudent scale : ℝ) (baseline scores w : ℕ → ℝ) :
    (addListwise n tTeacher tStudent scale baseline scores w).2 =
      scale * ∑ j ∈ range n, softmaxInto n baseline tTeacher j *
        Real.log (Single.max (softmaxInto n baseline tTeacher j) (Single.lit (1 / 10 ^ 30)) /
          Single.max (softmaxInto n scores tStudent j) (Single.lit (1 / 10 ^ 30))) := by
  unfold addListwise
  dsimp only
  have hfold : ∀ m : ℕ, (List.range m).foldl (fun l j =>
      if Single.lt (Single.lit 0) (softmaxInto n baseline tTeacher j) then
        l + softmaxInto n baseline tTeacher j * Analytic.ln
          (Single.max (softmaxInto n baseline tTeacher j) (Single.lit (1 / 10 ^ 30)) /
            Single.max (softmaxInto n scores tStudent j) (Single.lit (1 / 10 ^ 30)))
      else l) (Single.lit 0) =
      ∑ j ∈ range m, softmaxInto n baseline tTeacher j *
        Real.log (Single.max (softmaxInto n baseline tTeacher j) (Single.lit (1 / 10 ^ 30)) /
          Single.max (softmaxInto n scores tStudent j) (Single.lit (1 / 10 ^ 30))) := by
    intro m
    induction m with
    | zero => simp [Single.lit]
    | succ m ih =>
        have hpos : Single.lt (Single.lit 0) (softmaxInto n baseline tTeacher m) = true := by
          apply decide_eq_true
          rw [show (Single.lit 0 : ℝ) = 0 from Rat.cast_zero]
          exact softmaxInto_pos hn _ _ _
        rw [List.range_succ, List.foldl_append, ih, sum_range_succ, List.foldl_cons, if_pos hpos]
        rfl
  rw [hfold n]

theorem addListwise_consistent (hn : 0 < n) (hs : Moves n s rate x) (tTeacher tStudent scale : ℝ)
    (baseline : ℕ → ℝ) (hclamp : ListwiseUnclamped n tStudent (scoresAt s x)) :
    Consistent n s rate x (addListwise n tTeacher tStudent scale baseline) := by
  intro w
  have hfloor : (0 : ℝ) < Single.lit (1 / 10 ^ 30) := by
    show (0 : ℝ) < ((1 / 10 ^ 30 : ℚ) : ℝ)
    positivity
  have hfun : (fun y => (addListwise n tTeacher tStudent scale baseline (scoresAt s y) w).2) =
      fun y => scale * ∑ j ∈ range n, softmaxInto n baseline tTeacher j *
        Real.log (Single.max (softmaxInto n baseline tTeacher j) (Single.lit (1 / 10 ^ 30)) /
          Single.max (softmaxInto n (scoresAt s y) tStudent j) (Single.lit (1 / 10 ^ 30))) := by
    funext y
    exact addListwise_loss hn _ _ _ _ _ _
  have hterm : ∀ j ∈ range n, HasDerivAt (fun y => softmaxInto n baseline tTeacher j *
        Real.log (Single.max (softmaxInto n baseline tTeacher j) (Single.lit (1 / 10 ^ 30)) /
          Single.max (softmaxInto n (scoresAt s y) tStudent j) (Single.lit (1 / 10 ^ 30))))
      (softmaxInto n baseline tTeacher j *
        ((dot n (softmaxInto n (scoresAt s x) tStudent) rate - rate j) / tStudent)) x := by
    intro j hj
    have hstudent := softmaxInto_pos hn (scoresAt s x) tStudent j
    have hlog := hasDerivAt_log_max (hasDerivAt_softmaxInto hn hs tStudent (mem_range.mp hj))
      hfloor (hclamp j (mem_range.mp hj))
    rw [mul_div_cancel_left₀ _ hstudent.ne'] at hlog
    simp_rw [log_max_div hfloor]
    apply ((hlog.const_sub _).const_mul (softmaxInto n baseline tTeacher j)).congr_deriv
    rw [← neg_div, neg_sub]
  have hteach := sum_softmaxInto hn baseline tTeacher
  have hweights : (addListwise n tTeacher tStudent scale baseline (scoresAt s x) w).1 =
      addEach n w fun j => scale * (softmaxInto n (scoresAt s x) tStudent j -
        softmaxInto n baseline tTeacher j) / tStudent := rfl
  rw [hfun, hweights, dot_addEach, add_sub_cancel_left]
  apply ((HasDerivAt.fun_sum hterm).const_mul scale).congr_deriv
  have hsplit : ∑ j ∈ range n, softmaxInto n baseline tTeacher j *
      ((dot n (softmaxInto n (scoresAt s x) tStudent) rate - rate j) / tStudent) =
      (dot n (softmaxInto n (scoresAt s x) tStudent) rate -
        dot n (softmaxInto n baseline tTeacher) rate) / tStudent := by
    calc _ = ∑ j ∈ range n, (softmaxInto n baseline tTeacher j *
            dot n (softmaxInto n (scoresAt s x) tStudent) rate / tStudent -
          softmaxInto n baseline tTeacher j * rate j / tStudent) := by
          apply sum_congr rfl
          intro j _
          ring
      _ = _ := by
          rw [sum_sub_distrib, ← sum_div, ← sum_mul, hteach, one_mul, ← sum_div, ← sub_div]
          rfl
  rw [hsplit]
  unfold dot
  rw [← sum_sub_distrib, sum_div, mul_sum]
  apply sum_congr rfl
  intro j _
  have hring : ∀ a b r t : ℝ, scale * ((a * r - b * r) / t) = scale * (a - b) / t * r := by
    intro a b r t
    ring
  exact hring _ _ _ _

theorem hasDerivAt_variance (hn : 2 ≤ n) (hs : Moves n s rate x) :
    HasDerivAt (fun y => variance n (scoresAt s y))
      (2 / n * dot n (fun j => s j x - mean n (scoresAt s x)) rate) x := by
  have hcard : (n : ℝ) ≠ 0 := by
    have hpos : 0 < n := by omega
    exact_mod_cast hpos.ne'
  have hcast : (Single.ofNat n : ℝ) = n := Rat.cast_natCast n
  have hmeans : ∀ y, mean n (scoresAt s y) = (∑ j ∈ range n, s j y) / n := by
    intro y
    unfold mean
    rw [sumTo_eq, hcast]
    rfl
  have hmean : HasDerivAt (fun y => mean n (scoresAt s y)) ((∑ j ∈ range n, rate j) / n) x := by
    rw [funext hmeans]
    exact (HasDerivAt.fun_sum fun j hj => hs j (mem_range.mp hj)).div_const (n : ℝ)
  have hfun : ∀ y, variance n (scoresAt s y) =
      (∑ j ∈ range n, (s j y - mean n (scoresAt s y)) * (s j y - mean n (scoresAt s y))) / n := by
    intro y
    unfold variance
    rw [if_neg (by omega), sumTo_eq, hcast]
    rfl
  have hterm : ∀ j ∈ range n, HasDerivAt
      (fun y => (s j y - mean n (scoresAt s y)) * (s j y - mean n (scoresAt s y)))
      (2 * ((s j x - mean n (scoresAt s x)) * (rate j - (∑ i ∈ range n, rate i) / n))) x := by
    intro j hj
    have hdiff := (hs j (mem_range.mp hj)).sub hmean
    apply (hdiff.mul hdiff).congr_deriv
    rw [Pi.sub_apply]
    ring
  -- the deviations cancel, and with them what the mean adds
  have hcancel : ∑ j ∈ range n, (s j x - mean n (scoresAt s x)) = 0 := by
    rw [sum_sub_distrib, sum_const, card_range, hmeans, nsmul_eq_mul, mul_div_cancel₀ _ hcard,
      sub_self]
  rw [funext hfun]
  apply ((HasDerivAt.fun_sum hterm).div_const (n : ℝ)).congr_deriv
  rw [← mul_sum, mul_div_right_comm]
  congr 1
  simp_rw [mul_sub]
  rw [sum_sub_distrib, ← sum_mul, hcancel, zero_mul, sub_zero]
  rfl

theorem addGeometry_consistent (hs : Moves n s rate x) (cfg : TrainConfig ℝ) (baseline : ℕ → ℝ)
    (hclamp : hasGeometry cfg n = true →
      ((1 / 10 ^ 12 : ℚ) : ℝ) < variance n (scoresAt s x))
    (acc : ℝ → (ℕ → ℝ) × ℝ)
    (hacc : HasDerivAt (fun y => (acc y).2) (dot n (acc x).1 rate) x) :
    HasDerivAt (fun y => (addGeometry cfg n baseline (scoresAt s y) (acc y)).2)
      (dot n (addGeometry cfg n baseline (scoresAt s x) (acc x)).1 rate) x := by
  unfold addGeometry
  by_cases hgeo : hasGeometry cfg n = true
  · simp only [if_pos hgeo]
    have hn : 2 ≤ n := by
      have h := Bool.and_eq_true_iff.mp hgeo
      exact of_decide_eq_true h.2
    have hfloor : (0 : ℝ) < Single.lit (1 / 10 ^ 12) := by
      show (0 : ℝ) < ((1 / 10 ^ 12 : ℚ) : ℝ)
      positivity
    have htwo : (Single.lit 2 : ℝ) = 2 := Rat.cast_ofNat 2
    have hcast : (Single.ofNat n : ℝ) = n := Rat.cast_natCast n
    have hlarge := hclamp hgeo
    have hvs : Single.max (variance n (scoresAt s x)) (Single.lit (1 / 10 ^ 12)) =
        variance n (scoresAt s x) := max_eq_left hlarge.le
    have hlog := hasDerivAt_log_max (hasDerivAt_variance hn hs) hfloor hlarge
    have hr : HasDerivAt (fun y => Real.log (Single.max (variance n (scoresAt s y))
        (Single.lit (1 / 10 ^ 12)) / Single.max (variance n baseline) (Single.lit (1 / 10 ^ 12))))
        (2 / n * dot n (fun j => s j x - mean n (scoresAt s x)) rate /
          variance n (scoresAt s x)) x := by
      simp_rw [log_max_div hfloor]
      exact hlog.sub_const _
    rw [dot_addEach, dot_const_mul, htwo, hcast]
    apply (hacc.add ((hr.const_mul cfg.geometryWeight).mul hr)).congr_deriv
    have hring : ∀ g r d v : ℝ, g * (2 / n * d / v) * r + g * r * (2 / n * d / v) =
        g * 2 * r / v * (2 / n) * d := by
      intro g r d v
      ring
    rw [hring]
    congr 4
    rw [hvs]
  · simp only [if_neg hgeo]
    exact hacc

/-- The temperature of the student, for the objectives that have a listwise term. -/
def Objective.student : Objective ℝ → Option ℝ
  | .listwise _ tStudent | .hybrid _ _ _ _ tStudent _ _ _ => some tStudent
  | .l2 | .pairwiseTopK _ _ _ => none

/-- No guard is active at these scores. -/
structure Unclamped (cfg : TrainConfig ℝ) (n : ℕ) (scores : ℕ → ℝ) : Prop where
  listwise : ∀ t ∈ cfg.objective.student, ListwiseUnclamped n t scores
  geometry : hasGeometry cfg n = true → ((1 / 10 ^ 12 : ℚ) : ℝ) < variance n scores

theorem addObjective_consistent (hn : 0 < n) (hs : Moves n s rate x) {cfg : TrainConfig ℝ}
    {pairs : List (ℕ × List ℕ)} (hpairs : ∀ p ∈ flatten pairs, p.1 < n ∧ p.2 < n)
    (baseline : ℕ → ℝ) (hclamp : Unclamped cfg n (scoresAt s x)) :
    Consistent n s rate x (addObjective cfg pairs n baseline) := by
  intro w
  have hlist := hclamp.listwise
  unfold addObjective
  cases hobj : cfg.objective with
  | l2 =>
      exact (addL2_consistent hs cfg.l2Scale _ baseline w).const_add _
  | pairwiseTopK k tau negatives =>
      exact (addPairwise_consistent hs tau _ hpairs w).const_add _
  | listwise tTeacher tStudent =>
      rw [hobj] at hlist
      exact (addListwise_consistent hn hs tTeacher tStudent _ baseline
        (hlist _ rfl) w).const_add _
  | hybrid k tau negatives tTeacher tStudent wPairwise wListwise wL2 =>
      rw [hobj] at hlist
      have hpair := addPairwise_consistent hs tau wPairwise hpairs w
      have hdiv := addListwise_consistent hn hs tTeacher tStudent wListwise baseline
        (hlist _ rfl) (addPairwise tau wPairwise pairs (scoresAt s x) w).1
      have hl2 := addL2_consistent hs cfg.l2Scale wL2 baseline
        (addListwise n tTeacher tStudent wListwise baseline (scoresAt s x)
          (addPairwise tau wPairwise pairs (scoresAt s x) w).1).1
      apply (((hpair.const_add _).add hdiv).add hl2).congr_deriv
      ring

/-- The weights of a row are the derivatives of its loss. -/
theorem hasDerivAt_rowWeights (hs : Moves n s rate x) {cfg : TrainConfig ℝ}
    {pairs : List (ℕ × List ℕ)} (hpairs : ∀ p ∈ flatten pairs, p.1 < n ∧ p.2 < n)
    (baseline : ℕ → ℝ) (hclamp : Unclamped cfg n (scoresAt s x)) :
    HasDerivAt (fun y => (rowWeights cfg pairs n baseline (scoresAt s y)).2)
      (dot n (rowWeights cfg pairs n baseline (scoresAt s x)).1 rate) x := by
  unfold rowWeights
  by_cases hn : n = 0
  · simp only [if_pos hn]
    apply (hasDerivAt_const x _).congr_deriv
    subst hn
    rfl
  · simp only [if_neg hn]
    apply addGeometry_consistent hs cfg baseline hclamp.geometry
      (fun y => addObjective cfg pairs n baseline (scoresAt s y) fun _ => Single.lit 0)
    apply (addObjective_consistent (Nat.pos_of_ne_zero hn) hs hpairs baseline hclamp _).congr_deriv
    have hzero : dot n (fun _ => Single.lit 0) rate = 0 := by
      apply sum_eq_zero
      intro j _
      rw [show (Single.lit 0 : ℝ) = 0 from Rat.cast_zero, zero_mul]
    rw [hzero, sub_zero]

end Real

end SlhaV2.RankObjective
