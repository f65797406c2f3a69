import Mathlib.Algebra.BigOperators.Ring.Finset
import Mathlib.Algebra.BigOperators.Intervals
import Mathlib.Data.Nat.Digits.Defs
import Mathlib.Data.Nat.Bitwise
import Mathlib.Tactic.Ring

/-!
# The Walsh-Hadamard transform

The entry at `i` is the sum of all entries, each with the sign of the bits its
index has in common with `i`. The transform of blocks of `2 ^ s` entries becomes
that of blocks twice as long by replacing entries at distance `2 ^ s` by their
sum and difference. The signs are orthogonal, so the transform is its own
inverse and keeps inner products, up to the number of entries.
-/
namespace SlhaV2.WalshTransform

/-- The number of ones among the binary digits. -/
def popcount (n : ℕ) : ℕ := (Nat.digits 2 n).sum

theorem popcount_eq (n : ℕ) : popcount n = n % 2 + popcount (n / 2) := by
  unfold popcount
  rcases Nat.eq_zero_or_pos n with rfl | hn
  · rfl
  · rw [Nat.digits_def' (by decide) hn, List.sum_cons]

theorem popcount_and (i j : ℕ) :
    popcount (i &&& j) = (i % 2 &&& j % 2) + popcount (i / 2 &&& j / 2) := by
  rw [popcount_eq, Nat.and_div_two]
  congr 1
  exact Nat.and_mod_two_pow (n := 1)

/-- A new top bit counts when the other number has it. -/
theorem popcount_and_add {s b : ℕ} (i : ℕ) (hb : b < 2 ^ s) :
    popcount (i &&& (2 ^ s + b)) = i / 2 ^ s % 2 + popcount (i &&& b) := by
  induction s generalizing i b with
  | zero =>
      obtain rfl := Nat.lt_one_iff.mp hb
      rw [pow_zero, Nat.add_zero, Nat.div_one, Nat.and_zero, Nat.and_one_is_mod, popcount_eq,
        Nat.mod_mod, Nat.mod_div_self]
  | succ s ih =>
      rw [pow_succ] at hb
      rw [popcount_and i, popcount_and i b, pow_succ,
        show (2 ^ s * 2 + b) % 2 = b % 2 by omega, show (2 ^ s * 2 + b) / 2 = 2 ^ s + b / 2 by omega,
        ih (i / 2) (by omega), Nat.div_div_eq_div_mul, Nat.mul_comm 2]
      omega

/-- Higher bits do not count against a small number. -/
theorem popcount_add_and {s b : ℕ} (i m : ℕ) (hb : b < 2 ^ s) :
    popcount ((m * 2 ^ s + i) &&& b) = popcount (i &&& b) := by
  induction s generalizing i b with
  | zero =>
      obtain rfl := Nat.lt_one_iff.mp hb
      rw [Nat.and_zero, Nat.and_zero]
  | succ s ih =>
      rw [pow_succ] at hb
      rw [popcount_and, popcount_and i, pow_succ,
        show (m * (2 ^ s * 2) + i) % 2 = i % 2 by rw [← Nat.mul_assoc]; omega,
        show (m * (2 ^ s * 2) + i) / 2 = m * 2 ^ s + i / 2 by rw [← Nat.mul_assoc]; omega,
        ih (i / 2) (by omega)]

variable {R : Type*} [CommRing R]

/-- The sign at row `i` and column `j`. -/
def sign (R : Type*) [CommRing R] (i j : ℕ) : R := (-1) ^ popcount (i &&& j)

theorem sign_comm (i j : ℕ) : sign R i j = sign R j i := by
  unfold sign
  rw [Nat.and_comm]

/-- A column of the upper half has the signs of the lower half, up to the row's own bit. -/
theorem sign_high {s b : ℕ} (i : ℕ) (hb : b < 2 ^ s) :
    sign R i (2 ^ s + b) = (-1) ^ (i / 2 ^ s % 2) * sign R i b := by
  unfold sign
  rw [popcount_and_add i hb, pow_add]

theorem sign_add {s b : ℕ} (i m : ℕ) (hb : b < 2 ^ s) :
    sign R (m * 2 ^ s + i) b = sign R i b := by
  unfold sign
  rw [popcount_add_and i m hb]

/-- The transform of each block of `2 ^ s` entries. -/
def walsh (s : ℕ) (f : ℕ → R) (i : ℕ) : R :=
  ∑ b ∈ Finset.range (2 ^ s), sign R i b * f (i / 2 ^ s * 2 ^ s + b)

/-- Sums and differences of the entries at distance `2 ^ s`. -/
def stage (s : ℕ) (f : ℕ → R) (i : ℕ) : R :=
  if i / 2 ^ s % 2 = 0 then f i + f (i + 2 ^ s) else f (i - 2 ^ s) - f i

theorem walsh_zero (f : ℕ → R) : walsh 0 f = f := by
  funext i
  simp [walsh, sign, popcount]

theorem sum_range_double (n : ℕ) (f : ℕ → R) :
    ∑ b ∈ Finset.range (n * 2), f b =
      ∑ b ∈ Finset.range n, f b + ∑ b ∈ Finset.range n, f (n + b) := by
  rw [Nat.mul_two, Finset.sum_range_add]

/-- One stage doubles the length of the transformed blocks. -/
theorem stage_walsh (s : ℕ) (f : ℕ → R) : stage s (walsh s f) = walsh (s + 1) f := by
  funext i
  have hpos : 0 < 2 ^ s := Nat.two_pow_pos s
  have hdiv : i / (2 ^ s * 2) = i / 2 ^ s / 2 := (Nat.div_div_eq_div_mul _ _ _).symm
  unfold stage walsh
  rw [pow_succ, sum_range_double, hdiv]
  split_ifs with heven
  · have hbase : i / 2 ^ s / 2 * (2 ^ s * 2) = i / 2 ^ s * 2 ^ s := by
      rw [Nat.mul_comm (2 ^ s), ← Nat.mul_assoc, Nat.div_mul_cancel (Nat.dvd_of_mod_eq_zero heven)]
    have hnext : (i + 2 ^ s) / 2 ^ s = i / 2 ^ s + 1 := Nat.add_div_right i hpos
    rw [hbase, hnext]
    congr 1
    refine Finset.sum_congr rfl fun b hb => ?_
    have hlt := Finset.mem_range.mp hb
    have hsame : sign R (i + 2 ^ s) b = sign R i b := by
      rw [← sign_add i 1 hlt, Nat.one_mul, Nat.add_comm]
    rw [hsame, sign_high i hlt, heven, pow_zero, one_mul, Nat.succ_mul, Nat.add_assoc]
  · have hodd : i / 2 ^ s % 2 = 1 := by omega
    have hle : 2 ^ s ≤ i := by
      by_contra hlt
      rw [Nat.div_eq_of_lt (not_le.mp hlt)] at hodd
      cases hodd
    have hprev : i / 2 ^ s = (i - 2 ^ s) / 2 ^ s + 1 := by
      rw [← Nat.add_div_right _ hpos, Nat.sub_add_cancel hle]
    have hhalf : i / 2 ^ s / 2 * 2 = (i - 2 ^ s) / 2 ^ s := by
      rw [hprev] at hodd ⊢
      generalize (i - 2 ^ s) / 2 ^ s = q at hodd ⊢
      omega
    have hbase : i / 2 ^ s / 2 * (2 ^ s * 2) = (i - 2 ^ s) / 2 ^ s * 2 ^ s := by
      rw [Nat.mul_comm (2 ^ s), ← Nat.mul_assoc, hhalf]
    have hstep : (i - 2 ^ s) / 2 ^ s * 2 ^ s + 2 ^ s = i / 2 ^ s * 2 ^ s := by
      rw [← Nat.succ_mul, hprev]
    rw [hbase, sub_eq_add_neg, ← Finset.sum_neg_distrib]
    congr 1
    · refine Finset.sum_congr rfl fun b hb => ?_
      rw [← sign_add (i - 2 ^ s) 1 (Finset.mem_range.mp hb), Nat.one_mul,
        Nat.add_sub_cancel' hle]
    · refine Finset.sum_congr rfl fun b hb => ?_
      rw [sign_high i (Finset.mem_range.mp hb), hodd, pow_one, ← Nat.add_assoc, hstep]
      ring

theorem sign_mod {s b : ℕ} (i : ℕ) (hb : b < 2 ^ s) : sign R i b = sign R (i % 2 ^ s) b := by
  conv_lhs => rw [← Nat.div_add_mod i (2 ^ s), Nat.mul_comm]
  exact sign_add _ _ hb

/-- Different rows of signs are orthogonal. -/
theorem sum_sign_mul_sign {k i l : ℕ} (hi : i < 2 ^ k) (hl : l < 2 ^ k) :
    ∑ j ∈ Finset.range (2 ^ k), sign R i j * sign R j l = if i = l then 2 ^ k else 0 := by
  induction k generalizing i l with
  | zero =>
      obtain rfl := Nat.lt_one_iff.mp hi
      obtain rfl := Nat.lt_one_iff.mp hl
      simp [sign, popcount]
  | succ k ih =>
      have hpos : 0 < 2 ^ k := Nat.two_pow_pos k
      have hhalves : ∀ j ∈ Finset.range (2 ^ k), sign R i (2 ^ k + j) * sign R (2 ^ k + j) l =
          (-1) ^ (i / 2 ^ k % 2 + l / 2 ^ k % 2) * (sign R i j * sign R j l) := by
        intro j hj
        have hlt := Finset.mem_range.mp hj
        rw [sign_comm (2 ^ k + j) l, sign_high i hlt, sign_high l hlt, sign_comm j l, pow_add]
        ring
      have hlow : ∀ j ∈ Finset.range (2 ^ k), sign R i j * sign R j l =
          sign R (i % 2 ^ k) j * sign R j (l % 2 ^ k) := by
        intro j hj
        have hlt := Finset.mem_range.mp hj
        rw [sign_comm j l, sign_comm j (l % 2 ^ k), ← sign_mod i hlt, ← sign_mod l hlt]
      rw [pow_succ] at hi hl
      have hi₂ : i / 2 ^ k < 2 := Nat.div_lt_of_lt_mul hi
      have hl₂ : l / 2 ^ k < 2 := Nat.div_lt_of_lt_mul hl
      have hiff : i = l ↔ i / 2 ^ k = l / 2 ^ k ∧ i % 2 ^ k = l % 2 ^ k := by
        constructor
        · rintro rfl
          exact ⟨rfl, rfl⟩
        · rintro ⟨hq, hr⟩
          rw [← Nat.div_add_mod i (2 ^ k), hq, hr, Nat.div_add_mod]
      rw [pow_succ, sum_range_double, Finset.sum_congr rfl hhalves, ← Finset.mul_sum,
        Finset.sum_congr rfl hlow, ih (Nat.mod_lt i hpos) (Nat.mod_lt l hpos), pow_succ]
      simp only [hiff, Nat.mod_eq_of_lt hi₂, Nat.mod_eq_of_lt hl₂]
      generalize i / 2 ^ k = p at hi₂
      generalize l / 2 ^ k = q at hl₂
      by_cases hr : i % 2 ^ k = l % 2 ^ k
      · by_cases hpq : p = q
        · subst hpq
          have heven : (-1 : R) ^ (p + p) = 1 := by
            rw [← two_mul, pow_mul, neg_one_sq, one_pow]
          simp only [hr, heven, and_self, if_true]
          ring
        · have hodd : p + q = 1 := by omega
          simp only [hr, hpq, hodd, and_true, if_true, if_false]
          ring
      · simp only [hr, and_false, if_false, mul_zero, add_zero]

theorem walsh_of_lt {k i : ℕ} (f : ℕ → R) (hi : i < 2 ^ k) :
    walsh k f i = ∑ b ∈ Finset.range (2 ^ k), sign R i b * f b := by
  unfold walsh
  rw [Nat.div_eq_of_lt hi, Nat.zero_mul]
  simp only [Nat.zero_add]

/-- The transform inverts itself, up to the number of entries. -/
theorem walsh_walsh {k i : ℕ} (f : ℕ → R) (hi : i < 2 ^ k) :
    walsh k (walsh k f) i = 2 ^ k * f i := by
  calc walsh k (walsh k f) i
      = ∑ j ∈ Finset.range (2 ^ k), ∑ l ∈ Finset.range (2 ^ k),
          sign R i j * sign R j l * f l := by
        rw [walsh_of_lt _ hi]
        refine Finset.sum_congr rfl fun j hj => ?_
        rw [walsh_of_lt f (Finset.mem_range.mp hj), Finset.mul_sum]
        exact Finset.sum_congr rfl fun l _ => (mul_assoc _ _ _).symm
    _ = ∑ l ∈ Finset.range (2 ^ k), (if i = l then 2 ^ k else 0) * f l := by
        rw [Finset.sum_comm]
        refine Finset.sum_congr rfl fun l hl => ?_
        rw [← Finset.sum_mul, sum_sign_mul_sign hi (Finset.mem_range.mp hl)]
    _ = 2 ^ k * f i := by
        simp only [ite_mul, zero_mul, Finset.sum_ite_eq, Finset.mem_range, hi, if_true]

/-- The transform keeps inner products, up to the number of entries. -/
theorem sum_walsh_mul_walsh (k : ℕ) (f g : ℕ → R) :
    ∑ i ∈ Finset.range (2 ^ k), walsh k f i * walsh k g i =
      2 ^ k * ∑ i ∈ Finset.range (2 ^ k), f i * g i := by
  calc ∑ i ∈ Finset.range (2 ^ k), walsh k f i * walsh k g i
      = ∑ i ∈ Finset.range (2 ^ k), ∑ b ∈ Finset.range (2 ^ k),
          sign R b i * walsh k g i * f b := by
        refine Finset.sum_congr rfl fun i hi => ?_
        rw [walsh_of_lt f (Finset.mem_range.mp hi), Finset.sum_mul]
        refine Finset.sum_congr rfl fun b _ => ?_
        rw [sign_comm i b]
        ring
    _ = ∑ b ∈ Finset.range (2 ^ k), walsh k (walsh k g) b * f b := by
        rw [Finset.sum_comm]
        refine Finset.sum_congr rfl fun b hb => ?_
        rw [walsh_of_lt (walsh k g) (Finset.mem_range.mp hb), Finset.sum_mul]
    _ = 2 ^ k * ∑ i ∈ Finset.range (2 ^ k), f i * g i := by
        rw [Finset.mul_sum]
        refine Finset.sum_congr rfl fun b hb => ?_
        rw [walsh_walsh g (Finset.mem_range.mp hb)]
        ring

end SlhaV2.WalshTransform
