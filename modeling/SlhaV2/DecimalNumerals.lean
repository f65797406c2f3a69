import Mathlib.Data.List.Basic
import Mathlib.Tactic.Ring

/-!
# Decimal numerals

A numeral is a nonempty word of decimal digits, given by their codes. Two texts in different
encodings hold the same numeral when their codes agree.
-/
namespace SlhaV2.DecimalNumerals

def IsDigit (c : ℕ) : Prop := 48 ≤ c ∧ c ≤ 57

instance (c : ℕ) : Decidable (IsDigit c) := inferInstanceAs (Decidable (_ ∧ _))

/-- Reading on from `v`. -/
def valueFrom (v : ℕ) (w : List ℕ) : ℕ := w.foldl (fun v c => 10 * v + (c - 48)) v

structure Numeral (w : List ℕ) (v : ℕ) : Prop where
  nonempty : w ≠ []
  digits : ∀ c ∈ w, IsDigit c
  value : valueFrom 0 w = v

theorem valueFrom_cons (v c : ℕ) (w : List ℕ) :
    valueFrom v (c :: w) = valueFrom (10 * v + (c - 48)) w := List.foldl_cons

theorem le_valueFrom (v : ℕ) (w : List ℕ) : v ≤ valueFrom v w := by
  induction w generalizing v with
  | nil => exact le_rfl
  | cons c w ih =>
      rw [valueFrom_cons]
      apply le_trans _ (ih _)
      omega

theorem valueFrom_lt {v : ℕ} {w : List ℕ} (h : ∀ c ∈ w, IsDigit c) :
    valueFrom v w < (v + 1) * 10 ^ w.length := by
  induction w generalizing v with
  | nil => simp [valueFrom]
  | cons c w ih =>
      have hc := h c List.mem_cons_self
      have hw := @ih (10 * v + (c - 48)) fun d hd => h d (List.mem_cons_of_mem c hd)
      rw [valueFrom_cons, List.length_cons, pow_succ]
      unfold IsDigit at hc
      calc valueFrom (10 * v + (c - 48)) w
          < (10 * v + (c - 48) + 1) * 10 ^ w.length := hw
        _ ≤ ((v + 1) * 10) * 10 ^ w.length := by
          apply Nat.mul_le_mul_right
          omega
        _ = (v + 1) * (10 ^ w.length * 10) := by ring

theorem Numeral.lt {w : List ℕ} {v : ℕ} (h : Numeral w v) : v < 10 ^ w.length := by
  have hlt := @valueFrom_lt 0 w h.digits
  rwa [h.value, Nat.zero_add, Nat.one_mul] at hlt

/-- One digit more, as long as the value stays below the bound. -/
def step (bound v c : ℕ) : Option ℕ :=
  if IsDigit c ∧ 10 * v + (c - 48) < bound then some (10 * v + (c - 48)) else none

def readFrom (bound : ℕ) : ℕ → List ℕ → Option ℕ
  | v, [] => some v
  | v, c :: w => (step bound v c).bind fun u => readFrom bound u w

/-- A prefix of a numeral is no larger, so the bound is met on the way. -/
theorem readFrom_eq_some {bound v u : ℕ} {w : List ℕ} (hv : v < bound) :
    readFrom bound v w = some u ↔ (∀ c ∈ w, IsDigit c) ∧ valueFrom v w = u ∧ u < bound := by
  induction w generalizing v with
  | nil =>
      constructor
      · intro h
        cases h
        exact ⟨nofun, rfl, hv⟩
      · intro h
        exact congrArg some h.2.1
  | cons c w ih =>
      unfold readFrom step
      constructor
      · intro h
        split_ifs at h with hc
        · have hread := (ih hc.2).mp h
          exact ⟨List.forall_mem_cons.mpr ⟨hc.1, hread.1⟩, hread.2⟩
        · cases h
      · intro h
        have hall := List.forall_mem_cons.mp h.1
        have hle : 10 * v + (c - 48) ≤ u := by
          rw [← h.2.1, valueFrom_cons]
          exact le_valueFrom _ _
        have hc := And.intro hall.1 (lt_of_le_of_lt hle h.2.2)
        rw [if_pos hc]
        exact (ih hc.2).mpr ⟨hall.2, h.2⟩

end SlhaV2.DecimalNumerals
