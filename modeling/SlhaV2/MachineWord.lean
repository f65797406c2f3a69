import Mathlib.Algebra.BigOperators.Group.List.Basic
import Mathlib.Algebra.Order.Ring.Nat
import Mathlib.Tactic.SplitIfs

/-!
# Sixty-four-bit unsigned arithmetic over natural numbers

Counters are natural numbers; the width appears only where an operation can
see it. Saturating and checked operations are the ones of the host language.
A plain subtraction that would wrap is an error of its own kind, never zero.
-/
namespace SlhaV2.MachineWord

/-- The largest value of an unsigned sixty-four-bit word. -/
def maxWord : ℕ := 2 ^ 64 - 1

def satAdd (a b : ℕ) : ℕ := min (a + b) maxWord

def satMul (a b : ℕ) : ℕ := min (a * b) maxWord

def checkedAdd (a b : ℕ) : Option ℕ := if a + b ≤ maxWord then some (a + b) else none

def checkedSub (a b : ℕ) : Option ℕ := if b ≤ a then some (a - b) else none

def checkedMul (a b : ℕ) : Option ℕ := if a * b ≤ maxWord then some (a * b) else none

/-- Rounding division, `div_ceil`. -/
def divCeil (a b : ℕ) : ℕ := if a % b = 0 then a / b else a / b + 1

/-- A call that does not return a value either reports an error or unwinds. -/
inductive Fault where
  | err (msg : String)
  | panic
deriving DecidableEq, Repr

abbrev Outcome (α : Type) := Except Fault α

/-- A sum of words with overflow checks on: the total, or a panic. -/
def checkedSum (xs : List ℕ) : Outcome ℕ :=
  if xs.sum ≤ maxWord then .ok xs.sum else .error .panic

/-- An unchecked subtraction panics instead of wrapping. -/
def wordSub (a b : ℕ) : Outcome ℕ := if b ≤ a then .ok (a - b) else .error .panic

def Succeeded {α : Type} (r : Outcome α) : Prop := ∃ a, r = .ok a

instance {α : Type} (r : Outcome α) : Decidable (Succeeded r) :=
  match r with
  | .ok a => isTrue ⟨a, rfl⟩
  | .error _ => isFalse (fun h => by obtain ⟨a, ha⟩ := h; cases ha)

@[simp] theorem succeeded_ok {α : Type} (a : α) : Succeeded (.ok a : Outcome α) := ⟨a, rfl⟩

@[simp] theorem not_succeeded_error {α : Type} (e : Fault) :
    ¬ Succeeded (.error e : Outcome α) := by
  rintro ⟨a, h⟩
  cases h

theorem satAdd_eq {a b : ℕ} (h : a + b ≤ maxWord) : satAdd a b = a + b := min_eq_left h

theorem le_satAdd {a b : ℕ} (h : a ≤ maxWord) : a ≤ satAdd a b :=
  le_min (Nat.le_add_right a b) h

/-- Saturation does not hide that a sum passed a smaller bound. -/
theorem lt_satAdd {a b n : ℕ} (h : n < a + b) (hn : n < maxWord) : n < satAdd a b :=
  lt_min h hn

theorem checkedAdd_eq_some {a b c : ℕ} :
    checkedAdd a b = some c ↔ a + b ≤ maxWord ∧ c = a + b := by
  unfold checkedAdd
  split_ifs with h
  · simp [h, eq_comm]
  · simp [h]

theorem checkedSub_eq_some {a b c : ℕ} : checkedSub a b = some c ↔ b ≤ a ∧ c = a - b := by
  unfold checkedSub
  split_ifs with h
  · simp [h, eq_comm]
  · simp [h]

theorem checkedMul_eq_some {a b c : ℕ} :
    checkedMul a b = some c ↔ a * b ≤ maxWord ∧ c = a * b := by
  unfold checkedMul
  split_ifs with h
  · simp [h, eq_comm]
  · simp [h]

theorem checkedSum_ok {xs : List ℕ} (h : xs.sum ≤ maxWord) : checkedSum xs = .ok xs.sum :=
  if_pos h

end SlhaV2.MachineWord
