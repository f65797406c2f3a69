import Mathlib.Data.List.ReduceOption
import Mathlib.Algebra.BigOperators.Group.List.Basic
import Mathlib.Algebra.Order.BigOperators.Group.List
import Mathlib.Algebra.Order.Ring.Nat
import Mathlib.Algebra.BigOperators.Ring.List

/-!
# Vectors of optional entries and their totals

A position may be a hole. Totals range over the entries that are present, and
one update changes a total by the weights of the two entries it exchanges.
-/
namespace SlhaV2.SlotVector

variable {α : Type}

/-- The entry at a position, when the position exists and is not a hole. -/
def slotAt (xs : List (Option α)) (i : ℕ) : Option α := xs[i]?.join

/-- Sum of a weight over the present entries. -/
def total (w : α → ℕ) (xs : List (Option α)) : ℕ := (xs.reduceOption.map w).sum

def weight (w : α → ℕ) (o : Option α) : ℕ := o.elim 0 w

@[simp] theorem weight_none (w : α → ℕ) : weight w none = 0 := rfl
@[simp] theorem weight_some (w : α → ℕ) (a : α) : weight w (some a) = w a := rfl
@[simp] theorem total_nil (w : α → ℕ) : total w [] = 0 := rfl

@[simp] theorem total_cons (w : α → ℕ) (o : Option α) (xs : List (Option α)) :
    total w (o :: xs) = weight w o + total w xs := by
  cases o with
  | none => simp [total, List.reduceOption_cons_of_none]
  | some a => simp [total, List.reduceOption_cons_of_some]

theorem total_append (w : α → ℕ) (xs ys : List (Option α)) :
    total w (xs ++ ys) = total w xs + total w ys := by
  simp [total, List.reduceOption_append]

@[simp] theorem total_replicate_none (w : α → ℕ) (n : ℕ) :
    total w (List.replicate n none) = 0 := by
  simp [total, List.reduceOption_replicate_none]

theorem slotAt_lt {xs : List (Option α)} {i : ℕ} {a : α} (h : slotAt xs i = some a) :
    i < xs.length := by
  by_contra hi
  rw [slotAt, List.getElem?_eq_none (by omega)] at h
  cases h

theorem slotAt_of_le {xs : List (Option α)} {i : ℕ} (h : xs.length ≤ i) : slotAt xs i = none := by
  rw [slotAt, List.getElem?_eq_none h]
  rfl

theorem slotAt_set_self {xs : List (Option α)} {i : ℕ} (h : i < xs.length) (o : Option α) :
    slotAt (xs.set i o) i = o := by
  rw [slotAt, List.getElem?_set_self h]
  rfl

theorem slotAt_set_of_ne {xs : List (Option α)} {i j : ℕ} (h : i ≠ j) (o : Option α) :
    slotAt (xs.set i o) j = slotAt xs j := by
  rw [slotAt, List.getElem?_set_ne h, slotAt]

theorem slotAt_append_left {xs ys : List (Option α)} {i : ℕ} (h : i < xs.length) :
    slotAt (xs ++ ys) i = slotAt xs i := by
  rw [slotAt, List.getElem?_append_left h, slotAt]

/-- Holes appended at the end hold nothing. -/
theorem slotAt_append_none (xs : List (Option α)) (n i : ℕ) :
    slotAt (xs ++ List.replicate n none) i = slotAt xs i := by
  by_cases h : i < xs.length
  · exact slotAt_append_left h
  · rw [slotAt_of_le (Nat.le_of_not_lt h), slotAt, List.getElem?_append_right (by omega),
      List.getElem?_replicate]
    split_ifs <;> rfl

theorem slotAt_append_length (xs : List (Option α)) (o : Option α) :
    slotAt (xs ++ [o]) xs.length = o := by
  rw [slotAt, List.getElem?_concat_length]
  rfl

/-- An entry is present at some position exactly when it occurs in the vector. -/
theorem exists_slotAt_iff {xs : List (Option α)} {a : α} :
    (∃ i, slotAt xs i = some a) ↔ some a ∈ xs := by
  constructor
  · rintro ⟨i, h⟩
    rw [slotAt, Option.join_eq_some_iff] at h
    exact List.mem_of_getElem? h
  · intro h
    obtain ⟨i, hi⟩ := List.mem_iff_getElem?.mp h
    exact ⟨i, by rw [slotAt, hi]; rfl⟩

/-- One write exchanges one weight for another. -/
theorem total_set (w : α → ℕ) (xs : List (Option α)) (i : ℕ) (o : Option α)
    (h : i < xs.length) :
    total w (xs.set i o) + weight w (slotAt xs i) = total w xs + weight w o := by
  induction xs generalizing i with
  | nil => simp at h
  | cons x xs ih =>
      cases i with
      | zero =>
          simp only [List.set_cons_zero, total_cons, slotAt, List.getElem?_cons_zero,
            Option.join_some]
          omega
      | succ i =>
          have hi := ih i (by simpa using h)
          simp only [slotAt] at hi
          simp only [List.set_cons_succ, total_cons, slotAt, List.getElem?_cons_succ]
          omega

/-- Emptying a position takes its weight out, also where there is none. -/
theorem total_set_none (w : α → ℕ) (xs : List (Option α)) (i : ℕ) :
    total w (xs.set i none) + weight w (slotAt xs i) = total w xs := by
  by_cases h : i < xs.length
  · have ht := total_set w xs i none h
    rw [weight_none] at ht
    exact ht
  · rw [List.set_eq_of_length_le (Nat.le_of_not_lt h), slotAt_of_le (Nat.le_of_not_lt h)]
    rfl

/-- A present entry is counted. -/
theorem weight_le_total (w : α → ℕ) {xs : List (Option α)} {i : ℕ} {a : α}
    (h : slotAt xs i = some a) : w a ≤ total w xs := by
  have ht := total_set w xs i none (slotAt_lt h)
  rw [h, weight_some, weight_none] at ht
  omega

theorem total_le_total {w v : α → ℕ} {xs : List (Option α)}
    (h : ∀ i a, slotAt xs i = some a → w a ≤ v a) : total w xs ≤ total v xs := by
  unfold total
  apply List.sum_le_sum
  intro a ha
  obtain ⟨i, hi⟩ := exists_slotAt_iff.mpr (List.reduceOption_mem_iff.mp ha)
  exact h i a hi

theorem total_add (w v : α → ℕ) (xs : List (Option α)) :
    total (fun a => w a + v a) xs = total w xs + total v xs := by
  simp [total, List.sum_map_add]

theorem total_mul_left (k : ℕ) (w : α → ℕ) (xs : List (Option α)) :
    total (fun a => k * w a) xs = k * total w xs := by
  simp [total, List.sum_map_mul_left]

theorem total_congr {w v : α → ℕ} {xs : List (Option α)}
    (h : ∀ i a, slotAt xs i = some a → w a = v a) : total w xs = total v xs :=
  le_antisymm (total_le_total fun i a ha => (h i a ha).le)
    (total_le_total fun i a ha => (h i a ha).ge)

/-- Two vectors that agree on their length and at every position are one. -/
theorem slotAt_ext {xs ys : List (Option α)} (hlen : xs.length = ys.length)
    (h : ∀ i, slotAt xs i = slotAt ys i) : xs = ys := by
  apply List.ext_getElem hlen
  intro i hx hy
  have hi := h i
  rw [slotAt, slotAt, List.getElem?_eq_getElem hx, List.getElem?_eq_getElem hy] at hi
  exact hi

/-- Totals follow the weights position by position. -/
theorem total_le_of_slotAt {w : α → ℕ} {xs ys : List (Option α)}
    (hlen : xs.length = ys.length)
    (h : ∀ i, weight w (slotAt xs i) ≤ weight w (slotAt ys i)) : total w xs ≤ total w ys := by
  induction xs generalizing ys with
  | nil => exact Nat.zero_le _
  | cons x xs ih =>
      cases ys with
      | nil => simp at hlen
      | cons y ys =>
          have hhead : weight w x ≤ weight w y := h 0
          have htail : total w xs ≤ total w ys :=
            ih (by simpa using hlen) (fun i => h (i + 1))
          rw [total_cons, total_cons]
          omega

/-- No more entries are present than there are positions. -/
theorem total_one_le (xs : List (Option α)) : total (fun _ => 1) xs ≤ xs.length := by
  induction xs with
  | nil => exact le_rfl
  | cons o xs ih =>
      have ho : weight (fun _ => 1) o ≤ 1 := by cases o <;> simp
      rw [total_cons, List.length_cons]
      omega

end SlhaV2.SlotVector
