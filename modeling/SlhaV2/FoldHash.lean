import Mathlib.Data.List.Basic
import Mathlib.Logic.Function.Basic

/-!
# Checksums computed by a fold

A hash that folds a step over its input is changed by every change of a single
input, as long as the step loses nothing: it is injective in the state, and
injective in the input.
-/
namespace SlhaV2.FoldHash

variable {σ β : Type}

structure Lossless (step : σ → β → σ) : Prop where
  state : ∀ b, Function.Injective fun s => step s b
  input : ∀ s, Function.Injective (step s)

namespace Lossless
variable {step : σ → β → σ}

theorem foldl_injective (h : Lossless step) (l : List β) :
    Function.Injective fun s => l.foldl step s := by
  induction l with
  | nil => exact fun _ _ heq => heq
  | cons b l ih => exact fun s t heq => h.state b (ih heq)

theorem foldl_append_cons_ne (h : Lossless step) {a b : β} (hab : a ≠ b) (pre post : List β)
    (s : σ) : (pre ++ a :: post).foldl step s ≠ (pre ++ b :: post).foldl step s := by
  simp only [List.foldl_append, List.foldl_cons]
  intro heq
  exact hab (h.input _ (h.foldl_injective post heq))

/-- Replacing one input by another one changes the hash. -/
theorem foldl_set_ne (h : Lossless step) {l : List β} {i : ℕ} (hi : i < l.length) {b : β}
    (hb : l[i]? ≠ some b) (s : σ) : (l.set i b).foldl step s ≠ l.foldl step s := by
  have hne : l[i] ≠ b := fun heq => hb (by rw [List.getElem?_eq_getElem hi, heq])
  have hsplit : l = l.take i ++ l[i] :: l.drop (i + 1) := by simp
  have hset : l.set i b = l.take i ++ b :: l.drop (i + 1) := List.set_eq_take_append_cons_drop.trans
    (if_pos hi)
  rw [hset]
  conv_rhs => rw [hsplit]
  exact (h.foldl_append_cons_ne hne _ _ s).symm

end Lossless

end SlhaV2.FoldHash
