import Mathlib.Algebra.BigOperators.Group.Finset.Basic
import Mathlib.Algebra.BigOperators.Group.Finset.Piecewise
import Mathlib.Algebra.Order.BigOperators.Group.Finset
import Mathlib.Algebra.Order.Ring.Nat
import Mathlib.Logic.Relation

/-!
# Forests given by parents

A node is a number and names its parent. When parents come before their
children there are no cycles, and the weight of a subtree is the sum over a
node and everything that descends from it.
-/
namespace SlhaV2.ParentForest

/-- Each parent comes before its children. -/
def Ordered (parent : ℕ → Option ℕ) : Prop := ∀ i p, parent i = some p → p < i

/-- The first node is a strict descendant of the second. -/
def Descends (parent : ℕ → Option ℕ) : ℕ → ℕ → Prop :=
  Relation.TransGen fun i p => parent i = some p

variable {parent parent' : ℕ → Option ℕ} {i a : ℕ}

theorem descends_iff :
    Descends parent i a ↔ ∃ p, parent i = some p ∧ (p = a ∨ Descends parent p a) := by
  constructor
  · intro h
    rcases Relation.TransGen.head'_iff.mp h with ⟨p, hp, hrest⟩
    refine ⟨p, hp, ?_⟩
    rcases Relation.reflTransGen_iff_eq_or_transGen.mp hrest with heq | htrans
    · exact Or.inl heq.symm
    · exact Or.inr htrans
  · rintro ⟨p, hp, rfl | h⟩
    · exact Relation.TransGen.single hp
    · exact Relation.TransGen.head hp h

theorem Descends.lt (hord : Ordered parent) (h : Descends parent i a) : a < i := by
  induction h with
  | single hp => exact hord _ _ hp
  | tail _ hp ih => exact (hord _ _ hp).trans ih

/-- The ancestors of a node depend on the parents up to it only. -/
theorem Descends.congr (hord : Ordered parent) (h : Descends parent i a)
    (hsame : ∀ j ≤ i, parent' j = parent j) : Descends parent' i a := by
  induction h using Relation.TransGen.head_induction_on with
  | single hp => exact Relation.TransGen.single ((hsame _ le_rfl).trans hp)
  | @head j p hp _ ih =>
      have hlt := hord j p hp
      exact Relation.TransGen.head ((hsame j le_rfl).trans hp)
        (ih fun k hk => hsame k (hk.trans hlt.le))

open Classical in
/-- The weight of a node and of all its descendants among the first `n` nodes. -/
noncomputable def weight (parent : ℕ → Option ℕ) (n : ℕ) (w : ℕ → ℕ) (a : ℕ) : ℕ :=
  ∑ j ∈ Finset.range n with j = a ∨ Descends parent j a, w j

open Classical in
theorem le_weight {n : ℕ} (w : ℕ → ℕ) (ha : a < n) : w a ≤ weight parent n w a := by
  unfold weight
  exact Finset.single_le_sum_of_canonicallyOrdered
    (Finset.mem_filter.mpr ⟨Finset.mem_range.mpr ha, Or.inl rfl⟩)

theorem weight_le_weight {n : ℕ} {w v : ℕ → ℕ} (h : ∀ j, w j ≤ v j) :
    weight parent n w a ≤ weight parent n v a := by
  unfold weight
  exact Finset.sum_le_sum fun j _ => h j

open Classical in
/-- Weight added at one node counts for it and for its ancestors. -/
theorem weight_add {n : ℕ} {w v : ℕ → ℕ} {b : ℕ} (hi : i < n) (hiv : v i = w i + b)
    (hother : ∀ j, j ≠ i → v j = w j) : weight parent n v a =
      weight parent n w a + if i = a ∨ Descends parent i a then b else 0 := by
  have hv : ∀ j, v j = w j + if j = i then b else 0 := by
    intro j
    split_ifs with hj
    · rw [hj, hiv]
    · rw [hother j hj, Nat.add_zero]
  unfold weight
  simp only [hv, Finset.sum_add_distrib, Finset.sum_ite_eq', Finset.mem_filter, Finset.mem_range,
    hi, true_and]

theorem descends_congr (hord : Ordered parent) (hord' : Ordered parent')
    (hsame : ∀ j ≤ i, parent' j = parent j) : Descends parent' i a ↔ Descends parent i a :=
  ⟨fun h => h.congr hord' fun j hj => (hsame j hj).symm, fun h => h.congr hord hsame⟩

open Classical in
/-- A new node without weight changes no subtree, and its own has none. -/
theorem weight_succ {n : ℕ} {w v : ℕ → ℕ} (hord : Ordered parent) (hord' : Ordered parent')
    (hparent : ∀ j < n, parent' j = parent j) (hw : ∀ j < n, v j = w j) (hn : v n = 0) :
    weight parent' (n + 1) v a = if a < n then weight parent n w a else 0 := by
  have hlast : (if n = a ∨ Descends parent' n a then v n else 0) = 0 := by
    split_ifs
    · exact hn
    · rfl
  unfold weight
  rw [Finset.sum_filter, Finset.sum_range_succ, hlast, Nat.add_zero]
  split_ifs with ha
  · rw [Finset.sum_filter]
    refine Finset.sum_congr rfl fun j hj => ?_
    have hjn := Finset.mem_range.mp hj
    rw [descends_congr hord hord' fun k hk => hparent k (hk.trans_lt hjn), hw j hjn]
  · refine Finset.sum_eq_zero fun j hj => if_neg ?_
    have hjn := Finset.mem_range.mp hj
    rintro (rfl | hdesc)
    · exact ha hjn
    · exact ha ((hdesc.lt hord').trans hjn)

end SlhaV2.ParentForest
