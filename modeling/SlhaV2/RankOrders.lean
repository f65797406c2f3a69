import Mathlib.Data.List.Perm.Basic
import Mathlib.Data.List.Sort
import Mathlib.Order.Defs.LinearOrder
import Mathlib.Tactic.SplitIfs

/-!
# Ranking and writing by rank

Positions ranked by value, the largest first and the earlier one of equals; and a row that
is written position by position in some order. What is written in the order of one ranking
is read back in that order.
-/
namespace SlhaV2.RankOrders

section Ranking
variable {α : Type} [LinearOrder α] (v : ℕ → α)

/-- The larger value comes first, and of equal values the earlier position. -/
def RankLe (a b : ℕ) : Prop := v b < v a ∨ v a = v b ∧ a ≤ b

instance : DecidableRel (RankLe v) := fun _ _ => inferInstanceAs (Decidable (_ ∨ _))

instance : Std.Total (RankLe v) where
  total a b := by
    rcases lt_trichotomy (v a) (v b) with h | h | h
    · exact .inr (.inl h)
    · rcases Nat.le_total a b with hab | hab
      · exact .inl (.inr ⟨h, hab⟩)
      · exact .inr (.inr ⟨h.symm, hab⟩)
    · exact .inl (.inl h)

instance : IsTrans ℕ (RankLe v) where
  trans a b c := by
    rintro (hab | ⟨hab, hle⟩) (hbc | ⟨hbc, hle'⟩)
    · exact .inl (hbc.trans hab)
    · exact .inl (hbc ▸ hab)
    · exact .inl (hab ▸ hbc)
    · exact .inr ⟨hab.trans hbc, hle.trans hle'⟩

instance : Std.Antisymm (RankLe v) where
  antisymm a b := by
    rintro (hab | ⟨hab, hle⟩) (hba | ⟨hba, hle'⟩)
    · exact absurd hab hba.asymm
    · exact absurd hba hab.ne
    · exact absurd hab hba.ne
    · exact Nat.le_antisymm hle hle'

/-- The positions below `n`, ranked. -/
def ranking (n : ℕ) : List ℕ := (List.range n).insertionSort (RankLe v)

variable {v} {n : ℕ}

theorem ranking_perm : (ranking v n).Perm (List.range n) := List.perm_insertionSort _ _

theorem length_ranking : (ranking v n).length = n := ranking_perm.length_eq.trans List.length_range

theorem nodup_ranking : (ranking v n).Nodup := ranking_perm.nodup_iff.mpr List.nodup_range

theorem mem_ranking {a : ℕ} : a ∈ ranking v n ↔ a < n := ranking_perm.mem_iff.trans List.mem_range

theorem pairwise_ranking : (ranking v n).Pairwise (RankLe v) := List.pairwise_insertionSort _ _

/-- Values do not increase along the ranking. -/
theorem ranking_values : (ranking v n).Pairwise fun a b => v b ≤ v a :=
  pairwise_ranking.imp fun h => h.elim le_of_lt fun heq => heq.1.ge

end Ranking

section Writing
variable {β : Type}

/-- One write after the other. -/
def scatter (out : List β) (writes : List (ℕ × β)) : List β :=
  writes.foldl (fun out w => out.set w.1 w.2) out

variable {out : List β} {writes : List (ℕ × β)}

theorem length_scatter : (scatter out writes).length = out.length := by
  induction writes generalizing out with
  | nil => rfl
  | cons w writes ih =>
      change (scatter (out.set w.1 w.2) writes).length = _
      rw [ih, List.length_set]

/-- A position that is not written keeps what it has. -/
theorem scatter_of_not_mem {k : ℕ} (h : k ∉ writes.map Prod.fst) :
    (scatter out writes)[k]? = out[k]? := by
  induction writes generalizing out with
  | nil => rfl
  | cons w writes ih =>
      rw [List.map_cons, List.mem_cons, not_or] at h
      change (scatter (out.set w.1 w.2) writes)[k]? = _
      rw [ih h.2, List.getElem?_set_ne fun heq => h.1 heq.symm]

/-- Positions that are written once are read back in the order of the writes. -/
theorem scatter_map (hnodup : (writes.map Prod.fst).Nodup)
    (hin : ∀ w ∈ writes, w.1 < out.length) :
    (writes.map Prod.fst).map (fun k => (scatter out writes)[k]?) =
      writes.map fun w => some w.2 := by
  induction writes generalizing out with
  | nil => rfl
  | cons w writes ih =>
      rw [List.map_cons, List.nodup_cons] at hnodup
      rw [List.forall_mem_cons] at hin
      change (scatter (out.set w.1 w.2) writes)[w.1]? :: _ = some w.2 :: _
      congr 1
      · rw [scatter_of_not_mem hnodup.1]
        exact List.getElem?_set_self hin.1
      · apply ih hnodup.2
        intro u hu
        rw [List.length_set]
        exact hin.2 u hu

/-- Positions written once each make up the row. -/
theorem scatter_perm (hkeys : (writes.map Prod.fst).Perm (List.range out.length)) :
    (scatter out writes).Perm (writes.map Prod.snd) := by
  have hnodup : (writes.map Prod.fst).Nodup := hkeys.nodup_iff.mpr List.nodup_range
  have hin : ∀ w ∈ writes, w.1 < out.length := by
    intro w hw
    exact List.mem_range.mp (hkeys.mem_iff.mp (List.mem_map_of_mem hw))
  have hread : (List.range out.length).map (fun k => (scatter out writes)[k]?) =
      (scatter out writes).map some := by
    apply List.ext_getElem
    · rw [List.length_map, List.length_map, List.length_range, length_scatter]
    · intro k hk hk'
      rw [List.length_map, List.length_range] at hk
      rw [List.getElem_map, List.getElem_map, List.getElem_range]
      exact List.getElem?_eq_getElem (by rwa [length_scatter])
  have hperm := hkeys.map fun k => (scatter out writes)[k]?
  rw [scatter_map hnodup hin, hread] at hperm
  have hvalues : writes.map (fun w => some w.2) = (writes.map Prod.snd).map some := by
    rw [List.map_map]
    rfl
  rw [hvalues] at hperm
  exact ((List.map_perm_map_iff (Option.some_injective β)).mp hperm).symm

end Writing

end SlhaV2.RankOrders
