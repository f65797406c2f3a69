import Mathlib.Logic.Function.Basic
import Mathlib.Tactic.SplitIfs

/-!
# Cells with a mirror that spares writes

A remote store is written through a local copy of its cells. A write whose
value the local copy already shows is not sent. That is right exactly when the
remote cell holds what its mirror shows, so what matters is not that the
mirror is true everywhere, but that no write is spared by a mirror that lies.
-/
namespace SlhaV2.MirroredCells

variable {ι α : Type} [DecidableEq ι] [DecidableEq α]

structure Mirrored (ι α : Type) where
  host : ι → α
  device : ι → α

/-- A write that may fail on the way leaves both copies alone when it does. -/
def Mirrored.write (m : Mirrored ι α) (i : ι) (v : α) (sent : Bool) : Mirrored ι α × Bool :=
  if m.host i = v then (m, true)
  else if sent then (⟨Function.update m.host i v, Function.update m.device i v⟩, true)
  else (m, false)

/-- The mirror of the cell does not wrongly spare this write. -/
def Mirrored.Unspared (m : Mirrored ι α) (i : ι) (v : α) : Prop := m.host i = v → m.device i = v

/-- Each cell is as its mirror says, or its mirror still shows the blank. -/
def Mirrored.Honest (m : Mirrored ι α) (blank : α) : Prop :=
  ∀ i, m.device i = m.host i ∨ m.host i = blank

namespace Mirrored

omit [DecidableEq ι] [DecidableEq α] in
/-- Where mirrors lie at most about blank cells only blank values are at stake. -/
theorem Honest.unspared {m : Mirrored ι α} {blank : α} (h : m.Honest blank) {i : ι} {v : α}
    (hv : v = blank → m.Unspared i v) : m.Unspared i v := by
  intro hm
  cases h i with
  | inl he =>
      rw [he]
      exact hm
  | inr hb =>
      apply hv
      · rw [← hm]
        exact hb
      · exact hm

theorem write_other {m : Mirrored ι α} {i j : ι} {v : α} {sent : Bool} (h : j ≠ i) :
    (m.write i v sent).1.host j = m.host j ∧ (m.write i v sent).1.device j = m.device j := by
  unfold write
  split_ifs with he hs
  · exact ⟨rfl, rfl⟩
  · exact ⟨Function.update_of_ne h _ _, Function.update_of_ne h _ _⟩
  · exact ⟨rfl, rfl⟩

/-- A completed write reached the cell exactly when the mirror did not wrongly spare it. -/
theorem write_device {m : Mirrored ι α} {i : ι} {v : α} {sent : Bool}
    (h : (m.write i v sent).2 = true) :
    (m.write i v sent).1.device i = v ↔ m.Unspared i v := by
  unfold write Unspared at *
  split_ifs with he hs
  · constructor
    · intro hd _
      exact hd
    · intro hu
      exact hu he
  · constructor
    · intro _ hm
      exact absurd hm he
    · intro _
      exact Function.update_self i v m.device
  · rw [if_neg he, if_neg hs] at h
    cases h

theorem Honest.write {m : Mirrored ι α} {blank : α} (h : m.Honest blank) (i : ι) (v : α)
    (sent : Bool) : (m.write i v sent).1.Honest blank := by
  intro j
  by_cases hj : j = i
  · subst hj
    unfold Mirrored.write
    split_ifs with he hs
    · exact h j
    · left
      simp only [Function.update_self]
    · exact h j
  · rw [(write_other hj).1, (write_other hj).2]
    exact h j

end Mirrored
end SlhaV2.MirroredCells
