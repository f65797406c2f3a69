import SlhaV2.OrderedMap
import Mathlib.Data.List.Nodup

/-!
# Registries that keep released names out of use

A registry hands out the addresses of small allocations as names of objects.
The allocation outlives the object: on release it moves to a list that is
never emptied. An allocator that never returns an address in use then never
repeats a name, and a stale name stays stale. The history of a registry says
what was created and released; the registry is compared with it.
-/
namespace SlhaV2.Quarantine
open OrderedMap

variable {α : Type}

structure Entry (α : Type) where
  token : ℕ
  inner : α
deriving DecidableEq, Repr

structure Registry (α : Type) where
  live : Table ℕ (Entry α)
  retiredTokens : List ℕ

inductive Event (α : Type) where
  | created (h : ℕ) (o : α)
  | released (h : ℕ)
deriving DecidableEq, Repr

/-- The name a creation returned. -/
def Event.handle : Event α → Option ℕ
  | .created h _ => some h
  | .released _ => none

/-- The names that creations of a history returned, in their order. -/
def handles (history : List (Event α)) : List ℕ := history.filterMap Event.handle

/-- Returned by a creation for this object, and not released since. -/
def Holds (history : List (Event α)) (h : ℕ) (o : α) : Prop :=
  .created h o ∈ history ∧ .released h ∉ history

namespace Registry

def empty : Registry α := ⟨Table.empty, []⟩

/-- The addresses of the boxes the registry owns. -/
def Owns (r : Registry α) (a : ℕ) : Prop :=
  (∃ e ∈ r.live, e.2.token = a) ∨ a ∈ r.retiredTokens

/-- The box at `address` is inserted under its own address. -/
def register (r : Registry α) (address : ℕ) (inner : α) : Registry α × Option (Entry α) :=
  ({ r with live := r.live.insert address ⟨address, inner⟩ }, r.live.find address)

def find (r : Registry α) (h : ℕ) : Option α := (r.live.find h).map Entry.inner

def unregister (r : Registry α) (h : ℕ) : Registry α × Bool :=
  match r.live.find h with
  | none => (r, false)
  | some entry =>
    ({ live := r.live.erase h, retiredTokens := r.retiredTokens ++ [entry.token] }, true)

/-- The registry is what its history says, and has kept every box it ever made. -/
structure Tracks (r : Registry α) (history : List (Event α)) : Prop where
  distinct : (handles history).Nodup
  kept : ∀ a, r.Owns a ↔ a ∈ handles history
  live : ∀ h e, (h, e) ∈ r.live ↔ e.token = h ∧ Holds history h e.inner
  released : ∀ h, .released h ∈ history → h ∈ handles history

theorem mem_handles {history : List (Event α)} {h : ℕ} :
    h ∈ handles history ↔ ∃ o, .created h o ∈ history := by
  unfold handles
  rw [List.mem_filterMap]
  constructor
  · intro hm
    obtain ⟨e, he, hh⟩ := hm
    cases e with
    | created a o =>
        have ha : a = h := Option.some.inj hh
        rw [ha] at he
        exact ⟨o, he⟩
    | released a => cases hh
  · intro hm
    obtain ⟨o, ho⟩ := hm
    exact ⟨.created h o, ho, rfl⟩

theorem handles_append (a b : List (Event α)) : handles (a ++ b) = handles a ++ handles b :=
  List.filterMap_append

theorem tracks_empty : (empty : Registry α).Tracks [] where
  distinct := List.nodup_nil
  kept a := by
    unfold Owns empty handles
    simp
  live h e := by
    unfold empty Holds
    simp
  released h hr := by cases hr

namespace Tracks

variable {r : Registry α} {history : List (Event α)}

/-- A name resolves to an object exactly while the history holds it for that object. -/
theorem find_eq_some (t : r.Tracks history) (h : ℕ) (o : α) :
    r.find h = some o ↔ Holds history h o := by
  unfold find
  rw [Option.map_eq_some_iff]
  constructor
  · intro hf
    obtain ⟨e, he, ho⟩ := hf
    rw [Table.find_eq_some, t.live] at he
    rw [← ho]
    exact he.2
  · intro hh
    refine ⟨⟨h, o⟩, ?_, rfl⟩
    rw [Table.find_eq_some, t.live]
    exact ⟨rfl, hh⟩

theorem find_eq_none (t : r.Tracks history) {h : ℕ} :
    r.find h = none ↔ ∀ o, ¬ Holds history h o := by
  rw [Option.eq_none_iff_forall_ne_some]
  constructor
  · intro hn o ho
    exact hn o ((t.find_eq_some h o).mpr ho)
  · intro hn o ho
    exact hn o ((t.find_eq_some h o).mp ho)

/-- No box is ever inserted over another. -/
theorem register_previous (t : r.Tracks history) {a : ℕ} (ha : ¬ r.Owns a) (o : α) :
    (r.register a o).2 = none := by
  unfold register
  dsimp only
  rw [Table.find_eq_none]
  intro e he hk
  apply ha
  left
  refine ⟨e, he, ?_⟩
  rw [← hk]
  exact ((t.live e.1 e.2).mp he).1

theorem not_mem_live (t : r.Tracks history) {a : ℕ} (ha : ¬ r.Owns a) {e : ℕ × Entry α}
    (he : e ∈ r.live) : e.1 ≠ a := by
  have hp := t.register_previous ha e.2.inner
  unfold register at hp
  exact Table.find_eq_none.mp hp e he

theorem register (t : r.Tracks history) {a : ℕ} (ha : ¬ r.Owns a) (o : α) :
    (r.register a o).1.Tracks (history ++ [.created a o]) := by
  have hnew : a ∉ handles history := by
    rw [← t.kept]
    exact ha
  have hh : handles (history ++ [.created a o]) = handles history ++ [a] := handles_append _ _
  constructor
  · rw [hh]
    apply List.Nodup.append t.distinct (List.nodup_singleton a)
    intro x hx hy
    rw [List.mem_singleton.mp hy] at hx
    exact hnew hx
  · intro x
    rw [hh, List.mem_append, ← t.kept, List.mem_singleton]
    unfold Owns Registry.register
    simp only [Table.mem_insert]
    constructor
    · intro hx
      rcases hx with ⟨e, he | he, hx⟩ | hx
      · right
        rw [← hx, he]
      · left
        left
        exact ⟨e, he.1, hx⟩
      · left
        right
        exact hx
    · intro hx
      rcases hx with (⟨e, he, hx⟩ | hx) | hx
      · left
        exact ⟨e, Or.inr ⟨he, t.not_mem_live ha he⟩, hx⟩
      · right
        exact hx
      · left
        exact ⟨(a, ⟨a, o⟩), Or.inl rfl, hx.symm⟩
  · intro h e
    unfold Registry.register Holds
    simp only [Table.mem_insert, List.mem_append, List.mem_singleton, Event.created.injEq,
      reduceCtorEq, or_false, Prod.mk.injEq]
    by_cases hk : h = a
    · have hc : ∀ o', .created a o' ∉ history := by
        intro o' hm
        exact hnew (mem_handles.mpr ⟨o', hm⟩)
      have hr : .released a ∉ history := fun hm => hnew (t.released a hm)
      subst hk
      constructor
      · intro he
        rcases he with ⟨-, he⟩ | ⟨-, he⟩
        · rw [he]
          exact ⟨rfl, Or.inr ⟨rfl, rfl⟩, hr⟩
        · exact absurd rfl he
      · intro he
        rcases he with ⟨ht, hm | ⟨-, hm⟩, -⟩
        · exact absurd hm (hc e.inner)
        · left
          cases e
          exact ⟨rfl, by rw [← ht, ← hm]⟩
    · rw [t.live]
      unfold Holds
      simp only [hk, false_and, false_or, ne_eq, not_false_eq_true, and_true, or_false]
  · intro h hm
    rw [hh, List.mem_append]
    left
    apply t.released
    rcases List.mem_append.mp hm with hm | hm
    · exact hm
    · cases List.mem_singleton.mp hm

/-- A release takes the name out of use and keeps its box. -/
theorem unregister (t : r.Tracks history) {h : ℕ} {o : α} (hh : Holds history h o) :
    (r.unregister h).2 = true ∧ (r.unregister h).1.Tracks (history ++ [.released h]) := by
  have hf : r.live.find h = some ⟨h, o⟩ := by
    rw [Table.find_eq_some, t.live]
    exact ⟨rfl, hh⟩
  have hsame : handles (history ++ [(.released h : Event α)]) = handles history := by
    rw [handles_append]
    exact List.append_nil _
  unfold Registry.unregister
  rw [hf]
  refine ⟨rfl, ?_⟩
  constructor
  · rw [hsame]
    exact t.distinct
  · intro x
    rw [hsame, ← t.kept]
    unfold Owns
    simp only [Table.mem_erase, List.mem_append, List.mem_singleton]
    constructor
    · intro hx
      rcases hx with ⟨e, he, hx⟩ | hx | hx
      · exact Or.inl ⟨e, he.1, hx⟩
      · exact Or.inr hx
      · left
        exact ⟨(h, ⟨h, o⟩), Table.find_eq_some.mp hf, hx.symm⟩
    · intro hx
      rcases hx with ⟨e, he, hx⟩ | hx
      · by_cases hk : e.1 = h
        · right
          right
          rw [← hx, ((t.live e.1 e.2).mp he).1]
          exact hk
        · left
          exact ⟨e, ⟨he, hk⟩, hx⟩
      · right
        left
        exact hx
  · intro k e
    rw [Table.mem_erase, t.live]
    unfold Holds
    simp only [List.mem_append, List.mem_singleton, reduceCtorEq, or_false, Event.released.injEq]
    tauto
  · intro k hm
    rw [hsame]
    rcases List.mem_append.mp hm with hm | hm
    · exact t.released k hm
    · rw [Event.released.inj (List.mem_singleton.mp hm)]
      exact mem_handles.mpr ⟨o, hh.1⟩

theorem unregister_stale (t : r.Tracks history) {h : ℕ} (hh : ∀ o, ¬ Holds history h o) :
    r.unregister h = (r, false) := by
  have hf : r.live.find h = none := by
    have hn := t.find_eq_none.mpr hh
    unfold find at hn
    exact Option.map_eq_none_iff.mp hn
  unfold Registry.unregister
  rw [hf]

end Tracks
end Registry
end SlhaV2.Quarantine
