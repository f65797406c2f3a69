import Mathlib.Algebra.BigOperators.Group.List.Basic
import Mathlib.Data.List.Pairwise
import Mathlib.Data.List.Perm.Basic
import Mathlib.Algebra.Order.Ring.Nat
import Mathlib.Order.Lattice

/-!
# Maps whose keys are kept in order

A map is the list of its entries in strictly increasing key order. The order
is a field, so every map has one list, and equality of maps is equality of
their entries. Every operation is specified by membership alone; sums over the
entries follow from permutations.
-/
namespace SlhaV2.OrderedMap

structure Table (κ α : Type) [LinearOrder κ] where
  entries : List (κ × α)
  ordered : entries.Pairwise (fun a b => a.1 < b.1)

variable {κ α : Type} [LinearOrder κ]

namespace Table

instance [DecidableEq α] : DecidableEq (Table κ α) := fun m n =>
  decidable_of_iff (m.entries = n.entries)
    ⟨fun h => by cases m; cases n; simpa using h, fun h => by rw [h]⟩

instance : Membership (κ × α) (Table κ α) := ⟨fun m e => e ∈ m.entries⟩

theorem mem_def {m : Table κ α} {e : κ × α} : e ∈ m ↔ e ∈ m.entries := Iff.rfl

def empty : Table κ α := ⟨[], List.Pairwise.nil⟩

def singleton (k : κ) (v : α) : Table κ α := ⟨[(k, v)], List.pairwise_singleton _ _⟩

/-- A new value for an old key replaces it. -/
def insert (m : Table κ α) (k : κ) (v : α) : Table κ α where
  entries := m.entries.filter (fun e => decide (e.1 < k)) ++
    (k, v) :: m.entries.filter (fun e => decide (k < e.1))
  ordered := by
    refine List.pairwise_append.mpr ⟨m.ordered.filter _, List.pairwise_cons.mpr
      ⟨fun e he => ?_, m.ordered.filter _⟩, fun e he f hf => ?_⟩
    · exact of_decide_eq_true (List.mem_filter.mp he).2
    · have hlt : e.1 < k := of_decide_eq_true (List.mem_filter.mp he).2
      rcases List.mem_cons.mp hf with rfl | hf
      · exact hlt
      · exact hlt.trans (of_decide_eq_true (List.mem_filter.mp hf).2)

def erase (m : Table κ α) (k : κ) : Table κ α where
  entries := m.entries.filter (fun e => decide (e.1 ≠ k))
  ordered := m.ordered.filter _

def find (m : Table κ α) (k : κ) : Option α :=
  (m.entries.find? (fun e => decide (e.1 = k))).map Prod.snd

/-- The last entry with a smaller key. -/
def lastBelow (m : Table κ α) (k : κ) : Option (κ × α) :=
  (m.entries.filter (fun e => decide (e.1 < k))).getLast?

/-- The first entry whose key is no smaller. -/
def firstFrom (m : Table κ α) (k : κ) : Option (κ × α) :=
  (m.entries.filter (fun e => decide (k ≤ e.1))).head?

/-- The sum of a measure over all values. -/
def total (f : α → ℕ) (m : Table κ α) : ℕ := (m.entries.map (fun e => f e.2)).sum

@[simp] theorem mem_empty {e : κ × α} : e ∉ (empty : Table κ α) := List.not_mem_nil

@[simp] theorem mem_singleton {k : κ} {v : α} {e : κ × α} :
    e ∈ singleton k v ↔ e = (k, v) := List.mem_singleton

@[simp] theorem total_empty (f : α → ℕ) : total f (empty : Table κ α) = 0 := rfl

@[simp] theorem total_singleton (f : α → ℕ) (k : κ) (v : α) :
    total f (singleton k v) = f v := by simp [total, singleton]

theorem nodup (m : Table κ α) : m.entries.Nodup :=
  m.ordered.imp fun h he => (he ▸ h).ne rfl

theorem lt_or_lt {m : Table κ α} {a b : κ × α} (ha : a ∈ m) (hb : b ∈ m) (hne : a ≠ b) :
    a.1 < b.1 ∨ b.1 < a.1 := by
  have hord : m.entries.Pairwise fun a b => a.1 < b.1 ∨ b.1 < a.1 := m.ordered.imp Or.inl
  have hsymm : Std.Symm fun a b : κ × α => a.1 < b.1 ∨ b.1 < a.1 := ⟨fun _ _ h => h.symm⟩
  exact hord.forall ha hb hne

/-- A key determines its entry. -/
theorem eq_of_key {m : Table κ α} {a b : κ × α} (ha : a ∈ m) (hb : b ∈ m) (h : a.1 = b.1) :
    a = b := by
  by_contra hne
  rcases lt_or_lt ha hb hne with hlt | hlt
  · exact hlt.ne h
  · exact hlt.ne h.symm

/-- Two maps with the same entries are the same map. -/
theorem ext_mem {m n : Table κ α} (h : ∀ e, e ∈ m ↔ e ∈ n) : m = n := by
  have hperm : m.entries.Perm n.entries := (List.perm_ext_iff_of_nodup m.nodup n.nodup).mpr h
  have heq : m.entries = n.entries :=
    hperm.eq_of_pairwise (fun a b _ _ hab hba => (lt_asymm hab hba).elim) m.ordered n.ordered
  cases m
  cases n
  simpa using heq

@[simp] theorem mem_insert {m : Table κ α} {k : κ} {v : α} {e : κ × α} :
    e ∈ m.insert k v ↔ e = (k, v) ∨ e ∈ m ∧ e.1 ≠ k := by
  simp only [mem_def, insert, List.mem_append, List.mem_cons, List.mem_filter, decide_eq_true_eq,
    ne_iff_lt_or_gt]
  tauto

@[simp] theorem mem_erase {m : Table κ α} {k : κ} {e : κ × α} :
    e ∈ m.erase k ↔ e ∈ m ∧ e.1 ≠ k := by
  simp [mem_def, erase]

theorem find_eq_some {m : Table κ α} {k : κ} {v : α} : m.find k = some v ↔ (k, v) ∈ m := by
  unfold find
  constructor
  · intro h
    obtain ⟨e, he, rfl⟩ := Option.map_eq_some_iff.mp h
    have hkey : e.1 = k := by simpa using List.find?_some he
    exact hkey ▸ List.mem_of_find?_eq_some he
  · intro h
    cases hf : m.entries.find? (fun e => decide (e.1 = k)) with
    | none => exact (List.find?_eq_none.mp hf _ h (by simp)).elim
    | some e =>
        have hkey : e.1 = k := by simpa using List.find?_some hf
        have heq : e = (k, v) := eq_of_key (List.mem_of_find?_eq_some hf) h hkey
        simp [heq]

theorem find_eq_none {m : Table κ α} {k : κ} : m.find k = none ↔ ∀ e ∈ m, e.1 ≠ k := by
  simp [find, mem_def]

/-- Nothing with a smaller key lies after the entry found. -/
theorem lastBelow_eq_some {m : Table κ α} {k : κ} {e : κ × α} (h : m.lastBelow k = some e) :
    e ∈ m ∧ e.1 < k ∧ ∀ f ∈ m, f.1 < k → f.1 ≤ e.1 := by
  obtain ⟨ys, hys⟩ := List.getLast?_eq_some_iff.mp h
  have hmem : ∀ f, f ∈ m ∧ f.1 < k ↔ f ∈ ys ++ [e] := by
    intro f
    rw [← hys]
    simp [mem_def]
  have hord : (ys ++ [e]).Pairwise fun a b => a.1 < b.1 := hys ▸ m.ordered.filter _
  obtain ⟨he, hlt⟩ := (hmem e).mpr (by simp)
  refine ⟨he, hlt, fun f hf hfk => ?_⟩
  rcases List.mem_append.mp ((hmem f).mp ⟨hf, hfk⟩) with hf | hf
  · exact ((List.pairwise_append.mp hord).2.2 f hf e (by simp)).le
  · exact (List.mem_singleton.mp hf) ▸ le_rfl

theorem lastBelow_eq_none {m : Table κ α} {k : κ} (h : m.lastBelow k = none) :
    ∀ e ∈ m, k ≤ e.1 := by
  intro e he
  simpa using List.filter_eq_nil_iff.mp (List.getLast?_eq_none_iff.mp h) e he

/-- Nothing from the key on lies before the entry found. -/
theorem firstFrom_eq_some {m : Table κ α} {k : κ} {e : κ × α} (h : m.firstFrom k = some e) :
    e ∈ m ∧ k ≤ e.1 ∧ ∀ f ∈ m, k ≤ f.1 → e.1 ≤ f.1 := by
  obtain ⟨ys, hys⟩ := List.head?_eq_some_iff.mp h
  have hmem : ∀ f, f ∈ m ∧ k ≤ f.1 ↔ f ∈ e :: ys := by
    intro f
    rw [← hys]
    simp [mem_def]
  have hord : (e :: ys).Pairwise fun a b => a.1 < b.1 := hys ▸ m.ordered.filter _
  obtain ⟨he, hle⟩ := (hmem e).mpr (by simp)
  refine ⟨he, hle, fun f hf hkf => ?_⟩
  rcases List.mem_cons.mp ((hmem f).mp ⟨hf, hkf⟩) with rfl | hf
  · exact le_rfl
  · exact ((List.pairwise_cons.mp hord).1 f hf).le

theorem firstFrom_eq_none {m : Table κ α} {k : κ} (h : m.firstFrom k = none) :
    ∀ e ∈ m, e.1 < k := by
  intro e he
  simpa using List.filter_eq_nil_iff.mp (List.head?_eq_none_iff.mp h) e he

/-- Taking an entry out lowers a sum by the entry's share. -/
theorem total_erase (f : α → ℕ) {m : Table κ α} {k : κ} {v : α} (h : (k, v) ∈ m) :
    total f (m.erase k) + f v = total f m := by
  have hperm : m.entries.Perm ((k, v) :: (m.erase k).entries) := by
    refine (List.perm_ext_iff_of_nodup m.nodup
      (List.nodup_cons.mpr ⟨?_, (m.erase k).nodup⟩)).mpr fun e => ?_
    · exact fun hmem => (mem_erase.mp hmem).2 rfl
    · rw [List.mem_cons, ← mem_def, ← mem_def, mem_erase]
      constructor
      · intro he
        by_cases hk : e.1 = k
        · exact Or.inl (eq_of_key he h hk)
        · exact Or.inr ⟨he, hk⟩
      · rintro (rfl | he)
        · exact h
        · exact he.1
  rw [total, total, (hperm.map fun e => f e.2).sum_eq, List.map_cons, List.sum_cons, add_comm]

/-- A new key raises a sum by its share. -/
theorem total_insert (f : α → ℕ) {m : Table κ α} {k : κ} (v : α) (h : ∀ e ∈ m, e.1 ≠ k) :
    total f (m.insert k v) = total f m + f v := by
  have herase : (m.insert k v).erase k = m := by
    refine ext_mem fun e => ?_
    rw [mem_erase, mem_insert]
    constructor
    · rintro ⟨rfl | he, hk⟩
      · exact (hk rfl).elim
      · exact he.1
    · exact fun he => ⟨Or.inr ⟨he, h e he⟩, h e he⟩
  have hmem : (k, v) ∈ m.insert k v := mem_insert.mpr (Or.inl rfl)
  rw [← total_erase f hmem, herase]

end Table

end SlhaV2.OrderedMap
