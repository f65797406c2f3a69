import Mathlib.Data.Set.Lattice
import Mathlib.Order.CompletePartialOrder
import Mathlib.Order.Interval.Set.Basic
import SlhaV2.OrderedMap

/-!
# Coalesced block maps

A block is an offset and a size. In a coalesced map no block is empty and no
two blocks touch, so each finite set of numbers has at most one coalesced map.
A block to be inserted is pending: what it stands for does not change while it
absorbs the neighbours it touches, and once it touches none it can go in.
-/
namespace SlhaV2.BlockMap
open OrderedMap Table

/-- Offsets to sizes. -/
abbrev Blocks := Table ℕ ℕ

def extent (e : ℕ × ℕ) : Set ℕ := Set.Ico e.1 (e.1 + e.2)

def cover (m : Blocks) : Set ℕ := {x | ∃ e ∈ m, x ∈ extent e}

def size (m : Blocks) : ℕ := total id m

structure Coalesced (m : Blocks) : Prop where
  pos : ∀ e ∈ m, 0 < e.2
  gap : ∀ e ∈ m, ∀ f ∈ m, e.1 < f.1 → e.1 + e.2 < f.1

variable {m n : Blocks} {off len : ℕ}

@[simp] theorem mem_extent {e : ℕ × ℕ} {x : ℕ} :
    x ∈ extent e ↔ e.1 ≤ x ∧ x < e.1 + e.2 := Set.mem_Ico

@[simp] theorem mem_cover {x : ℕ} :
    x ∈ cover m ↔ ∃ e ∈ m, e.1 ≤ x ∧ x < e.1 + e.2 := by
  simp [cover]

theorem extent_subset {e : ℕ × ℕ} (he : e ∈ m) : extent e ⊆ cover m := fun _ hx => ⟨e, he, hx⟩

theorem Coalesced.empty : Coalesced (empty : Blocks) :=
  ⟨fun _ h => absurd h mem_empty, fun _ h => absurd h mem_empty⟩

theorem Coalesced.singleton (h : 0 < len) : Coalesced (singleton off len) := by
  constructor
  · intro e he
    obtain rfl := mem_singleton.mp he
    exact h
  · intro e he f hf hlt
    obtain rfl := mem_singleton.mp he
    obtain rfl := mem_singleton.mp hf
    exact (lt_irrefl _ hlt).elim

theorem cover_empty : cover (Table.empty : Blocks) = ∅ := by
  ext x
  simp

theorem cover_singleton : cover (Table.singleton off len) = extent (off, len) := by
  ext x
  simp

theorem Coalesced.erase (h : Coalesced m) (k : ℕ) : Coalesced (m.erase k) :=
  ⟨fun e he => h.pos e (mem_erase.mp he).1,
    fun e he f hf => h.gap e (mem_erase.mp he).1 f (mem_erase.mp hf).1⟩

/-- The number just before a block is not covered. -/
theorem Coalesced.before_not_mem (h : Coalesced m) {e : ℕ × ℕ} (he : e ∈ m) {x : ℕ}
    (hx : x + 1 = e.1) : x ∉ cover m := by
  rw [mem_cover]
  rintro ⟨f, hf, hle, hlt⟩
  have hgap := h.gap f hf e he (by omega)
  omega

/-- The number just after a block is not covered. -/
theorem Coalesced.end_not_mem (h : Coalesced m) {e : ℕ × ℕ} (he : e ∈ m) :
    e.1 + e.2 ∉ cover m := by
  rw [mem_cover]
  rintro ⟨f, hf, hle, hlt⟩
  by_cases hef : e = f
  · subst hef
    omega
  · rcases lt_or_lt he hf hef with hkey | hkey
    · have hgap := h.gap e he f hf hkey
      omega
    · have hgap := h.gap f hf e he hkey
      omega

/-- A block of one map is a block of every coalesced map with the same cover. -/
theorem Coalesced.mem_of_cover_eq (hm : Coalesced m) (hn : Coalesced n)
    (h : cover m = cover n) {e : ℕ × ℕ} (he : e ∈ m) : e ∈ n := by
  have hpos := hm.pos e he
  have hfirst : e.1 ∈ cover n := by
    rw [← h]
    exact mem_cover.mpr ⟨e, he, le_rfl, by omega⟩
  obtain ⟨f, hf, hle, hlt⟩ := mem_cover.mp hfirst
  have hstart : f.1 = e.1 := by
    by_contra hne
    have hcov : e.1 - 1 ∈ cover n := mem_cover.mpr ⟨f, hf, by omega, by omega⟩
    exact hm.before_not_mem he (by omega) (h ▸ hcov)
  have hstop : f.1 + f.2 = e.1 + e.2 := by
    rcases lt_trichotomy (e.1 + e.2) (f.1 + f.2) with hend | hend | hend
    · have hcov : e.1 + e.2 ∈ cover n := mem_cover.mpr ⟨f, hf, by omega, hend⟩
      exact (hm.end_not_mem he (h ▸ hcov)).elim
    · exact hend.symm
    · have hcov : f.1 + f.2 ∈ cover m := mem_cover.mpr ⟨e, he, by omega, hend⟩
      exact (hn.end_not_mem hf (h ▸ hcov)).elim
  have heq : f = e := Prod.ext hstart (by omega)
  exact heq ▸ hf

/-- The coalesced map of a set is unique. -/
theorem Coalesced.unique (hm : Coalesced m) (hn : Coalesced n) (h : cover m = cover n) :
    m = n :=
  ext_mem fun _ => ⟨hm.mem_of_cover_eq hn h, hn.mem_of_cover_eq hm h.symm⟩

/-- Without one of its blocks the map covers exactly the rest. -/
theorem Coalesced.cover_erase (h : Coalesced m) {e : ℕ × ℕ} (he : e ∈ m) :
    cover (m.erase e.1) = cover m \ extent e := by
  ext x
  simp only [mem_cover, Set.mem_sdiff, mem_extent, mem_erase]
  constructor
  · rintro ⟨f, ⟨hf, hne⟩, hle, hlt⟩
    refine ⟨⟨f, hf, hle, hlt⟩, fun hx => ?_⟩
    rcases Nat.lt_or_gt_of_ne hne with hkey | hkey
    · have hgap := h.gap f hf e he hkey
      omega
    · have hgap := h.gap e he f hf hkey
      omega
  · rintro ⟨⟨f, hf, hle, hlt⟩, hx⟩
    refine ⟨f, ⟨hf, fun hkey => hx ?_⟩, hle, hlt⟩
    obtain rfl := eq_of_key hf he hkey
    exact ⟨hle, hlt⟩

theorem size_erase {e : ℕ × ℕ} (he : e ∈ m) : size (m.erase e.1) + e.2 = size m :=
  total_erase id he

/-- The map is the coalesced map of a set, of some total size. -/
structure Holds (m : Blocks) (S : Set ℕ) (k : ℕ) : Prop where
  coalesced : Coalesced m
  cover : cover m = S
  size : size m = k

theorem Holds.unique {S : Set ℕ} {j k : ℕ} (hm : Holds m S j) (hn : Holds n S k) : m = n :=
  hm.coalesced.unique hn.coalesced (hm.cover.trans hn.cover.symm)

/-- The blocks end where the set does. -/
theorem Holds.end_le {S : Set ℕ} {k c : ℕ} (h : Holds m S k) (hS : S ⊆ Set.Iio c)
    {e : ℕ × ℕ} (he : e ∈ m) : e.1 + e.2 ≤ c := by
  have hpos := h.coalesced.pos e he
  have hlast : e.1 + e.2 - 1 ∈ BlockMap.cover m := mem_cover.mpr ⟨e, he, by omega, by omega⟩
  rw [h.cover] at hlast
  have hlt : e.1 + e.2 - 1 < c := hS hlast
  omega

theorem Holds.erase {S : Set ℕ} {k : ℕ} (h : Holds m S k) {e : ℕ × ℕ} (he : e ∈ m) :
    Holds (m.erase e.1) (S \ extent e) (k - e.2) := by
  refine ⟨h.coalesced.erase _, ?_, ?_⟩
  · rw [h.coalesced.cover_erase he, h.cover]
  · have hsize := size_erase he
    have htotal := h.size
    omega

/-- Together with the block to be inserted the map stands for a set of some size. -/
structure Pending (m : Blocks) (off len : ℕ) (S : Set ℕ) (k : ℕ) : Prop where
  coalesced : Coalesced m
  pos : 0 < len
  apart : ∀ e ∈ m, e.1 + e.2 ≤ off ∨ off + len ≤ e.1
  cover : cover m ∪ extent (off, len) = S
  size : size m + len = k

namespace Pending
variable {S : Set ℕ} {k : ℕ}

theorem start (h : Holds m S k) (hlen : 0 < len) (hdis : Disjoint S (extent (off, len))) :
    Pending m off len (S ∪ extent (off, len)) (k + len) := by
  refine ⟨h.coalesced, hlen, fun e he => ?_, by rw [h.cover], by rw [h.size]⟩
  have hpos := h.coalesced.pos e he
  by_contra hcon
  push Not at hcon
  have hmem : max off e.1 ∈ S := by
    rw [← h.cover]
    exact mem_cover.mpr ⟨e, he, le_max_right _ _, by omega⟩
  exact Set.disjoint_left.mp hdis hmem (mem_extent.mpr ⟨le_max_left _ _, by simp; omega⟩)

/-- The neighbour that ends where the block starts is absorbed. -/
theorem absorbLeft (h : Pending m off len S k) {e : ℕ × ℕ} (he : e ∈ m)
    (htouch : e.1 + e.2 = off) : Pending (m.erase e.1) e.1 (len + e.2) S k := by
  refine ⟨h.coalesced.erase _, Nat.add_pos_left h.pos _, fun f hf => ?_, ?_, ?_⟩
  · obtain ⟨hf, hne⟩ := mem_erase.mp hf
    rcases Nat.lt_or_gt_of_ne hne with hkey | hkey
    · exact Or.inl (h.coalesced.gap f hf e he hkey).le
    · have hgap := h.coalesced.gap e he f hf hkey
      have hfpos := h.coalesced.pos f hf
      rcases h.apart f hf with hap | hap <;> omega
  · rw [h.coalesced.cover_erase he, ← h.cover]
    have hext : extent (e.1, len + e.2) = extent e ∪ extent (off, len) := by
      ext x
      simp only [Set.mem_union, mem_extent]
      omega
    rw [hext, ← Set.union_assoc, Set.sdiff_union_of_subset (extent_subset he)]
  · have hsize := size_erase he
    have htotal := h.size
    omega

/-- The neighbour that starts where the block ends is absorbed. -/
theorem absorbRight (h : Pending m off len S k) {e : ℕ × ℕ} (he : e ∈ m)
    (htouch : off + len = e.1) : Pending (m.erase e.1) off (len + e.2) S k := by
  refine ⟨h.coalesced.erase _, Nat.add_pos_left h.pos _, fun f hf => ?_, ?_, ?_⟩
  · obtain ⟨hf, hne⟩ := mem_erase.mp hf
    rcases Nat.lt_or_gt_of_ne hne with hkey | hkey
    · have hgap := h.coalesced.gap f hf e he hkey
      have hfpos := h.coalesced.pos f hf
      rcases h.apart f hf with hap | hap <;> omega
    · have hgap := h.coalesced.gap e he f hf hkey
      omega
  · rw [h.coalesced.cover_erase he, ← h.cover]
    have hext : extent (off, len + e.2) = extent e ∪ extent (off, len) := by
      ext x
      simp only [Set.mem_union, mem_extent]
      omega
    rw [hext, ← Set.union_assoc, Set.sdiff_union_of_subset (extent_subset he)]
  · have hsize := size_erase he
    have htotal := h.size
    omega

/-- A block that touches nothing is inserted. -/
theorem finish (h : Pending m off len S k)
    (hleft : ∀ e ∈ m, e.1 + e.2 ≠ off) (hright : ∀ e ∈ m, e.1 ≠ off + len) :
    Holds (m.insert off len) S k := by
  have hnew : ∀ e ∈ m, e.1 ≠ off := by
    intro e he hkey
    have hpos := h.coalesced.pos e he
    have hlen := h.pos
    rcases h.apart e he with hap | hap <;> omega
  refine ⟨⟨fun e he => ?_, fun e he f hf hlt => ?_⟩, ?_, ?_⟩
  · rcases mem_insert.mp he with rfl | he
    · exact h.pos
    · exact h.coalesced.pos e he.1
  · have hlen := h.pos
    rcases mem_insert.mp he with rfl | ⟨he, -⟩ <;> rcases mem_insert.mp hf with rfl | ⟨hf, -⟩
    · omega
    · have hne := hright f hf
      have hfpos := h.coalesced.pos f hf
      rcases h.apart f hf with hap | hap <;> simp only at hlt ⊢ <;> omega
    · have hne := hleft e he
      rcases h.apart e he with hap | hap <;> simp only at hlt ⊢ <;> omega
    · exact h.coalesced.gap e he f hf hlt
  · rw [← h.cover]
    ext x
    simp only [mem_cover, mem_insert, Set.mem_union, mem_extent]
    constructor
    · rintro ⟨e, rfl | ⟨he, -⟩, hx⟩
      · exact Or.inr hx
      · exact Or.inl ⟨e, he, hx⟩
    · rintro (⟨e, he, hx⟩ | hx)
      · exact ⟨e, Or.inr ⟨he, hnew e he⟩, hx⟩
      · exact ⟨(off, len), Or.inl rfl, hx⟩
  · have hsize : BlockMap.size (m.insert off len) = BlockMap.size m + len :=
      total_insert id len hnew
    have htotal := h.size
    omega

end Pending

end SlhaV2.BlockMap
