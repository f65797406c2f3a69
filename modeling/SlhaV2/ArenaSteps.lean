import Mathlib.Data.Nat.Bitwise
import SlhaV2.DeviceArena

/-!
# What the arena's steps do to the map

One lemma for each operation on the free map: it stays coalesced, and the set
it covers changes by the block put in or carved out. The arena's invariant is
assembled from these. Words never overflow below the capacity.
-/
namespace SlhaV2.ArenaSteps
open MachineWord OrderedMap BlockMap DeviceArena
open Arena (takeCookie fetchAdd)

variable {A : Type} {m : Blocks} {S : Set ℕ} {k off len : ℕ}

theorem and_wordNot {v : ℕ} (h : v ≤ maxWord) :
    v &&& wordNot (align - 1) = v / align * align := by
  have hmask : wordNot (align - 1) = (2 ^ 57 - 1) * 2 ^ 7 := by decide
  have halign : align = 2 ^ 7 := rfl
  refine Nat.eq_of_testBit_eq fun i => ?_
  rw [hmask, halign, Nat.testBit_and, Nat.testBit_mul_two_pow, Nat.testBit_mul_two_pow,
    Nat.testBit_two_pow_sub_one, Nat.testBit_div_two_pow]
  by_cases hi : 7 ≤ i
  · have heq : i - 7 + 7 = i := by omega
    by_cases hhigh : i - 7 < 57
    · simp [hi, hhigh, heq]
    · -- bits the mask lacks at the top are zero in every word
      have hbit : v.testBit i = false := by
        apply Nat.testBit_lt_two_pow
        have hpow : 2 ^ 64 ≤ 2 ^ i := Nat.pow_le_pow_right (by decide) (by omega)
        unfold maxWord at h
        omega
      simp [hi, heq, hbit]
  · simp [hi]

theorem alignUp_eq_some {v : ℕ} (h : alignUp off = some v) : off ≤ v ∧ align ∣ v := by
  obtain ⟨w, hw, rfl⟩ := Option.map_eq_some_iff.mp h
  obtain ⟨hle, rfl⟩ := checkedAdd_eq_some.mp hw
  rw [and_wordNot hle]
  constructor
  · simp only [align]
    omega
  · exact Nat.dvd_mul_left align _

theorem fits_eq_some {e : ℕ × ℕ} {sz : ℕ} {f : Arena.Fit} (h : Arena.fits sz e = some f) :
    f.offset = e.1 ∧ f.blockEnd = e.1 + e.2 ∧ e.1 ≤ f.aligned ∧ align ∣ f.aligned ∧
      f.allocEnd = f.aligned + sz ∧ f.allocEnd ≤ f.blockEnd := by
  unfold Arena.fits at h
  obtain ⟨v, hv, h⟩ := Option.bind_eq_some_iff.mp h
  obtain ⟨b, hb, h⟩ := Option.bind_eq_some_iff.mp h
  obtain ⟨c, hc, h⟩ := Option.bind_eq_some_iff.mp h
  obtain ⟨hle, hdvd⟩ := alignUp_eq_some hv
  obtain ⟨-, rfl⟩ := checkedAdd_eq_some.mp hb
  obtain ⟨-, rfl⟩ := checkedAdd_eq_some.mp hc
  split_ifs at h with hend
  obtain rfl := Option.some_inj.mp h
  exact ⟨rfl, rfl, hle, hdvd, rfl, hend⟩

/-- Joining on the left leaves a block no neighbour touches from the left. -/
theorem mergeLeft_pending (h : Pending m off len S k) (hle : off + len ≤ maxWord) :
    Pending (Arena.mergeLeft m off len).1 (Arena.mergeLeft m off len).2.1
        (Arena.mergeLeft m off len).2.2 S k ∧
      (Arena.mergeLeft m off len).2.1 + (Arena.mergeLeft m off len).2.2 = off + len ∧
      ∀ e ∈ (Arena.mergeLeft m off len).1, e.1 + e.2 ≠ (Arena.mergeLeft m off len).2.1 := by
  unfold Arena.mergeLeft
  cases hlast : m.lastBelow off with
  | none =>
      refine ⟨h, rfl, fun e he htouch => ?_⟩
      have hpos := h.coalesced.pos e he
      have hfrom := Table.lastBelow_eq_none hlast e he
      simp only at htouch
      omega
  | some prev =>
      obtain ⟨prevOff, prevSize⟩ := prev
      obtain ⟨hmem, hlt, hmax⟩ := Table.lastBelow_eq_some hlast
      have hgap := h.coalesced.gap
      by_cases htouch : checkedAdd prevOff prevSize = some off
      · obtain ⟨-, hoff⟩ := checkedAdd_eq_some.mp htouch
        have hsat : satAdd len prevSize = len + prevSize := satAdd_eq (by omega)
        simp only [htouch, if_true, hsat]
        refine ⟨h.absorbLeft hmem hoff.symm, by omega, fun e he hend => ?_⟩
        obtain ⟨he, -⟩ := Table.mem_erase.mp he
        have hpos := h.coalesced.pos e he
        have hbefore := hgap e he (prevOff, prevSize) hmem (by simp only; omega)
        simp only at hbefore
        omega
      · simp only [htouch, if_false]
        refine ⟨h, trivial, fun e he hend => ?_⟩
        have hpos := h.coalesced.pos e he
        have hnear := hmax e he (by omega)
        rcases hnear.lt_or_eq with hkey | hkey
        · have hbefore := hgap e he (prevOff, prevSize) hmem hkey
          simp only at hbefore hlt
          omega
        · obtain rfl := Table.eq_of_key he hmem hkey
          exact htouch (checkedAdd_eq_some.mpr ⟨by omega, hend.symm⟩)

/-- Joining on the right leaves a block no neighbour touches. -/
theorem mergeRight_pending (h : Pending m off len S k) (hle : off + len ≤ maxWord)
    (hbound : ∀ e ∈ m, e.1 + e.2 ≤ maxWord) (hleft : ∀ e ∈ m, e.1 + e.2 ≠ off) :
    Pending (Arena.mergeRight m off len).1 off (Arena.mergeRight m off len).2 S k ∧
      (∀ e ∈ (Arena.mergeRight m off len).1, e.1 + e.2 ≠ off) ∧
      ∀ e ∈ (Arena.mergeRight m off len).1, e.1 ≠ off + (Arena.mergeRight m off len).2 := by
  unfold Arena.mergeRight
  have hlen := h.pos
  have hsucc : satAdd off 1 = off + 1 := satAdd_eq (by omega)
  rw [hsucc]
  cases hfirst : m.firstFrom (off + 1) with
  | none =>
      refine ⟨h, hleft, fun e he htouch => ?_⟩
      have hbelow := Table.firstFrom_eq_none hfirst e he
      simp only at htouch
      omega
  | some next =>
      obtain ⟨nextOff, nextSize⟩ := next
      obtain ⟨hmem, hge, hmin⟩ := Table.firstFrom_eq_some hfirst
      have hgap := h.coalesced.gap
      by_cases htouch : checkedAdd off len = some nextOff
      · obtain ⟨-, hoff⟩ := checkedAdd_eq_some.mp htouch
        have hnext := hbound _ hmem
        simp only at hnext
        have hsat : satAdd len nextSize = len + nextSize := satAdd_eq (by omega)
        simp only [htouch, if_true, hsat]
        refine ⟨h.absorbRight hmem hoff.symm, fun e he => hleft e (Table.mem_erase.mp he).1,
          fun e he hend => ?_⟩
        obtain ⟨he, -⟩ := Table.mem_erase.mp he
        have hnextPos := h.coalesced.pos _ hmem
        have hafter := hgap (nextOff, nextSize) hmem e he (by simp only at hnextPos ⊢; omega)
        simp only at hafter
        omega
      · simp only [htouch, if_false]
        refine ⟨h, hleft, fun e he hend => ?_⟩
        have hnear := hmin e he (by omega)
        rcases hnear.lt_or_eq with hkey | hkey
        · -- a nearer block would start inside the block to be inserted
          have hnextPos := h.coalesced.pos _ hmem
          simp only at hkey hge hnextPos
          rcases h.apart _ hmem with hap | hap <;> simp only at hap <;> omega
        · obtain rfl := Table.eq_of_key hmem he hkey
          exact htouch (checkedAdd_eq_some.mpr ⟨hle, hend⟩)

/-- Inserting a block apart from the map adds exactly the block. -/
theorem insertFree_holds {c : ℕ} (h : Holds m S k) (hdis : Disjoint S (extent (off, len)))
    (hS : S ⊆ Set.Iio c) (hend : off + len ≤ c) (hc : c ≤ maxWord) :
    Holds (Arena.insertFree m off len) (S ∪ extent (off, len)) (k + len) := by
  have hle : off + len ≤ maxWord := hend.trans hc
  have hbound : ∀ e ∈ m, e.1 + e.2 ≤ maxWord := fun e he => (h.end_le hS he).trans hc
  unfold Arena.insertFree
  by_cases hzero : len = 0
  · subst hzero
    have hnone : extent (off, 0) = ∅ := by
      ext x
      simp
    simpa [hnone] using h
  · rw [if_neg hzero]
    have hstart := Pending.start h (Nat.pos_of_ne_zero hzero) hdis
    obtain ⟨hpend, hsame, hleft⟩ := mergeLeft_pending hstart hle
    have hsub : ∀ e ∈ (Arena.mergeLeft m off len).1, e.1 + e.2 ≤ maxWord := by
      intro e he
      apply hbound e
      unfold Arena.mergeLeft at he
      split at he
      · split_ifs at he
        · exact (Table.mem_erase.mp he).1
        · exact he
      · exact he
    obtain ⟨hpend, hleft, hright⟩ := mergeRight_pending hpend (hsame ▸ hle) hsub hleft
    exact hpend.finish hleft hright

theorem insertFree_zero : Arena.insertFree m off 0 = m := rfl

/-- Carving the request out of a free block removes exactly the request. -/
theorem carve_holds {c sz : ℕ} {e : ℕ × ℕ} {f : Arena.Fit} (h : Holds m S k)
    (hS : S ⊆ Set.Iio c) (hc : c ≤ maxWord) (he : e ∈ m) (hf : Arena.fits sz e = some f) :
    extent (f.aligned, sz) ⊆ extent e ∧
      Holds (Arena.carve m f) (S \ extent (f.aligned, sz)) (k - sz) ∧ sz ≤ k := by
  obtain ⟨hoff, hblock, hle, -, hend, hin⟩ := fits_eq_some hf
  have hstop := h.end_le hS he
  have hsize := size_erase he
  have htotal := h.size
  have hsub : extent (f.aligned, sz) ⊆ extent e := by
    intro x
    simp only [mem_extent]
    omega
  have hes : extent e ⊆ S := h.cover ▸ extent_subset he
  refine ⟨hsub, ?_, by omega⟩
  -- the prefix and the suffix may be empty, and then inserting them does nothing
  have hcarve : Arena.carve m f = Arena.insertFree
      (Arena.insertFree (m.erase e.1) e.1 (f.aligned - e.1)) f.allocEnd
        (f.blockEnd - f.allocEnd) := by
    unfold Arena.carve
    rw [hoff]
    split_ifs with hpre hsuf hsuf
    · rfl
    · rw [show f.blockEnd - f.allocEnd = 0 by omega, insertFree_zero]
    · rw [show f.aligned - e.1 = 0 by omega, insertFree_zero]
    · rw [show f.aligned - e.1 = 0 by omega, show f.blockEnd - f.allocEnd = 0 by omega,
        insertFree_zero, insertFree_zero]
  have hpre : Holds (Arena.insertFree (m.erase e.1) e.1 (f.aligned - e.1))
      (S \ extent e ∪ extent (e.1, f.aligned - e.1)) (k - e.2 + (f.aligned - e.1)) := by
    refine insertFree_holds (h.erase he) (Set.disjoint_left.mpr fun x hx hin => hx.2 ?_)
      (Set.sdiff_subset.trans hS) (by omega) hc
    simp only [mem_extent] at hin ⊢
    omega
  have hpreS : S \ extent e ∪ extent (e.1, f.aligned - e.1) ⊆ Set.Iio c := by
    refine Set.union_subset (Set.sdiff_subset.trans hS) fun x hx => ?_
    simp only [mem_extent, Set.mem_Iio] at hx ⊢
    omega
  have hsufDis : Disjoint (S \ extent e ∪ extent (e.1, f.aligned - e.1))
      (extent (f.allocEnd, f.blockEnd - f.allocEnd)) := by
    refine Set.disjoint_left.mpr fun x hx hin => ?_
    simp only [Set.mem_union, Set.mem_sdiff, mem_extent] at hx hin
    omega
  have hsuf := insertFree_holds hpre hsufDis hpreS (by omega) hc
  rw [hcarve]
  convert hsuf using 1
  · ext x
    have hex : x ∈ extent e → x ∈ S := fun hx => hes hx
    simp only [Set.mem_union, Set.mem_sdiff, mem_extent] at hex ⊢
    by_cases hx : x ∈ S
    · simp only [hx, true_and]
      omega
    · simp only [hx, false_and, false_or, false_iff]
      have hout : ¬(e.1 ≤ x ∧ x < e.1 + e.2) := fun hin => hx (hex hin)
      omega
  · omega

theorem wholeBlock_entries (c : ℕ) :
    (wholeBlock c).entries = if c = 0 then [] else [(0, c)] := by
  unfold wholeBlock
  by_cases hc : c = 0
  · simp [hc, Table.empty]
  · simp [hc, Table.insert, Table.empty]

theorem wholeBlock_holds (c : ℕ) : Holds (wholeBlock c) (Set.Iio c) c := by
  have hentries := wholeBlock_entries c
  by_cases hc : c = 0
  · subst hc
    have hmap : wholeBlock 0 = Table.empty := rfl
    rw [hmap]
    refine ⟨Coalesced.empty, ?_, by simp [BlockMap.size]⟩
    rw [cover_empty]
    exact Set.Iio_bot.symm
  · have hmap : wholeBlock c = Table.singleton 0 c :=
      Table.ext_mem fun e => by simp [Table.mem_def, hentries, hc, Table.singleton]
    rw [hmap]
    refine ⟨Coalesced.singleton (Nat.pos_of_ne_zero hc), ?_, by simp [BlockMap.size]⟩
    rw [cover_singleton]
    ext x
    simp

/-- The bytes of an allocation. -/
def bytesOf (b : AllocBlock) : Set ℕ := extent (b.offset, b.size)

def liveCover (t : Table ℕ AllocBlock) : Set ℕ := {x | ∃ e ∈ t, x ∈ bytesOf e.2}

/-- The free map is the coalesced map of what no allocation holds. -/
structure Sound (a : Arena A) : Prop where
  capacity_le : a.capacity ≤ maxWord
  free : Holds a.free (Set.Iio a.capacity \ liveCover a.allocMap) (a.capacity - a.used)
  used_le : a.used ≤ a.capacity
  used : a.used = Table.total AllocBlock.size a.allocMap
  inside : liveCover a.allocMap ⊆ Set.Iio a.capacity
  apart : ∀ e ∈ a.allocMap, ∀ f ∈ a.allocMap, e ≠ f → Disjoint (bytesOf e.2) (bytesOf f.2)
  pos : ∀ e ∈ a.allocMap, 0 < e.2.size
  aligned : ∀ e ∈ a.allocMap, align ∣ e.2.offset
  cookie : ∀ e ∈ a.allocMap, e.1 ≠ 0

theorem bytesOf_subset {t : Table ℕ AllocBlock} {e : ℕ × AllocBlock} (he : e ∈ t) :
    bytesOf e.2 ⊆ liveCover t := fun _ hx => ⟨e, he, hx⟩

theorem liveCover_empty : liveCover Table.empty = ∅ := by
  ext x
  simp [liveCover]

theorem liveCover_insert {t : Table ℕ AllocBlock} {c : ℕ} (b : AllocBlock)
    (h : ∀ e ∈ t, e.1 ≠ c) : liveCover (t.insert c b) = liveCover t ∪ bytesOf b := by
  ext x
  simp only [liveCover, Set.mem_ofPred_eq, Set.mem_union, Table.mem_insert]
  constructor
  · rintro ⟨e, rfl | ⟨he, -⟩, hx⟩
    · exact Or.inr hx
    · exact Or.inl ⟨e, he, hx⟩
  · rintro (⟨e, he, hx⟩ | hx)
    · exact ⟨e, Or.inr ⟨he, h e he⟩, hx⟩
    · exact ⟨(c, b), Or.inl rfl, hx⟩

/-- An arena without allocations is sound. -/
theorem Sound.of_empty {a : Arena A} (hc : a.capacity ≤ maxWord)
    (hfree : a.free = wholeBlock a.capacity) (hmap : a.allocMap = Table.empty)
    (hused : a.used = 0) : Sound a := by
  have hnone : ∀ e, e ∉ a.allocMap := fun e he => Table.mem_empty (hmap ▸ he)
  have hcover : liveCover a.allocMap = ∅ := hmap ▸ liveCover_empty
  constructor
  · exact hc
  · rw [hfree, hcover, hused, Set.sdiff_empty]
    exact wholeBlock_holds a.capacity
  · exact hused ▸ Nat.zero_le _
  · rw [hused, hmap, Table.total_empty]
  · exact hcover ▸ Set.empty_subset _
  · exact fun e he => (hnone e he).elim
  · exact fun e he => (hnone e he).elim
  · exact fun e he => (hnone e he).elim
  · exact fun e he => (hnone e he).elim

theorem liveCover_erase {t : Table ℕ AllocBlock} {c : ℕ} {b : AllocBlock} (h : (c, b) ∈ t)
    (hap : ∀ e ∈ t, ∀ f ∈ t, e ≠ f → Disjoint (bytesOf e.2) (bytesOf f.2)) :
    liveCover (t.erase c) = liveCover t \ bytesOf b := by
  ext x
  simp only [liveCover, Set.mem_ofPred_eq, Set.mem_sdiff, Table.mem_erase]
  constructor
  · rintro ⟨e, ⟨he, hne⟩, hx⟩
    refine ⟨⟨e, he, hx⟩, fun hb => ?_⟩
    have hdiff : e ≠ (c, b) := fun heq => hne (by rw [heq])
    exact Set.disjoint_left.mp (hap e he (c, b) h hdiff) hx hb
  · rintro ⟨⟨e, he, hx⟩, hb⟩
    refine ⟨e, ⟨he, fun hkey => hb ?_⟩, hx⟩
    obtain rfl := Table.eq_of_key he h hkey
    exact hx

/-- A block ends within a bound on its bytes. -/
theorem bytesOf_end {b : AllocBlock} {c : ℕ} (hpos : 0 < b.size) (h : bytesOf b ⊆ Set.Iio c) :
    b.offset + b.size ≤ c := by
  have hlast : b.offset + b.size - 1 ∈ bytesOf b :=
    mem_extent.mpr ⟨by simp only; omega, by simp only; omega⟩
  have hlt : b.offset + b.size - 1 < c := h hlast
  omega

/-- A free either finds no allocation, and does nothing, or releases one. -/
theorem freeSlice_cases {a : Arena A} (h : Sound a) (slice : ArenaSlice) :
    ((∀ e ∈ a.allocMap, e.1 ≠ slice.cookie) ∧ a.freeSlice slice = a) ∨
      ∃ b, (slice.cookie, b) ∈ a.allocMap ∧
        a.freeSlice slice = { a with
          allocMap := a.allocMap.erase slice.cookie
          used := a.used - b.size
          free := Arena.insertFree a.free b.offset b.size } := by
  unfold Arena.freeSlice
  by_cases hz : slice.cookie = 0
  · exact Or.inl ⟨fun e he hkey => h.cookie e he (hkey.trans hz), if_pos hz⟩
  · rw [if_neg hz]
    cases hfind : a.allocMap.find slice.cookie with
    | none => exact Or.inl ⟨Table.find_eq_none.mp hfind, rfl⟩
    | some b => exact Or.inr ⟨b, Table.find_eq_some.mp hfind, rfl⟩

theorem Sound.freeSlice {a : Arena A} (h : Sound a) (slice : ArenaSlice) :
    Sound (a.freeSlice slice) := by
  rcases freeSlice_cases h slice with ⟨-, heq⟩ | ⟨b, hb, heq⟩ <;> rw [heq]
  · exact h
  have hmem : ∀ e, e ∈ a.allocMap.erase slice.cookie → e ∈ a.allocMap :=
    fun e he => (Table.mem_erase.mp he).1
  have hsub : bytesOf b ⊆ Set.Iio a.capacity := (bytesOf_subset hb).trans h.inside
  have hcover := liveCover_erase hb h.apart
  have htotal := Table.total_erase AllocBlock.size hb
  have hused := h.used
  have hle := h.used_le
  constructor
  · exact h.capacity_le
  · have hins := insertFree_holds h.free (Set.disjoint_left.mpr fun x hx hin =>
      hx.2 (bytesOf_subset hb hin)) Set.sdiff_subset (bytesOf_end (h.pos _ hb) hsub) h.capacity_le
    convert hins using 1
    · rw [hcover, show extent (b.offset, b.size) = bytesOf b from rfl]
      ext x
      have hin : x ∈ bytesOf b → x ∈ Set.Iio a.capacity := fun hx => hsub hx
      simp only [Set.mem_sdiff, Set.mem_union]
      tauto
    · simp only
      omega
  · exact (Nat.sub_le _ _).trans hle
  · simp only
    omega
  · simp only [hcover]
    exact Set.sdiff_subset.trans h.inside
  · exact fun e he f hf => h.apart e (hmem e he) f (hmem f hf)
  · exact fun e he => h.pos e (hmem e he)
  · exact fun e he => h.aligned e (hmem e he)
  · exact fun e he => h.cookie e (hmem e he)

theorem mem_freeSlice {a : Arena A} (h : Sound a) {slice : ArenaSlice} {e : ℕ × AllocBlock} :
    e ∈ (a.freeSlice slice).allocMap ↔ e ∈ a.allocMap ∧ e.1 ≠ slice.cookie := by
  rcases freeSlice_cases h slice with ⟨hnone, heq⟩ | ⟨b, hb, heq⟩ <;> rw [heq]
  · exact ⟨fun he => ⟨he, hnone e he⟩, fun he => he.1⟩
  · exact Table.mem_erase

theorem freeSlice_capacity (a : Arena A) (slice : ArenaSlice) :
    (a.freeSlice slice).capacity = a.capacity := by
  unfold Arena.freeSlice
  split_ifs
  · rfl
  · split <;> rfl

theorem freeSlice_nextCookie (a : Arena A) (slice : ArenaSlice) :
    (a.freeSlice slice).nextCookie = a.nextCookie := by
  unfold Arena.freeSlice
  split_ifs
  · rfl
  · split <;> rfl

theorem Sound.reset {a : Arena A} (h : Sound a) : Sound a.reset :=
  Sound.of_empty h.capacity_le rfl rfl rfl

theorem takeCookie_ne_zero (n : ℕ) : (takeCookie n).1 ≠ 0 := by
  unfold takeCookie fetchAdd
  by_cases h : n = 0
  · simp [h]
  · simp [h]

theorem takeCookie_of_ne_zero {n : ℕ} (h : n ≠ 0) : takeCookie n = (n, (n + 1) % 2 ^ 64) := by
  simp [takeCookie, fetchAdd, h]

/-- The arena after a request took its place in a free block. -/
def place (a : Arena A) (size : ℕ) (f : Arena.Fit) : Arena A :=
  { a with
    free := Arena.carve a.free f
    allocMap := a.allocMap.insert (takeCookie a.nextCookie).1 ⟨f.aligned, size⟩
    used := a.used + size
    nextCookie := (takeCookie a.nextCookie).2 }

/-- An allocation either fails and does nothing, or succeeds in the first block with room. -/
theorem allocate_cases {a : Arena A} (h : Sound a) (size : ℕ) :
    a.allocate size = (none, a) ∨ ∃ e f, e ∈ a.free ∧ Arena.fits size e = some f ∧ 0 < size ∧
      a.allocate size = (some ⟨f.aligned, size, (takeCookie a.nextCookie).1⟩, place a size f) := by
  unfold Arena.allocate
  by_cases hreject : size = 0 ∨ a.capacity < size
  · exact Or.inl (if_pos hreject)
  · rw [if_neg hreject]
    cases hfit : a.free.entries.findSome? (Arena.fits size) with
    | none => exact Or.inl rfl
    | some f =>
        obtain ⟨e, he, hf⟩ := List.exists_of_findSome?_eq_some hfit
        obtain ⟨-, -, hroom⟩ := carve_holds h.free Set.sdiff_subset h.capacity_le he hf
        have hused := h.used_le
        have hcap := h.capacity_le
        have hadd : checkedAdd a.used size = some (a.used + size) :=
          checkedAdd_eq_some.mpr ⟨by omega, rfl⟩
        refine Or.inr ⟨e, f, he, hf, Nat.pos_of_ne_zero (not_or.mp hreject).1, ?_⟩
        simp only [takeCookie_ne_zero, if_false, hadd]
        rfl

theorem Sound.place {a : Arena A} (h : Sound a) {size : ℕ} {e : ℕ × ℕ} {f : Arena.Fit}
    (he : e ∈ a.free) (hf : Arena.fits size e = some f) (hpos : 0 < size)
    (hfresh : ∀ e ∈ a.allocMap, e.1 ≠ (takeCookie a.nextCookie).1) :
    Sound (ArenaSteps.place a size f) := by
  obtain ⟨hsub, hfree, hroom⟩ := carve_holds h.free Set.sdiff_subset h.capacity_le he hf
  have hnew : bytesOf ⟨f.aligned, size⟩ ⊆ Set.Iio a.capacity \ liveCover a.allocMap := by
    rw [← h.free.cover]
    exact hsub.trans (extent_subset he)
  have hcover := liveCover_insert ⟨f.aligned, size⟩ hfresh
  have hold : ∀ b ∈ a.allocMap, Disjoint (bytesOf b.2) (bytesOf ⟨f.aligned, size⟩) :=
    fun b hb => Set.disjoint_left.mpr fun x hx hin => (hnew hin).2 (bytesOf_subset hb hx)
  have hle := h.used_le
  have hused := h.used
  constructor
  · exact h.capacity_le
  · simp only [ArenaSteps.place, hcover, ← Set.sdiff_sdiff, Nat.sub_add_eq]
    exact hfree
  · simp only [ArenaSteps.place]
    omega
  · simp only [ArenaSteps.place, Table.total_insert _ _ hfresh, hused]
  · simp only [ArenaSteps.place, hcover]
    exact Set.union_subset h.inside (hnew.trans Set.sdiff_subset)
  · intro b hb c hc hne
    rcases Table.mem_insert.mp hb with rfl | ⟨hb, -⟩ <;>
      rcases Table.mem_insert.mp hc with rfl | ⟨hc, -⟩
    · exact (hne rfl).elim
    · exact (hold c hc).symm
    · exact hold b hb
    · exact h.apart b hb c hc hne
  · intro b hb
    rcases Table.mem_insert.mp hb with rfl | ⟨hb, -⟩
    · exact hpos
    · exact h.pos b hb
  · intro b hb
    rcases Table.mem_insert.mp hb with rfl | ⟨hb, -⟩
    · exact (fits_eq_some hf).2.2.2.1
    · exact h.aligned b hb
  · intro b hb
    rcases Table.mem_insert.mp hb with rfl | ⟨hb, -⟩
    · exact takeCookie_ne_zero _
    · exact h.cookie b hb

end SlhaV2.ArenaSteps
