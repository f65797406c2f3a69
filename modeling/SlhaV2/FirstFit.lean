import SlhaV2.ArenaRuns

/-!
# The first fit is the lowest fit

In a coalesced map an interval of free bytes lies in a single block. A request
that some aligned interval could serve therefore fits the block that interval
lies in, and the first block with room in the order of offsets serves it lowest.
-/
namespace SlhaV2.FirstFit
open MachineWord OrderedMap BlockMap DeviceArena ArenaSteps ArenaRuns GuardedRun

variable {A : Type} {m : Blocks} {off len : ℕ}

/-- No interval of covered numbers crosses the end of a block. -/
theorem exists_block (h : Coalesced m) (hlen : 0 < len)
    (hsub : Set.Ico off (off + len) ⊆ cover m) :
    ∃ e ∈ m, e.1 ≤ off ∧ off + len ≤ e.1 + e.2 := by
  obtain ⟨e, he, hle, hlt⟩ := mem_cover.mp (hsub (Set.left_mem_Ico.mpr (by omega)))
  refine ⟨e, he, hle, ?_⟩
  by_contra hcross
  exact h.end_not_mem he (hsub (Set.mem_Ico.mpr ⟨by omega, by omega⟩))

/-- Aligning up stays below every aligned number above. -/
theorem alignUp_le {k : ℕ} (hk : k ≤ off) (hoff : off ≤ maxWord) (hdvd : align ∣ off) :
    ∃ v, alignUp k = some v ∧ v ≤ off := by
  obtain ⟨q, rfl⟩ := hdvd
  have hround : k + (align - 1) ≤ maxWord := by
    unfold align maxWord at *
    omega
  have hword : checkedAdd k (align - 1) = some (k + (align - 1)) :=
    checkedAdd_eq_some.mpr ⟨hround, rfl⟩
  refine ⟨(k + (align - 1)) / align * align, ?_, ?_⟩
  · unfold alignUp
    rw [hword, Option.map_some, and_wordNot hround]
  · unfold align at *
    omega

/-- A block that holds an aligned interval of the size fits the request. -/
theorem fits_of_interval {e : ℕ × ℕ} {size : ℕ} (hle : e.1 ≤ off)
    (hend : off + size ≤ e.1 + e.2) (hword : e.1 + e.2 ≤ maxWord) (hdvd : align ∣ off) :
    ∃ f, Arena.fits size e = some f ∧ f.aligned ≤ off := by
  obtain ⟨v, hv, hvle⟩ := alignUp_le hle (by omega) hdvd
  have hblock : checkedAdd e.1 e.2 = some (e.1 + e.2) := checkedAdd_eq_some.mpr ⟨hword, rfl⟩
  have halloc : checkedAdd v size = some (v + size) :=
    checkedAdd_eq_some.mpr ⟨by omega, rfl⟩
  refine ⟨⟨e.1, e.2, v, v + size, e.1 + e.2⟩, ?_, hvle⟩
  unfold Arena.fits
  simp only [hv, hblock, halloc, Option.bind_eq_bind, Option.bind_some]
  exact if_pos (by omega)

/-- An aligned place of this size in the bytes no slice holds. -/
structure Room (s : System A) (size off : ℕ) : Prop where
  aligned : 128 ∣ off
  inside : off + size ≤ s.arena.capacity
  unallocated : ∀ a ∈ s.ledger.held, Disjoint (sliceBytes a) (Set.Ico off (off + size))

theorem Room.subset_cover {s : System A} {size : ℕ} (hs : Partitioned s) (h : Room s size off) :
    Set.Ico off (off + size) ⊆ cover s.arena.free := by
  intro x hx
  have hlt : x < s.arena.capacity := lt_of_lt_of_le hx.2 h.inside
  rcases (hs.covers x).mp hlt with ⟨a, ha, hin⟩ | hfree
  · exact (Set.disjoint_left.mp (h.unallocated a ha) hin hx).elim
  · exact hfree

/-- The first block with room, in the order of offsets, offers the lowest place. -/
theorem firstFit_le {s : System A} {size : ℕ} (hv : Valid s) (hpos : 0 < size)
    (h : Room s size off) :
    ∃ e f, e ∈ s.arena.free ∧ Arena.fits size e = some f ∧
      s.arena.free.entries.findSome? (Arena.fits size) = some f ∧ f.aligned ≤ off := by
  obtain ⟨e, he, hle, hend⟩ := exists_block hv.sound.free.coalesced hpos
    (h.subset_cover hv.partitioned)
  have hstop := (hv.sound.free.end_le Set.sdiff_subset he).trans hv.sound.capacity_le
  obtain ⟨f, hf, hfle⟩ := fits_of_interval hle hend hstop h.aligned
  cases hfirst : s.arena.free.entries.findSome? (Arena.fits size) with
  | none =>
      rw [List.findSome?_eq_none_iff] at hfirst
      rw [hfirst e he] at hf
      cases hf
  | some g =>
      obtain ⟨l₁, a, l₂, hl, hg, hnone⟩ := List.findSome?_eq_some_iff.mp hfirst
      have ha : a ∈ s.arena.free := by
        rw [Table.mem_def, hl]
        exact List.mem_append_right _ List.mem_cons_self
      refine ⟨a, g, ha, hg, rfl, ?_⟩
      have hsplit : e ∈ l₁ ++ a :: l₂ := by
        rw [← hl]
        exact he
      rcases List.mem_append.mp hsplit with hbefore | hrest
      · rw [hnone e hbefore] at hf
        cases hf
      · rcases List.mem_cons.mp hrest with rfl | hafter
        · rw [hg] at hf
          cases hf
          exact hfle
        · -- A block before the one with the place ends before it.
          have hordered := s.arena.free.ordered
          rw [hl] at hordered
          have hkey : a.1 < e.1 :=
            (List.pairwise_cons.mp (List.pairwise_append.mp hordered).2.1).1 e hafter
          have hgap := hv.sound.free.coalesced.gap a ha e he hkey
          obtain ⟨_, hblock, _, _, halloc, hin⟩ := fits_eq_some hg
          omega

/-- The place the arena takes is aligned and held by no slice. -/
theorem room_of_fits {s : System A} {size : ℕ} (hv : Valid s) {e : ℕ × ℕ} {f : Arena.Fit}
    (he : e ∈ s.arena.free) (hf : Arena.fits size e = some f) : Room s size f.aligned := by
  have hend := hv.sound.free.end_le Set.sdiff_subset he
  obtain ⟨_, hblock, hle, hdvd, halloc, hin⟩ := fits_eq_some hf
  refine ⟨hdvd, by omega, fun a ha => ?_⟩
  have hsub : Set.Ico f.aligned (f.aligned + size) ⊆ cover s.arena.free := by
    intro x hx
    exact mem_cover.mpr ⟨e, he, hle.trans hx.1, by have := hx.2; omega⟩
  exact (hv.partitioned.apart a ha).mono_right hsub

/-- An allocation fails, and then changes nothing, exactly when no aligned place
of its size is free. Otherwise it takes the lowest. -/
theorem allocate_lowest_room (backing : A) {capacity : ℕ} (hcap : capacity ≤ maxWord)
    {ops : List Op} {s : System A} (hrun : Runs exec Countable (start backing capacity) ops s)
    (size : ℕ) :
    ((s.arena.allocate size).1 = none ↔ size = 0 ∨ ∀ off, ¬ Room s size off) ∧
      ((s.arena.allocate size).1 = none → (s.arena.allocate size).2 = s.arena) ∧
      ∀ slice, (s.arena.allocate size).1 = some slice → slice.size = size ∧
        Room s size slice.offset ∧ ∀ off, Room s size off → slice.offset ≤ off := by
  have hv : Valid s := hrun.invariant (Valid.start hcap) fun _ op ht hok => ht.exec op hok
  have hserved : ∀ off, 0 < size → Room s size off → ∃ f,
      s.arena.free.entries.findSome? (Arena.fits size) = some f ∧ f.aligned ≤ off ∧
        (s.arena.allocate size).1 =
          some ⟨f.aligned, size, (Arena.takeCookie s.arena.nextCookie).1⟩ := by
    intro off hpos hroom
    obtain ⟨e, f, he, hf, hfirst, hle⟩ := firstFit_le hv hpos hroom
    have hgo : ¬ (size = 0 ∨ s.arena.capacity < size) := by
      have hin := hroom.inside
      omega
    refine ⟨f, hfirst, hle, ?_⟩
    rcases allocate_cases hv.sound size with heq | ⟨_, g, _, _, _, heq⟩
    · -- The search found a block, so the call does not fail.
      obtain ⟨_, _, hsize⟩ := carve_holds hv.sound.free Set.sdiff_subset hv.sound.capacity_le he hf
      have hused := hv.sound.used_le
      have hmax := hv.sound.capacity_le
      have hadd : checkedAdd s.arena.used size = some (s.arena.used + size) :=
        checkedAdd_eq_some.mpr ⟨by omega, rfl⟩
      unfold Arena.allocate at heq
      rw [if_neg hgo, hfirst] at heq
      simp only [takeCookie_ne_zero, if_false, hadd] at heq
      cases heq
    · have hsearch := heq
      unfold Arena.allocate at hsearch
      rw [if_neg hgo, hfirst] at hsearch
      simp only [takeCookie_ne_zero, if_false] at hsearch
      rw [heq]
      cases hadd : checkedAdd s.arena.used size with
      | none =>
          rw [hadd] at hsearch
          cases hsearch
      | some used =>
          rw [hadd] at hsearch
          simp only [Prod.mk.injEq, Option.some.injEq, ArenaSlice.mk.injEq] at hsearch
          rw [hsearch.1.1]
  refine ⟨⟨fun hnone => ?_, fun hno => ?_⟩, fun hnone => ?_, fun slice hslice => ?_⟩
  · by_cases hzero : size = 0
    · exact .inl hzero
    · refine .inr fun off hroom => ?_
      obtain ⟨f, _, _, hsome⟩ := hserved off (Nat.pos_of_ne_zero hzero) hroom
      rw [hnone] at hsome
      cases hsome
  · rcases allocate_cases hv.sound size with heq | ⟨e, f, he, hf, hpos, _⟩
    · rw [heq]
    · rcases hno with hzero | hno
      · omega
      · exact (hno f.aligned (room_of_fits hv he hf)).elim
  · rcases allocate_cases hv.sound size with heq | ⟨_, _, _, _, _, heq⟩
    · rw [heq]
    · rw [heq] at hnone
      cases hnone
  · rcases allocate_cases hv.sound size with heq | ⟨e, f, he, hf, hpos, heq⟩
    · rw [heq] at hslice
      cases hslice
    · have hsame := hslice
      rw [heq] at hsame
      cases hsame
      refine ⟨rfl, room_of_fits hv he hf, fun off hroom => ?_⟩
      obtain ⟨g, _, hle, hsome⟩ := hserved off hpos hroom
      rw [hslice] at hsome
      simp only [Option.some.injEq, ArenaSlice.mk.injEq] at hsome
      rw [hsome.1]
      exact hle

/-- With 100 bytes taken the next place is 128. -/
theorem allocate_lowest_room_second :
    ((exec (start () 1024) (.allocate 100)).arena.allocate 300).1 = some ⟨128, 300, 2⟩ ∧
      Room (exec (start () 1024) (.allocate 100)) 300 128 := by
  have hrun : Runs exec Countable (start () 1024) [.allocate 100]
      (exec (start () 1024) (.allocate 100)) := Runs.single (by decide +kernel)
  have hslice : ((exec (start () 1024) (.allocate 100)).arena.allocate 300).1 =
      some ⟨128, 300, 2⟩ := by decide +kernel
  exact ⟨hslice, ((allocate_lowest_room () (by decide) hrun 300).2.2 _ hslice).2.1⟩

end SlhaV2.FirstFit
