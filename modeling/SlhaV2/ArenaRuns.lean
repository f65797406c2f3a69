import Mathlib.Data.List.Nodup
import SlhaV2.ArenaSteps
import SlhaV2.GuardedRun

/-!
# Runs of the arena and its holders

Beside the arena stands a ledger, which is only told what the callers see: the
slices handed out, and the frees and resets. It never looks at the arena. Along
every run in which the cookies do not wrap, the slices the ledger still holds
are exactly the arena's allocations.
-/
namespace SlhaV2.ArenaRuns
open MachineWord OrderedMap BlockMap DeviceArena ArenaSteps GuardedRun

inductive Op where
  | allocate (size : ℕ)
  | free (slice : ArenaSlice)
  | reset
deriving DecidableEq, Repr

/-- The slices not yet given back, the cookies of the others, and how many there were. -/
structure Ledger where
  held : List ArenaSlice
  retired : List ℕ
  issued : ℕ
deriving DecidableEq, Repr

namespace Ledger

def initial : Ledger := ⟨[], [], 0⟩

def issue (l : Ledger) : Option ArenaSlice → Ledger
  | none => l
  | some slice => { l with held := slice :: l.held, issued := l.issued + 1 }

/-- A free gives a held slice back, whatever else the slice presented says. -/
def giveBack (l : Ledger) (cookie : ℕ) : Ledger :=
  if cookie ∈ l.held.map ArenaSlice.cookie then
    { l with
      held := l.held.filter (fun s => decide (s.cookie ≠ cookie))
      retired := cookie :: l.retired }
  else l

def giveBackAll (l : Ledger) : Ledger :=
  { l with held := [], retired := l.held.map ArenaSlice.cookie ++ l.retired }

end Ledger

structure System (A : Type) where
  arena : Arena A
  ledger : Ledger

variable {A : Type}

def start (backing : A) (capacity : ℕ) : System A := ⟨new backing capacity, Ledger.initial⟩

def exec (s : System A) : Op → System A
  | .allocate size => ⟨(s.arena.allocate size).2, s.ledger.issue (s.arena.allocate size).1⟩
  | .free slice => ⟨s.arena.freeSlice slice, s.ledger.giveBack slice.cookie⟩
  | .reset => ⟨s.arena.reset, s.ledger.giveBackAll⟩

/-- Fewer allocations so far than there are words. -/
def Countable (s : System A) : Prop := s.ledger.issued < 2 ^ 64

instance (s : System A) : Decidable (Countable s) := by
  unfold Countable
  infer_instance

def sliceBytes (s : ArenaSlice) : Set ℕ := extent (s.offset, s.size)

/-- Held slices and free blocks are the backing allocation, each byte once. -/
structure Partitioned (s : System A) : Prop where
  disjoint : s.ledger.held.Pairwise fun a b => Disjoint (sliceBytes a) (sliceBytes b)
  apart : ∀ a ∈ s.ledger.held, Disjoint (sliceBytes a) (cover s.arena.free)
  covers : ∀ x, x < s.arena.capacity ↔
    (∃ a ∈ s.ledger.held, x ∈ sliceBytes a) ∨ x ∈ cover s.arena.free
  used : s.arena.used = (s.ledger.held.map ArenaSlice.size).sum
  conserved : ∃ f, s.arena.freeBytes = .ok f ∧ s.arena.used + f = s.arena.capacity
  accounted : s.arena.accountingIsConserved = .ok true
  aligned : ∀ a ∈ s.ledger.held, 128 ∣ a.offset
  coalesced : Coalesced s.arena.free

/-- The entry of the allocation map that stands for a slice. -/
def entryOf (s : ArenaSlice) : ℕ × AllocBlock := (s.cookie, ⟨s.offset, s.size⟩)

/-- What every run keeps. -/
structure Valid (s : System A) : Prop where
  sound : Sound s.arena
  held : ∀ slice, slice ∈ s.ledger.held ↔ entryOf slice ∈ s.arena.allocMap
  distinct : (s.ledger.held.map ArenaSlice.cookie).Nodup
  counter : s.arena.nextCookie = (s.ledger.issued + 1) % 2 ^ 64
  issued : ∀ e ∈ s.arena.allocMap, e.1 ≤ s.ledger.issued
  retired : ∀ c ∈ s.ledger.retired, c ≤ s.ledger.issued ∧ ∀ e ∈ s.arena.allocMap, e.1 ≠ c

theorem Valid.start {backing : A} {capacity : ℕ} (h : capacity ≤ maxWord) :
    Valid (start backing capacity) := by
  have hnone : ∀ e, e ∉ (ArenaRuns.start backing capacity).arena.allocMap :=
    fun e he => Table.mem_empty he
  constructor
  · exact Sound.of_empty h rfl rfl rfl
  · exact fun slice => ⟨fun hs => absurd hs List.not_mem_nil, fun he => (hnone _ he).elim⟩
  · exact List.nodup_nil
  · rfl
  · exact fun e he => (hnone e he).elim
  · exact fun c hc => absurd hc List.not_mem_nil

/-- A cookie of the map belongs to a held slice. -/
theorem Valid.mem_cookies {s : System A} (h : Valid s) {c : ℕ} :
    c ∈ s.ledger.held.map ArenaSlice.cookie ↔ ∃ e ∈ s.arena.allocMap, e.1 = c := by
  constructor
  · intro hc
    obtain ⟨slice, hs, rfl⟩ := List.mem_map.mp hc
    exact ⟨entryOf slice, (h.held slice).mp hs, rfl⟩
  · rintro ⟨⟨k, b⟩, he, rfl⟩
    exact List.mem_map.mpr ⟨⟨b.offset, b.size, k⟩, (h.held _).mpr he, rfl⟩

theorem Valid.allocate {s : System A} (h : Valid s) {size : ℕ}
    (hok : Countable (exec s (.allocate size))) : Valid (exec s (.allocate size)) := by
  unfold Countable at hok
  rcases allocate_cases h.sound size with heq | ⟨e, f, he, hf, hpos, heq⟩ <;>
    simp only [exec, heq, Ledger.issue] at hok ⊢
  · exact h
  -- the count stays below the width, so the counter is the count itself
  have hnext : s.arena.nextCookie = s.ledger.issued + 1 := by
    rw [h.counter]
    exact Nat.mod_eq_of_lt hok
  have htake : Arena.takeCookie s.arena.nextCookie =
      (s.ledger.issued + 1, (s.ledger.issued + 1 + 1) % 2 ^ 64) := by
    rw [hnext]
    exact takeCookie_of_ne_zero (Nat.succ_ne_zero _)
  have hfresh : ∀ e ∈ s.arena.allocMap, e.1 ≠ s.ledger.issued + 1 :=
    fun e he => (Nat.lt_succ_of_le (h.issued e he)).ne
  have hmap : ∀ e, e ∈ (place s.arena size f).allocMap ↔
      e = (s.ledger.issued + 1, ⟨f.aligned, size⟩) ∨ e ∈ s.arena.allocMap := by
    intro e
    simp only [place, Table.mem_insert, htake]
    constructor
    · exact fun he => he.imp_right And.left
    · exact fun he => he.imp_right fun he => ⟨he, hfresh e he⟩
  constructor
  · exact h.sound.place he hf hpos (by rw [htake]; exact hfresh)
  · intro slice
    simp only [htake, List.mem_cons, hmap, h.held, entryOf, Prod.mk.injEq, AllocBlock.mk.injEq]
    cases slice
    simp only [ArenaSlice.mk.injEq]
    tauto
  · simp only [htake, List.map_cons, List.nodup_cons]
    refine ⟨fun hin => ?_, h.distinct⟩
    obtain ⟨e, he, hkey⟩ := h.mem_cookies.mp hin
    exact hfresh e he hkey
  · simp only [place, htake]
  · intro e he
    rcases (hmap e).mp he with rfl | he
    · exact le_rfl
    · exact (h.issued e he).trans (Nat.le_succ _)
  · intro c hc
    obtain ⟨hle, hne⟩ := h.retired c hc
    refine ⟨hle.trans (Nat.le_succ _), fun e he => ?_⟩
    rcases (hmap e).mp he with rfl | he
    · exact (Nat.lt_succ_of_le hle).ne'
    · exact hne e he

theorem Valid.free {s : System A} (h : Valid s) (slice : ArenaSlice) :
    Valid (exec s (.free slice)) := by
  have hmap : ∀ e, e ∈ (s.arena.freeSlice slice).allocMap ↔
      e ∈ s.arena.allocMap ∧ e.1 ≠ slice.cookie := fun e => mem_freeSlice h.sound
  have hissued : (s.ledger.giveBack slice.cookie).issued = s.ledger.issued := by
    unfold Ledger.giveBack
    split_ifs <;> rfl
  have hheld : ∀ t, t ∈ (s.ledger.giveBack slice.cookie).held ↔
      t ∈ s.ledger.held ∧ t.cookie ≠ slice.cookie := by
    intro t
    unfold Ledger.giveBack
    split_ifs with hin
    · simp
    · exact ⟨fun ht => ⟨ht, fun hkey => hin (List.mem_map.mpr ⟨t, ht, hkey⟩)⟩, And.left⟩
  have hretired : ∀ c ∈ (s.ledger.giveBack slice.cookie).retired,
      c ∈ s.ledger.retired ∨ c = slice.cookie ∧ c ≤ s.ledger.issued := by
    intro c hc
    unfold Ledger.giveBack at hc
    split_ifs at hc with hin
    · rcases List.mem_cons.mp hc with rfl | hc
      · obtain ⟨e, he, hkey⟩ := h.mem_cookies.mp hin
        exact Or.inr ⟨rfl, hkey ▸ h.issued e he⟩
      · exact Or.inl hc
    · exact Or.inl hc
  constructor
  · exact h.sound.freeSlice slice
  · intro t
    simp only [exec, hheld, hmap, h.held, entryOf]
  · have hsub : ((s.ledger.giveBack slice.cookie).held.map ArenaSlice.cookie).Sublist
        (s.ledger.held.map ArenaSlice.cookie) := by
      unfold Ledger.giveBack
      split_ifs
      · exact List.filter_sublist.map _
      · exact List.Sublist.refl _
    exact hsub.nodup h.distinct
  · simp only [exec, hissued, freeSlice_nextCookie]
    exact h.counter
  · intro e he
    simp only [exec, hissued]
    exact h.issued e ((hmap e).mp he).1
  · intro c hc
    simp only [exec, hissued]
    rcases hretired c hc with hold | ⟨rfl, hle⟩
    · obtain ⟨hle, hne⟩ := h.retired c hold
      exact ⟨hle, fun e he => hne e ((hmap e).mp he).1⟩
    · exact ⟨hle, fun e he => ((hmap e).mp he).2⟩

theorem Valid.reset {s : System A} (h : Valid s) : Valid (exec s .reset) := by
  have hnone : ∀ e, e ∉ s.arena.reset.allocMap := fun e he => Table.mem_empty he
  constructor
  · exact h.sound.reset
  · exact fun slice => ⟨fun hs => absurd hs List.not_mem_nil, fun he => (hnone _ he).elim⟩
  · exact List.nodup_nil
  · exact h.counter
  · exact fun e he => (hnone e he).elim
  · intro c hc
    refine ⟨?_, fun e he => (hnone e he).elim⟩
    rcases List.mem_append.mp hc with hc | hc
    · obtain ⟨e, he, hkey⟩ := h.mem_cookies.mp hc
      exact hkey ▸ h.issued e he
    · exact (h.retired c hc).1

theorem Valid.exec {s : System A} (h : Valid s) (op : Op) (hok : Countable (exec s op)) :
    Valid (exec s op) := by
  cases op with
  | allocate size => exact h.allocate hok
  | free slice => exact h.free slice
  | reset => exact h.reset

theorem Valid.freeBytes {s : System A} (h : Valid s) :
    s.arena.freeBytes = .ok (s.arena.capacity - s.arena.used) := by
  have hsize : (s.arena.free.entries.map Prod.snd).sum = s.arena.capacity - s.arena.used :=
    h.sound.free.size
  rw [← hsize]
  refine checkedSum_ok ?_
  rw [hsize]
  exact (Nat.sub_le _ _).trans h.sound.capacity_le

/-- The held slices are the entries of the allocation map, in some order. -/
theorem Valid.held_perm {s : System A} (h : Valid s) :
    (s.ledger.held.map entryOf).Perm s.arena.allocMap.entries := by
  have hnodup : (s.ledger.held.map entryOf).Nodup := by
    apply List.Nodup.of_map Prod.fst
    rw [List.map_map]
    exact h.distinct
  refine (List.perm_ext_iff_of_nodup hnodup s.arena.allocMap.nodup).mpr fun e => ?_
  constructor
  · intro he
    obtain ⟨slice, hs, rfl⟩ := List.mem_map.mp he
    exact (h.held slice).mp hs
  · intro he
    exact List.mem_map.mpr ⟨⟨e.2.offset, e.2.size, e.1⟩, (h.held _).mpr he, rfl⟩

theorem Valid.partitioned {s : System A} (h : Valid s) : Partitioned s := by
  have hsound := h.sound
  have hlive : ∀ x, x ∈ liveCover s.arena.allocMap ↔ ∃ a ∈ s.ledger.held, x ∈ sliceBytes a := by
    intro x
    constructor
    · rintro ⟨e, he, hx⟩
      exact ⟨⟨e.2.offset, e.2.size, e.1⟩, (h.held _).mpr he, hx⟩
    · rintro ⟨a, ha, hx⟩
      exact ⟨entryOf a, (h.held a).mp ha, hx⟩
  have hused := hsound.used_le
  constructor
  · refine (List.pairwise_map.mp h.distinct).imp_of_mem fun {a b} ha hb hne => ?_
    exact hsound.apart _ ((h.held a).mp ha) _ ((h.held b).mp hb)
      fun heq => hne (congrArg Prod.fst heq)
  · intro a ha
    rw [hsound.free.cover]
    exact Set.disjoint_left.mpr fun x hx hin => hin.2 ((hlive x).mpr ⟨a, ha, hx⟩)
  · intro x
    rw [hsound.free.cover, ← hlive x, Set.mem_sdiff, Set.mem_Iio]
    have hin : x ∈ liveCover s.arena.allocMap → x < s.arena.capacity := fun hx => hsound.inside hx
    tauto
  · have hsum := (h.held_perm.map fun e => e.2.size).sum_eq
    rw [List.map_map] at hsum
    exact hsound.used.trans hsum.symm
  · exact ⟨_, h.freeBytes, by omega⟩
  · have hadd : s.arena.used + (s.arena.capacity - s.arena.used) = s.arena.capacity := by omega
    have hchecked : checkedAdd s.arena.used (s.arena.capacity - s.arena.used) =
        some s.arena.capacity :=
      checkedAdd_eq_some.mpr ⟨hadd.trans_le hsound.capacity_le, hadd.symm⟩
    simp [Arena.accountingIsConserved, h.freeBytes, hchecked, bind, Except.bind, pure, Except.pure]
  · exact fun a ha => hsound.aligned _ ((h.held a).mp ha)
  · exact hsound.free.coalesced

/-- A cookie that belongs to no held slice frees nothing. -/
theorem Valid.freeSlice_stale {s : System A} (h : Valid s) {slice : ArenaSlice}
    (hs : ∀ t ∈ s.ledger.held, t.cookie ≠ slice.cookie) :
    s.arena.freeSlice slice = s.arena := by
  rcases freeSlice_cases h.sound slice with ⟨-, heq⟩ | ⟨b, hb, -⟩
  · exact heq
  · exact (hs ⟨b.offset, b.size, slice.cookie⟩ ((h.held _).mpr hb) rfl).elim

theorem mem_freeAll {a : Arena A} (h : Sound a) (slices : List ArenaSlice) {e : ℕ × AllocBlock} :
    e ∈ (slices.foldl Arena.freeSlice a).allocMap ↔
      e ∈ a.allocMap ∧ ∀ s ∈ slices, e.1 ≠ s.cookie := by
  induction slices generalizing a with
  | nil => simp
  | cons s rest ih =>
      rw [List.foldl_cons, ih (h.freeSlice s), mem_freeSlice h, List.forall_mem_cons, and_assoc]

theorem sound_freeAll {a : Arena A} (h : Sound a) (slices : List ArenaSlice) :
    Sound (slices.foldl Arena.freeSlice a) ∧
      (slices.foldl Arena.freeSlice a).capacity = a.capacity := by
  induction slices generalizing a with
  | nil => exact ⟨h, rfl⟩
  | cons s rest ih =>
      obtain ⟨hsound, hcap⟩ := ih (h.freeSlice s)
      exact ⟨hsound, hcap.trans (freeSlice_capacity a s)⟩

/-- Without allocations the free map is one block: no other coalesced map covers the whole. -/
theorem free_eq_wholeBlock {a : Arena A} (h : Sound a) (hnone : ∀ e, e ∉ a.allocMap) :
    a.free = wholeBlock a.capacity := by
  have hmap : a.allocMap = Table.empty :=
    Table.ext_mem fun e => ⟨fun he => (hnone e he).elim, fun he => (Table.mem_empty he).elim⟩
  have hfree := h.free
  rw [h.used, hmap, liveCover_empty, Set.sdiff_empty, Table.total_empty, Nat.sub_zero] at hfree
  exact hfree.unique (wholeBlock_holds a.capacity)

theorem exec_capacity {s : System A} (h : Valid s) (op : Op) :
    (exec s op).arena.capacity = s.arena.capacity := by
  cases op with
  | allocate size =>
      rcases allocate_cases h.sound size with heq | ⟨e, f, -, -, -, heq⟩ <;>
        simp only [exec, heq, place]
  | free slice => exact freeSlice_capacity s.arena slice
  | reset => rfl

/-- In every state a run reaches, the held slices and the free blocks share out
the backing allocation, retired cookies are dead, and giving back the held
slices, in any order and among any other slices, leaves one block. -/
theorem arena_run_contract (backing : A) {capacity : ℕ} (hcap : capacity ≤ maxWord)
    {ops : List Op} {s : System A} (hrun : Runs exec Countable (start backing capacity) ops s) :
    s.arena.capacity = capacity ∧ Partitioned s ∧
      (∀ slice : ArenaSlice, slice.cookie ∈ s.ledger.retired →
        s.arena.freeSlice slice = s.arena) ∧
      ∀ slices : List ArenaSlice, (∀ a ∈ s.ledger.held, ∃ t ∈ slices, t.cookie = a.cookie) →
        (slices.foldl Arena.freeSlice s.arena).free.entries =
          if capacity = 0 then [] else [(0, capacity)] := by
  obtain ⟨hvalid, hsame⟩ : Valid s ∧ s.arena.capacity = capacity :=
    hrun.invariant (P := fun t => Valid t ∧ t.arena.capacity = capacity)
      ⟨Valid.start hcap, rfl⟩
      fun t op ht hok => ⟨ht.1.exec op hok, (exec_capacity ht.1 op).trans ht.2⟩
  refine ⟨hsame, hvalid.partitioned, fun slice hc => ?_, fun slices hall => ?_⟩
  · refine hvalid.freeSlice_stale fun t ht => ?_
    exact (hvalid.retired _ hc).2 (entryOf t) ((hvalid.held t).mp ht)
  · obtain ⟨hsound, hcapacity⟩ := sound_freeAll hvalid.sound slices
    have hnone : ∀ e, e ∉ (slices.foldl Arena.freeSlice s.arena).allocMap := by
      intro e he
      obtain ⟨hmem, hne⟩ := (mem_freeAll hvalid.sound slices).mp he
      obtain ⟨t, ht, hkey⟩ := hall ⟨e.2.offset, e.2.size, e.1⟩ ((hvalid.held _).mpr hmem)
      exact hne t ht hkey.symm
    rw [free_eq_wholeBlock hsound hnone, hcapacity, hsame, wholeBlock_entries]

theorem arena_run_contract_split :
    (([⟨7, 7, 2⟩, ⟨0, 0, 1⟩] : List ArenaSlice).foldl Arena.freeSlice
      (exec (exec (start () 1024) (.allocate 100)) (.allocate 100)).arena).free.entries =
        [(0, 1024)] := by
  have hrun : Runs exec Countable (start () 1024) [.allocate 100, .allocate 100]
      (exec (exec (start () 1024) (.allocate 100)) (.allocate 100)) :=
    Runs.snoc (Runs.single (by decide +kernel)) (by decide +kernel)
  exact (arena_run_contract () (by decide) hrun).2.2.2 _ (by decide +kernel)

end SlhaV2.ArenaRuns
