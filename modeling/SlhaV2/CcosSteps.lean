import Mathlib.Algebra.BigOperators.Group.List.Basic
import SlhaV2.CcosCache

/-!
# What one cache operation keeps

The byte count is the sum of the slots' footprints, the stack holds the COLD
slots, the WARM flag tells the state of a live slot, and live slots have their
own sequence numbers. Writes to one slot are treated once, whatever their
reason; each operation then is such a write, or none.
-/
namespace SlhaV2.CcosSteps
open MachineWord ByteBuffer FloatingPoint TileCodec HostFile SlhaTile EventLog CcosCache
open ElasticKvCache

/-- Bytes a paged-out correction plane saves. -/
def reclaimed (t : SciRustSlhaTile) : ℕ := if t.isTq3Nocorr then t.separableCorrBytes else 0

def footprint : TileState → SciRustSlhaTile → ℕ
  | .hot, t => hotBytes - reclaimed t
  | .warm, t => warmBytes - reclaimed t
  | .cold, _ => 0

def Live (c : ElasticKvCache) (i : ℕ) : Prop :=
  c.state[i]? = some .hot ∨ c.state[i]? = some .warm

theorem live_of_ne_cold {c : ElasticKvCache} {i : ℕ} {s : TileState}
    (hs : c.state[i]? = some s) (hlive : s ≠ .cold) : Live c i := by
  cases s with
  | hot => exact Or.inl hs
  | warm => exact Or.inr hs
  | cold => exact (hlive rfl).elim

structure Valid (c : ElasticKvCache) : Prop where
  stateLength : c.state.length = c.tiles.length
  seqLength : c.seq.length = c.tiles.length
  importanceLength : c.importance.length = c.tiles.length
  freeNodup : c.free.Nodup
  freeCold : ∀ i, i ∈ c.free ↔ c.state[i]? = some .cold
  flag : ∀ i t, Live c i → c.tiles[i]? = some t → (c.state[i]? = some .warm ↔ t.isWarm = true)
  seqBelow : ∀ i n, Live c i → c.seq[i]? = some n → n < c.nextSeq
  seqInjective : ∀ i j n, Live c i → Live c j → c.seq[i]? = some n → c.seq[j]? = some n → i = j
  counter : c.liveBytesCounter = (List.zipWith footprint c.state c.tiles).sum

theorem getAt_some {α : Type} {xs : List α} {i : ℕ} {a : α} (h : xs[i]? = some a) :
    getAt xs i = .ok a := by
  rw [getAt, h]

theorem setAt_of_lt {α : Type} {xs : List α} {i : ℕ} (a : α) (h : i < xs.length) :
    setAt xs i a = .ok (xs.set i a) := if_pos h

theorem wordSub_of_le {a b : ℕ} (h : b ≤ a) : wordSub a b = .ok (a - b) := if_pos h

/-- Replacing one element of each list exchanges one summand. -/
theorem sum_zipWith_set {α β : Type} (f : α → β → ℕ) {xs : List α} {ys : List β} {i : ℕ}
    {x : α} {y : β} (hx : xs[i]? = some x) (hy : ys[i]? = some y) (a : α) (b : β) :
    (List.zipWith f (xs.set i a) (ys.set i b)).sum + f x y =
      (List.zipWith f xs ys).sum + f a b := by
  induction xs generalizing ys i with
  | nil => simp at hx
  | cons u us ih =>
      cases ys with
      | nil => simp at hy
      | cons v vs =>
          cases i with
          | zero =>
              obtain rfl : u = x := by simpa using hx
              obtain rfl : v = y := by simpa using hy
              simp only [List.set_cons_zero, List.zipWith_cons_cons, List.sum_cons]
              omega
          | succ i =>
              have hrest := @ih vs i (by simpa using hx) (by simpa using hy)
              simp only [List.set_cons_succ, List.zipWith_cons_cons, List.sum_cons]
              omega

theorem separableCorrBytes_le (t : SciRustSlhaTile) : t.separableCorrBytes ≤ 16 := by
  unfold SciRustSlhaTile.separableCorrBytes
  split_ifs <;> decide

theorem reclaimed_le (t : SciRustSlhaTile) : reclaimed t ≤ 16 := by
  unfold reclaimed
  split_ifs
  · exact separableCorrBytes_le t
  · exact Nat.zero_le _

/-- The footprint of a slot is what the code computes for it. -/
theorem slotLiveBytes_eq {c : ElasticKvCache} {i : ℕ} {s : TileState} {t : SciRustSlhaTile}
    (hs : c.state[i]? = some s) (ht : c.tiles[i]? = some t) :
    c.slotLiveBytes i = .ok (footprint s t) := by
  have hle := reclaimed_le t
  have hhot : wordSub hotBytes (reclaimed t) = .ok (hotBytes - reclaimed t) :=
    wordSub_of_le (hle.trans (by decide))
  have hwarm : wordSub warmBytes (reclaimed t) = .ok (warmBytes - reclaimed t) :=
    wordSub_of_le (hle.trans (by decide))
  unfold slotLiveBytes
  rw [getAt_some hs]
  cases s with
  | hot =>
      simp only [bind, Except.bind, pure, Except.pure, getAt_some ht]
      exact hhot
  | warm =>
      simp only [bind, Except.bind, pure, Except.pure, getAt_some ht]
      exact hwarm
  | cold => rfl

namespace Valid
variable {c : ElasticKvCache} {i : ℕ}

theorem new (budgetBytes : ℕ) (policy : PageOutPolicy) (eviction : EvictionPolicy) :
    Valid { ElasticKvCache.new budgetBytes policy with eviction := eviction } := by
  constructor
  · rfl
  · rfl
  · rfl
  · exact List.nodup_nil
  · exact fun i => by simp [ElasticKvCache.new]
  · exact fun i t _ ht => by simp [ElasticKvCache.new] at ht
  · exact fun i n _ hn => by simp [ElasticKvCache.new] at hn
  · exact fun i j n _ _ hn => by simp [ElasticKvCache.new] at hn
  · rfl

/-- A slot with a state has a tile. -/
theorem tile_of_state (h : Valid c) {s : TileState} (hs : c.state[i]? = some s) :
    ∃ t, c.tiles[i]? = some t := by
  have hlt : i < c.tiles.length := by
    rw [← h.stateLength]
    exact (List.getElem?_eq_some_iff.mp hs).1
  exact ⟨_, List.getElem?_eq_getElem hlt⟩

theorem state_of_lt (h : Valid c) (hi : i < c.tiles.length) : ∃ s, c.state[i]? = some s :=
  ⟨_, List.getElem?_eq_getElem (h.stateLength ▸ hi)⟩

theorem lt_of_state (h : Valid c) {s : TileState} (hs : c.state[i]? = some s) :
    i < c.tiles.length := by
  rw [← h.stateLength]
  exact (List.getElem?_eq_some_iff.mp hs).1

/-- A slot's bytes are part of the count. -/
theorem footprint_le (h : Valid c) {s : TileState} {t : SciRustSlhaTile}
    (hs : c.state[i]? = some s) (ht : c.tiles[i]? = some t) :
    footprint s t ≤ c.liveBytesCounter := by
  have hsum := sum_zipWith_set footprint hs ht .cold t
  have hcold : footprint .cold t = 0 := rfl
  rw [h.counter]
  omega

end Valid

/-- Setting what is there changes nothing. -/
theorem set_same {α : Type} {xs : List α} {i : ℕ} {a : α} (h : xs[i]? = some a) :
    xs.set i a = xs := by
  obtain ⟨hi, rfl⟩ := List.getElem?_eq_some_iff.mp h
  exact List.set_getElem_self hi

theorem getElem?_set_ite {α : Type} {xs : List α} {i : ℕ} (hi : i < xs.length) (a : α) (j : ℕ) :
    (xs.set i a)[j]? = if i = j then some a else xs[j]? := by
  rw [List.getElem?_set]
  split_ifs <;> rfl

/-- A live slot's tile and state rewritten, with the count adjusted. -/
def rewritten (c : ElasticKvCache) (i : ℕ) (s : TileState) (t : SciRustSlhaTile) (counter : ℕ) :
    ElasticKvCache :=
  { c with
    tiles := c.tiles.set i t
    state := c.state.set i s
    liveBytesCounter := counter }

/-- A slot made COLD and recycled. -/
def chilled (c : ElasticKvCache) (i counter : ℕ) : ElasticKvCache :=
  { c with
    state := c.state.set i .cold
    free := i :: c.free
    liveBytesCounter := counter }

/-- The top recycled slot overwritten by a new tile. -/
def reused (c : ElasticKvCache) (i : ℕ) (free : List ℕ) (s : TileState) (t : SciRustSlhaTile) :
    ElasticKvCache :=
  { c with
    tiles := c.tiles.set i t
    state := c.state.set i s
    seq := c.seq.set i c.nextSeq
    importance := c.importance.set i F32.zero
    free := free
    nextSeq := c.nextSeq + 1
    liveBytesCounter := c.liveBytesCounter + footprint s t }

/-- A new slot at the end of the arena. -/
def grown (c : ElasticKvCache) (s : TileState) (t : SciRustSlhaTile) : ElasticKvCache :=
  { c with
    tiles := c.tiles ++ [t]
    state := c.state ++ [s]
    seq := c.seq ++ [c.nextSeq]
    importance := c.importance ++ [F32.zero]
    nextSeq := c.nextSeq + 1
    liveBytesCounter := c.liveBytesCounter + footprint s t }

theorem live_of_rewritten {c : ElasticKvCache} {i j counter : ℕ} {old new : TileState}
    {t : SciRustSlhaTile} (hs : c.state[i]? = some old) (hold : old ≠ .cold)
    (hj : Live (rewritten c i new t counter) j) : Live c j := by
  have hi : i < c.state.length := (List.getElem?_eq_some_iff.mp hs).1
  by_cases hij : i = j
  · exact hij ▸ live_of_ne_cold hs hold
  · simpa only [Live, rewritten, getElem?_set_ite hi, hij, if_false] using hj

theorem live_of_chilled {c : ElasticKvCache} {i j counter : ℕ} (hi : i < c.state.length)
    (hj : Live (chilled c i counter) j) : Live c j ∧ j ≠ i := by
  by_cases hij : i = j
  · subst hij
    simp [Live, chilled, getElem?_set_ite hi] at hj
  · simp only [Live, chilled, getElem?_set_ite hi, hij, if_false] at hj
    exact ⟨hj, Ne.symm hij⟩

theorem live_of_reused {c : ElasticKvCache} {i j : ℕ} {free : List ℕ} {s : TileState}
    {t : SciRustSlhaTile} (hi : i < c.state.length) (hij : i ≠ j)
    (hj : Live (reused c i free s t) j) : Live c j := by
  simpa only [Live, reused, getElem?_set_ite hi, hij, if_false] using hj

theorem Valid.rewritten {c : ElasticKvCache} (h : Valid c) {i : ℕ} {old new : TileState}
    {t u : SciRustSlhaTile} {counter : ℕ} (hs : c.state[i]? = some old)
    (ht : c.tiles[i]? = some t) (hold : old ≠ .cold) (hnew : new ≠ .cold)
    (hflag : new = .warm ↔ u.isWarm = true)
    (hcounter : counter + footprint old t = c.liveBytesCounter + footprint new u) :
    Valid (CcosSteps.rewritten c i new u counter) := by
  have hi : i < c.state.length := (List.getElem?_eq_some_iff.mp hs).1
  have hti : i < c.tiles.length := h.lt_of_state hs
  have hstate : ∀ j, (c.state.set i new)[j]? = if i = j then some new else c.state[j]? :=
    getElem?_set_ite hi new
  have hlive : ∀ j, Live (CcosSteps.rewritten c i new u counter) j → Live c j :=
    fun j => live_of_rewritten hs hold
  constructor
  · simp [CcosSteps.rewritten, h.stateLength]
  · simp [CcosSteps.rewritten, h.seqLength]
  · simp [CcosSteps.rewritten, h.importanceLength]
  · exact h.freeNodup
  · intro j
    simp only [CcosSteps.rewritten, hstate]
    rw [h.freeCold]
    by_cases hij : i = j
    · subst hij
      simp [hs, hold, hnew]
    · simp only [hij, if_false]
  · intro j v hl hv
    have hlj := hlive j hl
    simp only [CcosSteps.rewritten, hstate, getElem?_set_ite hti] at hv ⊢
    by_cases hij : i = j
    · simp only [hij, if_true, Option.some.injEq] at hv ⊢
      exact hv ▸ hflag
    · simp only [hij, if_false] at hv ⊢
      exact h.flag j v hlj hv
  · exact fun j n hl => h.seqBelow j n (hlive j hl)
  · exact fun j k n hj hk => h.seqInjective j k n (hlive j hj) (hlive k hk)
  · have hsum := sum_zipWith_set footprint hs ht new u
    have hcount := h.counter
    simp only [CcosSteps.rewritten]
    omega

theorem Valid.chilled {c : ElasticKvCache} (h : Valid c) {i : ℕ} {old : TileState}
    {t : SciRustSlhaTile} (hs : c.state[i]? = some old) (ht : c.tiles[i]? = some t)
    (hold : old ≠ .cold) :
    Valid (CcosSteps.chilled c i (c.liveBytesCounter - footprint old t)) := by
  have hi : i < c.state.length := (List.getElem?_eq_some_iff.mp hs).1
  have hstate : ∀ j, (c.state.set i .cold)[j]? = if i = j then some .cold else c.state[j]? :=
    getElem?_set_ite hi .cold
  have hlive : ∀ j, Live (CcosSteps.chilled c i (c.liveBytesCounter - footprint old t)) j →
      Live c j ∧ j ≠ i := fun j => live_of_chilled hi
  constructor
  · simp [CcosSteps.chilled, h.stateLength]
  · exact h.seqLength
  · exact h.importanceLength
  · refine List.nodup_cons.mpr ⟨fun hmem => ?_, h.freeNodup⟩
    rw [h.freeCold, hs] at hmem
    exact hold (Option.some_inj.mp hmem)
  · intro j
    simp only [CcosSteps.chilled, hstate, List.mem_cons, h.freeCold]
    by_cases hij : i = j
    · simp [hij]
    · simp [hij, Ne.symm hij]
  · intro j v hl hv
    obtain ⟨hl, hji⟩ := hlive j hl
    simp only [CcosSteps.chilled, hstate, Ne.symm hji, if_false]
    exact h.flag j v hl hv
  · exact fun j n hl => h.seqBelow j n (hlive j hl).1
  · exact fun j k n hj hk => h.seqInjective j k n (hlive j hj).1 (hlive k hk).1
  · have hsum := sum_zipWith_set footprint hs ht .cold t
    have hcount := h.counter
    have hle := h.footprint_le hs ht
    have hcold : footprint .cold t = 0 := rfl
    rw [set_same ht] at hsum
    simp only [CcosSteps.chilled]
    omega

/-- Every live slot of the second cache has the number it had in the first, but for
the one that has taken the next number. -/
def NumbersSlot (c d : ElasticKvCache) (i : ℕ) : Prop :=
  ∀ j n, Live d j → d.seq[j]? = some n →
    (j = i ∧ n = c.nextSeq) ∨ (Live c j ∧ c.seq[j]? = some n)

namespace NumbersSlot
variable {c d : ElasticKvCache} {i : ℕ}

theorem seqBelow (k : NumbersSlot c d i) (h : Valid c) (j n : ℕ) (hj : Live d j)
    (hn : d.seq[j]? = some n) : n < c.nextSeq + 1 := by
  rcases k j n hj hn with ⟨-, hnew⟩ | ⟨hj, hn⟩
  · omega
  · exact (h.seqBelow j n hj hn).trans (Nat.lt_succ_self _)

/-- The new number is above every number in use. -/
theorem seqInjective (k : NumbersSlot c d i) (h : Valid c) (j l n : ℕ) (hj : Live d j)
    (hl : Live d l) (hnj : d.seq[j]? = some n) (hnl : d.seq[l]? = some n) : j = l := by
  rcases k j n hj hnj with ⟨hji, hnew⟩ | ⟨hj, hnj⟩ <;>
    rcases k l n hl hnl with ⟨hli, hnew'⟩ | ⟨hl, hnl⟩
  · exact hji.trans hli.symm
  · have hlt := h.seqBelow l n hl hnl
    omega
  · have hlt := h.seqBelow j n hj hnj
    omega
  · exact h.seqInjective j l n hj hl hnj hnl

end NumbersSlot

theorem numbersSlot_reused {c : ElasticKvCache} {i : ℕ} {free : List ℕ} {s : TileState}
    {t : SciRustSlhaTile} (hi : i < c.state.length) (hqi : i < c.seq.length) :
    NumbersSlot c (reused c i free s t) i := by
  intro j n hj hn
  simp only [reused, getElem?_set_ite hqi] at hn
  by_cases hij : i = j
  · simp only [hij, if_true, Option.some.injEq] at hn
    exact Or.inl ⟨hij.symm, hn.symm⟩
  · simp only [hij, if_false] at hn
    exact Or.inr ⟨live_of_reused hi hij hj, hn⟩

theorem Valid.reused {c : ElasticKvCache} (h : Valid c) {i : ℕ} {free : List ℕ} {s : TileState}
    {t : SciRustSlhaTile} (hfree : c.free = i :: free) (hs : s ≠ .cold)
    (hflag : s = .warm ↔ t.isWarm = true) : Valid (CcosSteps.reused c i free s t) := by
  have hcold : c.state[i]? = some .cold := (h.freeCold i).mp (by rw [hfree]; simp)
  obtain ⟨u, hu⟩ := h.tile_of_state hcold
  have hi : i < c.state.length := (List.getElem?_eq_some_iff.mp hcold).1
  have hti : i < c.tiles.length := h.lt_of_state hcold
  have hqi : i < c.seq.length := h.seqLength ▸ hti
  have hstate : ∀ j, (c.state.set i s)[j]? = if i = j then some s else c.state[j]? :=
    getElem?_set_ite hi s
  have hnodup : (i :: free).Nodup := hfree ▸ h.freeNodup
  have hnumbers : NumbersSlot c (CcosSteps.reused c i free s t) i := numbersSlot_reused hi hqi
  constructor
  · simp [CcosSteps.reused, h.stateLength]
  · simp [CcosSteps.reused, h.seqLength]
  · simp [CcosSteps.reused, h.importanceLength]
  · exact (List.nodup_cons.mp hnodup).2
  · intro j
    have hj := h.freeCold j
    rw [hfree, List.mem_cons] at hj
    simp only [CcosSteps.reused, hstate]
    by_cases hij : i = j
    · subst hij
      simp [hs, (List.nodup_cons.mp hnodup).1]
    · simp only [hij, if_false]
      rw [← hj]
      exact ⟨Or.inr, fun hor => hor.resolve_left (Ne.symm hij)⟩
  · intro j v hl hv
    by_cases hij : i = j
    · subst hij
      simp only [CcosSteps.reused, hstate, getElem?_set_ite hti, if_true,
        Option.some.injEq] at hv ⊢
      exact hv ▸ hflag
    · have hlj := live_of_reused hi hij hl
      simp only [CcosSteps.reused, hstate, getElem?_set_ite hti, hij, if_false] at hv ⊢
      exact h.flag j v hlj hv
  · exact hnumbers.seqBelow h
  · exact hnumbers.seqInjective h
  · have hsum := sum_zipWith_set footprint hcold hu s t
    have hcount := h.counter
    have hzero : footprint .cold u = 0 := rfl
    simp only [CcosSteps.reused]
    omega

theorem getElem?_concat_ite {α : Type} (xs : List α) (a : α) (j : ℕ) :
    (xs ++ [a])[j]? = if j = xs.length then some a else xs[j]? := by
  split_ifs with h
  · rw [h, List.getElem?_concat_length]
  · rcases Nat.lt_or_gt_of_ne h with hlt | hgt
    · exact List.getElem?_append_left hlt
    · rw [List.getElem?_eq_none (by simp; omega), List.getElem?_eq_none (by omega)]

theorem live_of_grown {c : ElasticKvCache} (h : Valid c) {j : ℕ} {s : TileState}
    {t : SciRustSlhaTile} (hj : j ≠ c.tiles.length) (hl : Live (grown c s t) j) : Live c j := by
  rw [← h.stateLength] at hj
  simpa only [Live, grown, getElem?_concat_ite, hj, if_false] using hl

theorem numbersSlot_grown {c : ElasticKvCache} (h : Valid c) (s : TileState)
    (t : SciRustSlhaTile) : NumbersSlot c (grown c s t) c.tiles.length := by
  intro j n hj hn
  simp only [grown, getElem?_concat_ite, h.seqLength] at hn
  by_cases hlast : j = c.tiles.length
  · simp only [hlast, if_true, Option.some.injEq] at hn
    exact Or.inl ⟨hlast, hn.symm⟩
  · simp only [hlast, if_false] at hn
    exact Or.inr ⟨live_of_grown h hlast hj, hn⟩

theorem Valid.grown {c : ElasticKvCache} (h : Valid c) {s : TileState} {t : SciRustSlhaTile}
    (hs : s ≠ .cold) (hflag : s = .warm ↔ t.isWarm = true) : Valid (CcosSteps.grown c s t) := by
  have hstate : ∀ j, (c.state ++ [s])[j]? =
      if j = c.tiles.length then some s else c.state[j]? := by
    rw [← h.stateLength]
    exact getElem?_concat_ite c.state s
  have hnumbers : NumbersSlot c (CcosSteps.grown c s t) c.tiles.length :=
    numbersSlot_grown h s t
  have hnone : c.state[c.tiles.length]? = none :=
    List.getElem?_eq_none (by rw [h.stateLength])
  constructor
  · simp [CcosSteps.grown, h.stateLength]
  · simp [CcosSteps.grown, h.seqLength]
  · simp [CcosSteps.grown, h.importanceLength]
  · exact h.freeNodup
  · intro j
    simp only [CcosSteps.grown, hstate]
    rw [h.freeCold]
    by_cases hj : j = c.tiles.length
    · subst hj
      simp [hnone, hs]
    · simp only [hj, if_false]
  · intro j v hl hv
    by_cases hj : j = c.tiles.length
    · simp only [CcosSteps.grown, hstate, getElem?_concat_ite, hj, if_true,
        Option.some.injEq] at hv ⊢
      exact hv ▸ hflag
    · have hlj := live_of_grown h hj hl
      simp only [CcosSteps.grown, hstate, getElem?_concat_ite, hj, if_false] at hv ⊢
      exact h.flag j v hlj hv
  · exact hnumbers.seqBelow h
  · exact hnumbers.seqInjective h
  · have hcount := h.counter
    simp only [CcosSteps.grown]
    rw [List.zipWith_append h.stateLength, List.sum_append, hcount]
    simp

/-- Fields the invariant does not mention are free. -/
theorem Valid.congr {c d : ElasticKvCache} (h : Valid c) (ht : d.tiles = c.tiles)
    (hs : d.state = c.state) (hq : d.seq = c.seq) (hi : d.importance.length = c.importance.length)
    (hf : d.free = c.free) (hn : d.nextSeq = c.nextSeq)
    (hb : d.liveBytesCounter = c.liveBytesCounter) : Valid d := by
  obtain ⟨h1, h2, h3, h4, h5, h6, h7, h8, h9⟩ := h
  unfold Live at *
  constructor <;> simp only [ht, hs, hq, hi, hf, hn, hb, Live] <;> assumption

/-- A flag set does not show under another mask. -/
theorem or_and_of_disjoint {flags mask other : Flags} (h : mask &&& other = 0) :
    (flags ||| mask) &&& other = flags &&& other := by
  rw [BitVec.and_or_distrib_right, h]
  exact BitVec.or_zero

/-- A flag set shows under its own mask. -/
theorem or_and_self (flags mask : Flags) : (flags ||| mask) &&& mask = mask := by
  ext i
  cases h : mask[i] <;> simp [h]

theorem maskResidual_isWarm (t : SciRustSlhaTile) : (maskResidual t).isWarm = true := by
  unfold SciRustSlhaTile.isWarm maskResidual
  simp only [or_and_self]
  decide

theorem maskResidual_separableCorrBytes (t : SciRustSlhaTile) :
    (maskResidual t).separableCorrBytes = t.separableCorrBytes := by
  unfold SciRustSlhaTile.separableCorrBytes SciRustSlhaTile.isTq3 SciRustSlhaTile.isMix3
    maskResidual
  simp only [or_and_of_disjoint (by decide : flagWarm &&& flagTq3 = 0),
    or_and_of_disjoint (by decide : flagWarm &&& flagMix3 = 0)]

theorem maskResidual_isTq3Nocorr (t : SciRustSlhaTile) :
    (maskResidual t).isTq3Nocorr = t.isTq3Nocorr := by
  unfold SciRustSlhaTile.isTq3Nocorr maskResidual
  simp only [or_and_of_disjoint (by decide : flagWarm &&& flagTq3Nocorr = 0)]

/-- The tile without its correction plane. -/
def withoutCorrection (t : SciRustSlhaTile) : SciRustSlhaTile :=
  { t with
    latentKv := clearTail t.latentKv t.separableCorrBytes
    flags := t.flags ||| flagTq3Nocorr }

theorem withoutCorrection_reclaimed (t : SciRustSlhaTile) :
    reclaimed (withoutCorrection t) = t.separableCorrBytes := by
  unfold reclaimed SciRustSlhaTile.separableCorrBytes SciRustSlhaTile.isTq3Nocorr
    SciRustSlhaTile.isTq3 SciRustSlhaTile.isMix3 withoutCorrection
  simp only [or_and_of_disjoint (by decide : flagTq3Nocorr &&& flagTq3 = 0),
    or_and_of_disjoint (by decide : flagTq3Nocorr &&& flagMix3 = 0), or_and_self]
  rfl

theorem withoutCorrection_isTq3Nocorr (t : SciRustSlhaTile) :
    (withoutCorrection t).isTq3Nocorr = true := by
  unfold SciRustSlhaTile.isTq3Nocorr withoutCorrection
  simp only [or_and_self]
  decide

theorem withoutCorrection_isWarm (t : SciRustSlhaTile) :
    (withoutCorrection t).isWarm = t.isWarm := by
  unfold SciRustSlhaTile.isWarm withoutCorrection
  simp only [or_and_of_disjoint (by decide : flagTq3Nocorr &&& flagWarm = 0)]

/-- The three things an insertion can be given and do. -/
theorem insertWithState_cases {c : ElasticKvCache} (h : Valid c) (t : SciRustSlhaTile)
    (s : TileState) :
    (∃ i free, c.free = i :: free ∧
      c.insertWithState t s = .ok (i, reused c i free s t)) ∨
    (c.free = [] ∧ c.insertWithState t s = .ok (c.tiles.length, grown c s t)) := by
  cases hfree : c.free with
  | cons i free =>
      have hcold : c.state[i]? = some .cold := (h.freeCold i).mp (by rw [hfree]; simp)
      have hti : i < c.tiles.length := h.lt_of_state hcold
      have hsi : i < c.state.length := h.stateLength ▸ hti
      refine Or.inl ⟨i, free, rfl, ?_⟩
      have hbytes : slotLiveBytes { c with
          tiles := c.tiles.set i t
          state := c.state.set i s
          seq := c.seq.set i c.nextSeq
          importance := c.importance.set i F32.zero
          free := free
          nextSeq := c.nextSeq + 1 } i = .ok (footprint s t) :=
        slotLiveBytes_eq (List.getElem?_set_self hsi) (List.getElem?_set_self hti)
      unfold insertWithState
      simp only [hfree, setAt_of_lt _ hti, setAt_of_lt _ hsi,
        setAt_of_lt _ (h.seqLength ▸ hti : i < c.seq.length),
        setAt_of_lt _ (h.importanceLength ▸ hti : i < c.importance.length), bind, Except.bind,
        pure, Except.pure, hbytes]
      rfl
  | nil =>
      refine Or.inr ⟨rfl, ?_⟩
      have hbytes : slotLiveBytes { c with
          tiles := c.tiles ++ [t]
          state := c.state ++ [s]
          seq := c.seq ++ [c.nextSeq]
          importance := c.importance ++ [F32.zero]
          nextSeq := c.nextSeq + 1 } c.tiles.length = .ok (footprint s t) := by
        apply slotLiveBytes_eq
        · rw [← h.stateLength]
          exact List.getElem?_concat_length
        · exact List.getElem?_concat_length
      unfold insertWithState
      simp only [hfree, bind, Except.bind, pure, Except.pure] at hbytes ⊢
      simp only [hbytes, grown, hfree]

section Degrade
variable {c : ElasticKvCache} {i : ℕ} {s : TileState} {t : SciRustSlhaTile}

theorem pageOut_hot (hs : c.state[i]? = some .hot) (ht : c.tiles[i]? = some t)
    (hle : footprint .hot t ≤ c.liveBytesCounter) :
    c.pageOut i = .ok (rewritten c i .warm (maskResidual t)
      (c.liveBytesCounter - footprint .hot t + footprint .warm (maskResidual t))) := by
  have hsi := (List.getElem?_eq_some_iff.mp hs).1
  have hti := (List.getElem?_eq_some_iff.mp ht).1
  have hafter : slotLiveBytes { c with
      liveBytesCounter := c.liveBytesCounter - footprint .hot t
      tiles := c.tiles.set i (maskResidual t)
      state := c.state.set i .warm } i = .ok (footprint .warm (maskResidual t)) :=
    slotLiveBytes_eq (List.getElem?_set_self hsi) (List.getElem?_set_self hti)
  unfold pageOut
  simp only [getAt_some hs, getAt_some ht, slotLiveBytes_eq hs ht, wordSub_of_le hle, bind,
    Except.bind, pure, Except.pure, if_true, hafter]
  rfl

theorem pageOut_not_hot (hs : c.state[i]? = some s) (hne : s ≠ .hot) : c.pageOut i = .ok c := by
  unfold pageOut
  simp only [getAt_some hs, bind, Except.bind, pure, Except.pure, hne, if_false]

/-- The tile has a correction plane, and it is there. -/
def Droppable (t : SciRustSlhaTile) : Prop := t.separableCorrBytes ≠ 0 ∧ t.isTq3Nocorr = false

theorem dropCorrection_done (hs : c.state[i]? = some s) (ht : c.tiles[i]? = some t)
    (hcold : s ≠ .cold) (hdrop : Droppable t)
    (hle : t.separableCorrBytes ≤ c.liveBytesCounter) :
    c.dropCorrection i = .ok (true, rewritten c i s (withoutCorrection t)
      (c.liveBytesCounter - t.separableCorrBytes)) := by
  have hgo : ¬ (s = .cold ∨ t.separableCorrBytes = 0 ∨ t.isTq3Nocorr = true) := by
    simp [hcold, hdrop.1, hdrop.2]
  unfold dropCorrection
  simp only [getAt_some hs, getAt_some ht, bind, Except.bind, pure, Except.pure]
  rw [if_neg hgo, wordSub_of_le hle]
  simp only [rewritten, set_same hs]
  rfl

theorem dropCorrection_skip (hs : c.state[i]? = some s) (ht : c.tiles[i]? = some t)
    (h : s = .cold ∨ ¬ Droppable t) : c.dropCorrection i = .ok (false, c) := by
  have hstop : s = .cold ∨ t.separableCorrBytes = 0 ∨ t.isTq3Nocorr = true := by
    rcases h with hcold | hno
    · exact .inl hcold
    · by_cases hn : t.separableCorrBytes = 0
      · exact .inr (.inl hn)
      · exact .inr (.inr (Bool.not_eq_false _ ▸ fun hf => hno ⟨hn, hf⟩))
  unfold dropCorrection
  simp only [getAt_some hs, getAt_some ht, bind, Except.bind, pure, Except.pure]
  rw [if_pos hstop]

end Degrade

/-- Paging out rewrites a HOT slot and leaves every other cache alone. -/
theorem pageOut_cases {c : ElasticKvCache} (h : Valid c) {i : ℕ} (hi : i < c.tiles.length) :
    (∃ t, c.state[i]? = some .hot ∧ c.tiles[i]? = some t ∧
      c.pageOut i = .ok (rewritten c i .warm (maskResidual t)
        (c.liveBytesCounter - footprint .hot t + footprint .warm (maskResidual t)))) ∨
    (c.state[i]? ≠ some .hot ∧ c.pageOut i = .ok c) := by
  obtain ⟨s, hs⟩ := h.state_of_lt hi
  obtain ⟨t, ht⟩ := h.tile_of_state hs
  by_cases hhot : s = .hot
  · subst hhot
    exact .inl ⟨t, hs, ht, pageOut_hot hs ht (h.footprint_le hs ht)⟩
  · refine .inr ⟨fun hcon => hhot ?_, pageOut_not_hot hs hhot⟩
    exact Option.some_inj.mp (hs.symm.trans hcon)

theorem Valid.plane_le {c : ElasticKvCache} (h : Valid c) {i : ℕ} {s : TileState}
    {t : SciRustSlhaTile} (hs : c.state[i]? = some s) (ht : c.tiles[i]? = some t)
    (hcold : s ≠ .cold) (hdrop : Droppable t) :
    t.separableCorrBytes ≤ c.liveBytesCounter := by
  have hrec : reclaimed t = 0 := if_neg (by rw [hdrop.2]; exact Bool.false_ne_true)
  have hfoot := h.footprint_le hs ht
  have hcorr := separableCorrBytes_le t
  have hsize : 96 ≤ footprint s t := by
    cases s with
    | hot => simp [footprint, hrec, hotBytes]
    | warm => simp [footprint, hrec, warmBytes, hotBytes, residualWords]
    | cold => exact (hcold rfl).elim
  omega

/-- Dropping a plane takes its bytes off a live slot, or does nothing. -/
theorem dropCorrection_cases {c : ElasticKvCache} (h : Valid c) {i : ℕ}
    (hi : i < c.tiles.length) :
    (∃ s t, c.state[i]? = some s ∧ c.tiles[i]? = some t ∧ s ≠ .cold ∧ reclaimed t = 0 ∧
      c.dropCorrection i = .ok (true, rewritten c i s (withoutCorrection t)
        (c.liveBytesCounter - t.separableCorrBytes))) ∨
    c.dropCorrection i = .ok (false, c) := by
  obtain ⟨s, hs⟩ := h.state_of_lt hi
  obtain ⟨t, ht⟩ := h.tile_of_state hs
  by_cases hcold : s = .cold
  · exact .inr (dropCorrection_skip hs ht (.inl hcold))
  by_cases hdrop : Droppable t
  · have hrec : reclaimed t = 0 := if_neg (by rw [hdrop.2]; exact Bool.false_ne_true)
    have hle := h.plane_le hs ht hcold hdrop
    exact .inl ⟨s, t, hs, ht, hcold, hrec, dropCorrection_done hs ht hcold hdrop hle⟩
  · exact .inr (dropCorrection_skip hs ht (.inr hdrop))

/-- Only the log and the two counters can differ. -/
structure SameSlots (c d : ElasticKvCache) : Prop where
  tiles : d.tiles = c.tiles
  state : d.state = c.state
  seq : d.seq = c.seq
  importance : d.importance = c.importance
  free : d.free = c.free
  budgetBytes : d.budgetBytes = c.budgetBytes
  liveBytesCounter : d.liveBytesCounter = c.liveBytesCounter
  policy : d.policy = c.policy
  eviction : d.eviction = c.eviction
  nextSeq : d.nextSeq = c.nextSeq
  evictionDurability : d.evictionDurability = c.evictionDurability

theorem SameSlots.valid {c d : ElasticKvCache} (k : SameSlots c d) (h : Valid c) : Valid d :=
  h.congr k.tiles k.state k.seq (by rw [k.importance]) k.free k.nextSeq k.liveBytesCounter

theorem SameSlots.refl (c : ElasticKvCache) : SameSlots c c :=
  ⟨rfl, rfl, rfl, rfl, rfl, rfl, rfl, rfl, rfl, rfl, rfl⟩

/-- Whatever the log does, the slots stay as they were. -/
theorem persist_ok {c : ElasticKvCache} (h : Valid c) {i : ℕ} {s : TileState}
    (hs : c.state[i]? = some s) (faults : Faults) :
    ∃ b d, c.persist i faults = .ok (b, d) ∧ SameSlots c d := by
  obtain ⟨t, ht⟩ := h.tile_of_state hs
  have hq : i < c.seq.length := by
    rw [h.seqLength]
    exact h.lt_of_state hs
  obtain ⟨n, hn⟩ : ∃ n, c.seq[i]? = some n := ⟨_, List.getElem?_eq_getElem hq⟩
  unfold persist
  cases hlog : c.eventLog with
  | none =>
      simp only
      split_ifs
      · exact ⟨_, _, rfl, ⟨rfl, rfl, rfl, rfl, rfl, rfl, rfl, rfl, rfl, rfl, rfl⟩⟩
      · exact ⟨_, _, rfl, SameSlots.refl c⟩
  | some log =>
      simp only [getAt_some hn, getAt_some ht, bind, Except.bind, pure, Except.pure]
      generalize writeRecord c.evictionDurability log _ faults = written
      obtain ⟨result, after⟩ := written
      cases result with
      | ok u => exact ⟨_, _, rfl, ⟨rfl, rfl, rfl, rfl, rfl, rfl, rfl, rfl, rfl, rfl, rfl⟩⟩
      | error e =>
          simp only
          split_ifs <;> exact ⟨_, _, rfl, ⟨rfl, rfl, rfl, rfl, rfl, rfl, rfl, rfl, rfl, rfl, rfl⟩⟩

/-- An eviction is refused and changes no slot, or the slot goes COLD after persisting. -/
theorem evict_cases {c : ElasticKvCache} (h : Valid c) (i : ℕ) (faults : Faults) :
    (∃ d, c.evict i faults = .ok (false, d) ∧ SameSlots c d) ∨
    ∃ e s t, c.persist i faults = .ok (true, e) ∧ SameSlots c e ∧ c.state[i]? = some s ∧
      s ≠ .cold ∧ c.tiles[i]? = some t ∧
      c.evict i faults = .ok (true, chilled e i (c.liveBytesCounter - footprint s t)) := by
  unfold evict
  by_cases hdead : c.state[i]? ≠ some .hot ∧ c.state[i]? ≠ some .warm
  · exact Or.inl ⟨c, if_pos hdead, SameSlots.refl c⟩
  · rw [if_neg hdead]
    obtain ⟨s, hs, hcold⟩ : ∃ s, c.state[i]? = some s ∧ s ≠ .cold := by
      by_cases hhot : c.state[i]? = some .hot
      · exact ⟨.hot, hhot, by decide⟩
      · exact ⟨.warm, not_not.mp fun hw => hdead ⟨hhot, hw⟩, by decide⟩
    obtain ⟨t, ht⟩ := h.tile_of_state hs
    obtain ⟨b, e, hpersist, hsame⟩ := persist_ok h hs faults
    simp only [hpersist, bind, Except.bind, pure, Except.pure]
    cases b with
    | false => exact Or.inl ⟨e, rfl, hsame⟩
    | true =>
        have hes : e.state[i]? = some s := hsame.state ▸ hs
        have het : e.tiles[i]? = some t := hsame.tiles ▸ ht
        have hle := h.footprint_le hs ht
        refine Or.inr ⟨e, s, t, rfl, hsame, hs, hcold, ht, ?_⟩
        rw [slotLiveBytes_eq hes het]
        simp only [hsame.liveBytesCounter, wordSub_of_le hle]
        rfl

theorem Valid.evict {c : ElasticKvCache} (h : Valid c) (i : ℕ) (faults : Faults) :
    ∃ b d, c.evict i faults = .ok (b, d) ∧ Valid d ∧ d.tiles = c.tiles := by
  rcases evict_cases h i faults with ⟨d, heq, hsame⟩ | ⟨e, s, t, -, hsame, hs, hcold, ht, heq⟩
  · exact ⟨false, d, heq, hsame.valid h, hsame.tiles⟩
  · refine ⟨true, _, heq, ?_, hsame.tiles⟩
    rw [← hsame.liveBytesCounter]
    exact (hsame.valid h).chilled (hsame.state ▸ hs) (hsame.tiles ▸ ht) hcold

theorem Valid.pageOut {c : ElasticKvCache} (h : Valid c) {i : ℕ} (hi : i < c.tiles.length) :
    ∃ d, c.pageOut i = .ok d ∧ Valid d ∧ d.tiles.length = c.tiles.length := by
  rcases pageOut_cases h hi with ⟨t, hs, ht, heq⟩ | ⟨-, heq⟩
  · refine ⟨_, heq, ?_, by simp [CcosSteps.rewritten]⟩
    have hle := h.footprint_le hs ht
    have hwarm := maskResidual_isWarm t
    exact h.rewritten hs ht (by decide) (by decide) (by simp [hwarm]) (by omega)
  · exact ⟨c, heq, h, rfl⟩

theorem Valid.dropCorrection {c : ElasticKvCache} (h : Valid c) {i : ℕ}
    (hi : i < c.tiles.length) :
    ∃ b d, c.dropCorrection i = .ok (b, d) ∧ Valid d ∧ d.tiles.length = c.tiles.length := by
  rcases dropCorrection_cases h hi with ⟨s, t, hs, ht, hcold, hrec, heq⟩ | heq
  · refine ⟨true, _, heq, ?_, by simp [CcosSteps.rewritten]⟩
    have hlive : Live c i := live_of_ne_cold hs hcold
    have hflag : s = .warm ↔ (withoutCorrection t).isWarm = true := by
      rw [withoutCorrection_isWarm, ← h.flag i t hlive ht, hs, Option.some.injEq]
    have hle := h.footprint_le hs ht
    have hcorr := separableCorrBytes_le t
    refine h.rewritten hs ht hcold hcold hflag ?_
    cases s with
    | hot =>
        simp only [footprint, hrec, withoutCorrection_reclaimed, hotBytes] at hle ⊢
        omega
    | warm =>
        simp only [footprint, hrec, withoutCorrection_reclaimed, warmBytes, hotBytes,
          residualWords] at hle ⊢
        omega
    | cold => exact (hcold rfl).elim
  · exact ⟨false, c, heq, h, rfl⟩

/-- The state an insertion gives a tile. -/
def stateOf (t : SciRustSlhaTile) : TileState := if t.isWarm then .warm else .hot

theorem stateOf_ne_cold (t : SciRustSlhaTile) : stateOf t ≠ .cold := by
  unfold stateOf
  split_ifs <;> decide

theorem stateOf_warm (t : SciRustSlhaTile) : stateOf t = .warm ↔ t.isWarm = true := by
  unfold stateOf
  split_ifs with h <;> simp [h]

/-- An insertion takes the top recycled slot, or a new one when none is recycled. -/
theorem Valid.insertWithState {c : ElasticKvCache} (h : Valid c) (t : SciRustSlhaTile) :
    ∃ i d, c.insertWithState t (stateOf t) = .ok (i, d) ∧ Valid d ∧
      ((∃ free, c.free = i :: free ∧ d = CcosSteps.reused c i free (stateOf t) t) ∨
        (c.free = [] ∧ i = c.tiles.length ∧ d = CcosSteps.grown c (stateOf t) t)) := by
  rcases insertWithState_cases h t (stateOf t) with ⟨i, free, hfree, heq⟩ | ⟨hfree, heq⟩
  · exact ⟨i, _, heq, h.reused hfree (stateOf_ne_cold t) (stateOf_warm t),
      Or.inl ⟨free, hfree, rfl⟩⟩
  · exact ⟨_, _, heq, h.grown (stateOf_ne_cold t) (stateOf_warm t), Or.inr ⟨hfree, rfl, rfl⟩⟩

/-- What every degrading step keeps, the sweep keeps. -/
theorem sweep_ok {P : ElasticKvCache → Prop}
    {degrade : ElasticKvCache → ℕ → Outcome ElasticKvCache} {slots : List ℕ}
    (step : ∀ c s, s ∈ slots → P c → ∃ d, degrade c s = .ok d ∧ P d) {c : ElasticKvCache}
    (h : P c) : ∃ b d, sweep degrade slots c = .ok (b, d) ∧ P d := by
  induction slots generalizing c with
  | nil => exact ⟨false, c, rfl, h⟩
  | cons s rest ih =>
      unfold sweep
      split_ifs
      · exact ⟨true, c, rfl, h⟩
      · obtain ⟨d, hd, hp⟩ := step c s (by simp) h
        simp only [hd, bind, Except.bind]
        exact ih (fun c t ht => step c t (List.mem_cons_of_mem s ht)) hp

theorem lt_of_mem_slotsInPagingOrder {c : ElasticKvCache} {state : TileState} {s : ℕ}
    (h : s ∈ c.slotsInPagingOrder state) : s < c.tiles.length := by
  have hmem : s ∈ c.slotsIn state := by
    unfold slotsInPagingOrder at h
    split at h <;> exact List.mem_mergeSort.mp h
  exact List.mem_range.mp (List.mem_filter.mp hmem).1

theorem lt_of_mem_evictionOrder {c : ElasticKvCache} {s : ℕ} (h : s ∈ c.evictionOrder) :
    s < c.tiles.length := by
  have hmem : s ∈ c.liveSlots := by
    unfold evictionOrder at h
    split at h <;> exact List.mem_mergeSort.mp h
  exact List.mem_range.mp (List.mem_filter.mp hmem).1

theorem dropStep_eq {c d : ElasticKvCache} {s : ℕ} {b : Bool}
    (h : c.dropCorrection s = .ok (b, d)) : c.dropStep s = .ok d := by
  simp [dropStep, h, bind, Except.bind, pure, Except.pure]

theorem evictStep_eq {c d : ElasticKvCache} {s : ℕ} {b : Bool} {faults : ℕ → Faults}
    (h : c.evict s (faults s) = .ok (b, d)) : c.evictStep faults s = .ok d := by
  simp [evictStep, h, bind, Except.bind, pure, Except.pure]

/-- A property of arenas of one length which every degrading call keeps. -/
structure Kept (n : ℕ) (faults : ℕ → Faults) (P : ElasticKvCache → Prop) : Prop where
  length : ∀ c, P c → c.tiles.length = n
  drop : ∀ c i, P c → i < n → ∃ b d, c.dropCorrection i = .ok (b, d) ∧ P d
  page : ∀ c i, P c → i < n → ∃ d, c.pageOut i = .ok d ∧ P d
  evict : ∀ c i, P c → i < n → ∃ b d, c.evict i (faults i) = .ok (b, d) ∧ P d

namespace Kept
variable {n : ℕ} {faults : ℕ → Faults} {P : ElasticKvCache → Prop} {c : ElasticKvCache}

theorem dropPhase (k : Kept n faults P) (h : P c) (state : TileState) :
    ∃ b d, c.dropPhase state = .ok (b, d) ∧ P d := by
  refine sweep_ok (fun e s hs he => ?_) h
  obtain ⟨b, d, hd, hp⟩ := k.drop e s he (k.length c h ▸ lt_of_mem_slotsInPagingOrder hs)
  exact ⟨d, dropStep_eq hd, hp⟩

theorem pagePhase (k : Kept n faults P) (h : P c) : ∃ b d, c.pagePhase = .ok (b, d) ∧ P d :=
  sweep_ok (fun e s hs he =>
    k.page e s he (k.length c h ▸ lt_of_mem_slotsInPagingOrder hs)) h

theorem evictStep (k : Kept n faults P) {i : ℕ} (h : P c) (hi : i < n) :
    ∃ d, c.evictStep faults i = .ok d ∧ P d := by
  obtain ⟨b, d, hd, hp⟩ := k.evict c i h hi
  exact ⟨d, evictStep_eq hd, hp⟩

theorem evictPhase (k : Kept n faults P) (h : P c) :
    ∃ b d, c.evictPhase faults = .ok (b, d) ∧ P d :=
  sweep_ok (fun _ _ hs he => k.evictStep he (k.length c h ▸ lt_of_mem_evictionOrder hs)) h

/-- Budget enforcement keeps it, and ends where its last phase does. -/
theorem enforceBudget (k : Kept n faults P) (h : P c) :
    ∃ b d, c.enforceBudget faults = .ok (b, d) ∧ P d := by
  unfold ElasticKvCache.enforceBudget
  by_cases hmet : c.liveBytesCounter ≤ c.budgetBytes
  · exact ⟨true, c, if_pos hmet, h⟩
  rw [if_neg hmet]
  obtain ⟨b₁, c₁, h₁, hp₁⟩ := k.dropPhase h .hot
  obtain ⟨b₂, c₂, h₂, hp₂⟩ := k.pagePhase hp₁
  obtain ⟨b₃, c₃, h₃, hp₃⟩ := k.dropPhase hp₂ .warm
  obtain ⟨b₄, c₄, h₄, hp₄⟩ := k.evictPhase hp₃
  simp only [h₁, h₂, h₃, h₄, bind, Except.bind, pure, Except.pure]
  cases b₁
  · cases b₂
    · cases b₃
      · cases b₄
        · exact ⟨_, c₄, rfl, hp₄⟩
        · exact ⟨true, c₄, rfl, hp₄⟩
      · exact ⟨true, c₃, rfl, hp₃⟩
    · exact ⟨true, c₂, rfl, hp₂⟩
  · exact ⟨true, c₁, rfl, hp₁⟩

end Kept

theorem Valid.kept (n : ℕ) (faults : ℕ → Faults) :
    Kept n faults fun c => Valid c ∧ c.tiles.length = n := by
  constructor
  · exact fun c hc => hc.2
  · intro c i hc hi
    obtain ⟨b, d, heq, hvalid, hlen⟩ := hc.1.dropCorrection (hc.2 ▸ hi)
    exact ⟨b, d, heq, hvalid, hlen.trans hc.2⟩
  · intro c i hc hi
    obtain ⟨d, heq, hvalid, hlen⟩ := hc.1.pageOut (hc.2 ▸ hi)
    exact ⟨d, heq, hvalid, hlen.trans hc.2⟩
  · intro c i hc _
    obtain ⟨b, d, heq, hvalid, htiles⟩ := hc.1.evict i (faults i)
    exact ⟨b, d, heq, hvalid, by rw [htiles]; exact hc.2⟩

theorem Valid.enforceBudget {c : ElasticKvCache} (h : Valid c) (faults : ℕ → Faults) :
    ∃ b d, c.enforceBudget faults = .ok (b, d) ∧ Valid d := by
  obtain ⟨b, d, heq, hvalid, -⟩ := (Valid.kept c.tiles.length faults).enforceBudget ⟨h, rfl⟩
  exact ⟨b, d, heq, hvalid⟩

section Importance
variable [F32Arith]

/-- Observed scores touch the importances only, and not their number. -/
theorem observeScores_eq (c : ElasticKvCache) (scores : List (ℕ × F32)) (temperature : F32) :
    ∃ importance : List F32, importance.length = c.importance.length ∧
      c.observeScores scores temperature = { c with importance := importance } := by
  have hfold : ∀ (l : List ((ℕ × F32) × F32)) (inv : F32) (acc : List F32),
      (l.foldl (fun acc p => acc.modify p.1.1
        fun x => F32Arith.add x (F32Arith.mul p.2 inv)) acc).length = acc.length := by
    intro l inv
    induction l with
    | nil => exact fun acc => rfl
    | cons p rest ih => exact fun acc => (ih _).trans (List.length_modify ..)
  unfold observeScores
  dsimp only
  split_ifs
  · exact ⟨c.importance, rfl, rfl⟩
  · exact ⟨c.importance, rfl, rfl⟩
  · exact ⟨c.importance, rfl, rfl⟩
  · exact ⟨_, hfold _ _ _, rfl⟩

theorem Valid.observeScores {c : ElasticKvCache} (h : Valid c) (scores : List (ℕ × F32))
    (temperature : F32) : Valid (c.observeScores scores temperature) := by
  obtain ⟨importance, hlen, heq⟩ := observeScores_eq c scores temperature
  rw [heq]
  exact h.congr rfl rfl rfl hlen rfl rfl rfl

end Importance

/-- A rehydration inserts the found tile, or leaves the slots alone. -/
theorem rehydrate_cases {c : ElasticKvCache} (h : Valid c) (seq : UInt64) :
    (∃ result d, c.rehydrate seq = .ok (result, d) ∧ SameSlots c d ∧ ∀ i, result ≠ .ok (some i)) ∨
    ∃ log r i d, c.eventLog = some log ∧ (log.fetchBySeq seq).1 = .ok (some r) ∧
      insertWithState { c with eventLog := some (log.fetchBySeq seq).2 } r.tile
        (stateOf r.tile) = .ok (i, d) ∧
      c.rehydrate seq = .ok (.ok (some i), d) ∧ Valid d := by
  unfold rehydrate
  cases hlog : c.eventLog with
  | none => exact Or.inl ⟨_, _, rfl, SameSlots.refl c, fun i hi => by cases hi⟩
  | some log =>
      rcases hfetch : log.fetchBySeq seq with ⟨found, after⟩
      have hsame : SameSlots c { c with eventLog := some after } :=
        ⟨rfl, rfl, rfl, rfl, rfl, rfl, rfl, rfl, rfl, rfl, rfl⟩
      simp only [hfetch]
      match found with
      | .error e => exact Or.inl ⟨.error e, _, rfl, hsame, fun i => nofun⟩
      | .ok none => exact Or.inl ⟨.ok none, _, rfl, hsame, fun i => nofun⟩
      | .ok (some r) =>
          obtain ⟨i, d, heq, hvalid, -⟩ := (hsame.valid h).insertWithState r.tile
          have hstate : (if r.tile.isWarm then TileState.warm else .hot) = stateOf r.tile := rfl
          refine Or.inr ⟨log, r, i, d, rfl, by rw [hfetch], by rw [hfetch]; exact heq, ?_, hvalid⟩
          simp only [hstate, heq, bind, Except.bind, pure, Except.pure]

end SlhaV2.CcosSteps
