import SlhaV2.BackendScores
import SlhaV2.ControlPlanes
import SlhaV2.LateRejection
import SlhaV2.TileStoreRuns

/-!
# The elastic cache in place of the tile store

With a budget for every position in its HOT form, a write of the elastic cache never demotes. So
a slot of the cache holds what the tile store holds at its layer and position, and the two modes
answer every call alike as long as the model of the plain score calls is live.
-/
namespace SlhaV2.BackendAgreement
open MachineWord ByteBuffer TileCodec SlotVector FloatingPoint PhysicalCache
open PhysicalCache.ElasticKvCache ResidencyGraph PhysicalSteps CacheOperations CacheWrites
open ControlPlanes (counts_sum)
open DenseWrites ElasticFfi ExternalK ExternalK.Ccos QuiescentCycle LateRejection
open OutputContract hiding zeroTile Call
open StoreBackends BackendScores TileStore TileStoreRuns SlhaTile
open HandleRegistries (Process)
open Learned (LearnedModel)
open VectorKernels (Host)

variable {F : Type} {c : ElasticKvCache F} {n slot : ℕ} {tile : Tile}

theorem denseLoop_of_room (need target fuel : ℕ) (h : c.residentBytes + need ≤ target)
    (hword : c.residentBytes + need ≤ maxWord) :
    denseLoop need target (fuel + 1) c = (.ok (), c) := by
  unfold denseLoop
  rw [checkedAdd_eq_some.mpr ⟨hword, rfl⟩]
  exact if_neg (Nat.not_lt.mpr h)

theorem wasPinned_eq (hh : Held n c) (slot : ℕ) : wasPinned c slot = false := by
  unfold wasPinned
  cases hat : slotAt c.slots slot with
  | none => rfl
  | some st => exact decide_eq_false (hh.unpinned slot st hat)

theorem vacated_fits (hh : Held n c) (hslot : slot < n) :
    (vacated c slot).residentBytes + tileBytes ≤ n * tileBytes := by
  apply vacated_room hh.sound
  rw [Nat.mul_comm]
  exact Nat.mul_le_mul_right tileBytes (others_room hslot hh.short)

theorem vacated_short (hh : Held n c) (hslot : slot < n) : (vacated c slot).slots.length ≤ n := by
  have hshort := hh.short
  unfold vacated erased
  rw [List.length_set, List.length_append, List.length_replicate]
  omega

theorem tier_absent_iff :
    slhaElasticCacheTier c slot = tierAbsent ↔ slotAt c.slots slot = none := by
  unfold slhaElasticCacheTier ElasticKvCache.tier
  cases slotAt c.slots slot with
  | none => exact iff_of_true rfl rfl
  | some st =>
      refine iff_of_false ?_ (Option.some_ne_none st)
      rw [Option.map_some]
      cases st.tier <;> decide

section Room
variable (hh : Held n c) (hn : n * tileBytes ≤ maxWord) (hslot : slot < n)
include hh hn hslot

/-- With room for every slot in its HOT form, a write stores its tile HOT and demotes nothing. -/
theorem write_hot {target : ℕ} (htarget : n * tileBytes ≤ min target c.configBudgetBytes) :
    c.writeAtDenseBudget slot tile target true =
      (.ok .hot, stored (vacated c slot) slot tile .hot) := by
  have hpath := vacated_path c slot
  have hsound := Path.sound hh.sound hpath
  have hfits := vacated_fits hh hslot
  have hadd : slot + 1 ≤ maxWord := by
    have hpos : n ≤ n * tileBytes := Nat.le_mul_of_pos_right n (by decide)
    omega
  have hwarm : warmPackedBytes ≤ tileBytes := by decide
  have hcap : min target c.configBudgetBytes ≤ (vacated c slot).configBudgetBytes := by
    rw [configBudgetBytes_congr hpath.limits_eq]
    exact min_le_right _ _
  have hbody := denseWriteBody_eq tile hh.sound hadd hh.bounded (min target c.configBudgetBytes)
  rw [wasPinned_eq hh slot] at hbody
  have hloop : denseLoop warmPackedBytes (min target c.configBudgetBytes)
      ((vacated c slot).residentBytes + 1) (vacated c slot) = (.ok (), vacated c slot) :=
    denseLoop_of_room _ _ _ (by omega) (by omega)
  have hstores := (admitDense_stored tile hsound false (min target c.configBudgetBytes)
    (lt_length_vacated c slot) (slotAt_vacated_self c slot) (by omega) hcap
    (by rw [if_neg Bool.false_ne_true]; omega)).1
  have hhot : (vacated c slot).denseTier false (min target c.configBudgetBytes) = .hot := by
    rcases denseTier_cases false (min target c.configBudgetBytes)
      (show (vacated c slot).residentBytes + tileBytes ≤ maxWord by omega) with
      ⟨hp, _⟩ | ⟨_, hhot, _⟩ | ⟨_, _, hlt⟩
    · cases hp
    · exact hhot
    · omega
  rw [hhot] at hstores
  unfold writeAtDenseBudget
  dsimp only
  rw [hbody]
  unfold fillDense
  dsimp only
  rw [if_neg Bool.false_ne_true, hloop]
  dsimp only
  rw [hstores]

/-- The slots in use after a write, the written one among them. -/
theorem activeAfter_eq : activeAfter c slot = some (otherCount c slot (fun _ => true) + 1) := by
  have hword : n ≤ maxWord := (Nat.le_mul_of_pos_right n (by decide)).trans hn
  have hroom := others_room hslot hh.short
  have hcount : otherCount c slot (fun _ => true) = total (fun _ => 1) (c.slots.set slot none) :=
    total_congr fun _ _ _ => if_pos rfl
  have hset := total_set_none (fun _ : PhysicalSlot => 1) c.slots slot
  have hactive : active (slhaElasticCacheStats c) = total (fun _ => 1) c.slots := counts_sum
  unfold activeAfter
  dsimp only
  rw [hactive, hcount]
  cases hat : slotAt c.slots slot with
  | none =>
      rw [hat, weight_none] at hset
      rw [if_pos (tier_absent_iff.mpr hat), ← hset]
      exact checkedAdd_eq_some.mpr ⟨by omega, rfl⟩
  | some st =>
      rw [hat, weight_some] at hset
      rw [← hset]
      refine if_neg fun habsent => ?_
      rw [tier_absent_iff.mp habsent] at hat
      cases hat

end Room

/-- Every slot in use holds its tile in the HOT form. -/
def AllHot (c : ElasticKvCache F) : Prop :=
  ∀ i st, slotAt c.slots i = some st → st.tier = .hot ∧ st.bytes.length = tileBytes

theorem AllHot.prior (h : AllHot c) (slot : ℕ) :
    priorSlotResident (slhaElasticCacheTier c slot) =
      (slotAt c.slots slot).elim 0 PhysicalSlot.allocatedBytes := by
  unfold slhaElasticCacheTier ElasticKvCache.tier
  cases hat : slotAt c.slots slot with
  | none => rfl
  | some st =>
      obtain ⟨htier, hlength⟩ := h slot st hat
      rw [Option.map_some, htier]
      exact hlength.symm

theorem AllHot.admits (h : AllHot c) (hh : Held n c) (hn : n * tileBytes ≤ maxWord)
    (hslot : slot < n) {budget : ℕ} (hbudget : n * tileBytes ≤ budget) :
    Ccos.admits c slot budget = true := by
  have hold := old_le hh.sound slot
  have hfits := vacated_fits hh hslot
  have hwarm : (otherCount c slot (fun _ => true) + 1) * warmPackedBytes ≤ n * tileBytes :=
    Nat.mul_le_mul (others_room hslot hh.short) (by decide)
  have hresident : (vacated c slot).residentBytes =
      c.residentBytes - (slotAt c.slots slot).elim 0 PhysicalSlot.allocatedBytes := by
    unfold vacated erased
    dsimp only
    rw [slotAt_append_none]
  unfold Ccos.admits
  rw [activeAfter_eq hh hn hslot, Option.bind_some,
    checkedMul_eq_some.mpr ⟨hwarm.trans hn, rfl⟩]
  dsimp only
  rw [h.prior slot, Bool.and_eq_true, Bool.and_eq_true, decide_eq_true_iff, decide_eq_true_iff]
  refine ⟨⟨hwarm.trans hbudget, hold⟩, ?_⟩
  have hword : c.residentBytes - (slotAt c.slots slot).elim 0 PhysicalSlot.allocatedBytes +
      tileBytes ≤ maxWord := by omega
  exact Option.isSome_of_eq_some (checkedAdd_eq_some.mpr ⟨hword, rfl⟩)

/-- The slot of a layer and a position holds the tile that was written there last. -/
def Mirrors (c : ElasticKvCache F) (nLayers capacity : ℕ) (w : Written) : Prop :=
  ∀ l < nLayers, ∀ p < capacity,
    (slotAt c.slots (p * nLayers + l)).map (fun st => (st.tier, st.bytes)) =
      (w l p).map fun t => (PhysicalTier.hot, t)

/-- Every slot of the geometry is that of a layer and a position. -/
theorem exists_position {nLayers capacity i : ℕ} (h : i < nLayers * capacity) :
    ∃ l < nLayers, ∃ p < capacity, i = p * nLayers + l := by
  have hpos : 0 < nLayers := Nat.pos_of_mul_pos_right (Nat.zero_lt_of_lt h)
  refine ⟨i % nLayers, Nat.mod_lt i hpos, i / nLayers, Nat.div_lt_of_lt_mul h, ?_⟩
  rw [Nat.mul_comm, Nat.div_add_mod]

theorem Mirrors.allHot {nLayers capacity : ℕ} {w : Written} (h : Mirrors c nLayers capacity w)
    (hshort : c.slots.length ≤ nLayers * capacity)
    (hlength : ∀ l p t, w l p = some t → t.length = tileBytes) : AllHot c := by
  intro i st hat
  obtain ⟨l, hl, p, hp, rfl⟩ := exists_position ((slotAt_lt hat).trans_le hshort)
  have hslot := h l hl p hp
  rw [hat, Option.map_some] at hslot
  obtain ⟨t, ht, heq⟩ := Option.map_eq_some_iff.mp hslot.symm
  obtain ⟨htier, hbytes⟩ := Prod.mk.inj heq
  exact ⟨htier.symm, hbytes ▸ hlength l p t ht⟩

/-- Writing HOT changes the written slot only. -/
theorem Mirrors.stored {nLayers capacity : ℕ} {w : Written} (h : Mirrors c nLayers capacity w)
    {l p : ℕ} (hl : l < nLayers) (hp : p < capacity) {tile : Tile}
    (hclean : setWarmFlag tile false = tile) :
    Mirrors (stored (vacated c (p * nLayers + l)) (p * nLayers + l) tile .hot) nLayers capacity
      fun l' p' => if l' = l ∧ p' = p then some tile.1 else w l' p' := by
  intro l' hl' p' hp'
  unfold DenseWrites.stored
  dsimp only
  by_cases hsame : l' = l ∧ p' = p
  · obtain ⟨rfl, rfl⟩ := hsame
    rw [if_pos ⟨rfl, rfl⟩, slotAt_set_self (lt_length_vacated c _), hclean]
    rfl
  · have hne : p' * nLayers + l' ≠ p * nLayers + l := by
      intro heq
      obtain ⟨rfl, rfl⟩ := grid_inj hl' hl heq
      exact hsame ⟨rfl, rfl⟩
    rw [if_neg hsame, slotAt_set_of_ne hne.symm, slotAt_vacated hne]
    exact h l' hl' p' hp'

section Geometry
variable {s : Ccos F} {l p : ℕ}

theorem slot_lt {nLayers capacity : ℕ} (hl : l < nLayers) (hp : p < capacity) :
    p * nLayers + l < nLayers * capacity := by
  have hgrid := grid_le hp (show l + 1 ≤ nLayers from hl)
  rw [Nat.mul_comm nLayers]
  omega

/-- The slots of a layer follow each other in steps of the number of layers. -/
theorem progression (nLayers startPosition l j : ℕ) :
    startPosition * nLayers + l + nLayers * j = (startPosition + j) * nLayers + l := by
  rw [Nat.add_mul, Nat.mul_comm nLayers j]
  omega

theorem geometrySlot_eq (hword : s.nLayers * s.capacity * tileBytes ≤ maxWord)
    (hl : l < s.nLayers) (hp : p < s.capacity) :
    s.geometrySlot l p = some (p * s.nLayers + l) := by
  have hslot := slot_lt hl hp
  have hcells : s.nLayers * s.capacity ≤ maxWord :=
    (Nat.le_mul_of_pos_right _ (by decide)).trans hword
  have hinside : ¬ ((l : ℤ) < 0 ∨ (l : ℤ).toNat ≥ s.nLayers ∨ p ≥ s.capacity) := by
    rw [Int.toNat_natCast]
    omega
  unfold geometrySlot
  rw [if_neg hinside, checkedMul_eq_some.mpr ⟨show p * s.nLayers ≤ maxWord by omega, rfl⟩,
    Option.bind_some, Int.toNat_natCast]
  exact checkedAdd_eq_some.mpr ⟨by omega, rfl⟩

/-- The layer and the position that a slot was asked for, if they are inside the geometry. -/
def Inside (nLayers capacity : ℕ) (layerId : ℤ) (position : ℕ) : Prop :=
  ∃ l : ℕ, (l : ℤ) = layerId ∧ l < nLayers ∧ position < capacity

theorem geometrySlot_outside {layerId : ℤ} {position : ℕ}
    (h : ¬ Inside s.nLayers s.capacity layerId position) :
    s.geometrySlot layerId position = none := by
  unfold geometrySlot
  refine if_pos ?_
  by_contra hinside
  push Not at hinside
  exact h ⟨layerId.toNat, by omega, hinside.2.1, hinside.2.2⟩

end Geometry

theorem range_getD {l : List UInt8} {n : ℕ} (h : l.length = n) :
    (List.range n).map (fun k => l.getD k 0) = l := by
  subst h
  apply List.ext_getElem?
  intro i
  rw [List.getElem?_map]
  by_cases hi : i < l.length
  · rw [List.getElem?_range hi, Option.map_some, List.getD_eq_getElem?_getD,
      List.getElem?_eq_getElem hi]
    rfl
  · rw [List.getElem?_eq_none (by rw [List.length_range]; omega),
      List.getElem?_eq_none (by omega)]
    rfl

theorem writeFlags_readFlags (tile : Tile) : writeFlags tile (readFlags tile) = tile := by
  have hlength : (slice tile.1 flagsOffset 2).length = 2 :=
    length_slice (by rw [tile.2]; decide)
  have hword : leNat (slice tile.1 flagsOffset 2) < 2 ^ 16 := by
    have hlt := leNat_lt (slice tile.1 flagsOffset 2)
    rw [hlength] at hlt
    exact hlt
  apply Subtype.ext
  unfold writeFlags readFlags
  dsimp only
  rw [BitVec.toNat_ofNat, Nat.mod_eq_of_lt hword, leBytes_leNat_of_length hlength]
  exact splice_slice_self (by rw [tile.2]; decide)

theorem setWarmFlag_notWarm (t : EncodedTile) : setWarmFlag t.tile false = t.tile := by
  have hbit : readFlags t.tile &&& ~~~flagWarm = readFlags t.tile := by
    have hnot := t.notWarm
    rw [hasFlag_bit (k := 0) (by decide) (by decide)] at hnot
    apply BitVec.eq_of_getLsbD_eq
    intro i hi
    rw [BitVec.getLsbD_and, BitVec.getLsbD_not]
    rcases Nat.eq_zero_or_pos i with rfl | hpos
    · rw [hnot]
      rfl
    · have hwarm : flagWarm.getLsbD i = false := by
        revert i
        decide
      rw [hwarm, decide_eq_true hi]
      exact Bool.and_true _
  unfold setWarmFlag
  dsimp only
  rw [if_neg Bool.false_ne_true, hbit, writeFlags_readFlags]

/-- Scores change nothing of a slot but its importance. -/
theorem observeScores_slots [F32Arith] (scores : List (ℕ × F32)) (temperature : F32) (i : ℕ) :
    (slotAt (c.observeScores scores temperature).slots i).map (fun st => (st.tier, st.bytes)) =
      (slotAt c.slots i).map fun st => (st.tier, st.bytes) := by
  have hfold : ∀ (g : ℕ × F32 → PhysicalSlot → F32) (xs : List (ℕ × F32))
      (c : ElasticKvCache F),
      (slotAt (xs.foldl (fun c p => c.modifySlot p.1 fun s =>
        { s with importance := g p s }) c).slots i).map (fun st => (st.tier, st.bytes)) =
        (slotAt c.slots i).map fun st => (st.tier, st.bytes) := by
    intro g xs
    induction xs with
    | nil => exact fun _ => rfl
    | cons p xs ih =>
        intro c
        rw [List.foldl_cons, ih]
        unfold modifySlot
        cases hat : slotAt c.slots p.1 with
        | none => rfl
        | some st =>
            dsimp only
            by_cases hi : p.1 = i
            · subst hi
              rw [slotAt_set_self (slotAt_lt hat), hat]
              rfl
            · rw [slotAt_set_of_ne hi]
  unfold observeScores
  dsimp only
  split_ifs
  · rfl
  · rfl
  · exact hfold _ scores c

/-- What a score call leaves of the cache. -/
theorem scoreTiles_cache [F32Arith] {s : Ccos F} (hc : s.cache = some c) (tryScore : TryScore)
    (layerId : ℤ) (startPosition count : ℕ) (q : Query) (scoresOut reserve : Bool) :
    ∃ c', (Ccos.scoreTiles tryScore s layerId startPosition count q scoresOut reserve).2 =
        { s with cache := some c' } ∧ c'.configBudgetBytes = c.configBudgetBytes ∧
      ∀ i, (slotAt c'.slots i).map (fun st => (st.tier, st.bytes)) =
        (slotAt c.slots i).map fun st => (st.tier, st.bytes) := by
  have hsame : s = { s with cache := some c } := by rw [← hc]
  unfold Ccos.scoreTiles
  rw [hc]
  dsimp only
  cases s.rangeStart layerId startPosition count with
  | none => exact ⟨c, hsame, rfl, fun _ => rfl⟩
  | some startSlot =>
      dsimp only
      cases ElasticFfi.slhaElasticCacheScoreStrided tryScore c startSlot s.nLayers count q
          scoresOut reserve with
      | error code => exact ⟨c, hsame, rfl, fun _ => rfl⟩
      | ok scores =>
          dsimp only
          by_cases hpos : count > 0
          · rw [if_pos hpos]
            refine ⟨_, rfl, ?_⟩
            unfold slhaElasticCacheObserveScoresStrided
            split_ifs
            · exact ⟨rfl, fun _ => rfl⟩
            · exact ⟨rfl, fun _ => rfl⟩
            · exact ⟨rfl, fun _ => rfl⟩
            · exact ⟨rfl, fun _ => rfl⟩
            · exact ⟨rfl, fun _ => rfl⟩
            · exact ⟨rfl, fun _ => rfl⟩
            · cases observations startSlot s.nLayers 0 scores with
              | error code => exact ⟨rfl, fun _ => rfl⟩
              | ok seen =>
                  have hpath : Path (fun _ => True) c
                      (c.observeScores seen s.importanceTemperature) :=
                    observeScores_path seen s.importanceTemperature
                  exact ⟨configBudgetBytes_congr hpath.limits_eq, observeScores_slots seen _⟩
          · rw [if_neg hpos]
            exact ⟨c, hsame, rfl, fun _ => rfl⟩

/-- The store and the cache hold the same tiles in one geometry. -/
structure Agree [F32Arith] (store : Store) (w : Written) (s : Ccos F) (c : ElasticKvCache F) :
    Prop where
  rep : Rep store w
  tileBytes : store.tileBytes = tileBytes
  nLayers : store.nLayers = s.nLayers
  capacity : store.capacity = s.capacity
  layers : 0 < s.nLayers
  cache : s.cache = some c
  live : Live s
  room : s.nLayers * s.capacity * TileCodec.tileBytes ≤ min s.budgetBytes c.configBudgetBytes
  finite : s.importanceTemperature.isFinite = true
  positive : F32Arith.le s.importanceTemperature F32.zero = false
  mirrors : Mirrors c s.nLayers s.capacity w
  encoded : ∀ l p t, w l p = some t → ∃ e : EncodedTile, t = e.tile.1

namespace Agree
variable [F32Arith] {store : Store} {w : Written} {s : Ccos F}

theorem held (h : Agree store w s c) : Held (s.nLayers * s.capacity) c := (h.live c h.cache).2

theorem word (h : Agree store w s c) : s.nLayers * s.capacity * TileCodec.tileBytes ≤ maxWord :=
  (h.live c h.cache).1

theorem allHot (h : Agree store w s c) : AllHot c := by
  apply h.mirrors.allHot h.held.short
  intro l p t ht
  obtain ⟨e, rfl⟩ := h.encoded l p t ht
  exact e.tile.2

theorem mirrors_stored (h : Agree store w s c) {l p : ℕ} (hl : l < s.nLayers)
    (hp : p < s.capacity) (t : EncodedTile) :
    Mirrors (stored (vacated c (p * s.nLayers + l)) (p * s.nLayers + l) t.tile .hot) s.nLayers
      s.capacity fun l' p' => if l' = l ∧ p' = p then some t.tile.1 else w l' p' :=
  h.mirrors.stored hl hp (setWarmFlag_notWarm t)

theorem encoded_stored (h : Agree store w s c) {l p : ℕ} (t : EncodedTile) :
    ∀ l' p' u, (if l' = l ∧ p' = p then some t.tile.1 else w l' p') = some u →
      ∃ e : EncodedTile, u = e.tile.1 := by
  intro l' p' u hu
  split_ifs at hu with hsame
  · cases hu
    exact ⟨t, rfl⟩
  · exact h.encoded l' p' u hu

/-- The write that the cache accepts. -/
theorem writeTile_inside (h : Agree store w s c) {l p : ℕ} (hl : l < s.nLayers)
    (hp : p < s.capacity) (t : EncodedTile) :
    s.writeTile l p (some t.tile) true =
      (true, { s with
        cache := some
          (stored (vacated c (p * s.nLayers + l)) (p * s.nLayers + l) t.tile .hot) }) := by
  have hslot := slot_lt hl hp
  have hbudget := h.room.trans (min_le_left _ _)
  have hwrite : slhaElasticCacheWriteDenseBudget c (p * s.nLayers + l) (some t.tile) s.budgetBytes
      true = (slhaOk, stored (vacated c (p * s.nLayers + l)) (p * s.nLayers + l) t.tile .hot) := by
    unfold slhaElasticCacheWriteDenseBudget
    dsimp only
    rw [t.valid]
    dsimp only
    rw [write_hot h.held h.word hslot h.room]
    rfl
  have hhot : AllHot (stored (vacated c (p * s.nLayers + l)) (p * s.nLayers + l) t.tile .hot) := by
    apply (h.mirrors_stored hl hp t).allHot
    · unfold stored
      rw [List.length_set]
      exact vacated_short h.held hslot
    · intro l' p' u hu
      obtain ⟨e, rfl⟩ := h.encoded_stored t l' p' u hu
      exact e.tile.2
  have hcold : (slhaElasticCacheStats (stored (vacated c (p * s.nLayers + l)) (p * s.nLayers + l)
      t.tile .hot)).coldSlots = 0 := by
    apply coldSlots_eq_zero.mpr
    intro i st hat htier
    rw [(hhot i st hat).1] at htier
    cases htier
  have hresident : (slhaElasticCacheStats (stored (vacated c (p * s.nLayers + l))
      (p * s.nLayers + l) t.tile .hot)).residentBytes ≤ s.budgetBytes := by
    have hfits := (vacated_fits h.held hslot).trans hbudget
    have hlength : (denseForm (setWarmFlag t.tile false) .hot).1.length = TileCodec.tileBytes :=
      (setWarmFlag t.tile false).2
    unfold slhaElasticCacheStats stored
    dsimp only
    rw [hlength]
    exact hfits
  unfold Ccos.writeTile
  rw [h.cache]
  dsimp only
  rw [geometrySlot_eq h.word hl hp]
  dsimp only
  rw [h.allHot.admits h.held h.word hslot hbudget, if_neg (by decide), hwrite,
    if_neg (not_not.mpr rfl), hcold, decide_eq_true hresident]
  rfl

/-- A write answers alike, and is told to both. -/
theorem writeTile (h : Agree store w s c) (layerId : ℤ) (position : ℕ) (t : EncodedTile) :
    (Plain.writeTile store layerId position (some t.tile)).1 =
        (s.writeTile layerId position (some t.tile) true).1 ∧
      ∃ w' c', Agree (Plain.writeTile store layerId position (some t.tile)).2 w'
        (s.writeTile layerId position (some t.tile) true).2 c' := by
  by_cases hinside : Inside s.nLayers s.capacity layerId position
  · obtain ⟨l, rfl, hl, hp⟩ := hinside
    have hid : Store.layerOf l = some l := Rep.layerOf_eq_some.mpr rfl
    have hl' : l < store.nLayers := by rwa [h.nLayers]
    have hp' : position < store.capacity := by rwa [h.capacity]
    have hb : store.tileBytes ≠ 0 := by rw [h.tileBytes]; decide
    have hbytes : (List.range store.tileBytes).map (fun k => t.tile.1.getD k 0) = t.tile.1 := by
      rw [h.tileBytes]
      exact range_getD t.tile.2
    have hrep := h.rep.write hid hl' hp' hb fun k => t.tile.1.getD k 0
    have hwrite := h.rep.write_eq hid hl' hp' hb fun k => t.tile.1.getD k 0
    have hlive := live_writeTile h.live l position (some t.tile) true
    rw [h.writeTile_inside hl hp t] at hlive ⊢
    unfold Plain.writeTile
    rw [Option.map_some]
    rw [hwrite, hbytes] at hrep ⊢
    simp only [Nat.cast_inj] at hrep
    refine ⟨rfl, fun l' p' => if l' = l ∧ p' = position then some t.tile.1 else w l' p',
      stored (vacated c (position * s.nLayers + l)) (position * s.nLayers + l) t.tile .hot, ?_⟩
    exact {
      rep := hrep
      tileBytes := h.tileBytes
      nLayers := h.nLayers
      capacity := h.capacity
      layers := h.layers
      cache := rfl
      live := hlive
      room := h.room
      finite := h.finite
      positive := h.positive
      mirrors := h.mirrors_stored hl hp t
      encoded := h.encoded_stored t }
  · have hrefused : store.write layerId position (some fun k => t.tile.1.getD k 0) =
        (store, .accepted false) := by
      apply Rep.write_refused
      intro l hl _
      rw [Rep.layerOf_eq_some] at hl
      by_contra hin
      push Not at hin
      exact hinside ⟨l, hl, h.nLayers ▸ hin.1, h.capacity ▸ hin.2.1⟩
    have hnone : s.geometrySlot layerId position = none := geometrySlot_outside hinside
    unfold Plain.writeTile Ccos.writeTile
    rw [Option.map_some, hrefused, h.cache]
    dsimp only
    rw [hnone]
    exact ⟨rfl, w, c, h⟩

theorem resetStore (h : Agree store w s c) :
    Agree (Plain.resetStore store) Written.none s.resetStore c.clear := by
  have hlayers : store.nLayers > 0 := by rw [h.nLayers]; exact h.layers
  unfold Plain.resetStore
  rw [if_pos hlayers]
  exact {
    rep := h.rep.reset
    tileBytes := h.tileBytes
    nLayers := h.nLayers
    capacity := h.capacity
    layers := h.layers
    cache := by
      unfold Ccos.resetStore
      rw [h.cache]
      rfl
    live := live_resetStore h.live
    room := h.room
    finite := h.finite
    positive := h.positive
    mirrors := fun _ _ _ _ => rfl
    encoded := fun _ _ _ ht => nomatch ht }

/-- The cache after a score call holds what it held. -/
theorem scored (h : Agree store w s c) (tryScore : TryScore) (layerId : ℤ)
    (startPosition count : ℕ) (q : Query) (scoresOut reserve : Bool) :
    ∃ c', Agree store w
      (Ccos.scoreTiles tryScore s layerId startPosition count q scoresOut reserve).2 c' := by
  obtain ⟨c', hstate, hcap, hslots⟩ := scoreTiles_cache h.cache tryScore layerId startPosition
    count q scoresOut reserve
  have hlive := live_scoreTiles tryScore h.live layerId startPosition count q scoresOut reserve
  rw [hstate] at hlive ⊢
  refine ⟨c', ?_⟩
  exact {
    rep := h.rep
    tileBytes := h.tileBytes
    nLayers := h.nLayers
    capacity := h.capacity
    layers := h.layers
    cache := rfl
    live := hlive
    room := by rw [hcap]; exact h.room
    finite := h.finite
    positive := h.positive
    mirrors := fun l hl p hp => (hslots _).trans (h.mirrors l hl p hp)
    encoded := h.encoded }

/-- The tiles of a snapshot are those that were written, and the cache scores them. -/
theorem score_slot (h : Agree store w s c)
    (computeScore : SciRustSlhaTile → List F32 → List UInt64 → F32) {snapshot : List UInt8}
    {l p i : ℕ} (hl : l < s.nLayers) (hp : p < s.capacity)
    (hw : w l p = some (slice snapshot (i * TileCodec.tileBytes) TileCodec.tileBytes)) :
    validateTile (Plain.tileAt snapshot i) = .ok () ∧ ∀ qCoarse qSign,
      score (kernelOf computeScore).tryScore c (p * s.nLayers + l) qCoarse qSign =
        some (computeScore (Plain.tileAt snapshot i) qCoarse qSign) := by
  obtain ⟨e, he⟩ := h.encoded l p _ hw
  have htile : Plain.tileAt snapshot i = tileFromBytes e.tile := by
    unfold Plain.tileAt
    congr 1
    apply Subtype.ext
    dsimp only
    rw [← he, ← range_getD (he ▸ e.tile.2 : (slice snapshot (i * TileCodec.tileBytes)
      TileCodec.tileBytes).length = TileCodec.tileBytes)]
    apply List.map_congr_left
    intro k hk
    rw [List.getD_eq_getElem?_getD, List.getD_eq_getElem?_getD, getElem?_slice,
      if_pos (List.mem_range.mp hk)]
  have hslot := h.mirrors l hl p hp
  rw [hw, he, Option.map_some] at hslot
  obtain ⟨st, hat, hview⟩ := Option.map_eq_some_iff.mp hslot
  obtain ⟨htier, hbytes⟩ := Prod.mk.inj hview
  rw [htile]
  refine ⟨e.valid, fun qCoarse qSign => ?_⟩
  unfold score
  rw [hat]
  dsimp only
  rw [htier]
  dsimp only
  rw [hbytes, tryInto_val, Option.bind_some]
  unfold kernelOf
  dsimp only
  rw [validateCodec_of_validateTile e.valid]

theorem progression_le (h : Agree store w s c) {l startPosition count j : ℕ}
    (hl : l < s.nLayers) (hend : startPosition + count ≤ s.capacity) (hj : j < count) :
    startPosition * s.nLayers + l + s.nLayers * j ≤ maxWord := by
  have hlt := slot_lt hl (show startPosition + j < s.capacity by omega)
  have hcells := (Nat.le_mul_of_pos_right (s.nLayers * s.capacity) (by decide)).trans h.word
  rw [progression]
  omega

/-- A score call of a range with a position that nobody has written fails. -/
theorem told_unreadable (h : Agree store w s c) (tryScore : TryScore) {layerId : ℤ}
    {startPosition count : ℕ} (hcount : 1 ≤ count ∧ count ≤ maxTiles)
    (hr : ¬ Rep.Readable store w layerId startPosition count) (q : Query) (scoresOut : Bool) :
    told (Ccos.scoreTiles tryScore s layerId startPosition count q scoresOut true).1 = none := by
  cases hstart : s.rangeStart layerId startPosition count with
  | none =>
      unfold Ccos.scoreTiles
      rw [h.cache, hstart]
      rfl
  | some startSlot =>
  have hgeometry := hstart
  unfold rangeStart at hgeometry
  split_ifs at hgeometry with hrange
  by_cases hinside : Inside s.nLayers s.capacity layerId startPosition
  · obtain ⟨l, rfl, hl, hp⟩ := hinside
    rw [geometrySlot_eq h.word hl hp] at hgeometry
    cases hgeometry
    have hend : startPosition + count ≤ s.capacity := by omega
    apply told_missing h.cache hstart hcount.2 fun j hj => h.progression_le hl hend hj
    by_contra hall
    push Not at hall
    apply hr
    refine ⟨l, rfl, hcount.1, by rwa [h.nLayers], by rw [h.capacity]; omega, fun j hj => ?_⟩
    have hmirror := h.mirrors l hl (startPosition + j) (by omega)
    have hsome := hall j hj
    rw [progression] at hsome
    cases hw : w l (startPosition + j) with
    | some t => rfl
    | none =>
        rw [hw, Option.map_none, Option.map_eq_none_iff] at hmirror
        exact absurd hmirror hsome
  · rw [geometrySlot_outside hinside] at hgeometry
    cases hgeometry

/-- A score call answers alike when its model is live and its snapshot gets memory. -/
theorem scoreTiles (h : Agree store w s c)
    (computeScore : SciRustSlhaTile → List F32 → List UInt64 → F32)
    {proc : Process (ElasticKvCache F) LearnedModel} {model : ℕ} {m : LearnedModel}
    (hmodel : modelOf proc model = .ok m) {memory : Alloc} (layerId : ℤ)
    (startPosition : ℕ) {count : ℕ} (hcount : 1 ≤ count ∧ count ≤ maxTiles)
    (hmemory : (memory (count * 128 + tileAlign - 1)).isSome = true) (q : Query)
    (scoresOut : Bool) (b : Buffers) :
    ∃ r, Plain.scoreTiles (kernelOf computeScore) proc store model layerId startPosition count q
        scoresOut memory b = some r ∧
      Plain.scoresBehind count r = told (Ccos.scoreTiles (kernelOf computeScore).tryScore s
        layerId startPosition count q scoresOut true).1 := by
  unfold Plain.scoreTiles
  rw [if_pos (show count > 0 from hcount.1)]
  by_cases hr : Rep.Readable store w layerId startPosition count
  · obtain ⟨l, rfl, hn, hl, hp, hw⟩ := hr
    have hread := h.rep.readRange_readable h.tileBytes hn hl hp hw memory
    rw [hmemory, if_pos rfl] at hread
    obtain ⟨-, htiles⟩ := h.rep.readRange_tiles hread
    rw [h.nLayers] at hl
    rw [h.capacity] at hp
    have hslots := fun i (hi : i < count) => h.score_slot computeScore hl
      (show startPosition + i < s.capacity by omega) (htiles i hi)
    rw [hread]
    dsimp only
    refine ⟨_, rfl, ?_⟩
    have hstart : s.rangeStart l startPosition count = some (startPosition * s.nLayers + l) := by
      unfold rangeStart
      rw [if_neg (by omega)]
      exact geometrySlot_eq h.word hl (by omega)
    rw [slhaScoreTiles_kernelOf hmodel (fun i hi => (hslots i hi).1) hcount]
    symm
    apply told_tiles h.cache hstart h.layers hcount h.finite h.positive
    intro j hj
    refine ⟨h.progression_le hl hp hj, fun qCoarse qSign => ?_⟩
    rw [progression]
    exact (hslots j hj).2 qCoarse qSign
  · rw [h.rep.readRange_refused memory fun hread => hr hread.2]
    refine ⟨_, rfl, ?_⟩
    rw [h.told_unreadable _ hcount hr]
    rfl

end Agree

/-- The model of a score call is live, and the snapshot of its range gets its memory. -/
def Served (proc : Process (ElasticKvCache F) LearnedModel) : Call → Prop
  | .scoreTiles model _ _ count _ _ _ memory _ =>
      (∃ m, modelOf proc model = .ok m) ∧ (memory (count * 128 + tileAlign - 1)).isSome = true
  | _ => True

section Runs
variable [F32Arith] {store : Store} {w : Written} {s : Ccos F}
  (computeScore : SciRustSlhaTile → List F32 → List UInt64 → F32)
  {proc : Process (ElasticKvCache F) LearnedModel}

/-- A served call answers alike in both modes and leaves them in agreement. -/
theorem step_agree (h : Agree store w s c) {call : Call} (hserved : Served proc call) :
    (Plain.step (kernelOf computeScore) proc store call).2 =
        (Elastic.step (kernelOf computeScore) s call).2 ∧
      ∃ w' c', Agree (Plain.step (kernelOf computeScore) proc store call).1 w'
        (Elastic.step (kernelOf computeScore) s call).1 c' := by
  cases call with
  | writeTile layerId position t =>
      obtain ⟨hanswer, hagree⟩ := h.writeTile layerId position t
      exact ⟨congrArg Answer.wrote hanswer, hagree⟩
  | resetStore => exact ⟨rfl, _, _, h.resetStore⟩
  | scoreTiles model layerId startPosition count hcount q scoresOut memory b =>
      obtain ⟨⟨m, hmodel⟩, hmemory⟩ := hserved
      obtain ⟨r, hplain, hscores⟩ := h.scoreTiles computeScore hmodel layerId
        startPosition hcount hmemory q scoresOut b
      unfold Plain.step
      dsimp only
      rw [hplain]
      exact ⟨congrArg Answer.scored hscores, w, h.scored _ _ _ _ _ _ _⟩

theorem answers_agree (h : Agree store w s c) {calls : List Call}
    (hserved : ∀ call ∈ calls, Served proc call) :
    answers (Plain.step (kernelOf computeScore) proc) store calls =
      answers (Elastic.step (kernelOf computeScore)) s calls := by
  induction calls generalizing store w s c with
  | nil => rfl
  | cons call calls ih =>
      obtain ⟨hanswer, w', c', hagree⟩ := step_agree computeScore h
        (hserved call List.mem_cons_self)
      unfold answers
      rw [hanswer, ih hagree fun call hcall => hserved call (List.mem_cons_of_mem _ hcall)]

omit [F32Arith] in
theorem init_geometry {store : Store} {n c b : ℕ} {alloc : Alloc}
    (h : (store.init n c b alloc).2 = .accepted true) :
    (store.init n c b alloc).1.nLayers = n ∧ (store.init n c b alloc).1.capacity = c ∧
      (store.init n c b alloc).1.tileBytes = b := by
  unfold Store.init Store.rebuild at *
  split at h
  · cases h
  · rename_i hvalid
    rw [if_neg hvalid]
    split at h
    · cases h
    · split at h
      · exact ⟨rfl, rfl, rfl⟩
      · cases h

omit [F32Arith] in
/-- What a store of the cache that was prepared looks like. -/
theorem prepareStore_accepted [F64 F] {s₀ : Ccos F} {numLayers : ℤ} {capacity : ℕ}
    {budget : Setting ℕ} {temperature : Setting F32}
    (h : (s₀.prepareStore numLayers capacity budget temperature true).1 = true) :
    0 < numLayers ∧ ∃ bytes t, budget.value (numLayers.toNat * capacity * tileBytes) = some bytes ∧
      temperature.value defaultTemperature = some t ∧
      (s₀.prepareStore numLayers capacity budget temperature true).2 = { s₀.forgetOffload with
        cache := some (ElasticKvCache.new bytes "slha-c-ffi")
        nLayers := numLayers.toNat
        capacity := capacity
        budgetBytes := bytes
        importanceTemperature := t } := by
  unfold prepareStore at *
  by_cases hzero : capacity = 0 ∨ numLayers ≤ 0
  · rw [if_pos hzero] at h
    cases h
  rw [if_neg hzero] at h ⊢
  refine ⟨by omega, ?_⟩
  dsimp only at h ⊢
  cases hbytes : (checkedMul numLayers.toNat capacity).bind (checkedMul · tileBytes) with
  | none =>
      rw [hbytes] at h
      cases h
  | some logicalHotBytes =>
      obtain ⟨slots, hslots, hmul⟩ := Option.bind_eq_some_iff.mp hbytes
      obtain ⟨-, rfl⟩ := checkedMul_eq_some.mp hslots
      obtain ⟨-, rfl⟩ := checkedMul_eq_some.mp hmul
      rw [hbytes] at h
      dsimp only at h ⊢
      split at h
      · cases h
      · rename_i hempty
        rw [if_neg hempty]
        split at h
        · rename_i bytes t hb ht
          rw [hb, ht]
          exact ⟨bytes, t, rfl, rfl, rfl⟩
        · cases h

/-- Two stores that were prepared with one geometry agree. -/
theorem agree_of_prepared [F64 F] {store₀ : Store} {w₀ : Written} {s₀ : Ccos F}
    (hrep : Rep store₀ w₀) (hlive : Live s₀) {numLayers : ℤ} {capacity : ℕ} {alloc : Alloc}
    {budget : Setting ℕ} {temperature : Setting F32}
    (hbudget : ∀ bytes, budget = some (some bytes) →
      numLayers.toNat * capacity * tileBytes ≤ bytes)
    (htemperature : ∀ t, temperature.value defaultTemperature = some t →
      t.isFinite = true ∧ F32Arith.le t F32.zero = false)
    (hplain : (Plain.prepareStore store₀ numLayers capacity alloc).1 = true)
    (helastic : (s₀.prepareStore numLayers capacity budget temperature true).1 = true) :
    ∃ c, Agree (Plain.prepareStore store₀ numLayers capacity alloc).2 Written.none
      (s₀.prepareStore numLayers capacity budget temperature true).2 c := by
  obtain ⟨hpos, bytes, t, hbytes, ht, hprepared⟩ := prepareStore_accepted helastic
  have hlive' := live_prepareStore hlive numLayers capacity budget temperature true
  have hroom : numLayers.toNat * capacity * tileBytes ≤ bytes := by
    cases budget with
    | none =>
        cases hbytes
        exact le_rfl
    | some parsed =>
        cases (show parsed = some bytes from hbytes)
        exact hbudget bytes rfl
  have hcap : (ElasticKvCache.new (F := F) bytes "slha-c-ffi").configBudgetBytes = bytes :=
    HardBudget.configBudgetBytes_of_limits rfl
  obtain ⟨hfinite, hpositive⟩ := htemperature t ht
  unfold Plain.prepareStore at hplain ⊢
  by_cases hzero : capacity = 0 ∨ numLayers ≤ 0
  · rw [if_pos hzero] at hplain
    cases hplain
  rw [if_neg hzero] at hplain ⊢
  have haccepted : (store₀.init numLayers.toNat capacity tileBytes alloc).2 = .accepted true :=
    of_decide_eq_true hplain
  obtain ⟨hlayers, hcapacity, htile⟩ := init_geometry haccepted
  have hrep' : Rep (store₀.init numLayers.toNat capacity tileBytes alloc).1 Written.none := by
    rcases hrep.init numLayers.toNat capacity tileBytes alloc with hsame | ⟨-, -, hrep'⟩
    · rw [hsame] at haccepted
      cases haccepted
    · exact hrep'
  rw [hprepared] at hlive' ⊢
  refine ⟨ElasticKvCache.new bytes "slha-c-ffi", ?_⟩
  exact {
    rep := hrep'
    tileBytes := htile
    nLayers := hlayers
    capacity := hcapacity
    layers := show 0 < numLayers.toNat by omega
    cache := rfl
    live := hlive'
    room := by
      rw [hcap]
      exact le_min hroom hroom
    finite := hfinite
    positive := hpositive
    mirrors := fun _ _ _ _ => rfl
    encoded := fun _ _ _ ht => nomatch ht }

/-- Whatever is written, reset and scored after both modes were prepared with one geometry and
room for every position, the modes answer alike. -/
theorem backends_agree [F64 F] (host : Host) (val : F32 → ℚ) (toF32 : ℚ → F32)
    (proc : Process (ElasticKvCache F) LearnedModel) (before : List TileStore.Op) (s : Ccos F)
    (hs : Reachable (exactKernel host val toF32).tryScore s) (numLayers : ℤ) (capacity : ℕ)
    (alloc : Alloc) (budget : Setting ℕ) (temperature : Setting F32)
    (hbudget : ∀ bytes, budget = some (some bytes) →
      numLayers.toNat * capacity * tileBytes ≤ bytes)
    (htemperature : ∀ t, temperature.value defaultTemperature = some t →
      t.isFinite = true ∧ F32Arith.le t F32.zero = false)
    (hplain : (Plain.prepareStore (Observed.start.run before).store numLayers capacity
      alloc).1 = true)
    (helastic : (s.prepareStore numLayers capacity budget temperature true).1 = true)
    (calls : List Call) (hserved : ∀ call ∈ calls, Served proc call) :
    answers (Plain.step (exactKernel host val toF32) proc)
        (Plain.prepareStore (Observed.start.run before).store numLayers capacity alloc).2 calls =
      answers (Elastic.step (exactKernel host val toF32))
        (s.prepareStore numLayers capacity budget temperature true).2 calls := by
  obtain ⟨c, hagree⟩ := agree_of_prepared (run_rep Rep.empty before) hs.live hbudget htemperature
    hplain helastic
  rw [exactKernel_eq]
  exact answers_agree _ hagree hserved

end Runs

section Example

/-- No float is at most zero. -/
@[reducible] def aboveZero : F32Arith := { F32Arith.trivial with le := fun _ _ => false }

local instance : F32Arith := aboveZero

def flat : Kernel := exactKernel ⟨.x86_64, true, true, true, true⟩ (fun _ => 0) fun _ => F32.zero

def blankTile : EncodedTile := ⟨zeroTile, by decide +kernel, by decide +kernel⟩

def flatQuery : Query := ⟨some fun _ => F32.zero, some fun _ => 0⟩

/-- A score call of one position of the second layer. -/
def scoreOne (model : ℕ) (memory : Alloc) : Call :=
  .scoreTiles model 1 0 1 (by decide) flatQuery true memory onesBuffer

/-- Both layers are written, and the second is scored before a reset and after it. -/
def twoLayers (model : ℕ) (memory : Alloc) : List Call :=
  [.writeTile 0 0 blankTile, .writeTile 1 0 blankTile, .writeTile 2 0 blankTile,
    scoreOne model memory, .resetStore, scoreOne model memory]

theorem backends_agree_twoLayers :
    answers (Plain.step flat oneModel) (Plain.prepareStore .empty 2 1 roomy).2
        (twoLayers 8 roomy) =
      [.wrote true, .wrote true, .wrote false, .scored (some [F32.zero]), .reset,
        .scored none] := by
  have hserved : ∀ call ∈ twoLayers 8 roomy, Served oneModel call := by
    simp only [twoLayers, List.forall_mem_cons]
    exact ⟨trivial, trivial, trivial, ⟨⟨_, rfl⟩, rfl⟩, trivial, ⟨⟨_, rfl⟩, rfl⟩, by simp⟩
  have hagree := backends_agree ⟨.x86_64, true, true, true, true⟩ (fun _ => 0) (fun _ => F32.zero)
    oneModel [] initial ⟨[], rfl⟩ 2 1 roomy none none (fun _ h => nomatch h)
    (fun t ht => by cases ht; exact ⟨by decide, rfl⟩) (by decide +kernel) (by decide +kernel)
    (twoLayers 8 roomy) hserved
  exact hagree.trans (by decide +kernel)

/-- Without a model a plain score call fails, and without memory for its snapshot it throws; the
cache needs neither. -/
theorem score_without_model :
    (Plain.prepareStore .empty 2 1 roomy).1 = true ∧
      ((initial (F := ℚ)).prepareStore 2 1 none none true).1 = true ∧
      answers (Plain.step flat oneModel) (Plain.prepareStore .empty 2 1 roomy).2
          [.writeTile 1 0 blankTile, scoreOne 0 roomy, scoreOne 8 fun _ => none] =
        [.wrote true, .scored none, .thrown] ∧
      answers (Elastic.step flat) ((initial (F := ℚ)).prepareStore 2 1 none none true).2
          [.writeTile 1 0 blankTile, scoreOne 0 roomy, scoreOne 8 fun _ => none] =
        [.wrote true, .scored (some [F32.zero]), .scored (some [F32.zero])] :=
  ⟨by decide +kernel, by decide +kernel, by decide +kernel, by decide +kernel⟩

end Example

end SlhaV2.BackendAgreement
