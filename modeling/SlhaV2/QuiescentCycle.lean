import SlhaV2.ExternalK
import SlhaV2.OffloadCycle

/-!
# External K survives a quiescent offload

The shim never pins, never stores beyond its geometry and never leaves a write
over the budget. A cache that keeps to this can be offloaded completely, and a
restoration that starts from that offload fits wherever the cache fitted before.
-/
namespace SlhaV2.QuiescentCycle
open MachineWord ByteBuffer TileCodec SlotVector FloatingPoint ByteBudget ControlLoop
open PhysicalCache PhysicalCache.ElasticKvCache ResidencyGraph PhysicalSteps SlotOperations
open CacheOperations CacheWrites HardBudget OffloadCycle ElasticFfi ExternalK
open ExternalK.Ccos

variable {F : Type} {c c' : ElasticKvCache F} {i n : ℕ}

def Unpinned (c : ElasticKvCache F) : Prop :=
  ∀ i s, slotAt c.slots i = some s → s.tier ≠ .pinned

/-- What the cache of a geometry of `n` slots satisfies. -/
structure Held (n : ℕ) (c : ElasticKvCache F) : Prop where
  sound : Sound c
  unpinned : Unpinned c
  bounded : c.residentBytes ≤ c.configBudgetBytes
  short : c.slots.length ≤ n

theorem Held.fits (h : Held n c) (hn : n * tileBytes ≤ maxWord) : Fits c := by
  unfold Fits
  calc tileBytes * c.presentCount
      ≤ tileBytes * n := Nat.mul_le_mul_left _ ((total_one_le c.slots).trans h.short)
    _ = n * tileBytes := Nat.mul_comm _ _
    _ ≤ maxWord := hn

theorem Unpinned.set (h : Unpinned c) {o : Option PhysicalSlot}
    (ho : ∀ s, o = some s → s.tier ≠ .pinned) (hi : i < c.slots.length)
    (hc : c'.slots = c.slots.set i o) : Unpinned c' := by
  intro j s hat
  rw [hc] at hat
  by_cases hij : i = j
  · subst hij
    rw [slotAt_set_self hi] at hat
    exact ho s hat
  · rw [slotAt_set_of_ne hij] at hat
    exact h j s hat

theorem Unpinned.demoted (h : Unpinned c) (hm : MoveAt c i .hot .warm c') : Unpinned c' := by
  obtain ⟨hat, _, _, hg, _, _, _, _⟩ := hm
  refine h.set (o := some _) ?_ (slotAt_lt hat) rfl
  intro s hs
  cases hs
  rw [hg.tier]
  intro ht
  cases ht

/-- Making room pins nothing. -/
theorem denseLoop_unpinned (need target fuel : ℕ) (hs : Sound c) (h : Unpinned c) :
    Unpinned (denseLoop need target fuel c).2 := by
  induction fuel generalizing c with
  | zero => exact h
  | succ fuel ih =>
      unfold denseLoop
      cases checkedAdd c.residentBytes need with
      | none => exact h
      | some needed =>
          dsimp only
          rcases demoteLowestImportance_one hs with ⟨_, hd⟩ | ⟨j, c₁, hm, hd⟩
          · rw [hd]
            dsimp only
            split_ifs
            · exact h
            · exact ih hs h
            · exact h
          · rw [hd]
            dsimp only
            split_ifs
            · exact h.demoted hm
            · exact ih (hm.sound hs) (h.demoted hm)
            · exact h

/-- What the parts of a write that found no pin leave behind. -/
structure Admitted (n : ℕ) (r : Outcome PhysicalTier × ElasticKvCache F) : Prop where
  unpinned : Unpinned r.2
  short : r.2.slots.length ≤ n
  bounded : Succeeded r.1 → r.2.residentBytes ≤ r.2.configBudgetBytes

theorem admitDense_admitted (tile : Tile) (slot target : ℕ) (h : Unpinned c)
    (hslot : slot < c.slots.length) (hshort : c.slots.length ≤ n) :
    Admitted n (c.admitDense slot tile false target) := by
  have hne : c.denseTier false target ≠ .pinned := by
    unfold denseTier
    dsimp only
    rw [if_neg Bool.false_ne_true]
    split_ifs <;> decide
  unfold admitDense
  dsimp only
  cases checkedAdd c.residentBytes
      (denseForm (setWarmFlag tile false) (c.denseTier false target)).1.length with
  | none => exact ⟨h, hshort, by simp⟩
  | some next =>
      dsimp only
      split_ifs with hover
      · exact ⟨h, hshort, by simp⟩
      · refine ⟨?_, ?_, fun _ => ?_⟩
        · refine h.set (o := some _) ?_ hslot rfl
          intro s hs
          cases hs
          exact hne
        · rw [List.length_set]
          exact hshort
        · have hle := not_or.mp hover
          exact Nat.le_of_not_lt hle.2

theorem fillDense_admitted (tile : Tile) (slot target : ℕ) (hs : Sound c) (hfit : Fits c)
    (h : Unpinned c) (hslot : slot < c.slots.length) (hshort : c.slots.length ≤ n) :
    Admitted n (c.fillDense slot tile false target) := by
  unfold fillDense
  dsimp only
  generalize (if false = true then tileBytes else warmPackedBytes) = need
  have hmoves := denseLoop_moves need target (c.residentBytes + 1) hs hfit
  have hpins := denseLoop_unpinned need target (c.residentBytes + 1) hs h
  obtain ⟨_, _, _, hlen, _⟩ := Moves.keeps_all hs hmoves
  split
  · rename_i e c' hd
    rw [hd] at hpins hlen
    exact ⟨hpins, by rw [hlen]; exact hshort, by simp⟩
  · rename_i c' hd
    rw [hd] at hpins hlen
    exact admitDense_admitted tile slot target hpins (by rw [hlen]; exact hslot)
      (by rw [hlen]; exact hshort)

/-- A resized vector is as long as it was asked to be, or unchanged. -/
theorem resize_short {slot m : ℕ} {reserve : Bool} (h : Unpinned c) (hshort : c.slots.length ≤ n)
    (hslot : slot < n) (hadd : checkedAdd slot 1 = some m) (hrs : c.resize m reserve = .ok c') :
    Unpinned c' ∧ c'.slots.length ≤ n := by
  obtain ⟨rfl, _⟩ := resize_ok hrs
  obtain ⟨_, rfl⟩ := checkedAdd_eq_some.mp hadd
  constructor
  · intro j s hat
    rw [slotAt_append_none] at hat
    exact h j s hat
  · rw [List.length_append, List.length_replicate]
    omega

theorem denseWriteBody_admitted (tile : Tile) {slot : ℕ} (target : ℕ) (reserve : Bool)
    (h : Held n c) (hfit : Fits c) (hslot : slot < n) :
    Admitted n (c.denseWriteBody slot tile target reserve) := by
  have hrefused : ∀ e, Admitted n ((.error e, c) : Outcome PhysicalTier × ElasticKvCache F) :=
    fun e => ⟨h.unpinned, h.short, by simp⟩
  unfold denseWriteBody
  split_ifs with hover
  · exact hrefused _
  cases hadd : checkedAdd slot 1 with
  | none => exact hrefused _
  | some m =>
      dsimp only
      cases hrs : c.resize m reserve with
      | error e => exact hrefused e
      | ok c₁ =>
          obtain ⟨hpins, hshort⟩ := resize_short h.unpinned h.short hslot hadd hrs
          obtain ⟨hgrow, hlt, hfit₁, _⟩ := resize_path (· = slot) hfit hadd hrs
          have hs₁ := Path.sound h.sound hgrow
          have hs₂ := Path.sound hs₁ (erased_path (· = slot) rfl hlt)
          have hsub : checkedSub c₁.residentBytes
              ((slotAt c₁.slots slot).elim 0 PhysicalSlot.allocatedBytes) =
              some (erased c₁ slot).residentBytes :=
            checkedSub_eq_some.mpr ⟨old_le hs₁ slot, rfl⟩
          have hpin : (slotAt c₁.slots slot).elim false (fun s => decide (s.tier = .pinned)) =
              false := by
            cases hat : slotAt c₁.slots slot with
            | none => rfl
            | some s => exact decide_eq_false (hpins slot s hat)
          dsimp only
          rw [hsub, hpin]
          have hfill := fillDense_admitted (n := n) (c := erased c₁ slot) tile slot target hs₂
            (erased_fits hfit₁ hlt) (hpins.set (o := none) (by simp) hlt rfl)
            (by simpa [erased] using hlt) (by simpa [erased] using hshort)
          exact hfill

/-- A write within the geometry, successful or rolled back. -/
theorem Held.writeAtDenseBudget (h : Held n c) (hfit : Fits c) (tile : Tile) {slot : ℕ}
    (target : ℕ) (reserve : Bool) (hslot : slot < n) :
    Held n (c.writeAtDenseBudget slot tile target reserve).2 := by
  have hbody := denseWriteBody_ends tile h.sound hfit slot (min target c.configBudgetBytes)
    reserve
  have hadm := denseWriteBody_admitted tile (min target c.configBudgetBytes) reserve h hfit hslot
  have hends : WriteEnds c slot tile (c.writeAtDenseBudget slot tile target reserve) :=
    writeAtDenseBudget_ends h.sound hfit slot target reserve
  have hsound : Sound (c.writeAtDenseBudget slot tile target reserve).2 := by
    rcases hends with ⟨_, hp, _⟩ | ⟨_, hp⟩
    · exact Path.sound h.sound hp
    · exact Path.sound h.sound (hp fun _ => False)
  revert hsound
  unfold ElasticKvCache.writeAtDenseBudget
  dsimp only
  split
  · rename_i m c' hd
    rw [hd] at hbody
    intro hsound
    refine ⟨hsound, h.unpinned, ?_, h.short⟩
    have hcap := configBudgetBytes_congr hbody.path.limits_eq
    have hle := h.bounded
    rw [← hcap] at hle
    exact hle
  · rename_i hne
    intro hsound
    refine ⟨hsound, hadm.unpinned, ?_, hadm.short⟩
    apply hadm.bounded
    rcases hr : c.denseWriteBody slot tile (min target c.configBudgetBytes) reserve with
      ⟨_ | t, c'⟩
    · rename_i e
      cases e with
      | err m => exact (hne m c' hr).elim
      | panic => exact (hbody.noPanic (by rw [hr])).elim
    · exact ⟨t, rfl⟩

theorem Held.new [F64 F] (n budget : ℕ) (id : String) : Held n (ElasticKvCache.new (F := F) budget id) where
  sound := CacheRuns.sound_new budget id
  unpinned i s hat := by simp [ElasticKvCache.new, slotAt] at hat
  bounded := Nat.zero_le _
  short := Nat.zero_le _

theorem Held.clear (h : Held n c) : Held n c.clear where
  sound := Prim.sound h.sound (Prim.clear fun _ => trivial)
  unpinned i s hat := by simp [ElasticKvCache.clear, slotAt] at hat
  bounded := Nat.zero_le _
  short := Nat.zero_le _

theorem Held.modifySlot (h : Held n c) (slot : ℕ) (g : PhysicalSlot → F32) :
    Held n (c.modifySlot slot fun s => { s with importance := g s }) := by
  have hpath : Path (fun _ => False) c (c.modifySlot slot fun s => { s with importance := g s }) :=
    modifySlot_importance_path slot g
  have hsound := Path.sound h.sound hpath
  revert hsound
  unfold ElasticKvCache.modifySlot
  cases hat : slotAt c.slots slot with
  | none => exact fun _ => h
  | some s =>
      intro hsound
      refine ⟨hsound, ?_, h.bounded, ?_⟩
      · refine h.unpinned.set (o := some _) ?_ (slotAt_lt hat) rfl
        intro s' hs'
        cases hs'
        exact h.unpinned slot s hat
      · rw [List.length_set]
        exact h.short

theorem Held.observeScores [F32Arith] (h : Held n c) (scores : List (ℕ × F32))
    (temperature : F32) : Held n (c.observeScores scores temperature) := by
  have hfold : ∀ (g : ℕ × F32 → PhysicalSlot → F32) (xs : List (ℕ × F32))
      (c : ElasticKvCache F), Held n c → Held n
        (xs.foldl (fun c p => c.modifySlot p.1 fun s => { s with importance := g p s }) c) := by
    intro g xs
    induction xs with
    | nil => exact fun _ h => h
    | cons p xs ih => exact fun c h => ih _ (h.modifySlot p.1 (g p))
  unfold ElasticKvCache.observeScores
  dsimp only
  split_ifs
  · exact h
  · exact h
  · exact hfold _ scores c h

theorem Held.offloadTo_zero (h : Held n c) : Held n (c.offloadTo 0).2 := by
  obtain ⟨_, hcool, hs, hz⟩ := OffloadCycle.offloadTo_zero h.sound h.unpinned
  refine ⟨hs, hcool.unpinned h.unpinned, ?_, ?_⟩
  · rw [hz]
    exact Nat.zero_le _
  · rw [hcool.length]
    exact h.short

theorem restore_not_pinned {s : PhysicalSlot} (image : List UInt8) (ht : s.tier = .cold) :
    (s.restore image).2.tier ≠ .pinned := by
  unfold PhysicalSlot.restore
  dsimp only
  split_ifs
  · exact PhysicalTier.noConfusion
  · exact PhysicalTier.noConfusion
  · rw [ht]
    exact PhysicalTier.noConfusion

/-- A restored slot was admitted by the budget, and it is not pinned. -/
theorem Held.restoreSlot (h : Held n c) (hfit : Fits c) (slot : ℕ) :
    Held n (c.restoreSlot slot).2 := by
  have hsound := Moves.sound h.sound (moves_of_acts restoreSlot_acts h.sound hfit slot)
  revert hsound
  unfold ElasticKvCache.restoreSlot
  cases hat : slotAt c.slots slot with
  | none => exact fun _ => h
  | some s =>
      dsimp only
      by_cases ht : s.tier = .cold
      · rw [if_neg (fun hne => hne ht)]
        cases s.offloaded with
        | none => exact fun _ => h
        | some image =>
            dsimp only
            by_cases hover : satAdd c.residentBytes image.length > c.configBudgetBytes
            · rw [if_pos hover]
              exact fun _ => h
            · rw [if_neg hover]
              have hset : ∀ {d : ElasticKvCache F},
                  d.slots = c.slots.set slot (some (s.restore image).2) →
                  Unpinned d ∧ d.slots.length ≤ n := by
                intro d hd
                refine ⟨h.unpinned.set (o := some _) ?_ (slotAt_lt hat) hd, ?_⟩
                · intro s' hs'
                  cases hs'
                  exact restore_not_pinned image ht
                · rw [hd, List.length_set]
                  exact h.short
              cases (s.restore image).1 with
              | error e => exact fun hsound => ⟨hsound, (hset rfl).1, h.bounded, (hset rfl).2⟩
              | ok u =>
                  exact fun hsound =>
                    ⟨hsound, (hset rfl).1, Nat.le_of_not_lt hover, (hset rfl).2⟩
      · rw [if_pos ht]
        exact fun _ => h

/-- The restoration loop moves slots and keeps the cache within its limits. -/
theorem restoreLoop_held (hn : n * tileBytes ≤ maxWord) (m slot : ℕ) (h : Held n c) :
    Held n (restoreLoop m slot c).2 ∧ Moves c (restoreLoop m slot c).2 := by
  induction m generalizing slot c with
  | zero => exact ⟨h, .refl⟩
  | succ m ih =>
      have hmove := moves_of_acts restoreSlot_acts h.sound (h.fits hn) slot
      have hnext := h.restoreSlot (h.fits hn) slot
      unfold restoreLoop
      dsimp only
      split_ifs
      · exact ih (slot + 1) h
      · exact ⟨hnext, hmove⟩
      · obtain ⟨h₁, h₂⟩ := ih (slot + 1) hnext
        exact ⟨h₁, hmove.trans h₂⟩

/-- The cache keeps to a geometry whose full tiles fit a word. -/
def Live (s : Ccos F) : Prop :=
  ∀ c, s.cache = some c → s.nLayers * s.capacity * tileBytes ≤ maxWord ∧
    Held (s.nLayers * s.capacity) c

theorem geometrySlot_lt {s : Ccos F} {layerId : ℤ} {position slot : ℕ}
    (h : s.geometrySlot layerId position = some slot) : slot < s.nLayers * s.capacity := by
  unfold geometrySlot at h
  split_ifs at h with hout
  obtain ⟨base, hmul, hadd⟩ := Option.bind_eq_some_iff.mp h
  obtain ⟨_, rfl⟩ := checkedMul_eq_some.mp hmul
  obtain ⟨_, rfl⟩ := checkedAdd_eq_some.mp hadd
  obtain ⟨_, hrest⟩ := not_or.mp hout
  obtain ⟨hlayer, hposition⟩ := not_or.mp hrest
  calc position * s.nLayers + layerId.toNat
      < position * s.nLayers + s.nLayers := by omega
    _ = s.nLayers * (position + 1) := by rw [Nat.mul_succ, Nat.mul_comm]
    _ ≤ s.nLayers * s.capacity := Nat.mul_le_mul_left _ (by omega)

/-- Replacing the cache by one that keeps to the same geometry. -/
theorem Live.withCache {s s' : Ccos F} (h : Live s) (hc : s.cache = some c)
    (hlayers : s'.nLayers = s.nLayers) (hcapacity : s'.capacity = s.capacity)
    (hc' : s'.cache = some c')
    (hkeep : s.nLayers * s.capacity * tileBytes ≤ maxWord → Held (s.nLayers * s.capacity) c →
      Held (s.nLayers * s.capacity) c') : Live s' := by
  intro d hd
  rw [hc'] at hd
  cases hd
  obtain ⟨hn, hh⟩ := h c hc
  rw [hlayers, hcapacity]
  exact ⟨hn, hkeep hn hh⟩

theorem live_writeTile {s : Ccos F} (h : Live s) (layerId : ℤ) (position : ℕ)
    (tile : Option Tile) (reserve : Bool) :
    Live (s.writeTile layerId position tile reserve).2 := by
  unfold writeTile
  cases tile with
  | none => exact h
  | some tile =>
      cases hc : s.cache with
      | none => exact h
      | some c =>
          dsimp only
          cases hslot : s.geometrySlot layerId position with
          | none => exact h
          | some slot =>
              dsimp only
              -- The call either refuses the tile or writes within the geometry.
              have hkeep : s.nLayers * s.capacity * tileBytes ≤ maxWord →
                  Held (s.nLayers * s.capacity) c → Held (s.nLayers * s.capacity)
                    (slhaElasticCacheWriteDenseBudget c slot (some tile) s.budgetBytes
                      reserve).2 := by
                intro hn hh
                unfold slhaElasticCacheWriteDenseBudget
                dsimp only
                cases validateTile (SlhaTile.tileFromBytes tile) with
                | error code => exact hh
                | ok u =>
                    exact hh.writeAtDenseBudget (hh.fits hn) tile s.budgetBytes reserve
                      (geometrySlot_lt hslot)
              split_ifs
              · exact h
              · exact h.withCache hc rfl rfl rfl hkeep
              · exact h.withCache hc rfl rfl rfl hkeep

theorem live_scoreTiles [F32Arith] {s : Ccos F} (tryScore : TryScore) (h : Live s) (layerId : ℤ)
    (startPosition count : ℕ) (q : Query) (scoresOut reserve : Bool) :
    Live (scoreTiles tryScore s layerId startPosition count q scoresOut reserve).2 := by
  unfold scoreTiles
  cases hc : s.cache with
  | none => exact h
  | some c =>
      dsimp only
      cases s.rangeStart layerId startPosition count with
      | none => exact h
      | some startSlot =>
          dsimp only
          cases slhaElasticCacheScoreStrided tryScore c startSlot s.nLayers count q scoresOut
              reserve with
          | error code => exact h
          | ok scores =>
              dsimp only
              split_ifs
              · refine h.withCache hc rfl rfl rfl fun _ hh => ?_
                unfold slhaElasticCacheObserveScoresStrided
                split_ifs
                · exact hh
                · exact hh
                · exact hh
                · exact hh
                · exact hh
                · exact hh
                · cases observations startSlot s.nLayers 0 scores with
                  | error code => exact hh
                  | ok seen => exact hh.observeScores seen s.importanceTemperature
              · exact h

theorem live_prepareStore [F64 F] {s : Ccos F} (h : Live s) (numLayers : ℤ)
    (runtimeCapacity : ℕ) (budgetSetting : Setting ℕ) (temperatureSetting : Setting F32)
    (created : Bool) : Live (s.prepareStore numLayers runtimeCapacity budgetSetting
      temperatureSetting created).2 := by
  unfold prepareStore
  by_cases hzero : runtimeCapacity = 0 ∨ numLayers ≤ 0
  · rw [if_pos hzero]
    exact h
  rw [if_neg hzero]
  dsimp only
  cases hbytes : (checkedMul numLayers.toNat runtimeCapacity).bind (checkedMul · tileBytes) with
  | none => exact h
  | some logicalHotBytes =>
      obtain ⟨slots, hslots, hmul⟩ := Option.bind_eq_some_iff.mp hbytes
      obtain ⟨_, rfl⟩ := checkedMul_eq_some.mp hslots
      obtain ⟨hword, _⟩ := checkedMul_eq_some.mp hmul
      dsimp only
      by_cases hempty : logicalHotBytes = 0
      · rw [if_pos hempty]
        exact h
      rw [if_neg hempty]
      split
      · cases created with
        | false =>
            intro c hc
            cases hc
        | true =>
            intro c hc
            cases hc
            exact ⟨hword, Held.new _ _ _⟩
      · exact h

theorem live_resetStore {s : Ccos F} (h : Live s) : Live s.resetStore := by
  intro c hc
  obtain ⟨c₀, hc₀, rfl⟩ := Option.map_eq_some_iff.mp hc
  obtain ⟨hn, hh⟩ := h c₀ hc₀
  exact ⟨hn, hh.clear⟩

theorem live_offloadQuiescent {s : Ccos F} (h : Live s) : Live s.offloadQuiescent.2 := by
  unfold offloadQuiescent
  cases hc : s.cache with
  | none => exact h
  | some c =>
      have hkeep : s.nLayers * s.capacity * tileBytes ≤ maxWord →
          Held (s.nLayers * s.capacity) c →
          Held (s.nLayers * s.capacity) (slhaElasticCacheOffloadTo c 0).2 :=
        fun _ hh => hh.offloadTo_zero
      dsimp only
      split_ifs
      · exact h
      · exact h.withCache hc rfl rfl rfl hkeep
      · exact h.withCache hc rfl rfl rfl hkeep
      · exact h.withCache hc rfl rfl rfl hkeep

theorem live_restoreQuiescent {s : Ccos F} (h : Live s) : Live s.restoreQuiescent.2 := by
  unfold restoreQuiescent
  cases hc : s.cache with
  | none => exact h
  | some c =>
      dsimp only
      split_ifs
      · exact h
      cases checkedMul s.nLayers s.capacity with
      | none => exact h
      | some logicalSlots =>
          dsimp only
          split_ifs
          · exact h.withCache hc rfl rfl rfl fun hn hh =>
              (restoreLoop_held hn logicalSlots 0 hh).1
          · exact h.withCache hc rfl rfl rfl fun hn hh =>
              (restoreLoop_held hn logicalSlots 0 hh).1.offloadTo_zero

section Reach
variable [F64 F] [F32Arith]

theorem live_step (tryScore : TryScore) {s : Ccos F} (h : Live s) (op : Op) :
    Live (step tryScore s op) := by
  cases op with
  | prepareStore numLayers runtimeCapacity budgetSetting temperatureSetting created =>
      exact live_prepareStore h numLayers runtimeCapacity budgetSetting temperatureSetting created
  | writeTile layerId position tile reserve => exact live_writeTile h layerId position tile reserve
  | scoreTiles layerId startPosition count q scoresOut reserve =>
      exact live_scoreTiles tryScore h layerId startPosition count q scoresOut reserve
  | resetStore => exact live_resetStore h
  | offloadQuiescent => exact live_offloadQuiescent h
  | restoreQuiescent => exact live_restoreQuiescent h
  | releaseStore =>
      intro c hc
      cases hc

/-- A state that calls of the shim lead to. -/
def Reachable (tryScore : TryScore) (s : Ccos F) : Prop := ∃ ops, s = run tryScore initial ops

theorem Reachable.live {tryScore : TryScore} {s : Ccos F} (h : Reachable tryScore s) : Live s := by
  obtain ⟨ops, rfl⟩ := h
  have hrun : ∀ s : Ccos F, Live s → Live (run tryScore s ops) := by
    induction ops with
    | nil => exact fun _ h => h
    | cons op ops ih => exact fun s h => ih _ (live_step tryScore h op)
  apply hrun
  intro c hc
  cases hc

end Reach

/-- An offload that was accepted found every slot HOT or WARM, and took them all. -/
theorem offloadQuiescent_accepted {s : Ccos F} (h : Live s)
    (ht : s.offloadQuiescent.1 = true) :
    ∃ c c', s.cache = some c ∧ Thawed c 0 c' ∧ c.counts.2.2.1 = 0 ∧ c.residentBytes ≠ 0 ∧
      (∀ i st, slotAt c.slots i = some st → Adaptable st) ∧
      s.offloadQuiescent.2 = { s with
        cache := some c'
        preOffloadResident := c.residentBytes
        preOffloadHot := c.counts.1
        preOffloadWarm := c.counts.2.1 } := by
  unfold offloadQuiescent at ht ⊢
  cases hc : s.cache with
  | none => rw [hc] at ht; cases ht
  | some c =>
      rw [hc] at ht
      dsimp only at ht ⊢
      split_ifs at ht with hbefore hrc hafter
      obtain ⟨_, hh⟩ := h c hc
      obtain ⟨hactive, hrest⟩ := not_or.mp hbefore
      obtain ⟨hcold, _⟩ := not_or.mp hrest
      have hcold : c.counts.2.2.1 = 0 := not_not.mp hcold
      have hadapt : ∀ i st, slotAt c.slots i = some st → Adaptable st := by
        intro i st hat
        have hw := weight_le_total (fun s : PhysicalSlot => if s.tier = .cold then 1 else 0) hat
        have hpin := hh.unpinned i st hat
        unfold counts at hcold
        cases htier : st.tier with
        | hot => exact .inl htier
        | warm => exact .inr htier
        | cold =>
            dsimp only at hw hcold
            rw [if_pos htier] at hw
            omega
        | pinned => exact (hpin htier).elim
      have hres : c.residentBytes ≠ 0 := by
        intro hz
        apply hactive
        have hall := cold_of_resident_zero hh.sound hz
        have hnone : ∀ w : PhysicalSlot → ℕ, total w c.slots = total (fun _ => 0 * 0) c.slots := by
          intro w
          apply total_congr
          intro i st hat
          have hst := hall i st hat
          rcases hadapt i st hat with ht | ht <;> rw [ht] at hst <;> cases hst
        have hzero : ∀ w : PhysicalSlot → ℕ, total w c.slots = 0 := by
          intro w
          rw [hnone w, total_mul_left, Nat.zero_mul]
        unfold active slhaElasticCacheStats counts
        simp only [hzero, Nat.add_zero]
      obtain ⟨_, hcool, hs', hz⟩ := OffloadCycle.offloadTo_zero hh.sound hh.unpinned
      rw [if_neg hbefore, if_neg hrc, if_neg hafter]
      exact ⟨c, _, rfl, hcool.thawed hs' hz hadapt, hcold, hres, hadapt, rfl⟩

/-- The loop goes slot by slot over what an offload has left. -/
theorem restoreLoop_thawed {d : ElasticKvCache F} (hs : Sound c)
    (ha : ∀ i st, slotAt c.slots i = some st → Adaptable st)
    (hbud : c.residentBytes ≤ c.configBudgetBytes) (hword : c.residentBytes ≤ maxWord)
    (m k : ℕ) (h : Thawed c k d) :
    (restoreLoop m k d).1 = true ∧ Thawed c (k + m) (restoreLoop m k d).2 := by
  induction m generalizing k d with
  | zero => exact ⟨rfl, h⟩
  | succ m ih =>
      have hkm : k + (m + 1) = k + 1 + m := by omega
      have hat := h.after k le_rfl
      unfold restoreLoop
      rw [hkm]
      cases hc : slotAt c.slots k with
      | none =>
          rw [hc, Option.map_none] at hat
          have htier : slhaElasticCacheTier d k ≠ tierCold := by
            unfold slhaElasticCacheTier ElasticKvCache.tier
            rw [hat]
            decide
          rw [if_pos htier]
          exact ih (k + 1) (h.hole hc)
      | some st =>
          rw [hc, Option.map_some] at hat
          have htier : ¬ slhaElasticCacheTier d k ≠ tierCold := by
            unfold slhaElasticCacheTier ElasticKvCache.tier
            rw [hat]
            exact fun hne => hne rfl
          obtain ⟨hok, hnext⟩ := h.step hs hc (ha k st hc) hbud hword
          have hrc : ¬ (slhaElasticCacheRestoreSlot d k).1 ≠ slhaOk := by
            unfold slhaElasticCacheRestoreSlot
            dsimp only
            rw [hok]
            exact fun hne => hne rfl
          rw [if_neg htier]
          dsimp only
          rw [if_neg hrc]
          exact ih (k + 1) hnext

/-- Restoring right after an accepted offload undoes it, statistics apart. -/
theorem restoreQuiescent_undoes {s : Ccos F} (h : Live s) (ht : s.offloadQuiescent.1 = true) :
    ∃ c e, s.cache = some c ∧ s.offloadQuiescent.2.restoreQuiescent =
      (true, { s.forgetOffload with cache := some { c with evictions := e } }) := by
  obtain ⟨c, c', hc, hthaw, hcold, hres, ha, hoff⟩ := offloadQuiescent_accepted h ht
  obtain ⟨hn, hh⟩ := h c hc
  have hslots : s.nLayers * s.capacity ≤ maxWord :=
    (Nat.le_mul_of_pos_right _ (by decide)).trans hn
  have hword := resident_le_maxWord hh.sound (hh.fits hn)
  obtain ⟨hok, hall⟩ := restoreLoop_thawed hh.sound ha hh.bounded hword
    (s.nLayers * s.capacity) 0 hthaw
  have hback := hall.done hh.sound (by rw [Nat.zero_add]; exact hh.short)
  refine ⟨c, (restoreLoop (s.nLayers * s.capacity) 0 c').2.evictions, hc, ?_⟩
  rw [hoff]
  unfold restoreQuiescent
  dsimp only
  rw [if_neg hres, checkedMul_eq_some.mpr ⟨hslots, rfl⟩]
  dsimp only
  have hmatch : ∀ e, matchesPreOffload { s with
      cache := some c'
      preOffloadResident := c.residentBytes
      preOffloadHot := c.counts.1
      preOffloadWarm := c.counts.2.1 }
      (slhaElasticCacheStats { c with evictions := e }) = true := by
    intro e
    unfold matchesPreOffload slhaElasticCacheStats
    have hcounts : ({ c with evictions := e } : ElasticKvCache F).counts = c.counts := rfl
    simp only [hcounts, hcold, decide_true, Bool.and_self]
  rw [hback, hok, hmatch, Bool.and_self, if_pos rfl]
  rfl

/-- Statistics do not score. -/
theorem scoreLoop_evictions (tryScore : TryScore) (c : ElasticKvCache F) (e startSlot stride : ℕ)
    (q : List F32 × List UInt64) (count i : ℕ) :
    scoreLoop tryScore { c with evictions := e } startSlot stride q count i =
      scoreLoop tryScore c startSlot stride q count i := by
  induction count generalizing i with
  | zero => rfl
  | succ count ih =>
      have hscore : ∀ slot, score tryScore { c with evictions := e } slot q.1 q.2 =
          score tryScore c slot q.1 q.2 := fun _ => rfl
      unfold scoreLoop
      simp only [hscore, ih]

theorem observe_rc [F32Arith] (c c' : ElasticKvCache F) (startSlot stride : ℕ) (scores : List F32)
    (temperature : F32) (reserve : Bool) :
    (slhaElasticCacheObserveScoresStrided c startSlot stride scores temperature reserve).1 =
      (slhaElasticCacheObserveScoresStrided c' startSlot stride scores temperature reserve).1 := by
  unfold slhaElasticCacheObserveScoresStrided
  split_ifs
  · rfl
  · rfl
  · rfl
  · rfl
  · rfl
  · rfl
  · cases observations startSlot stride 0 scores <;> rfl

theorem scoreTiles_restored [F32Arith] (tryScore : TryScore) {s : Ccos F} (hc : s.cache = some c)
    (e : ℕ) (layerId : ℤ) (startPosition count : ℕ) (q : Query) (scoresOut reserve : Bool) :
    (scoreTiles tryScore { s.forgetOffload with cache := some { c with evictions := e } } layerId
        startPosition count q scoresOut reserve).1 =
      (scoreTiles tryScore s layerId startPosition count q scoresOut reserve).1 := by
  have hrange : rangeStart { s.forgetOffload with cache := some { c with evictions := e } }
      layerId startPosition count = s.rangeStart layerId startPosition count := rfl
  have hstrided : ∀ startSlot, slhaElasticCacheScoreStrided tryScore { c with evictions := e }
      startSlot s.nLayers count q scoresOut reserve =
      slhaElasticCacheScoreStrided tryScore c startSlot s.nLayers count q scoresOut reserve := by
    intro startSlot
    unfold slhaElasticCacheScoreStrided
    simp only [scoreLoop_evictions]
  unfold scoreTiles
  rw [hc, hrange]
  dsimp only
  cases s.rangeStart layerId startPosition count with
  | none => rfl
  | some startSlot =>
      dsimp only
      have hforget : s.forgetOffload.nLayers = s.nLayers := rfl
      rw [hforget, hstrided]
      cases slhaElasticCacheScoreStrided tryScore c startSlot s.nLayers count q scoresOut
          reserve with
      | error code => rfl
      | ok scores =>
          dsimp only
          split_ifs
          · exact congrArg (Scored.mk · scores) (observe_rc _ _ _ _ _ _ _)
          · rfl

/-- The slot of the cache in use. -/
def cacheSlot (s : Ccos F) (slot : ℕ) : Option PhysicalSlot :=
  s.cache.bind fun c => slotAt c.slots slot

/-- Nothing is resident after this step, and the content of every slot is still there. -/
structure AllCold (s s' : Ccos F) : Prop where
  cold : ∀ slot st, cacheSlot s slot = some st → ∃ st', cacheSlot s' slot = some st' ∧
    st'.tier = .cold ∧ st'.seq = st.seq ∧ recover st' = recover st ∧ (recover st').isSome
  absent : ∀ slot, cacheSlot s slot = none → cacheSlot s' slot = none

theorem offloadTo_moves (h : Held n c) (hfit : Fits c) : Moves c (c.offloadTo 0).2 := by
  obtain ⟨⟨b, hok⟩, _⟩ := OffloadCycle.offloadTo_zero h.sound h.unpinned
  rcases applyAction_cases .offload 0 h.sound hfit with ⟨_, _, hm⟩ | ⟨⟨m, herr⟩, _⟩
  · exact hm
  · exact absurd (hok.symm.trans herr) (by simp)

/-- Whatever stops a pending restoration, the cache is offloaded again. -/
theorem restoreQuiescent_fails_cold {s : Ccos F} (h : Live s) (hpending : s.preOffloadResident ≠ 0)
    (ht : s.restoreQuiescent.1 = false) : AllCold s s.restoreQuiescent.2 := by
  unfold restoreQuiescent at ht ⊢
  cases hc : s.cache with
  | none =>
      refine ⟨fun slot st hat => ?_, fun _ hat => hat⟩
      simp [cacheSlot, hc] at hat
  | some c =>
      obtain ⟨hn, hh⟩ := h c hc
      have hslots : s.nLayers * s.capacity ≤ maxWord :=
        (Nat.le_mul_of_pos_right _ (by decide)).trans hn
      rw [hc] at ht
      dsimp only at ht ⊢
      rw [if_neg hpending, checkedMul_eq_some.mpr ⟨hslots, rfl⟩] at ht ⊢
      dsimp only at ht ⊢
      obtain ⟨hd, hmoves⟩ := restoreLoop_held hn (s.nLayers * s.capacity) 0 hh
      generalize restoreLoop (s.nLayers * s.capacity) 0 c = r at *
      split_ifs at ht ⊢ with hdone
      obtain ⟨_, _, hs', hz⟩ := OffloadCycle.offloadTo_zero hd.sound hd.unpinned
      have hall := hmoves.trans (offloadTo_moves hd (hd.fits hn))
      have hpath := Moves.path hall fun _ => False
      constructor
      · intro slot st hat
        unfold cacheSlot at hat
        rw [hc] at hat
        obtain ⟨st', hat', hkeep⟩ := Path.keeps hh.sound hpath (j := slot) id hat
        refine ⟨st', hat', cold_of_resident_zero hs' hz slot st' hat', hkeep.seq,
          hkeep.recover, ?_⟩
        obtain ⟨t, f, hclean, hrep⟩ := hs'.wellFormed slot st' hat'
        rw [hrep.recover hclean]
        rfl
      · intro slot hat
        unfold cacheSlot at hat
        rw [hc] at hat
        exact Moves.slotAt_none hall hat

/-- What a restoration right after the offload gives back. -/
structure GivenBack [F32Arith] (tryScore : TryScore) (s s' : Ccos F) : Prop where
  slots : ∀ slot, cacheSlot s' slot = cacheSlot s slot
  scores : ∀ layerId startPosition count q scoresOut reserve,
    (scoreTiles tryScore s' layerId startPosition count q scoresOut reserve).1 =
      (scoreTiles tryScore s layerId startPosition count q scoresOut reserve).1

/-- A quiescent offload is undone by the next restoration; a pending restoration
that fails leaves the context COLD; without one the call is refused. -/
theorem quiescent_cycle [F64 F] [F32Arith] (tryScore : TryScore) (s : Ccos F)
    (h : Reachable tryScore s) :
    (s.offloadQuiescent.1 = true → s.offloadQuiescent.2.restoreQuiescent.1 = true ∧
        GivenBack tryScore s s.offloadQuiescent.2.restoreQuiescent.2) ∧
      (s.preOffloadResident ≠ 0 → s.restoreQuiescent.1 = false →
        AllCold s s.restoreQuiescent.2) ∧
      (s.preOffloadResident = 0 → s.restoreQuiescent = (false, s)) := by
  have hlive := h.live
  refine ⟨fun ht => ?_, restoreQuiescent_fails_cold hlive, fun hz => ?_⟩
  · obtain ⟨c, e, hc, hback⟩ := restoreQuiescent_undoes hlive ht
    rw [hback]
    refine ⟨rfl, fun slot => ?_, scoreTiles_restored tryScore hc e⟩
    unfold cacheSlot
    rw [hc]
    rfl
  · unfold restoreQuiescent
    cases s.cache with
    | none => rfl
    | some c => exact if_pos hz

section Example
local instance : F32Arith := F32Arith.trivial

/-- A tile of zero bytes. -/
def zeroTile : Tile := ⟨List.replicate tileBytes 0, rfl⟩

def flatScore : TryScore := fun _ _ _ => some F32.zero

/-- Two layers of one position, one tile written. -/
def oneTile : List Op :=
  [.prepareStore 2 1 none none true, .writeTile 0 0 (some zeroTile) true]

/-- The same, offloaded, and then written to again. -/
def disturbed : List Op :=
  oneTile ++ [.offloadQuiescent, .writeTile 1 0 (some zeroTile) true]

theorem quiescent_cycle_one_tile :
    (GivenBack flatScore (run flatScore (initial (F := ℚ)) oneTile)
        (run flatScore (initial (F := ℚ)) oneTile).offloadQuiescent.2.restoreQuiescent.2) ∧
      AllCold (run flatScore (initial (F := ℚ)) disturbed)
        (run flatScore (initial (F := ℚ)) disturbed).restoreQuiescent.2 ∧
      (run flatScore (initial (F := ℚ)) oneTile).restoreQuiescent =
        (false, run flatScore (initial (F := ℚ)) oneTile) :=
  ⟨((quiescent_cycle flatScore _ ⟨oneTile, rfl⟩).1 (by decide +kernel)).2,
    (quiescent_cycle flatScore _ ⟨disturbed, rfl⟩).2.1 (by decide +kernel) (by decide +kernel),
    (quiescent_cycle flatScore _ ⟨oneTile, rfl⟩).2.2 (by decide +kernel)⟩

/-- Nothing was offloaded, so the call is refused, and the slot is still HOT. -/
theorem restore_refused_hot :
    ∃ s : Ccos ℚ, Reachable flatScore s ∧ s.restoreQuiescent.1 = false ∧
      ∃ st, cacheSlot s.restoreQuiescent.2 0 = some st ∧ st.tier = .hot :=
  ⟨run flatScore initial oneTile, ⟨oneTile, rfl⟩, by decide +kernel, by decide +kernel⟩

end Example

end SlhaV2.QuiescentCycle
