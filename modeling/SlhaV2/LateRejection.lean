import SlhaV2.DenseWrites
import SlhaV2.PageRuns
import SlhaV2.QuiescentCycle

/-!
# A write that is rejected after it was made

The shim judges the cache a second time after the write. The cache keeps its
budget by itself, so the only thing left to object to is a COLD slot beside the
written one, as a quiescent offload leaves them. The call then fails with the
tile stored: it kept the cache as it was exactly when no such slot was there.
-/
namespace SlhaV2.LateRejection
open MachineWord ByteBuffer TileCodec SlotVector FloatingPoint ByteBudget ControlLoop
open PhysicalCache PhysicalCache.ElasticKvCache ResidencyGraph PhysicalSteps SlotOperations
open CacheOperations CacheWrites HardBudget PageRuns DenseWrites ElasticFfi ExternalK
open ExternalK.Ccos QuiescentCycle

variable {F : Type} {c c' d : ElasticKvCache F} {i n slot : ℕ} {s s' : Ccos F} {tile : Tile}

/-- Every stored generation was issued, unless the counter is exhausted. -/
def Aged (c : ElasticKvCache F) : Prop := c.nextSeq < maxWord → Fresh c

theorem Aged.path {touch : ℕ → Prop} (h : Aged c) (hp : Path touch c c') : Aged c' := by
  intro hlt
  have hle := Path.nextSeq_le hp hlt
  exact Path.fresh hp (h (hle.trans_lt hlt)) hlt

theorem aged_of_empty (h : c.slots = []) : Aged c := by
  intro _ i st hat
  rw [h] at hat
  cases hat

/-- The cache in use is an empty one, or came from the one before by primitive steps. -/
def Follows (s s' : Ccos F) : Prop :=
  ∀ c', s'.cache = some c' → c'.slots = [] ∨ ∃ c, s.cache = some c ∧ Path (fun _ => True) c c'

theorem Follows.refl (s : Ccos F) : Follows s s := fun c hc => .inr ⟨c, hc, .refl⟩

theorem Follows.withCache (hc : s.cache = some c) (hc' : s'.cache = some c')
    (hp : Path (fun _ => True) c c') : Follows s s' := by
  intro d hd
  rw [hc'] at hd
  cases hd
  exact .inr ⟨c, hc, hp⟩

theorem writeDenseBudget_path (hs : Sound c) (hfit : Fits c) (slot : ℕ) (tile : Tile)
    (target : ℕ) (reserve : Bool) : Path (fun _ => True) c
      (slhaElasticCacheWriteDenseBudget c slot (some tile) target reserve).2 := by
  unfold slhaElasticCacheWriteDenseBudget
  dsimp only
  cases validateTile (SlhaTile.tileFromBytes tile) with
  | error code => exact .refl
  | ok u =>
      have hends : WriteEnds c slot tile (c.writeAtDenseBudget slot tile target reserve) :=
        writeAtDenseBudget_ends hs hfit slot target reserve
      rcases hends with ⟨_, hp, _⟩ | ⟨_, hp⟩
      · exact Path.mono (fun _ _ => trivial) hp
      · exact hp _

theorem follows_writeTile (h : Live s) (layerId : ℤ) (position : ℕ) (tile : Option Tile)
    (reserve : Bool) : Follows s (s.writeTile layerId position tile reserve).2 := by
  unfold writeTile
  cases tile with
  | none => exact .refl s
  | some tile =>
      cases hc : s.cache with
      | none => exact .refl s
      | some c =>
          obtain ⟨hn, hh⟩ := h c hc
          dsimp only
          cases s.geometrySlot layerId position with
          | none => exact .refl s
          | some slot =>
              have hp := writeDenseBudget_path hh.sound (hh.fits hn) slot tile s.budgetBytes
                reserve
              dsimp only
              split_ifs
              · exact .refl s
              · exact .withCache hc rfl hp
              · exact .withCache hc rfl hp

theorem observe_path [F32Arith] (startSlot stride : ℕ) (scores : List F32) (temperature : F32)
    (reserve : Bool) : Path (fun _ => True) c
      (slhaElasticCacheObserveScoresStrided c startSlot stride scores temperature reserve).2 := by
  unfold slhaElasticCacheObserveScoresStrided
  split_ifs
  · exact .refl
  · exact .refl
  · exact .refl
  · exact .refl
  · exact .refl
  · exact .refl
  · cases observations startSlot stride 0 scores with
    | error code => exact .refl
    | ok seen => exact observeScores_path seen temperature

theorem follows_scoreTiles [F32Arith] (tryScore : TryScore) (s : Ccos F) (layerId : ℤ)
    (startPosition count : ℕ) (q : Query) (scoresOut reserve : Bool) :
    Follows s (scoreTiles tryScore s layerId startPosition count q scoresOut reserve).2 := by
  unfold scoreTiles
  cases hc : s.cache with
  | none => exact .refl s
  | some c =>
      dsimp only
      cases s.rangeStart layerId startPosition count with
      | none => exact .refl s
      | some startSlot =>
          dsimp only
          cases slhaElasticCacheScoreStrided tryScore c startSlot s.nLayers count q scoresOut
              reserve with
          | error code => exact .refl s
          | ok scores =>
              dsimp only
              split_ifs
              · exact .withCache hc rfl (observe_path _ _ _ _ _)
              · exact .refl s

theorem follows_prepareStore [F64 F] (s : Ccos F) (numLayers : ℤ) (runtimeCapacity : ℕ)
    (budgetSetting : Setting ℕ) (temperatureSetting : Setting F32) (created : Bool) :
    Follows s (s.prepareStore numLayers runtimeCapacity budgetSetting temperatureSetting
      created).2 := by
  unfold prepareStore
  by_cases hzero : runtimeCapacity = 0 ∨ numLayers ≤ 0
  · rw [if_pos hzero]
    exact .refl s
  rw [if_neg hzero]
  dsimp only
  cases (checkedMul numLayers.toNat runtimeCapacity).bind (checkedMul · tileBytes) with
  | none => exact .refl s
  | some logicalHotBytes =>
      dsimp only
      by_cases hempty : logicalHotBytes = 0
      · rw [if_pos hempty]
        exact .refl s
      rw [if_neg hempty]
      split
      · cases created with
        | false =>
            intro c hc
            cases hc
        | true =>
            intro c hc
            cases hc
            exact .inl rfl
      · exact .refl s

theorem follows_offloadQuiescent (h : Live s) : Follows s s.offloadQuiescent.2 := by
  unfold offloadQuiescent
  cases hc : s.cache with
  | none => exact .refl s
  | some c =>
      obtain ⟨hn, hh⟩ := h c hc
      have hp : Path (fun _ => True) c (slhaElasticCacheOffloadTo c 0).2 :=
        Moves.path (offloadTo_moves hh (hh.fits hn)) _
      dsimp only
      split_ifs
      · exact .refl s
      · exact .withCache hc rfl hp
      · exact .withCache hc rfl hp
      · exact .withCache hc rfl hp

theorem follows_restoreQuiescent (h : Live s) : Follows s s.restoreQuiescent.2 := by
  unfold restoreQuiescent
  cases hc : s.cache with
  | none => exact .refl s
  | some c =>
      obtain ⟨hn, hh⟩ := h c hc
      dsimp only
      split_ifs
      · exact .refl s
      cases checkedMul s.nLayers s.capacity with
      | none => exact .refl s
      | some logicalSlots =>
          obtain ⟨hd, hmoves⟩ := restoreLoop_held hn logicalSlots 0 hh
          dsimp only
          split_ifs
          · exact .withCache hc rfl (Moves.path hmoves _)
          · have hall := hmoves.trans (offloadTo_moves hd (hd.fits hn))
            exact .withCache hc rfl (Moves.path hall _)

section Reach
variable [F64 F] [F32Arith]

theorem follows_step (tryScore : TryScore) (h : Live s) (op : Op) :
    Follows s (step tryScore s op) := by
  cases op with
  | prepareStore numLayers runtimeCapacity budgetSetting temperatureSetting created =>
      exact follows_prepareStore s numLayers runtimeCapacity budgetSetting temperatureSetting
        created
  | writeTile layerId position tile reserve =>
      exact follows_writeTile h layerId position tile reserve
  | scoreTiles layerId startPosition count q scoresOut reserve =>
      exact follows_scoreTiles tryScore s layerId startPosition count q scoresOut reserve
  | resetStore =>
      intro c hc
      obtain ⟨c₀, _, rfl⟩ := Option.map_eq_some_iff.mp hc
      exact .inl rfl
  | offloadQuiescent => exact follows_offloadQuiescent h
  | restoreQuiescent => exact follows_restoreQuiescent h
  | releaseStore =>
      intro c hc
      cases hc

theorem Reachable.aged {tryScore : TryScore} (h : Reachable tryScore s) (hc : s.cache = some c) :
    Aged c := by
  have hrun : ∀ (ops : List Op) (s : Ccos F), Live s → (∀ c, s.cache = some c → Aged c) →
      ∀ c, (run tryScore s ops).cache = some c → Aged c := by
    intro ops
    induction ops with
    | nil => exact fun _ _ h => h
    | cons op ops ih =>
        intro s hlive haged
        apply ih _ (live_step tryScore hlive op)
        intro c' hc'
        rcases follows_step tryScore hlive op c' hc' with hempty | ⟨c₀, hc₀, hp⟩
        · exact aged_of_empty hempty
        · exact (haged c₀ hc₀).path hp
  obtain ⟨ops, rfl⟩ := h
  apply hrun ops initial _ _ c hc
  · intro c hc
    cases hc
  · intro c hc
    cases hc

end Reach

/-- The tile passes the checks of the shim and of the cache, and there is room for it. -/
structure Taken (c : ElasticKvCache F) (slot : ℕ) (tile : Tile) (budget : ℕ) (reserve : Bool) :
    Prop where
  admitted : admits c slot budget = true
  valid : validateTile (SlhaTile.tileFromBytes tile) = .ok ()
  allocated : slot < c.slots.length ∨ reserve = true
  fits : denseNeed c slot ≤ min budget c.configBudgetBytes

theorem others_room (hslot : slot < n) (hlen : c.slots.length ≤ n) :
    otherCount c slot (fun _ => true) + 1 ≤ n := by
  have hcount : otherCount c slot (fun _ => true) = total (fun _ => 1) (c.slots.set slot none) :=
    total_congr fun _ _ _ => if_pos rfl
  rw [hcount]
  by_cases hlt : slot < c.slots.length
  · let x : PhysicalSlot := ⟨[], none, none, .hot, 0, F32.zero⟩
    have h₁ := total_set (fun _ : PhysicalSlot => 1) c.slots slot (some x) hlt
    have h₂ := total_set_none (fun _ : PhysicalSlot => 1) c.slots slot
    have h₃ := total_one_le (c.slots.set slot (some x))
    rw [List.length_set] at h₃
    rw [weight_some] at h₁
    omega
  · have h₁ := total_one_le (c.slots.set slot none)
    rw [List.length_set] at h₁
    omega

theorem resize_reserve (h : slot < c.slots.length) (reserve : Bool) :
    c.resize (slot + 1) reserve = c.resize (slot + 1) true := by
  unfold resize
  rw [if_neg (by omega), if_neg (by omega)]

theorem writeAtDenseBudget_reserve (h : slot < c.slots.length) (tile : Tile) (target : ℕ)
    (reserve : Bool) : c.writeAtDenseBudget slot tile target reserve =
      c.writeAtDenseBudget slot tile target true := by
  have hbody : ∀ target, c.denseWriteBody slot tile target reserve =
      c.denseWriteBody slot tile target true := by
    intro target
    unfold denseWriteBody
    split_ifs
    · rfl
    · cases hadd : checkedAdd slot 1 with
      | none => rfl
      | some m =>
          obtain ⟨_, rfl⟩ := checkedAdd_eq_some.mp hadd
          dsimp only
          rw [resize_reserve h]
  unfold writeAtDenseBudget
  dsimp only
  rw [hbody]

/-- The allocator's refusal leaves the cache as it was. -/
theorem writeAtDenseBudget_unallocated (h : ¬ slot < c.slots.length)
    (hin : c.residentBytes ≤ c.configBudgetBytes) (tile : Tile) (target : ℕ) :
    ∃ m, c.writeAtDenseBudget slot tile target false = (.error (.err m), c) := by
  unfold writeAtDenseBudget denseWriteBody
  dsimp only
  rw [if_neg (Nat.not_lt.mpr hin)]
  cases hadd : checkedAdd slot 1 with
  | none => exact ⟨_, rfl⟩
  | some m =>
      obtain ⟨_, rfl⟩ := checkedAdd_eq_some.mp hadd
      have hresize : c.resize (slot + 1) false = .error (.err "slot allocation failed") := by
        unfold resize
        rw [if_pos (by omega)]
        rfl
      dsimp only
      rw [hresize]
      exact ⟨_, rfl⟩

section Write
variable (hh : Held n c) (hn : n * tileBytes ≤ maxWord) (hslot : slot < n)
include hh hn hslot

theorem write_stored (tile : Tile) (target : ℕ) :
    (∃ d tier, Demoted (vacated c slot) d ∧ denseNeed c slot ≤ min target c.configBudgetBytes ∧
        tier = d.denseTier (wasPinned c slot) (min target c.configBudgetBytes) ∧
        c.writeAtDenseBudget slot tile target true = (.ok tier, stored d slot tile tier) ∧
        DenseWritten c slot tile (min target c.configBudgetBytes) (stored d slot tile tier)) ∨
      (∃ m d, c.writeAtDenseBudget slot tile target true = (.error (.err m), d) ∧
        d.slots = c.slots ∧ d.residentBytes = c.residentBytes ∧
        min target c.configBudgetBytes < denseNeed c slot) := by
  have hpos : 1 ≤ tileBytes := by decide
  have hword : n ≤ maxWord := (Nat.le_mul_of_pos_right n hpos).trans hn
  have hroom := others_room hslot hh.short
  have halloc : tileBytes * (otherCount c slot (fun _ => true) + 1) ≤ maxWord :=
    calc tileBytes * (otherCount c slot (fun _ => true) + 1)
        ≤ tileBytes * n := Nat.mul_le_mul_left _ hroom
      _ = n * tileBytes := Nat.mul_comm _ _
      _ ≤ maxWord := hn
  exact writeAtDenseBudget_stored tile hh.sound (by omega) halloc hh.bounded target

/-- A tile that is taken is stored behind demotions of other slots. -/
theorem write_taken {budget : ℕ} {reserve : Bool} (ht : Taken c slot tile budget reserve) :
    ∃ d tier, Demoted (vacated c slot) d ∧
      slhaElasticCacheWriteDenseBudget c slot (some tile) budget reserve =
        (slhaOk, stored d slot tile tier) ∧
      DenseWritten c slot tile (min budget c.configBudgetBytes) (stored d slot tile tier) := by
  have hreserve : c.writeAtDenseBudget slot tile budget reserve =
      c.writeAtDenseBudget slot tile budget true := by
    rcases ht.allocated with hlt | rfl
    · exact writeAtDenseBudget_reserve hlt tile budget reserve
    · rfl
  unfold slhaElasticCacheWriteDenseBudget
  dsimp only
  rw [ht.valid, hreserve]
  rcases write_stored hh hn hslot tile budget with
    ⟨d, tier, hdem, _, _, heq, hw⟩ | ⟨_, _, _, _, _, hlt⟩
  · exact ⟨d, tier, hdem, by rw [heq]; rfl, hw⟩
  · exact absurd ht.fits (Nat.not_le.mpr hlt)

/-- A tile that is not taken changes no slot. -/
theorem write_refused {budget : ℕ} {reserve : Bool} (hadm : admits c slot budget = true)
    (ht : ¬ Taken c slot tile budget reserve) :
    ∃ code d, slhaElasticCacheWriteDenseBudget c slot (some tile) budget reserve = (code, d) ∧
      code ≠ slhaOk ∧ d.slots = c.slots ∧ d.residentBytes = c.residentBytes := by
  have herr : slhaErrDimension ≠ slhaOk := by decide
  unfold slhaElasticCacheWriteDenseBudget
  dsimp only
  cases hvalid : validateTile (SlhaTile.tileFromBytes tile) with
  | error code => exact ⟨code, c, rfl, validateTile_error hvalid, rfl, rfl⟩
  | ok u =>
      dsimp only
      by_cases halloc : slot < c.slots.length ∨ reserve = true
      · have hreserve : c.writeAtDenseBudget slot tile budget reserve =
            c.writeAtDenseBudget slot tile budget true := by
          rcases halloc with hlt | rfl
          · exact writeAtDenseBudget_reserve hlt tile budget reserve
          · rfl
        rw [hreserve]
        rcases write_stored hh hn hslot tile budget with
          ⟨_, _, _, hle, _⟩ | ⟨m, d, heq, hsl, hres, _⟩
        · exact absurd ⟨hadm, hvalid, halloc, hle⟩ ht
        · rw [heq]
          exact ⟨slhaErrDimension, d, rfl, herr, hsl, hres⟩
      · obtain ⟨hlt, hno⟩ := not_or.mp halloc
        obtain ⟨m, heq⟩ := writeAtDenseBudget_unallocated hlt hh.bounded tile budget
        rw [Bool.eq_false_iff.mpr hno, heq]
        exact ⟨slhaErrDimension, c, rfl, herr, rfl, rfl⟩

end Write

/-- The written slot carries the generation that was next. -/
theorem slotAt_stored (hs : Sound c) (hdem : Demoted (vacated c slot) d) (tile : Tile)
    (tier : PhysicalTier) :
    ∃ st, slotAt (stored d slot tile tier).slots slot = some st ∧ st.seq = c.nextSeq := by
  have hsound := Path.sound hs (vacated_path c slot)
  obtain ⟨_, _, hseq, hlen, _⟩ := Moves.keeps_all hsound hdem.moves
  have hlt : slot < d.slots.length := by
    rw [hlen]
    exact lt_length_vacated c slot
  exact ⟨_, slotAt_set_self hlt _, hseq⟩

/-- A COLD slot beside the written one stays COLD. -/
theorem cold_stored (hdem : Demoted (vacated c slot) d) (tile : Tile) (tier : PhysicalTier)
    (hi : i ≠ slot) {st : PhysicalSlot} (hat : slotAt c.slots i = some st)
    (ht : st.tier = .cold) : slotAt (stored d slot tile tier).slots i = some st := by
  rw [← slotAt_vacated hi] at hat
  obtain ⟨st', hat', hsame⟩ := hdem.slotAt hat
  rcases hsame with rfl | ⟨hhot, _⟩
  · exact (slotAt_set_of_ne hi.symm _).trans hat'
  · rw [ht] at hhot
    cases hhot

/-- Demotions and the new tile leave no slot COLD that was not. -/
theorem noCold_stored {limit : ℕ} {tier : PhysicalTier} (hdem : Demoted (vacated c slot) d)
    (hw : DenseWritten c slot tile limit (stored d slot tile tier))
    (hcold : ∀ i st, i ≠ slot → slotAt c.slots i = some st → st.tier ≠ .cold) :
    ∀ i st, slotAt (stored d slot tile tier).slots i = some st → st.tier ≠ .cold := by
  intro i st hat ht
  by_cases hi : i = slot
  · subst hi
    obtain ⟨st', hat', htier, _⟩ := hw.written
    cases hat'.symm.trans hat
    rw [ht] at htier
    rcases htier with h | h | h <;> cases h
  · cases hold : slotAt c.slots i with
    | none =>
        rw [← slotAt_vacated hi] at hold
        have hstill := Moves.slotAt_none hdem.moves hold
        cases hstill.symm.trans ((slotAt_set_of_ne (Ne.symm hi) _).symm.trans hat)
    | some st₀ =>
        obtain ⟨st₁, hat₁, hback, _⟩ := hw.others i st₀ hi hold
        cases hat₁.symm.trans hat
        exact hcold i st₀ hi hold (hback ht)

theorem coldSlots_eq_zero :
    (slhaElasticCacheStats c).coldSlots = 0 ↔
      ∀ i st, slotAt c.slots i = some st → st.tier ≠ .cold := by
  constructor
  · intro hz i st hat ht
    have hw := weight_le_total (fun s : PhysicalSlot => if s.tier = .cold then 1 else 0) hat
    unfold slhaElasticCacheStats counts at hz
    dsimp only at hz hw
    rw [if_pos ht] at hw
    omega
  · intro h
    have hz : total (fun s : PhysicalSlot => if s.tier = .cold then 1 else 0) c.slots =
        total (fun _ => 0 * 0) c.slots :=
      total_congr fun i st hat => if_neg (h i st hat)
    unfold slhaElasticCacheStats counts
    dsimp only
    rw [hz, total_mul_left, Nat.zero_mul]

/-- What the cache says of a slot: its tier, its bytes and its generation. -/
def view (st : PhysicalSlot) : PhysicalTier × List UInt8 × ℕ := (st.tier, st.bytes, st.seq)

structure Untouched (s s' : Ccos F) : Prop where
  slots : ∀ i, (cacheSlot s' i).map view = (cacheSlot s i).map view
  resident : s'.cache.map (·.residentBytes) = s.cache.map (·.residentBytes)

/-- The slot holds the tile, and every key of the cache can be scored. -/
structure Served (s : Ccos F) (slot : ℕ) (tile : Tile) : Prop where
  holds : ∃ st, cacheSlot s slot = some st ∧ recover st = some (setWarmFlag tile false)
  noCold : ∀ i st, cacheSlot s i = some st → st.tier ≠ .cold
  bounded : ∀ c, s.cache = some c → c.residentBytes ≤ s.budgetBytes

/-- A write that fails did nothing, and one that succeeds is served. -/
structure KeepsContract (s : Ccos F) (layerId : ℤ) (position : ℕ) (tile : Option Tile)
    (r : Bool × Ccos F) : Prop where
  rejected : r.1 = false → Untouched s r.2
  accepted : r.1 = true → ∃ t slot, tile = some t ∧ s.geometrySlot layerId position = some slot ∧
    Served r.2 slot t

/-- When the cache takes the tile, no slot beside the written one is COLD. -/
def NoneColdBeside (s : Ccos F) (layerId : ℤ) (position : ℕ) (tile : Option Tile)
    (reserve : Bool) : Prop :=
  ∀ t c slot, tile = some t → s.cache = some c → s.geometrySlot layerId position = some slot →
    Taken c slot t s.budgetBytes reserve →
      ∀ i st, i ≠ slot → slotAt c.slots i = some st → st.tier ≠ .cold

theorem Untouched.refl (s : Ccos F) : Untouched s s := ⟨fun _ => rfl, rfl⟩

theorem keepsContract_rejected {layerId : ℤ} {position : ℕ} {tile : Option Tile}
    (h : Untouched s s') : KeepsContract s layerId position tile (false, s') :=
  ⟨fun _ => h, fun hr => Bool.noConfusion hr⟩

section Contract
variable {layerId : ℤ} {position : ℕ} {reserve : Bool}

/-- The second judgement of a write the cache took. -/
theorem writeTile_taken (h : Live s) (hc : s.cache = some c)
    (hslot : s.geometrySlot layerId position = some slot)
    (ht : Taken c slot tile s.budgetBytes reserve) :
    ∃ d tier, Demoted (vacated c slot) d ∧
      DenseWritten c slot tile (min s.budgetBytes c.configBudgetBytes) (stored d slot tile tier) ∧
      s.writeTile layerId position (some tile) reserve =
        (decide ((slhaElasticCacheStats (stored d slot tile tier)).coldSlots = 0) &&
          decide ((stored d slot tile tier).residentBytes ≤ s.budgetBytes),
          { s with cache := some (stored d slot tile tier) }) := by
  obtain ⟨hn, hh⟩ := h c hc
  obtain ⟨d, tier, hdem, heq, hw⟩ := write_taken hh hn (geometrySlot_lt hslot) ht
  refine ⟨d, tier, hdem, hw, ?_⟩
  have hadm : (!admits c slot s.budgetBytes) ≠ true := by
    rw [ht.admitted]
    exact Bool.false_ne_true
  unfold writeTile
  rw [hc]
  dsimp only
  rw [hslot]
  dsimp only
  rw [if_neg hadm, heq]
  rfl

/-- Any other write is refused, and no slot is changed. -/
theorem writeTile_refused (h : Live s) (tile : Option Tile)
    (hno : ∀ t c slot, tile = some t → s.cache = some c →
      s.geometrySlot layerId position = some slot → ¬ Taken c slot t s.budgetBytes reserve) :
    ∃ s', s.writeTile layerId position tile reserve = (false, s') ∧ Untouched s s' := by
  unfold writeTile
  cases tile with
  | none => exact ⟨s, rfl, .refl s⟩
  | some t =>
      cases hc : s.cache with
      | none => exact ⟨s, rfl, .refl s⟩
      | some c =>
          obtain ⟨hn, hh⟩ := h c hc
          dsimp only
          cases hslot : s.geometrySlot layerId position with
          | none => exact ⟨s, rfl, .refl s⟩
          | some slot =>
              dsimp only
              by_cases hadm : admits c slot s.budgetBytes = true
              · obtain ⟨code, d, heq, hcode, hsl, hres⟩ := write_refused hh hn
                  (geometrySlot_lt hslot) hadm (hno t c slot rfl hc hslot)
                rw [heq, hadm]
                refine ⟨{ s with cache := some d }, if_pos hcode, fun i => ?_, ?_⟩
                · unfold cacheSlot
                  rw [hc]
                  simp only [Option.bind_some, hsl]
                · rw [hc]
                  simp only [Option.map_some, hres]
              · rw [Bool.eq_false_iff.mpr hadm]
                exact ⟨s, rfl, .refl s⟩

theorem keepsContract_of_noneColdBeside (h : Live s) (tile : Option Tile)
    (hcond : NoneColdBeside s layerId position tile reserve) :
    KeepsContract s layerId position tile (s.writeTile layerId position tile reserve) := by
  by_cases hex : ∃ t c slot, tile = some t ∧ s.cache = some c ∧
      s.geometrySlot layerId position = some slot ∧ Taken c slot t s.budgetBytes reserve
  · obtain ⟨t, c, slot, rfl, hc, hslot, ht⟩ := hex
    obtain ⟨d, tier, hdem, hw, heq⟩ := writeTile_taken h hc hslot ht
    obtain ⟨st', hat', _, _, hrec, _⟩ := hw.written
    have hnone := noCold_stored hdem hw (hcond t c slot rfl hc hslot ht)
    have hbound : (stored d slot t tier).residentBytes ≤ s.budgetBytes :=
      hw.bounded.trans (min_le_left _ _)
    rw [heq, decide_eq_true (coldSlots_eq_zero.mpr hnone), decide_eq_true hbound]
    refine ⟨fun hr => Bool.noConfusion hr, fun _ => ⟨t, slot, rfl, hslot, ?_⟩⟩
    refine ⟨⟨st', hat', hrec⟩, hnone, fun c' hc' => ?_⟩
    cases hc'
    exact hbound
  · have hno : ∀ t c slot, tile = some t → s.cache = some c →
        s.geometrySlot layerId position = some slot → ¬ Taken c slot t s.budgetBytes reserve :=
      fun t c slot htile hc hslot ht => hex ⟨t, c, slot, htile, hc, hslot, ht⟩
    obtain ⟨s', heq, hsame⟩ := writeTile_refused h tile hno
    rw [heq]
    exact keepsContract_rejected hsame

/-- A generation that was not issued before tells the written slot from the old one. -/
theorem noneColdBeside_of_keepsContract (h : Live s) (haged : ∀ c, s.cache = some c → Aged c)
    (hlt : ∀ c, s.cache = some c → c.nextSeq < maxWord) (tile : Option Tile)
    (hkeeps : KeepsContract s layerId position tile
      (s.writeTile layerId position tile reserve)) :
    NoneColdBeside s layerId position tile reserve := by
  intro t c slot htile hc hslot ht i st hi hat hcold
  subst htile
  obtain ⟨_, hh⟩ := h c hc
  obtain ⟨d, tier, hdem, _, heq⟩ := writeTile_taken h hc hslot ht
  have hstill := cold_stored hdem t tier hi hat hcold
  have hsome : (slhaElasticCacheStats (stored d slot t tier)).coldSlots ≠ 0 := fun hz =>
    coldSlots_eq_zero.mp hz i st hstill hcold
  rw [heq, decide_eq_false hsome] at hkeeps
  have hsame := (hkeeps.rejected rfl).slots slot
  obtain ⟨st', hat', hseq⟩ := slotAt_stored hh.sound hdem t tier
  unfold cacheSlot at hsame
  rw [hc] at hsame
  simp only [Option.bind_some, hat', Option.map_some] at hsame
  obtain ⟨st₀, hat₀, hview⟩ := Option.map_eq_some_iff.mp hsame.symm
  have hold := haged c hc (hlt c hc) slot st₀ hat₀
  have hnew : st₀.seq = st'.seq := congrArg (·.2.2) hview
  omega

end Contract

section Reach
variable [F64 F] [F32Arith]

/-- A write keeps its contract when the cache takes the tile only with no other
slot COLD, and, as long as generations are fresh, on no other condition. -/
theorem writeTile_keepsContract (tryScore : TryScore) (s : Ccos F) (h : Reachable tryScore s)
    (layerId : ℤ) (position : ℕ) (tile : Option Tile) (reserve : Bool) :
    (NoneColdBeside s layerId position tile reserve →
        KeepsContract s layerId position tile (s.writeTile layerId position tile reserve)) ∧
      ((∀ c, s.cache = some c → c.nextSeq < maxWord) →
        KeepsContract s layerId position tile (s.writeTile layerId position tile reserve) →
        NoneColdBeside s layerId position tile reserve) :=
  ⟨keepsContract_of_noneColdBeside h.live tile,
    fun hlt hkeeps => noneColdBeside_of_keepsContract h.live (fun _ hc => Reachable.aged h hc)
      hlt tile hkeeps⟩

end Reach

section Example
local instance : F32Arith := F32Arith.trivial

/-- One of two layers written, and the cache offloaded. -/
def offloaded : Ccos ℚ := run flatScore initial (oneTile ++ [.offloadQuiescent])

/-- The same layer is written again, and nothing else is COLD. -/
theorem writeTile_keepsContract_rewritten :
    KeepsContract offloaded 0 0 (some zeroTile) (offloaded.writeTile 0 0 (some zeroTile) true) ∧
      NoneColdBeside offloaded 0 0 (some zeroTile) true := by
  obtain ⟨hkeeps, hback⟩ := writeTile_keepsContract flatScore offloaded ⟨_, rfl⟩ 0 0
    (some zeroTile) true
  have hnone : NoneColdBeside offloaded 0 0 (some zeroTile) true := by
    intro t c slot _ hc hslot _ i st hi hat
    have hgeo : offloaded.geometrySlot 0 0 = some 0 := by decide +kernel
    have hlen : c.slots.length = 1 := by
      have hmap : (offloaded.cache.map fun c => c.slots.length) = some 1 := by decide +kernel
      rw [hc] at hmap
      exact Option.some.inj hmap
    have hlt := slotAt_lt hat
    cases hgeo.symm.trans hslot
    omega
  refine ⟨hkeeps hnone, hback (fun c hc => ?_) (hkeeps hnone)⟩
  have hmap : (offloaded.cache.map fun c => c.nextSeq) = some 1 := by decide +kernel
  rw [hc] at hmap
  have hone : c.nextSeq = 1 := Option.some.inj hmap
  rw [hone]
  decide

/-- The first layer is still COLD, so the write of the second is rejected; yet
its slot was absent and is now HOT. -/
theorem late_rejection :
    ∃ s : Ccos ℚ, Reachable flatScore s ∧
      (s.writeTile 1 0 (some zeroTile) true).1 = false ∧
      cacheSlot s 1 = none ∧
      (cacheSlot (s.writeTile 1 0 (some zeroTile) true).2 1).map (·.tier) = some .hot ∧
      ¬ KeepsContract s 1 0 (some zeroTile) (s.writeTile 1 0 (some zeroTile) true) := by
  have hrejected : (offloaded.writeTile 1 0 (some zeroTile) true).1 = false := by decide +kernel
  have habsent : cacheSlot offloaded 1 = none := by decide +kernel
  have hhot : (cacheSlot (offloaded.writeTile 1 0 (some zeroTile) true).2 1).map (·.tier) =
      some .hot := by decide +kernel
  refine ⟨offloaded, ⟨_, rfl⟩, hrejected, habsent, hhot, fun hkeeps => ?_⟩
  have hsame := (hkeeps.rejected hrejected).slots 1
  rw [habsent] at hsame
  rw [Option.map_eq_none_iff.mp hsame] at hhot
  cases hhot

end Example

end SlhaV2.LateRejection
