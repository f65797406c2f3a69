import SlhaV2.ElasticFfi

/-!
# External K over the elastic cache

The shim keeps every key of a context in one elastic cache: the slot of a layer
and a position is the position times the number of layers, plus the layer.
Between two requests the whole cache can be offloaded and restored; the counts
of the offloaded state are kept to check the restoration. Statistics that no
call reads are left out.
-/
namespace SlhaV2.ExternalK
open MachineWord TileCodec FloatingPoint PhysicalCache ElasticFfi

/-- The globals of the shim. -/
structure Ccos (F : Type) where
  cache : Option (ElasticKvCache F)
  nLayers : ℕ
  capacity : ℕ
  budgetBytes : ℕ
  importanceTemperature : F32
  preOffloadResident : ℕ
  preOffloadHot : ℕ
  preOffloadWarm : ℕ

variable {F : Type}

namespace Ccos

def geometrySlot (s : Ccos F) (layerId : ℤ) (position : ℕ) : Option ℕ :=
  if layerId < 0 ∨ layerId.toNat ≥ s.nLayers ∨ position ≥ s.capacity then none
  else (checkedMul position s.nLayers).bind (checkedAdd · layerId.toNat)

def rangeStart (s : Ccos F) (layerId : ℤ) (startPosition count : ℕ) : Option ℕ :=
  if count > s.capacity ∨ startPosition > s.capacity - count then none
  else s.geometrySlot layerId startPosition

/-- An environment variable: unset, not a number in range, or its value. -/
abbrev Setting (α : Type) := Option (Option α)

def Setting.value {α : Type} (setting : Setting α) (unset : α) : Option α :=
  match setting with
  | none => some unset
  | some parsed => parsed

def defaultTemperature : F32 := ⟨0x3F800000⟩

/-- Before the first call. -/
def initial : Ccos F where
  cache := none
  nLayers := 0
  capacity := 0
  budgetBytes := 0
  importanceTemperature := defaultTemperature
  preOffloadResident := 0
  preOffloadHot := 0
  preOffloadWarm := 0

/-- The counts of an offload are forgotten before anything else can fail. -/
def forgetOffload (s : Ccos F) : Ccos F :=
  { s with preOffloadResident := 0, preOffloadHot := 0, preOffloadWarm := 0 }

def prepareStore [F64 F] (s : Ccos F) (numLayers : ℤ) (runtimeCapacity : ℕ)
    (budgetSetting : Setting ℕ) (temperatureSetting : Setting F32) (created : Bool) :
    Bool × Ccos F :=
  if runtimeCapacity = 0 ∨ numLayers ≤ 0 then (false, s)
  else
    let s := s.forgetOffload
    match (checkedMul numLayers.toNat runtimeCapacity).bind (checkedMul · tileBytes) with
    | none => (false, s)
    | some logicalHotBytes =>
      if logicalHotBytes = 0 then (false, s)
      else match budgetSetting.value logicalHotBytes, temperatureSetting.value defaultTemperature
        with
      | some budget, some temperature =>
        if !created then (false, { s with cache := none })
        else (true, { s with
          cache := some (ElasticKvCache.new budget "slha-c-ffi")
          nLayers := numLayers.toNat
          capacity := runtimeCapacity
          budgetBytes := budget
          importanceTemperature := temperature })
      | _, _ => (false, s)

def active (stats : SlhaElasticKvCacheStats) : ℕ :=
  stats.hotSlots + stats.warmSlots + stats.coldSlots + stats.pinnedSlots

/-- The slots in use after a write at `slot`. -/
def activeAfter (c : ElasticKvCache F) (slot : ℕ) : Option ℕ :=
  let before := active (slhaElasticCacheStats c)
  if slhaElasticCacheTier c slot = tierAbsent then checkedAdd before 1 else some before

/-- The resident bytes a slot of this tier is charged. -/
def priorSlotResident (tier : ℤ) : ℕ :=
  if tier = tierHot ∨ tier = tierPinned then tileBytes
  else if tier = tierWarm then warmPackedBytes
  else 0

/-- The checks before the cache is touched. -/
def admits (c : ElasticKvCache F) (slot budget : ℕ) : Bool :=
  match (activeAfter c slot).bind (checkedMul · warmPackedBytes) with
  | none => false
  | some minimumDenseResident =>
    let resident := (slhaElasticCacheStats c).residentBytes
    let prior := priorSlotResident (slhaElasticCacheTier c slot)
    minimumDenseResident ≤ budget && prior ≤ resident &&
      (checkedAdd (resident - prior) tileBytes).isSome

/-- `reserve` is the allocator's answer. -/
def writeTile (s : Ccos F) (layerId : ℤ) (position : ℕ) (tile : Option Tile) (reserve : Bool) :
    Bool × Ccos F :=
  match tile, s.cache with
  | some tile, some c =>
    match s.geometrySlot layerId position with
    | none => (false, s)
    | some slot =>
      if !admits c slot s.budgetBytes then (false, s)
      else
        let r := slhaElasticCacheWriteDenseBudget c slot (some tile) s.budgetBytes reserve
        let s := { s with cache := some r.2 }
        if r.1 ≠ slhaOk then (false, s)
        else
          let final := slhaElasticCacheStats r.2
          (final.coldSlots = 0 && final.residentBytes ≤ s.budgetBytes, s)
  | _, _ => (false, s)

/-- A score call: its status word, and what it wrote to the caller's buffer. -/
structure Scored where
  rc : ℤ
  written : List F32
deriving DecidableEq

def scoreTiles [F32Arith] (tryScore : TryScore) (s : Ccos F) (layerId : ℤ)
    (startPosition count : ℕ) (q : Query) (scoresOut reserve : Bool) : Scored × Ccos F :=
  match s.cache with
  | none => (⟨slhaErrInvalidHandle, []⟩, s)
  | some c =>
    match s.rangeStart layerId startPosition count with
    | none => (⟨slhaErrDimension, []⟩, s)
    | some startSlot =>
      match slhaElasticCacheScoreStrided tryScore c startSlot s.nLayers count q scoresOut
          reserve with
      | .error code => (⟨code, []⟩, s)
      | .ok scores =>
        if count > 0 then
          let r := slhaElasticCacheObserveScoresStrided c startSlot s.nLayers scores
            s.importanceTemperature reserve
          (⟨r.1, scores⟩, { s with cache := some r.2 })
        else (⟨slhaOk, scores⟩, s)

def resetStore (s : Ccos F) : Ccos F :=
  { s.forgetOffload with cache := s.cache.map ElasticKvCache.clear }

def releaseStore (s : Ccos F) : Ccos F :=
  { s.forgetOffload with cache := none, nLayers := 0, capacity := 0, budgetBytes := 0 }

def offloadQuiescent (s : Ccos F) : Bool × Ccos F :=
  match s.cache with
  | none => (false, s)
  | some c =>
    let before := slhaElasticCacheStats c
    if active before = 0 ∨ before.coldSlots ≠ 0 ∨ before.pinnedSlots ≠ 0 then (false, s)
    else
      let r := slhaElasticCacheOffloadTo c 0
      let s := { s with cache := some r.2 }
      if r.1 ≠ slhaOk then (false, s)
      else
        let cold := slhaElasticCacheStats r.2
        if cold.residentBytes ≠ 0 ∨ cold.coldSlots ≠ active before then (false, s)
        else (true, { s with
          preOffloadResident := before.residentBytes
          preOffloadHot := before.hotSlots
          preOffloadWarm := before.warmSlots })

/-- Restore the COLD slots among `n` from `slot` on, up to the first failure. -/
def restoreLoop : ℕ → ℕ → ElasticKvCache F → Bool × ElasticKvCache F
  | 0, _, c => (true, c)
  | n + 1, slot, c =>
      if slhaElasticCacheTier c slot ≠ tierCold then restoreLoop n (slot + 1) c
      else
        let r := slhaElasticCacheRestoreSlot c slot
        if r.1 ≠ slhaOk then (false, r.2) else restoreLoop n (slot + 1) r.2

/-- The counts are those before the offload. -/
def matchesPreOffload (s : Ccos F) (after : SlhaElasticKvCacheStats) : Bool :=
  after.coldSlots = 0 && after.residentBytes = s.preOffloadResident &&
    after.hotSlots = s.preOffloadHot && after.warmSlots = s.preOffloadWarm

def restoreQuiescent (s : Ccos F) : Bool × Ccos F :=
  match s.cache with
  | none => (false, s)
  | some c =>
    if s.preOffloadResident = 0 then (false, s)
    else match checkedMul s.nLayers s.capacity with
    | none => (false, s)
    | some logicalSlots =>
      let r := restoreLoop logicalSlots 0 c
      if r.1 && s.matchesPreOffload (slhaElasticCacheStats r.2) then
        (true, { s.forgetOffload with cache := some r.2 })
      -- Back to a coherent all-COLD state.
      else (false, { s with cache := some (slhaElasticCacheOffloadTo r.2 0).2 })

inductive Op where
  | prepareStore (numLayers : ℤ) (runtimeCapacity : ℕ) (budgetSetting : Setting ℕ)
      (temperatureSetting : Setting F32) (created : Bool)
  | writeTile (layerId : ℤ) (position : ℕ) (tile : Option Tile) (reserve : Bool)
  | scoreTiles (layerId : ℤ) (startPosition count : ℕ) (q : Query) (scoresOut reserve : Bool)
  | resetStore
  | offloadQuiescent
  | restoreQuiescent
  | releaseStore

def step [F64 F] [F32Arith] (tryScore : TryScore) (s : Ccos F) : Op → Ccos F
  | .prepareStore numLayers runtimeCapacity budgetSetting temperatureSetting created =>
      (s.prepareStore numLayers runtimeCapacity budgetSetting temperatureSetting created).2
  | .writeTile layerId position tile reserve => (s.writeTile layerId position tile reserve).2
  | .scoreTiles layerId startPosition count q scoresOut reserve =>
      (scoreTiles tryScore s layerId startPosition count q scoresOut reserve).2
  | .resetStore => s.resetStore
  | .offloadQuiescent => s.offloadQuiescent.2
  | .restoreQuiescent => s.restoreQuiescent.2
  | .releaseStore => s.releaseStore

def run [F64 F] [F32Arith] (tryScore : TryScore) (s : Ccos F) (ops : List Op) : Ccos F :=
  ops.foldl (step tryScore) s

end Ccos

end SlhaV2.ExternalK
