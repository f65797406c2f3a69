import SlhaV2.PhysicalCache
import SlhaV2.SlhaTile

/-!
# The C interface of the elastic cache

Calls return a status word; a panic is caught at the boundary and has a word
of its own. The handle is one the caller owns, so the calls take the cache
itself. Pointers are null or have as many elements behind them as a call
reads. Scoring one serialized tile is a parameter.
-/
namespace SlhaV2.ElasticFfi
open MachineWord ByteBuffer TileCodec SlotVector FloatingPoint PhysicalCache SlhaTile

def slhaOk : ℤ := 0
def slhaErrNull : ℤ := -1
def slhaErrPanic : ℤ := -2
def slhaErrDimension : ℤ := -3
def slhaErrNonfinite : ℤ := -5
def slhaErrInvalidTile : ℤ := -6
def slhaErrInvalidHandle : ℤ := -7
def slhaErrNotResident : ℤ := -10

def tierHot : ℤ := 0
def tierWarm : ℤ := 1
def tierCold : ℤ := 2
def tierPinned : ℤ := 3
def tierAbsent : ℤ := -1

def maxTiles : ℕ := 2 ^ 20

def codecFlags : Flags := flagNf4 ||| flagMixed ||| flagTq3 ||| flagMix3
def knownTileFlags : Flags :=
  flagWarm ||| flagNf4 ||| flagMixed ||| flagTq3 ||| flagTq3Nocorr ||| flagMix3

/-- `count_ones`. -/
def countOnes (x : Flags) : ℕ := ((List.range 16).filter fun i => x.getLsbD i).length

/-- `x < 0.0` for a finite pattern: the sign is set and the magnitude is not zero. -/
def isNegative (x : F32) : Bool := 2 ^ 31 < x.bits.toNat

def validateTile (tile : SciRustSlhaTile) : Except ℤ Unit :=
  if tile.flags &&& ~~~knownTileFlags ≠ 0 then .error slhaErrInvalidTile
  else if countOnes (tile.flags &&& codecFlags) > 1 then .error slhaErrInvalidTile
  else if tile.flags &&& flagTq3Nocorr ≠ 0 ∧ tile.flags &&& (flagTq3 ||| flagMix3) = 0 then
    .error slhaErrInvalidTile
  else if !tile.scale.isFinite || !tile.dynamicLambda.isFinite || !tile.residualSigma.isFinite then
    .error slhaErrNonfinite
  else if isNegative tile.scale || isNegative tile.dynamicLambda ||
      isNegative tile.residualSigma then
    .error slhaErrInvalidTile
  else .ok ()

theorem validateTile_error {tile : SciRustSlhaTile} {code : ℤ}
    (h : validateTile tile = .error code) : code ≠ slhaOk := by
  unfold validateTile at h
  split_ifs at h <;> cases h <;> decide

/-- The word of a step that reports errors under `code`. -/
def statusOf {α : Type} (code : ℤ) : Outcome α → ℤ
  | .ok _ => slhaOk
  | .error .panic => slhaErrPanic
  | .error (.err _) => code

structure SlhaElasticKvCacheStats where
  residentBytes : ℕ
  offloadedBytes : ℕ
  hardBudgetBytes : ℕ
  hotSlots : ℕ
  warmSlots : ℕ
  coldSlots : ℕ
  pinnedSlots : ℕ
  evictions : ℕ
deriving DecidableEq

/-- A query behind its two pointers. -/
structure Query where
  coarse : Option (ℕ → F32)
  sign : Option (ℕ → UInt64)

/-- The score of one serialized tile, when it has one. -/
abbrev TryScore := Tile → List F32 → List UInt64 → Option F32

variable {F : Type}

def slhaElasticCacheStats (c : ElasticKvCache F) : SlhaElasticKvCacheStats where
  residentBytes := c.residentBytes
  offloadedBytes := c.offloadedBytes
  hardBudgetBytes := c.configBudgetBytes
  hotSlots := c.counts.1
  warmSlots := c.counts.2.1
  coldSlots := c.counts.2.2.1
  pinnedSlots := c.counts.2.2.2
  evictions := c.evictions

def slhaElasticCacheTier (c : ElasticKvCache F) (slot : ℕ) : ℤ :=
  match c.tier slot with
  | some .hot => tierHot
  | some .warm => tierWarm
  | some .cold => tierCold
  | some .pinned => tierPinned
  | none => tierAbsent

def slhaElasticCacheWriteDenseBudget (c : ElasticKvCache F) (slot : ℕ) (tile : Option Tile)
    (targetResidentBytes : ℕ) (reserve : Bool) : ℤ × ElasticKvCache F :=
  match tile with
  | none => (slhaErrNull, c)
  | some tile =>
    match validateTile (tileFromBytes tile) with
    | .error code => (code, c)
    | .ok _ =>
      let r := c.writeAtDenseBudget slot tile targetResidentBytes reserve
      (statusOf slhaErrDimension r.1, r.2)

def slhaElasticCacheOffloadTo (c : ElasticKvCache F) (targetResidentBytes : ℕ) :
    ℤ × ElasticKvCache F :=
  let r := c.offloadTo targetResidentBytes
  (statusOf slhaErrDimension r.1, r.2)

def slhaElasticCacheRestoreSlot (c : ElasticKvCache F) (slot : ℕ) : ℤ × ElasticKvCache F :=
  let r := c.restoreSlot slot
  (statusOf slhaErrNotResident r.1, r.2)

/-- The score of a resident slot. -/
def score (tryScore : TryScore) (c : ElasticKvCache F) (slot : ℕ) (qCoarse : List F32)
    (qSign : List UInt64) : Option F32 :=
  match slotAt c.slots slot with
  | none => none
  | some state =>
    match state.tier with
    | .hot | .pinned => (tryInto tileBytes state.bytes).bind fun full => tryScore full qCoarse qSign
    | .warm =>
        (tryInto warmPackedBytes state.bytes).bind fun packed =>
          tryScore (unpackWarm packed) qCoarse qSign
    | .cold => none

def readQuery (q : Query) : Except ℤ (List F32 × List UInt64) :=
  match q.coarse, q.sign with
  | some coarse, some sign =>
      let coarse := (List.range dC).map coarse
      if coarse.all F32.isFinite then .ok (coarse, (List.range residualWords).map sign)
      else .error slhaErrNonfinite
  | _, _ => .error slhaErrNull

def stridedSlot (startSlot stride offset : ℕ) : Except ℤ ℕ :=
  match (checkedMul stride offset).bind (checkedAdd startSlot) with
  | some slot => .ok slot
  | none => .error slhaErrDimension

/-- The scores of `count` slots from the offset `i` on. -/
def scoreLoop (tryScore : TryScore) (c : ElasticKvCache F) (startSlot stride : ℕ)
    (q : List F32 × List UInt64) : ℕ → ℕ → Except ℤ (List F32)
  | 0, _ => .ok []
  | count + 1, i => do
      let slot ← stridedSlot startSlot stride i
      match score tryScore c slot q.1 q.2 with
      | none => .error slhaErrNotResident
      | some value => do
          let values ← scoreLoop tryScore c startSlot stride q count (i + 1)
          pure (value :: values)

/-- The scores written behind `scores_out`, which is null or has room for them. -/
def slhaElasticCacheScoreStrided (tryScore : TryScore) (c : ElasticKvCache F)
    (startSlot stride count : ℕ) (q : Query) (scoresOut reserve : Bool) : Except ℤ (List F32) :=
  if count > maxTiles then .error slhaErrDimension
  else if count = 0 then .ok []
  else if count > 1 ∧ stride = 0 then .error slhaErrDimension
  else if !scoresOut then .error slhaErrNull
  else do
    let q ← readQuery q
    if !reserve then .error slhaErrPanic
    else scoreLoop tryScore c startSlot stride q count 0

/-- The slots of the scores, from the offset `i` on. -/
def observations (startSlot stride : ℕ) : ℕ → List F32 → Except ℤ (List (ℕ × F32))
  | _, [] => .ok []
  | i, value :: rest => do
      let slot ← stridedSlot startSlot stride i
      let later ← observations startSlot stride (i + 1) rest
      pure ((slot, value) :: later)

/-- Account the scores as importance. Both buffers are allocated, or neither is needed. -/
def slhaElasticCacheObserveScoresStrided [F32Arith] (c : ElasticKvCache F)
    (startSlot stride : ℕ) (scores : List F32) (temperature : F32) (reserve : Bool) :
    ℤ × ElasticKvCache F :=
  if !temperature.isFinite || F32Arith.le temperature F32.zero then (slhaErrDimension, c)
  else if scores.length > maxTiles then (slhaErrDimension, c)
  else if scores.length = 0 then (slhaOk, c)
  else if scores.length > 1 ∧ stride = 0 then (slhaErrDimension, c)
  else if !reserve then (slhaErrPanic, c)
  else if !scores.all F32.isFinite then (slhaErrNonfinite, c)
  else match observations startSlot stride 0 scores with
    | .error code => (code, c)
    | .ok seen => (slhaOk, c.observeScores seen temperature)

end SlhaV2.ElasticFfi
