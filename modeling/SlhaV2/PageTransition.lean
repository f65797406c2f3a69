import SlhaV2.ControlPlanes

/-!
# Transactional page transitions over a shared cache

A backend binds one HOT slot to a page identity and later moves it to WARM, or
back, under the cache's mutex. The slot index is recyclable; the generation the
backend remembers is not. Page identifiers, epochs, semantic contracts and
transition plans belong to another library and are parameters here.
-/
namespace SlhaV2.PageTransition
open MachineWord ByteBuffer TileCodec SlotVector FloatingPoint GuardedRun PhysicalCache
open PhysicalCache.ElasticKvCache ResidencyGraph PhysicalSteps SlotOperations CacheOperations
open CacheWrites CacheRuns ControlPlanes
open Relation (ReflTransGen)

/-- Hexadecimal digits, at least four of them. -/
def hex4 (n : ℕ) : String :=
  let digits := Nat.toDigits 16 n
  String.ofList (List.replicate (4 - digits.length) '0' ++ digits)

/-- At most one codec is selected, and the correction flag has its codec. -/
def validateCodec (flags : Flags) : Except String Unit :=
  let message := "unsupported tile codec flag combination 0x" ++ hex4 flags.toNat ++
    " (supported: INT4/NF4/MIXED/TQ3/MIX3)"
  let selected := ([flagMixed, flagTq3, flagMix3, flagNf4].filter (hasFlag flags)).length
  if selected > 1 then .error message
  else if hasFlag flags flagTq3Nocorr && !(hasFlag flags flagTq3 || hasFlag flags flagMix3) then
    .error message
  else .ok ()

def allowedFlags : Flags :=
  flagWarm ||| flagNf4 ||| flagMixed ||| flagTq3 ||| flagTq3Nocorr ||| flagMix3

def codecName (tile : Tile) : Except String String :=
  let flags := readFlags tile
  let unknown := flags &&& ~~~allowedFlags
  if unknown ≠ 0 then
    .error ("SLHAv2 tile carries unsupported flag bits 0x" ++ hex4 unknown.toNat)
  else match validateCodec flags with
    | .error e => .error e
    | .ok _ =>
      let noCorr := hasFlag flags flagTq3Nocorr
      .ok (if hasFlag flags flagMixed then "mixed"
        else if hasFlag flags flagTq3 then if noCorr then "tq3-nocorr" else "tq3"
        else if hasFlag flags flagMix3 then if noCorr then "mix3-nocorr" else "mix3"
        else if hasFlag flags flagNf4 then "nf4"
        else "int4")

inductive KvPrecision where
  | int4
  | custom (name : String)
deriving DecidableEq, Repr

def precisionForCodec (codec : String) : KvPrecision :=
  if codec = "int4" then .int4 else .custom ("slhav2." ++ codec)

/-- Identifiers `I`, epochs `E` and semantic contracts `S`. -/
structure KvPageDescriptor (I E S : Type) where
  page : ℕ
  id : I
  schemaVersion : ℕ
  epoch : E
  precision : KvPrecision
  residency : String
  semantics : S
deriving DecidableEq

/-- What the backend uses of the contract library; `T` are transition plans. -/
class KvContract (I E S T : Type) where
  newId : String → Except String I
  nextEpoch : E → Except String E
  transitionPlan : KvPageDescriptor I E S → KvPageDescriptor I E S → Except String T

inductive VerificationResult where
  | pass
  | fail (detail : String)
deriving DecidableEq, Repr

variable {F I E S T : Type} [DecidableEq I] [DecidableEq E] [DecidableEq S] [DecidableEq T]

structure SlhaKvTransitionBackend (I E S : Type) where
  slot : ℕ
  slotGeneration : ℕ
  source : KvPageDescriptor I E S
  target : KvPageDescriptor I E S
  sourceHotTile : Tile
  codecName : String

section Binding
variable (T) [KvContract I E S T]

def descriptor (generation : ℕ) (codec tier : String) (epoch : E) (precision : KvPrecision)
    (semantics : S) : Except String (KvPageDescriptor I E S) :=
  match KvContract.newId (I := I) E S T ("slhav2." ++ codec ++ "." ++ tier) with
  | .error e => .error e
  | .ok id => .ok ⟨generation, id, 1, epoch, precision, "slhav2-host-cache", semantics⟩

/-- What a binding reads of its slot, under the lock. -/
def readHotSlot (cache : ElasticKvCache F) (slot : ℕ) : Outcome (ℕ × Tile × String) :=
  if cache.tier slot ≠ some .hot then
    .error (.err "ElasticXxx SLHA binding requires a HOT source slot")
  else match cache.slotGeneration slot with
  | none => .error (.err "SLHAv2 source slot is absent")
  | some generation =>
    match cache.restorableHotTile slot with
    | none => .error (.err "SLHAv2 HOT source tile is not reconstructable")
    | some tile =>
      match codecName tile with
      | .error e => .error (.err e)
      | .ok codec => .ok (generation, tile, codec)

/-- Bind one HOT slot; its generation is the page identity. -/
def bindHotSlot (h : SlhaKvCacheHandle F) (slot : ℕ) (sourceEpoch : E) (semantics : S) :
    Outcome (SlhaKvTransitionBackend I E S) :=
  match h.lock with
  | .error e => .error e
  | .ok cache =>
    match readHotSlot cache slot with
    | .error e => .error e
    | .ok (generation, tile, codec) =>
      match KvContract.nextEpoch I S T sourceEpoch with
      | .error e => .error (.err e)
      | .ok targetEpoch =>
        match descriptor T generation codec "hot" sourceEpoch (precisionForCodec codec)
            semantics with
        | .error e => .error (.err e)
        | .ok source =>
          match descriptor T generation codec "warm" targetEpoch source.precision
              semantics with
          | .error e => .error (.err e)
          | .ok target => .ok ⟨slot, generation, source, target, tile, codec⟩

end Binding

namespace SlhaKvTransitionBackend

/-- The descriptor of what the slot holds now, if that is still the bound page. -/
def currentDescriptorLocked (b : SlhaKvTransitionBackend I E S) (cache : ElasticKvCache F) :
    Outcome (KvPageDescriptor I E S) :=
  match cache.slotGeneration b.slot with
  | none => .error (.err "SLHAv2 KV slot disappeared")
  | some generation =>
    if generation ≠ b.slotGeneration then
      .error (.err "SLHAv2 KV slot was recycled for another logical page")
    else match cache.restorableHotTile b.slot with
    | none => .error (.err "SLHAv2 KV slot is not losslessly reconstructable")
    | some restorable =>
      if restorable ≠ b.sourceHotTile then
        .error (.err "SLHAv2 KV slot contents drifted from the bound source page")
      else match PageTransition.codecName restorable with
      | .error e => .error (.err e)
      | .ok codec =>
        if codec ≠ b.codecName then
          .error (.err "SLHAv2 KV codec drifted from the bound representation")
        else match cache.tier b.slot with
        | some .hot => .ok b.source
        | some .warm =>
          if cache.slotBackingBytes b.slot ≠ some (residualWords * 8) then
            .error (.err "SLHAv2 WARM slot lacks exact residual backing")
          else .ok b.target
        | some .cold =>
          .error (.err "SLHAv2 KV slot is COLD, outside the bound HOT/WARM contract")
        | some .pinned =>
          .error (.err "SLHAv2 KV slot became PINNED, outside the bound transition")
        | none => .error (.err "SLHAv2 KV slot is absent")

def physicalMatches (b : SlhaKvTransitionBackend I E S) (h : SlhaKvCacheHandle F)
    (expected : KvPageDescriptor I E S) : Outcome Bool :=
  match h.lock with
  | .error e => .error e
  | .ok cache => (b.currentDescriptorLocked cache).map (fun d => decide (d = expected))

/-- The request names the bound source, the bound target and the plan between them. -/
def sameTransition [KvContract I E S T] (b : SlhaKvTransitionBackend I E S)
    (source target : KvPageDescriptor I E S) (transition : T) (text : String) : Outcome Unit :=
  if source ≠ b.source ∨ target ≠ b.target then .error (.err text)
  else match KvContract.transitionPlan (T := T) b.source b.target with
    | .error e => .error (.err e)
    | .ok plan => if transition ≠ plan then .error (.err text) else .ok ()

def prepareTransition [KvContract I E S T] (b : SlhaKvTransitionBackend I E S)
    (h : SlhaKvCacheHandle F) (source target : KvPageDescriptor I E S) (transition : T) :
    Outcome Unit :=
  match b.sameTransition source target transition
      "SLHAv2 prepare received a foreign KV transition" with
  | .error e => .error e
  | .ok _ =>
    match b.physicalMatches h source with
    | .error e => .error e
    | .ok true => .ok ()
    | .ok false => .error (.err "SLHAv2 source state drifted before prepare")

/-- The message of an error, for texts that quote it. -/
def faultText : Fault → String
  | .err m => m
  | .panic => ""

/-- What follows a mutation whose result is not the target: undo it and report. -/
def undo (b : SlhaKvTransitionBackend I E S) (cache : ElasticKvCache F)
    (result : Outcome (KvPageDescriptor I E S)) : Outcome Unit × ElasticKvCache F :=
  let verifyError := match result with
    | .ok _ => "SLHAv2 HOT->WARM mutation produced the wrong target"
    | .error e => faultText e
  match cache.promoteSlot b.slot with
  | (.error e, cache) =>
      (.error (.err (verifyError ++ "; immediate physical rollback also failed: " ++ faultText e)),
        cache)
  | (.ok _, cache) => (.error (.err verifyError), cache)

/-- Compare, demote and check the result, under one lock. -/
def applyLocked (b : SlhaKvTransitionBackend I E S) (cache : ElasticKvCache F)
    (source target : KvPageDescriptor I E S) : Outcome Unit × ElasticKvCache F :=
  match b.currentDescriptorLocked cache with
  | .error e => (.error e, cache)
  | .ok current =>
    if current ≠ source then
      (.error (.err "SLHAv2 source changed at the atomic mutation boundary"), cache)
    else match cache.demoteSlot b.slot with
    | (.error e, cache) =>
        (.error (.err ("SLHAv2 HOT->WARM mutation failed: " ++ faultText e)), cache)
    | (.ok _, cache) =>
      match b.currentDescriptorLocked cache with
      | .ok current => if current = target then (.ok (), cache) else b.undo cache (.ok current)
      | .error e => b.undo cache (.error e)

def applyTransitionIfSource [KvContract I E S T] (b : SlhaKvTransitionBackend I E S)
    (h : SlhaKvCacheHandle F) (source target : KvPageDescriptor I E S) (transition : T) :
    Outcome Unit × SlhaKvCacheHandle F :=
  match b.sameTransition source target transition
      "SLHAv2 apply received a foreign KV transition" with
  | .error e => (.error e, h)
  | .ok _ =>
    match h.lock with
    | .error e => (.error e, h)
    | .ok cache =>
      let r := b.applyLocked cache source target
      (r.1, { h with cache := r.2 })

def verifyTransition [KvContract I E S T] (b : SlhaKvTransitionBackend I E S)
    (h : SlhaKvCacheHandle F) (target : KvPageDescriptor I E S) (transition : T) :
    Outcome VerificationResult :=
  let differs : VerificationResult :=
    .fail "SLHAv2 verification target differs from the bound transition"
  if target ≠ b.target then .ok differs
  else match KvContract.transitionPlan (T := T) b.source b.target with
  | .error e => .error (.err e)
  | .ok plan =>
    if transition ≠ plan then .ok differs
    else match b.physicalMatches h target with
    | .error e => .error e
    | .ok true => .ok .pass
    | .ok false =>
        .ok (.fail "SLHAv2 physical WARM representation failed exact content verification")

/-- Promote back when the slot is in the target state, under one lock. -/
def restoreLocked (b : SlhaKvTransitionBackend I E S) (cache : ElasticKvCache F)
    (source : KvPageDescriptor I E S) : Outcome Unit × ElasticKvCache F :=
  match b.currentDescriptorLocked cache with
  | .error e => (.error e, cache)
  | .ok current =>
    if current = source then (.ok (), cache)
    else if current ≠ b.target then
      (.error (.err "SLHAv2 rollback encountered an unrecognized physical state"), cache)
    else match cache.promoteSlot b.slot with
    | (.error e, cache) =>
        (.error (.err ("SLHAv2 WARM->HOT rollback failed: " ++ faultText e)), cache)
    | (.ok _, cache) =>
      match b.currentDescriptorLocked cache with
      | .error e => (.error e, cache)
      | .ok current =>
        if current ≠ source then
          (.error (.err "SLHAv2 rollback did not restore the exact source page"), cache)
        else (.ok (), cache)

def restorePage (b : SlhaKvTransitionBackend I E S) (h : SlhaKvCacheHandle F)
    (source : KvPageDescriptor I E S) : Outcome Unit × SlhaKvCacheHandle F :=
  if source ≠ b.source then
    (.error (.err "SLHAv2 rollback requested a foreign source page"), h)
  else match h.lock with
    | .error e => (.error e, h)
    | .ok cache =>
      let r := b.restoreLocked cache source
      (r.1, { h with cache := r.2 })

end SlhaKvTransitionBackend

end SlhaV2.PageTransition
