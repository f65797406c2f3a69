import SlhaV2.HardBudget

/-!
# The logical context over the resident cache

One step validates the observation, converts the forecast into bytes, lets a
dry-run controller choose an action and applies it once to the cache. Machine
subtractions and sums that are unchecked in the program panic here when they
would overflow. Failures after validation leave the telemetry half written, as
the program does.
-/
namespace SlhaV2.LogicalContext
open MachineWord FloatingPoint ByteBudget ControlLoop PhysicalCache TileCodec SlotVector

structure KvTopology where
  layers : UInt64
  kvHeads : UInt64
  headDimK : UInt64
  kBytesPerElem : UInt64
  hasV : Bool
  vBytesPerElem : UInt64
deriving DecidableEq

def KvTopology.validate (t : KvTopology) : Except String Unit :=
  if t.layers = 0 then .error "KV topology must contain at least one layer"
  else if t.kvHeads = 0 then .error "KV topology must contain at least one KV head"
  else if t.headDimK = 0 then .error "KV topology head dimension must be non-zero"
  else if t.kBytesPerElem = 0 then .error "KV topology K element width must be non-zero"
  else if t.hasV ∧ t.vBytesPerElem = 0 then
    .error "KV topology V element width must be non-zero when V is present"
  else .ok ()

/-- Checked raw bytes of one logical token. -/
def KvTopology.tryRawBytesPerToken (t : KvTopology) : Except String ℕ :=
  match t.validate with
  | .error e => .error e
  | .ok _ =>
    match (checkedMul t.layers.toNat t.kvHeads.toNat).bind (checkedMul · t.headDimK.toNat) with
    | none => .error "KV vector geometry overflows u64"
    | some vectors =>
      match checkedMul vectors t.kBytesPerElem.toNat with
      | none => .error "KV K bytes per token overflow u64"
      | some k =>
        match (if t.hasV then checkedMul vectors t.vBytesPerElem.toNat else some 0) with
        | none => .error "KV V bytes per token overflow u64"
        | some v =>
          match checkedAdd k v with
          | none => .error "KV total bytes per token overflow u64"
          | some n => .ok n

structure ContextObservation where
  step : UInt64
  logicalTokens : UInt64
  activeTokens : UInt64
  predictedGrowth : UInt64
  topology : KvTopology
  vramAvailable : UInt64
  vramTotal : UInt64
  ramAvailable : UInt64
  ramTotal : UInt64
  modelPositionalLimit : Option UInt64

def ContextObservation.validate (o : ContextObservation) : Except String Unit :=
  match o.topology.validate with
  | .error e => .error e
  | .ok _ =>
    if o.vramTotal ≠ 0 ∧ o.vramAvailable > o.vramTotal then
      .error "VRAM available bytes exceed VRAM total bytes"
    else if o.ramTotal ≠ 0 ∧ o.ramAvailable > o.ramTotal then
      .error "RAM available bytes exceed RAM total bytes"
    else match checkedAdd o.logicalTokens.toNat o.predictedGrowth.toNat with
      | none => .error "logical token forecast overflows u64"
      | some _ => .ok ()

/-- Raw bytes of the present, the forecast and the growth between them. -/
structure RawDemand where
  rawNow : ℕ
  rawForecast : ℕ
  growthBytes : ℕ

def ContextObservation.rawDemand (o : ContextObservation) (logicalForecast : ℕ) :
    Except String RawDemand :=
  match o.topology.tryRawBytesPerToken with
  | .error e => .error e
  | .ok bytesPerToken =>
    match checkedMul o.logicalTokens.toNat bytesPerToken with
    | none => .error "current raw KV byte count overflows u64"
    | some rawNow =>
      match checkedMul logicalForecast bytesPerToken with
      | none => .error "forecast raw KV byte count overflows u64"
      | some rawForecast =>
        match checkedMul o.predictedGrowth.toNat bytesPerToken with
        | none => .error "predicted KV growth byte count overflows u64"
        | some growthBytes => .ok ⟨rawNow, rawForecast, growthBytes⟩

structure ContextResource where
  id : String
deriving DecidableEq, Repr

structure ContextBackend where
  released : ℕ := 0
  restored : ℕ := 0
  vramBudget : ℕ := 0
deriving DecidableEq, Repr

def ContextBackend.demote (b : ContextBackend) (n : ℕ) : Except String ℕ × ContextBackend :=
  (.ok n, { b with released := satAdd b.released n })

def ContextBackend.promote (b : ContextBackend) (n : ℕ) : Except String ℕ × ContextBackend :=
  (.ok n, { b with restored := satAdd b.restored n })

/-- The context decides in dry-run mode, so none of these is ever asked. -/
instance : ElasticBackend ContextBackend String where
  demote := ContextBackend.demote
  promote := ContextBackend.promote
  offload := ContextBackend.demote
  restore := ContextBackend.promote
  prefetch b := (.ok (), b)
  rebalance b := (.ok (), b)
  verify b expectedUsed := (.ok (expectedUsed ≤ b.vramBudget), b)

inductive ElasticValue where
  | fixed (value : ℕ)
  | adaptive (min max : ℕ)
  | auto
  | pinned (value : ℕ)
deriving DecidableEq, Repr

structure AdaptiveValue where
  contract : ElasticValue
  assigned : Option ℕ
deriving DecidableEq, Repr

/-- The effective value; an inverted range has none. -/
def AdaptiveValue.current (v : AdaptiveValue) : Option ℕ :=
  match v.contract with
  | .fixed value | .pinned value => some value
  | .adaptive min max => if min ≤ max then v.assigned.or (some max) else none
  | .auto => v.assigned

structure ContextTelemetry (F : Type) where
  step : ℕ
  logicalTokens : ℕ
  rawKvBytes : ℕ
  rawKvForecast : ℕ
  residentBytes : ℕ
  offloadedBytes : ℕ
  vramTotal : ℕ
  vramAvailable : ℕ
  ramTotal : ℕ
  ramAvailable : ℕ
  vramPressure : F
  compressionRatio : F
  modelPositionalLimit : Option ℕ
  hotTiles : ℕ
  warmTiles : ℕ
  coldTiles : ℕ
  pinnedTiles : ℕ
  demotions : ℕ
  promotions : ℕ
  evictions : ℕ
  hardConstraintViolations : ℕ

structure ElasticContext (F : Type) where
  controller : ElasticController F ContextResource ContextBackend
  cache : ElasticKvCache F
  logicalTokens : ℕ
  vramBudget : AdaptiveValue
  topology : KvTopology
  modelPositionalLimit : Option ℕ
  telemetry : ContextTelemetry F

/-- System pressure rescaled to the budget, rounded up, in 128-bit arithmetic. -/
def scaledSystemPressure (total available budget : ℕ) : Outcome ℕ :=
  if total = 0 ∨ budget = 0 then .ok 0
  else match wordSub total available with
    | .error e => .error e
    | .ok used =>
      let numerator := min (used * budget) (2 ^ 128 - 1)
      let scaled := min (divCeil numerator total) budget
      if scaled ≤ maxWord then .ok scaled else .error .panic

variable {F : Type} [F64 F]

def ContextTelemetry.new : ContextTelemetry F :=
  ⟨0, 0, 0, 0, 0, 0, 0, 0, 0, 0, F64.lit 0, F64.lit 0, none, 0, 0, 0, 0, 0, 0, 0, 0⟩

namespace ElasticContext

/-- The configuration of the context's own controller. -/
def dryRunConfig : ControllerConfig F := { ControllerConfig.standard with dryRun := true }

def new (resourceId : String) (vramBudgetBytes : ℕ) (topology : KvTopology) :
    Outcome (ElasticContext F) :=
  match topology.validate with
  | .error _ => .error .panic
  | .ok _ =>
    let (node, budget) := BudgetTree.new.addRoot 0 vramBudgetBytes vramBudgetBytes 0
    .ok {
      controller := ElasticController.new ⟨resourceId⟩ { vramBudget := vramBudgetBytes }
        dryRunConfig budget (some node)
      cache := ElasticKvCache.new vramBudgetBytes resourceId
      logicalTokens := 0
      vramBudget := ⟨.adaptive (vramBudgetBytes / 4) vramBudgetBytes, none⟩
      topology := topology
      modelPositionalLimit := none
      telemetry := ContextTelemetry.new }

def setPositionalLimit (x : ElasticContext F) (limit : UInt64) : ElasticContext F :=
  { x with modelPositionalLimit := some limit.toNat }

def controllerBudgetBytes (x : ElasticContext F) : ℕ := x.vramBudget.current.getD 0

/-- One more hard-constraint violation in the telemetry. -/
def violated (x : ElasticContext F) : ElasticContext F :=
  { x with telemetry := { x.telemetry with
      hardConstraintViolations := satAdd x.telemetry.hardConstraintViolations 1 } }

def effectiveLimit (x : ElasticContext F) (obs : ContextObservation) : Option ℕ :=
  match x.modelPositionalLimit, obs.modelPositionalLimit.map UInt64.toNat with
  | some a, some b => some (min a b)
  | some a, none => some a
  | none, some b => some b
  | none, none => none

/-- Take over the observed state, before anything is decided. -/
def record (x : ElasticContext F) (obs : ContextObservation) (demand : RawDemand) :
    Outcome (ElasticContext F) :=
  let pressure : Outcome F :=
    if obs.vramTotal = 0 then .ok (F64.lit 0)
    else (wordSub obs.vramTotal.toNat obs.vramAvailable.toNat).map fun used =>
      F64.ofNat used / F64.ofNat obs.vramTotal.toNat
  pressure.map fun p => { x with
    logicalTokens := obs.logicalTokens.toNat
    topology := obs.topology
    telemetry := { x.telemetry with
      step := obs.step.toNat
      logicalTokens := obs.logicalTokens.toNat
      rawKvBytes := demand.rawNow
      rawKvForecast := demand.rawForecast
      vramAvailable := obs.vramAvailable.toNat
      vramTotal := obs.vramTotal.toNat
      ramAvailable := obs.ramAvailable.toNat
      ramTotal := obs.ramTotal.toNat
      vramPressure := p } }

/-- Telemetry of the cache; its byte sum is unchecked. -/
def refreshCacheTelemetry (x : ElasticContext F) : Outcome (ElasticContext F) :=
  (checkedSum (x.cache.slots.reduceOption.map PhysicalSlot.offloadedBytes)).map fun offloaded =>
    let counts := x.cache.counts
    { x with telemetry := { x.telemetry with
      residentBytes := x.cache.residentBytes
      offloadedBytes := offloaded
      hotTiles := counts.1
      warmTiles := counts.2.1
      coldTiles := counts.2.2.1
      pinnedTiles := counts.2.2.2
      evictions := x.cache.evictions
      compressionRatio := if x.telemetry.rawKvBytes = 0 then F64.lit 1
        else F64.ofNat x.cache.residentBytes / F64.ofNat x.telemetry.rawKvBytes } }

/-- Count an action that changed residency. -/
def counted (x : ElasticContext F) (action : ActionRequest) : ElasticContext F :=
  match action with
  | .demote | .offload => { x with telemetry := { x.telemetry with
      demotions := satAdd x.telemetry.demotions 1 } }
  | .promote | .restore => { x with telemetry := { x.telemetry with
      promotions := satAdd x.telemetry.promotions 1 } }
  | _ => x

def releases (action : ActionRequest) : Bool := action = .demote || action = .offload

/-- Release down to the recovery target less the shortfall, and at least one
rung when the pressure asks for a release that would not be one. -/
def releaseTarget (action : ActionRequest) (resident growthShortfall budget : ℕ) : ℕ :=
  let recoveryTarget := satMul budget 3 / 4
  let target := min (resident - growthShortfall) recoveryTarget
  if releases action ∧ resident > 0 ∧ target ≥ resident then resident - 32 else target

/-- Apply the chosen action to the cache and report. -/
def enact (x : ElasticContext F) (action : ActionRequest) (growthShortfall budget : ℕ) :
    Outcome ActionRequest × ElasticContext F :=
  let target := if releases action then
    releaseTarget action x.cache.residentBytes growthShortfall budget else budget
  match x.cache.applyAction action target with
  | (.error e, cache) => (.error e, { x with cache := cache })
  | (.ok changed, cache) =>
    let x := { x with cache := cache }
    if growthShortfall > 0 ∧ releases action ∧ !changed then
      (.error (.err "insufficient demotable residency for predicted VRAM growth"), x.violated)
    else
      let x := if changed then x.counted action else x
      match x.refreshCacheTelemetry with
      | .error e => (.error e, x)
      | .ok x => (.ok action, x)

/-- Decide on the stronger of the local demand and the system pressure. -/
def control (x : ElasticContext F) (obs : ContextObservation) (demand : RawDemand) :
    Outcome ActionRequest × ElasticContext F :=
  let growthShortfall := demand.growthBytes - obs.vramAvailable.toNat
  match x.record obs demand with
  | .error e => (.error e, x)
  | .ok x =>
    let budget := x.controllerBudgetBytes
    match scaledSystemPressure obs.vramTotal.toNat obs.vramAvailable.toNat budget with
    | .error e => (.error e, x)
    | .ok systemPressureUsed =>
      let controlUsed := max (satAdd x.cache.residentBytes growthShortfall) systemPressureUsed
      match x.controller.step (Observation.new obs.step.toNat controlUsed budget
          (F64.ofNat obs.activeTokens.toNat)) with
      | (.error e, controller) => (.error (.err e), { x with controller := controller })
      | (.ok decision, controller) =>
          { x with controller := controller }.enact decision.action growthShortfall budget

/-- Observe, choose one action and apply exactly that action to the cache. -/
def step (x : ElasticContext F) (obs : ContextObservation) :
    Outcome ActionRequest × ElasticContext F :=
  match obs.validate with
  | .error e => (.error (.err e), x.violated)
  | .ok _ =>
    match checkedAdd obs.logicalTokens.toNat obs.predictedGrowth.toNat with
    | none => (.error (.err "logical token forecast overflows u64"), x)
    | some logicalForecast =>
      let limit := x.effectiveLimit obs
      let x := { x with telemetry := { x.telemetry with modelPositionalLimit := limit } }
      if limit.elim false (logicalForecast > ·) then
        (.error (.err "model positional limit would be exceeded (hard constraint)"), x.violated)
      else match obs.rawDemand logicalForecast with
        | .error e => (.error (.err e), x)
        | .ok demand => x.control obs demand

end ElasticContext

end SlhaV2.LogicalContext
