import Mathlib.Data.List.Sort
import SlhaV2.TileCodec
import SlhaV2.SlotVector
import SlhaV2.ControlLoop

/-!
# The physically resident elastic cache

Every slot owns its resident bytes and its reversible backing; the cache keeps
one running count of the resident bytes. Operations are written as state
passing: a result and the cache after the call. Multi-slot operations restore a
snapshot when they fail. Loops carry fuel; the resident count bounds it, since
every iteration that goes on has lowered that count.
-/
namespace SlhaV2.PhysicalCache
open MachineWord ByteBuffer TileCodec SlotVector FloatingPoint PressureSignal ByteBudget ControlLoop

inductive PhysicalTier where
  | hot | warm | cold | pinned
deriving DecidableEq, Repr

structure PhysicalSlot where
  bytes : List UInt8
  offloaded : Option (List UInt8)
  warmResidual : Option Residual
  tier : PhysicalTier
  seq : ℕ
  importance : F32
deriving DecidableEq

/-- Bytes charged to the resident budget. -/
def PhysicalSlot.allocatedBytes (s : PhysicalSlot) : ℕ := s.bytes.length

/-- Bytes retained outside the resident budget. -/
def PhysicalSlot.offloadedBytes (s : PhysicalSlot) : ℕ :=
  s.offloaded.elim 0 List.length + s.warmResidual.elim 0 (fun _ => residualBytes)

/-- The slot `restore_slot` leaves behind: the image moves back, and its length
tells which tier it had. A bad length is reported after the image has moved. -/
def PhysicalSlot.restore (state : PhysicalSlot) (image : List UInt8) :
    Outcome Unit × PhysicalSlot :=
  let state := { state with bytes := image, offloaded := none }
  if image.length = tileBytes then (.ok (), { state with tier := .hot })
  else if image.length = warmPackedBytes then (.ok (), { state with tier := .warm })
  else (.error (.err "cold backing has invalid representation length"), state)

/-- HOT and PINNED return their bytes, WARM reinserts the plane and clears the
flag. A COLD image does not say by itself which tier it had. -/
def PhysicalSlot.restorableHotTile (state : PhysicalSlot) : Option Tile :=
  match state.tier with
  | .hot | .pinned => tryInto tileBytes state.bytes
  | .warm =>
      match tryInto warmPackedBytes state.bytes, state.warmResidual with
      | some packed, some residual => some (unpackWithResidual packed residual)
      | _, _ => none
  | .cold => none

structure KvCacheResource where
  id : String
deriving DecidableEq, Repr

structure KvCacheBackend where
  released : ℕ := 0
  restored : ℕ := 0
  hardBudget : ℕ := 0
deriving DecidableEq, Repr

def KvCacheBackend.demote (b : KvCacheBackend) (n : ℕ) : Except String ℕ × KvCacheBackend :=
  (.ok n, { b with released := satAdd b.released n })

def KvCacheBackend.promote (b : KvCacheBackend) (n : ℕ) : Except String ℕ × KvCacheBackend :=
  (.ok n, { b with restored := satAdd b.restored n })

instance : ElasticBackend KvCacheBackend String where
  demote := KvCacheBackend.demote
  promote := KvCacheBackend.promote
  offload := KvCacheBackend.demote
  restore := KvCacheBackend.promote
  prefetch b := (.ok (), b)
  rebalance b := (.ok (), b)
  verify b expectedUsed := (.ok (expectedUsed ≤ b.hardBudget), b)

structure ElasticKvCache (F : Type) where
  slots : List (Option PhysicalSlot)
  residentBytes : ℕ
  nextSeq : ℕ
  controller : ElasticController F KvCacheResource KvCacheBackend
  config : ControllerConfig F
  budget : BudgetTree
  budgetNode : Option ℕ
  evictions : ℕ
  lastReason : Option Reason

namespace ElasticKvCache
variable {F : Type}

def new [F64 F] (hardBudgetBytes : ℕ) (resourceId : String) : ElasticKvCache F :=
  let (node, budget) := BudgetTree.new.addRoot 0 hardBudgetBytes hardBudgetBytes 0
  let config : ControllerConfig F := ControllerConfig.standard
  { slots := []
    residentBytes := 0
    nextSeq := 0
    controller := ElasticController.new ⟨resourceId⟩ { hardBudget := hardBudgetBytes } config
      budget (some node)
    config := config
    budget := budget
    budgetNode := some node
    evictions := 0
    lastReason := none }

/-- The hard limit of the budget node; `new` always sets the node. -/
def configBudgetBytes (c : ElasticKvCache F) : ℕ :=
  match c.budgetNode.bind (fun i => (c.budget.node i).toOption) with
  | some n => n.hardLimit
  | none => 0

/-- `(hot, warm, cold, pinned)` counts. -/
def counts (c : ElasticKvCache F) : ℕ × ℕ × ℕ × ℕ :=
  let count (t : PhysicalTier) := total (fun s => if s.tier = t then 1 else 0) c.slots
  (count .hot, count .warm, count .cold, count .pinned)

def offloadedBytes (c : ElasticKvCache F) : ℕ := total PhysicalSlot.offloadedBytes c.slots

def freeBytes (c : ElasticKvCache F) : ℕ := c.configBudgetBytes - c.residentBytes

def verifySlot (s : PhysicalSlot) : Bool :=
  match s.tier with
  | .hot | .pinned => s.bytes.length == tileBytes && s.offloaded.isNone
  | .warm => s.bytes.length == warmPackedBytes && s.warmResidual.isSome && s.offloaded.isNone
  | .cold => s.bytes.isEmpty && s.offloaded.isSome

def verifyAccounting (c : ElasticKvCache F) : Outcome Unit :=
  match checkedSum (c.slots.reduceOption.map PhysicalSlot.allocatedBytes) with
  | .error e => .error e
  | .ok actual =>
      if actual ≠ c.residentBytes then .error (.err "resident byte accounting mismatch")
      else if c.slots.reduceOption.all verifySlot then .ok ()
      else .error (.err "slot residency invariant violated")

/-- Insert a full tile as HOT and return its stable slot id. -/
def insert (c : ElasticKvCache F) (tile : Tile) : ℕ × ElasticKvCache F :=
  let tile := setWarmFlag tile false
  let slot := c.slots.length
  (slot, { c with
    slots := c.slots ++ [some {
      bytes := tile.1
      offloaded := none
      warmResidual := none
      tier := .hot
      seq := c.nextSeq
      importance := F32.zero }]
    nextSeq := satAdd c.nextSeq 1
    residentBytes := satAdd c.residentBytes tileBytes })

/-- Grow the slot vector with holes, when the allocator grants the space. -/
def resize (c : ElasticKvCache F) (requiredLen : ℕ) (reserve : Bool) :
    Outcome (ElasticKvCache F) :=
  if c.slots.length < requiredLen then
    if reserve then
      .ok { c with slots := c.slots ++ List.replicate (requiredLen - c.slots.length) none }
    else .error (.err "slot allocation failed")
  else .ok c

/-- Write a full tile at an exact slot. `reserve` is the allocator's answer. -/
def writeAt (c : ElasticKvCache F) (slot : ℕ) (tile : Tile) (reserve : Bool) :
    Outcome Unit × ElasticKvCache F :=
  let tile := setWarmFlag tile false
  match checkedAdd slot 1 with
  | none => (.error (.err "slot index overflow"), c)
  | some requiredLen =>
    match c.resize requiredLen reserve with
    | .error e => (.error e, c)
    | .ok c =>
      let oldResident := (slotAt c.slots slot).elim 0 PhysicalSlot.allocatedBytes
      let pinned := (slotAt c.slots slot).elim false (fun s => s.tier = .pinned)
      match (checkedSub c.residentBytes oldResident).bind (checkedAdd · tileBytes) with
      | none => (.error (.err "resident byte accounting overflow"), c)
      | some nextResident =>
        let c := { c with
          slots := c.slots.set slot (some {
            bytes := tile.1
            offloaded := none
            warmResidual := none
            tier := if pinned then .pinned else .hot
            seq := c.nextSeq
            importance := F32.zero })
          nextSeq := satAdd c.nextSeq 1
          residentBytes := nextResident }
        (c.verifyAccounting, c)

/-- Demote HOT to WARM and retain the removed plane in backing storage. -/
def demoteSlot (c : ElasticKvCache F) (slot : ℕ) : Outcome Unit × ElasticKvCache F :=
  match slotAt c.slots slot with
  | none => (.error (.err "slot absent"), c)
  | some state =>
    match state.tier with
    | .hot =>
      match tryInto tileBytes state.bytes with
      | none => (.error (.err "hot slot does not hold exactly 128 bytes"), c)
      | some full =>
        let residual := residualPlane full
        let full := setWarmFlag full true
        let state := { state with
          bytes := (packWarm full).1
          warmResidual := some residual
          offloaded := none
          tier := .warm }
        (.ok (), { c with
          slots := c.slots.set slot (some state)
          residentBytes := c.residentBytes - (tileBytes - warmPackedBytes) })
    | .warm => (.ok (), c)
    | .cold => (.error (.err "slot is cold"), c)
    | .pinned => (.error (.err "slot is pinned"), c)

/-- Promote WARM to HOT and restore the exact residual plane. -/
def promoteSlot (c : ElasticKvCache F) (slot : ℕ) : Outcome Unit × ElasticKvCache F :=
  match slotAt c.slots slot with
  | none => (.error (.err "slot absent"), c)
  | some state =>
    match state.tier with
    | .hot => (.ok (), c)
    | .pinned => (.error (.err "slot is pinned"), c)
    | .cold => (.error (.err "slot is cold; call restore_slot first"), c)
    | .warm =>
      let growth := tileBytes - warmPackedBytes
      if satAdd c.residentBytes growth > c.configBudgetBytes then
        (.error (.err "promotion would exceed resident hard budget"), c)
      else match tryInto warmPackedBytes state.bytes with
      | none => (.error (.err "warm slot does not hold exactly 96 bytes"), c)
      | some packed =>
        match state.warmResidual with
        | none => (.error (.err "warm slot has no residual backing"), c)
        | some residual =>
          let state := { state with
            bytes := (unpackWithResidual packed residual).1
            warmResidual := none
            tier := .hot }
          (.ok (), { c with
            slots := c.slots.set slot (some state)
            residentBytes := satAdd c.residentBytes growth })

/-- Move HOT or WARM to COLD while retaining a restorable image. -/
def evictSlot (c : ElasticKvCache F) (slot : ℕ) : Outcome Unit × ElasticKvCache F :=
  match slotAt c.slots slot with
  | none => (.error (.err "slot absent"), c)
  | some state =>
    if state.tier = .pinned then (.error (.err "slot is pinned"), c)
    else if state.tier = .cold then (.ok (), c)
    else
      let released := state.bytes.length
      if released ≠ tileBytes ∧ released ≠ warmPackedBytes then
        (.error (.err "resident slot has invalid representation length"), c)
      else
        let state := { state with bytes := [], offloaded := some state.bytes, tier := .cold }
        (.ok (), { c with
          slots := c.slots.set slot (some state)
          residentBytes := c.residentBytes - released
          evictions := satAdd c.evictions 1 })

/-- Restore a COLD slot to its prior HOT or WARM representation. -/
def restoreSlot (c : ElasticKvCache F) (slot : ℕ) : Outcome Unit × ElasticKvCache F :=
  match slotAt c.slots slot with
  | none => (.error (.err "slot absent"), c)
  | some state =>
    if state.tier ≠ .cold then (.ok (), c)
    else match state.offloaded with
    | none => (.error (.err "cold slot has no backing"), c)
    | some image =>
      if satAdd c.residentBytes image.length > c.configBudgetBytes then
        (.error (.err "restore would exceed resident hard budget"), c)
      else
        let r := state.restore image
        let c := { c with slots := c.slots.set slot (some r.2) }
        match r.1 with
        | .error e => (.error e, c)
        | .ok _ => (.ok (), { c with residentBytes := satAdd c.residentBytes image.length })

/-- Remove one slot and all bytes it owns; false when it was already absent. -/
def clearSlot (c : ElasticKvCache F) (slot : ℕ) : Bool × ElasticKvCache F :=
  match slotAt c.slots slot with
  | none => (false, c)
  | some state => (true, { c with
      slots := c.slots.set slot none
      residentBytes := c.residentBytes - state.allocatedBytes })

/-- Remove every slot. Sequence numbering goes on. -/
def clear (c : ElasticKvCache F) : ElasticKvCache F :=
  { c with slots := [], residentBytes := 0, lastReason := none }

def tier (c : ElasticKvCache F) (slot : ℕ) : Option PhysicalTier :=
  (slotAt c.slots slot).map PhysicalSlot.tier

def slotGeneration (c : ElasticKvCache F) (slot : ℕ) : Option ℕ :=
  (slotAt c.slots slot).map PhysicalSlot.seq

def slotBackingBytes (c : ElasticKvCache F) (slot : ℕ) : Option ℕ :=
  (slotAt c.slots slot).map PhysicalSlot.offloadedBytes

/-- The exact full tile, when the resident tier still determines it. -/
def restorableHotTile (c : ElasticKvCache F) (slot : ℕ) : Option Tile :=
  match slotAt c.slots slot with
  | none => none
  | some state => state.restorableHotTile

/-- Protect a resident slot. WARM is promoted first; COLD is refused. -/
def pin (c : ElasticKvCache F) (slot : ℕ) : Bool × ElasticKvCache F :=
  match c.tier slot with
  | none => (false, c)
  | some .cold => (false, c)
  | some t =>
    let r := if t = .warm then c.promoteSlot slot else (.ok (), c)
    match r.1 with
    | .error _ => (false, r.2)
    | .ok _ =>
      match slotAt r.2.slots slot with
      | none => (false, r.2)
      | some state =>
          (true, { r.2 with slots := r.2.slots.set slot (some { state with tier := .pinned }) })

/-- Importance first, age second. Candidates are present slots. -/
def cmpLowFirst (c : ElasticKvCache F) (a b : ℕ) : Ordering :=
  match slotAt c.slots a, slotAt c.slots b with
  | some x, some y => (x.importance.totalCmp y.importance).then (compare x.seq y.seq)
  | _, _ => .eq

def cmpHighFirst (c : ElasticKvCache F) (a b : ℕ) : Ordering := c.cmpLowFirst b a

def slotsWhere (c : ElasticKvCache F) (p : PhysicalTier → Bool) : List ℕ :=
  (List.range c.slots.length).filter fun i =>
    (slotAt c.slots i).elim false (fun s => p s.tier)

def candidates (c : ElasticKvCache F) (t : PhysicalTier) : List ℕ := c.slotsWhere (· = t)

def sortLowFirst (c : ElasticKvCache F) (xs : List ℕ) : List ℕ :=
  xs.mergeSort (fun a b => (c.cmpLowFirst a b).isLE)

def sortHighFirst (c : ElasticKvCache F) (xs : List ℕ) : List ℕ :=
  xs.mergeSort (fun a b => (c.cmpHighFirst a b).isLE)

/-- Apply a slot operation down a list, counting the calls that succeed. -/
def applyEach (op : ElasticKvCache F → ℕ → Outcome Unit × ElasticKvCache F) :
    List ℕ → ElasticKvCache F → ℕ × ElasticKvCache F
  | [], c => (0, c)
  | slot :: rest, c =>
      let r := op c slot
      let (done, c) := applyEach op rest r.2
      (if Succeeded r.1 then done + 1 else done, c)

/-- The same, stopping after `n` successes. -/
def applyUntil (op : ElasticKvCache F → ℕ → Outcome Unit × ElasticKvCache F) :
    ℕ → List ℕ → ElasticKvCache F → ElasticKvCache F
  | 0, _, c => c
  | _, [], c => c
  | n + 1, slot :: rest, c =>
      let r := op c slot
      applyUntil op (if Succeeded r.1 then n else n + 1) rest r.2

def demoteLowestImportance (c : ElasticKvCache F) (n : ℕ) : ℕ × ElasticKvCache F :=
  applyEach demoteSlot ((c.sortLowFirst (c.candidates .hot)).take n) c

def evictLowestImportance (c : ElasticKvCache F) (n : ℕ) : ℕ × ElasticKvCache F :=
  applyEach evictSlot
    ((c.sortLowFirst (c.slotsWhere (fun t => t = .hot || t = .warm))).take n) c

def promoteHighestImportance (c : ElasticKvCache F) (n : ℕ) : ElasticKvCache F :=
  applyUntil promoteSlot n (c.sortHighFirst (c.candidates .warm)) c

def restoreHighestImportance (c : ElasticKvCache F) (n : ℕ) : ElasticKvCache F :=
  applyUntil restoreSlot n (c.sortHighFirst (c.candidates .cold)) c

/-- Demote until the new value fits, never evicting. -/
def denseLoop (minimumNewResident target : ℕ) :
    ℕ → ElasticKvCache F → Outcome Unit × ElasticKvCache F
  | 0, c => (.error .panic, c)
  | fuel + 1, c =>
    match checkedAdd c.residentBytes minimumNewResident with
    | none => (.error (.err "resident byte accounting overflow"), c)
    | some needed =>
      if needed > target then
        let prior := c.residentBytes
        let (done, c) := c.demoteLowestImportance 1
        if done = 0 ∨ c.residentBytes = prior then
          (.error (.err "dense write target cannot be satisfied without COLD residency"), c)
        else denseLoop minimumNewResident target fuel c
      else (.ok (), c)

/-- The stored form of a dense write for the tier it was admitted at. -/
def denseForm (tile : Tile) : PhysicalTier → List UInt8 × Option Residual
  | .warm => ((packWarm (setWarmFlag tile true)).1, some (residualPlane tile))
  | _ => (tile.1, none)

/-- HOT when the full tile fits the target, WARM otherwise; a pin is kept. -/
def denseTier (c : ElasticKvCache F) (pinned : Bool) (target : ℕ) : PhysicalTier :=
  let hotFits := (checkedAdd c.residentBytes tileBytes).elim false (· ≤ target)
  if pinned then .pinned else if hotFits then .hot else .warm

/-- Store the tile at a vacated position, once the loop has made room. -/
def admitDense (c : ElasticKvCache F) (slot : ℕ) (tile : Tile) (pinned : Bool) (target : ℕ) :
    Outcome PhysicalTier × ElasticKvCache F :=
  let tier := c.denseTier pinned target
  let form := denseForm (setWarmFlag tile false) tier
  match checkedAdd c.residentBytes form.1.length with
  | none => (.error (.err "resident byte accounting overflow"), c)
  | some nextResident =>
    if nextResident > target ∨ nextResident > c.configBudgetBytes then
      (.error (.err "dense write would exceed resident hard budget"), c)
    else
      let c := { c with
        slots := c.slots.set slot (some {
          bytes := form.1
          offloaded := none
          warmResidual := form.2
          tier := tier
          seq := c.nextSeq
          importance := F32.zero })
        nextSeq := satAdd c.nextSeq 1
        residentBytes := nextResident }
      (c.verifyAccounting.map fun _ => tier, c)

/-- Make room around a vacated position, then store there. -/
def fillDense (c : ElasticKvCache F) (slot : ℕ) (tile : Tile) (pinned : Bool) (target : ℕ) :
    Outcome PhysicalTier × ElasticKvCache F :=
  let minimumNewResident := if pinned then tileBytes else warmPackedBytes
  match denseLoop minimumNewResident target (c.residentBytes + 1) c with
  | (.error e, c) => (.error e, c)
  | (.ok _, c) => c.admitDense slot tile pinned target

/-- The body of a dense write, before the rollback decision. -/
def denseWriteBody (c : ElasticKvCache F) (slot : ℕ) (tile : Tile) (target : ℕ)
    (reserve : Bool) : Outcome PhysicalTier × ElasticKvCache F :=
  if c.residentBytes > c.configBudgetBytes then
    (.error (.err "physical residency already exceeds hard budget"), c)
  else match checkedAdd slot 1 with
  | none => (.error (.err "slot index overflow"), c)
  | some requiredLen =>
    match c.resize requiredLen reserve with
    | .error e => (.error e, c)
    | .ok c =>
      let pinned := (slotAt c.slots slot).elim false (fun s => s.tier = .pinned)
      let oldResident := (slotAt c.slots slot).elim 0 PhysicalSlot.allocatedBytes
      let c := { c with slots := c.slots.set slot none }
      match checkedSub c.residentBytes oldResident with
      | none => (.error (.err "resident byte accounting underflow"), c)
      | some resident => fillDense { c with residentBytes := resident } slot tile pinned target

/-- Write one slot without charging more than the target; any error rolls the
complete mutation back. -/
def writeAtDenseBudget (c : ElasticKvCache F) (slot : ℕ) (tile : Tile)
    (targetResidentBytes : ℕ) (reserve : Bool) : Outcome PhysicalTier × ElasticKvCache F :=
  let target := min targetResidentBytes c.configBudgetBytes
  match c.denseWriteBody slot tile target reserve with
  | (.error (.err m), c') => (.error (.err m), { c' with
      slots := c.slots
      residentBytes := c.residentBytes
      nextSeq := c.nextSeq })
  | r => r

/-- Demote, and evict only when nothing is left to demote. -/
def demoteLoop (target : ℕ) : ℕ → ElasticKvCache F → ElasticKvCache F
  | 0, c => c
  | fuel + 1, c =>
    if c.residentBytes > target then
      let prior := c.residentBytes
      let (done, c) := c.demoteLowestImportance 1
      let c := if done = 0 then (c.evictLowestImportance 1).2 else c
      if c.residentBytes = prior then c else demoteLoop target fuel c
    else c

def offloadLoop (target : ℕ) : ℕ → ElasticKvCache F → ElasticKvCache F
  | 0, c => c
  | fuel + 1, c =>
    if c.residentBytes > target then
      let prior := c.residentBytes
      let c := (c.evictLowestImportance 1).2
      if c.residentBytes = prior then c else offloadLoop target fuel c
    else c

/-- The mutation an action stands for. -/
def mutate (c : ElasticKvCache F) (action : ActionRequest) (target : ℕ) : ElasticKvCache F :=
  match action with
  | .demote => demoteLoop target (c.residentBytes + 1) c
  | .offload => offloadLoop target (c.residentBytes + 1) c
  | .promote => c.promoteHighestImportance 1
  | .restore => c.restoreHighestImportance 1
  | .none | .prefetch | .rebalance | .operator _ => c

/-- Checks made after the mutation, against the count before it. -/
def checkAction (c : ElasticKvCache F) (action : ActionRequest) (target before : ℕ) :
    Outcome Bool :=
  match c.verifyAccounting with
  | .error e => .error e
  | .ok _ =>
    if (action = .demote ∨ action = .offload) ∧ c.residentBytes > target then
      .error (.err "requested residency target cannot be satisfied")
    else if c.residentBytes > c.configBudgetBytes then
      .error (.err "physical residency exceeds hard budget")
    else .ok (c.residentBytes != before)

/-- Transactionally apply one action to the cache. -/
def applyAction (c : ElasticKvCache F) (action : ActionRequest) (targetResidentBytes : ℕ) :
    Outcome Bool × ElasticKvCache F :=
  let target := min targetResidentBytes c.configBudgetBytes
  let c' := c.mutate action target
  match c'.checkAction action target c.residentBytes with
  | .error (.err m) => (.error (.err m), { c' with
      slots := c.slots
      residentBytes := c.residentBytes
      evictions := c.evictions })
  | r => (r, c')

def demoteTo (c : ElasticKvCache F) (targetResidentBytes : ℕ) :
    Outcome Bool × ElasticKvCache F := c.applyAction .demote targetResidentBytes

def offloadTo (c : ElasticKvCache F) (targetResidentBytes : ℕ) :
    Outcome Bool × ElasticKvCache F := c.applyAction .offload targetResidentBytes

def outcomeName (action : ActionRequest) (changed : Bool) : String :=
  match action, changed with
  | .demote, true => "demoted"
  | .offload, true => "offloaded"
  | .promote, true => "promoted"
  | .restore, true => "restored"
  | _, false => "no_change"
  | _, _ => "applied"

def presentCount (c : ElasticKvCache F) : ℕ := total (fun _ => 1) c.slots

/-- What the cache reports to its controller. -/
def observation [F64 F] (c : ElasticKvCache F) : Observation F :=
  Observation.new c.nextSeq c.residentBytes c.configBudgetBytes (F64.ofNat c.presentCount)

/-- Ask the controller for a decision and execute it. -/
def step [F64 F] (c : ElasticKvCache F) : Outcome (Decision F) × ElasticKvCache F :=
  let budget := c.configBudgetBytes
  match c.controller.step c.observation with
  | (.error e, controller) => (.error (.err e), { c with controller := controller })
  | (.ok decision, controller) =>
    let c := { c with controller := controller, lastReason := decision.trace.reason }
    let target := match decision.action with
      | .demote | .offload =>
          if c.residentBytes > budget then budget else c.residentBytes - residualBytes
      | _ => budget
    match c.applyAction decision.action target with
    | (.error e, c) => (.error e, c)
    | (.ok changed, c) =>
      let verified := decide (Succeeded c.verifyAccounting) && decide (c.residentBytes ≤ budget)
      let trace := decision.trace.complete (outcomeName decision.action changed) verified
      if !verified then (.error (.err "physical residency verification failed"), c)
      else (.ok { decision with trace := trace }, c)

def modifySlot (c : ElasticKvCache F) (slot : ℕ) (f : PhysicalSlot → PhysicalSlot) :
    ElasticKvCache F :=
  match slotAt c.slots slot with
  | none => c
  | some state => { c with slots := c.slots.set slot (some (f state)) }

/-- Accumulate softmax-normalized attention importance. -/
def observeScores [F32Arith] (c : ElasticKvCache F) (scores : List (ℕ × F32))
    (temperature : F32) : ElasticKvCache F :=
  if scores.isEmpty || !temperature.isFinite || F32Arith.le temperature F32.zero then c
  else
    let maxScore := (scores.map Prod.snd).foldl F32Arith.max F32.negInfinity
    let mass (score : F32) :=
      F32Arith.exp (F32Arith.div (F32Arith.sub score maxScore) temperature)
    let sum := F32Arith.sum (scores.map fun p => mass p.2)
    if !sum.isFinite || F32Arith.le sum F32.zero then c
    else scores.foldl (fun c p => c.modifySlot p.1 fun s => { s with
      importance := F32Arith.add s.importance (F32Arith.div (mass p.2) sum) }) c

end ElasticKvCache

end SlhaV2.PhysicalCache
