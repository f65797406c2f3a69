import SlhaV2.PressureSignal
import SlhaV2.ByteBudget

/-!
# The elastic control algorithm

One step observes, smooths, forecasts, chooses an action and, outside dry-run
mode, asks the backend to perform it and verifies. The choice is a chain of
branches: the hard condition comes first, then the forecast, then the gate.
Everything a later step can depend on is kept in the controller state.
-/
namespace SlhaV2.ControlLoop
open MachineWord FloatingPoint PressureSignal ByteBudget

structure Observation (F : Type) where
  step : ℕ
  usedBytes : ℕ
  capacityBytes : ℕ
  demand : F
  extra : F

def Observation.new {F : Type} [F64 F] (step usedBytes capacityBytes : ℕ) (demand : F) :
    Observation F := ⟨step, usedBytes, capacityBytes, demand, F64.lit 0⟩

inductive ActionRequest where
  | none
  | demote
  | promote
  | offload
  | restore
  | prefetch
  | rebalance
  | operator (name : String)
deriving DecidableEq, Repr

def ActionRequest.name : ActionRequest → String
  | .none => "none"
  | .demote => "demote"
  | .promote => "promote"
  | .offload => "offload"
  | .restore => "restore"
  | .prefetch => "prefetch"
  | .rebalance => "rebalance"
  | .operator name => name

structure Reason where
  code : String
  detail : Option String
deriving DecidableEq, Repr

def Reason.new (code : String) : Reason := ⟨code, .none⟩

structure Candidate (F : Type) where
  action : String
  expectedBenefit : F
  expectedCost : F
  qualityRisk : F
  reuseProbability : F

inductive Rejection where
  | hardConstraint (code : String)
  | oscillation
  | costTooHigh
  | pinned
  | trueLimit
deriving DecidableEq, Repr

structure DecisionTrace (F : Type) where
  step : ℕ
  stateId : ℕ
  measuredPressure : F
  pressureLevel : PressureLevel
  forecastPressure : Option F
  candidates : List (Candidate F)
  rejections : List (Option Rejection)
  chosen : Option String
  reason : Option Reason
  expectedBenefit : F
  expectedCost : F
  actualOutcome : Option String
  verified : Option Bool

section Trace
variable {F : Type} [F64 F]

def DecisionTrace.new (step stateId : ℕ) : DecisionTrace F where
  step := step
  stateId := stateId
  measuredPressure := F64.lit 0
  pressureLevel := .low
  forecastPressure := .none
  candidates := []
  rejections := []
  chosen := .none
  reason := .none
  expectedBenefit := F64.lit 0
  expectedCost := F64.lit 0
  actualOutcome := .none
  verified := .none

def DecisionTrace.consider (t : DecisionTrace F) (c : Candidate F) (r : Option Rejection) :
    DecisionTrace F :=
  { t with candidates := t.candidates ++ [c], rejections := t.rejections ++ [r] }

def DecisionTrace.choose (t : DecisionTrace F) (action : String) (reason : Reason)
    (benefit cost : F) : DecisionTrace F :=
  { t with
    chosen := some action
    reason := some reason
    expectedBenefit := benefit
    expectedCost := cost }

def DecisionTrace.complete (t : DecisionTrace F) (outcome : String) (verified : Bool) :
    DecisionTrace F :=
  { t with actualOutcome := some outcome, verified := some verified }

end Trace

structure Decision (F : Type) where
  action : ActionRequest
  trace : DecisionTrace F

/-- Backend contract for one controlled resource. -/
class ElasticBackend (B : Type) (ε : outParam Type) where
  demote : B → ℕ → Except ε ℕ × B
  promote : B → ℕ → Except ε ℕ × B
  offload : B → ℕ → Except ε ℕ × B
  restore : B → ℕ → Except ε ℕ × B
  prefetch : B → Except ε Unit × B
  rebalance : B → Except ε Unit × B
  verify : B → ℕ → Except ε Bool × B

structure ControllerConfig (F : Type) where
  watermarks : Watermarks F
  cooldownSteps : ℕ
  minIntervalSteps : ℕ
  smoothAlpha : F
  trendBeta : F
  maxTrend : F
  dryRun : Bool
  forecastHorizon : ℕ

def ControllerConfig.standard {F : Type} [F64 F] : ControllerConfig F where
  watermarks := Watermarks.standard
  cooldownSteps := 3
  minIntervalSteps := 2
  smoothAlpha := F64.lit (1 / 2)
  trendBeta := F64.lit (2 / 10)
  maxTrend := F64.lit (1 / 10)
  dryRun := false
  forecastHorizon := 4

structure ElasticController (F R B : Type) where
  resource : R
  backend : B
  config : ControllerConfig F
  budget : BudgetTree
  budgetNode : Option ℕ
  smoother : PressureSmoother F
  forecast : Forecast F
  gate : HysteresisGate F
  lastActionStep : ℕ
  lastPromotedStep : ℕ
  lastPressure : F
  history : List F

namespace ElasticController
variable {F R B ε : Type} [F64 F] [ElasticBackend B ε]

def new (resource : R) (backend : B) (config : ControllerConfig F) (budget : BudgetTree)
    (budgetNode : Option ℕ) : ElasticController F R B where
  resource := resource
  backend := backend
  config := config
  budget := budget
  budgetNode := budgetNode
  smoother := PressureSmoother.new config.smoothAlpha
  forecast := Forecast.new config.smoothAlpha config.trendBeta config.maxTrend
  gate := HysteresisGate.new config.watermarks.high config.watermarks.low
    config.cooldownSteps config.minIntervalSteps
  lastActionStep := 0
  lastPromotedStep := 0
  lastPressure := F64.lit 0
  history := []

def stateId (c : ElasticController F R B) : ℕ :=
  let hash := 0
  let hash := (hash * 31 + F64.toBits c.lastPressure) % 2 ^ 64
  let hash := (hash * 31 + c.budget.totalCommitted) % 2 ^ 64
  (hash * 31 + c.history.length) % 2 ^ 64

def effectiveCapacity (c : ElasticController F R B) (runtimeCapacity : ℕ) : ℕ :=
  let budgetLimit := match c.budgetNode.bind (fun i => (c.budget.node i).toOption) with
    | some n => n.hardLimit
    | none => runtimeCapacity
  min runtimeCapacity budgetLimit

def recoveryTarget (c : ElasticController F R B) (capacity : ℕ) : ℕ :=
  let configured :=
    match ((c.budgetNode.bind (fun i => (c.budget.node i).toOption)).map
      BudgetNode.softTarget).filter (fun t => decide (0 < t)) with
    | some t => t
    | none => satMul capacity 3 / 4
  min configured capacity

def releaseTarget (c : ElasticController F R B) (used capacity : ℕ) : ℕ :=
  used - c.recoveryTarget capacity

def restoreTarget (c : ElasticController F R B) (used capacity : ℕ) : ℕ :=
  c.recoveryTarget capacity - used

def noAction (t : DecisionTrace F) : DecisionTrace F :=
  t.consider ⟨"none", F64.lit 0, F64.lit 0, F64.lit 0, F64.lit 0⟩ (some .costTooHigh)

/-- The branch chain of one step, after the signals have been updated. -/
def chooseAction (c : ElasticController F R B) (obs : Observation F) (capacity : ℕ)
    (level : PressureLevel) (smoothed : F) (exhaustion : Option ℕ) (trace : DecisionTrace F) :
    ActionRequest × DecisionTrace F × ElasticController F R B :=
  if level = .critical then
    let bytesOver := obs.usedBytes - capacity
    let trace := trace.consider
      ⟨"demote", F64.ofNat bytesOver, F64.lit 0, F64.lit 0, F64.lit 0⟩ none
    (.demote, trace.choose ActionRequest.demote.name (Reason.new "hard_constraint")
      (F64.ofNat bytesOver) (F64.lit 0), c)
  else match exhaustion with
  | some steps =>
    if steps ≤ c.config.forecastHorizon && !c.gate.state.isActive then
      let trace := trace.consider
        ⟨"demote", F64.ofNat (c.releaseTarget obs.usedBytes capacity),
          F64.lit 0, F64.lit 0, F64.lit 0⟩ none
      (.demote, trace.choose ActionRequest.demote.name (Reason.new "forecast_exhaustion")
        (F64.lit 0) (F64.lit 0), c)
    else (.none, noAction trace, c)
  | none =>
    let (entered, gate) := c.gate.update smoothed obs.step
    let c := { c with gate := gate }
    if entered then
      if c.gate.state.isActive &&
          (c.lastActionStep != c.gate.lastActionStep || c.lastActionStep == 0) then
        (.demote, trace.choose ActionRequest.demote.name (Reason.new "pressure_high")
          (F64.lit 0) (F64.lit 0), { c with lastActionStep := obs.step })
      else (.none, noAction trace, c)
    else if F64.le smoothed c.config.watermarks.low && decide (c.gate.state = .idle) then
      if c.gate.inCooldown obs.step then (.none, noAction trace, c)
      else if c.lastPromotedStep = 0 ∨
          obs.step - c.lastPromotedStep > satMul c.config.cooldownSteps 2 then
        let c := { c with
          lastPromotedStep := obs.step
          gate := c.gate.noteOppositeAction obs.step
          lastActionStep := obs.step }
        (.promote, trace.choose ActionRequest.promote.name (Reason.new "pressure_low")
          (F64.lit 0) (F64.lit 0), c)
      else (.none, noAction trace, c)
    else (.none, noAction trace, c)

/-- Ask the backend for the bytes and compute the use it should now report. -/
def perform (c : ElasticController F R B) (action : ActionRequest) (obs : Observation F)
    (capacity : ℕ) : Except ε (String × ℕ) × B :=
  let release := c.releaseTarget obs.usedBytes capacity
  let restore := c.restoreTarget obs.usedBytes capacity
  match action with
  | .demote =>
      let r := ElasticBackend.demote c.backend release
      (r.1.map fun n => ("demoted", obs.usedBytes - n), r.2)
  | .promote =>
      let r := ElasticBackend.promote c.backend restore
      (r.1.map fun n => ("promoted", satAdd obs.usedBytes n), r.2)
  | .offload =>
      let r := ElasticBackend.offload c.backend release
      (r.1.map fun n => ("offloaded", obs.usedBytes - n), r.2)
  | .restore =>
      let r := ElasticBackend.restore c.backend restore
      (r.1.map fun n => ("restored", satAdd obs.usedBytes n), r.2)
  | .prefetch =>
      let r := ElasticBackend.prefetch c.backend
      (r.1.map fun _ => ("prefetched", obs.usedBytes), r.2)
  | .rebalance =>
      let r := ElasticBackend.rebalance c.backend
      (r.1.map fun _ => ("rebalanced", obs.usedBytes), r.2)
  | .none => (.ok ("none", obs.usedBytes), c.backend)
  | .operator name => (.ok (name, obs.usedBytes), c.backend)

def execute (c : ElasticController F R B) (action : ActionRequest) (obs : Observation F)
    (capacity : ℕ) : Except ε (String × Bool) × ElasticController F R B :=
  match c.perform action obs capacity with
  | (.error e, b) => (.error e, { c with backend := b })
  | (.ok (outcome, expectedUsed), b) =>
      match ElasticBackend.verify b expectedUsed with
      | (.error e, b) => (.error e, { c with backend := b })
      | (.ok verified, b) => (.ok (outcome, verified), { c with backend := b })

/-- Fold one raw pressure sample into the signal state. -/
def observe (c : ElasticController F R B) (raw : F) : F × ElasticController F R B :=
  let (smoothed, smoother) := c.smoother.push raw
  let history := c.history ++ [smoothed]
  let history := if history.length > 256 then history.drop 1 else history
  let c := { c with
    smoother := smoother
    lastPressure := smoothed
    history := history
    forecast := (c.forecast.observe smoothed).2 }
  (smoothed, c)

/-- The part of a cycle before the backend: the signals, then the branch chain. -/
def decideAction (c : ElasticController F R B) (obs : Observation F) :
    ActionRequest × DecisionTrace F × ElasticController F R B :=
  let capacity := c.effectiveCapacity obs.capacityBytes
  let rawPressure := Pressure.fromUsed obs.usedBytes capacity c.config.watermarks
  let (smoothed, c) := c.observe rawPressure.value
  let forecastPressure := c.forecast.forecast c.config.forecastHorizon
  let exhaustion := stepsToExhaustion c.forecast (F64.lit 1)
  let trace : DecisionTrace F := { DecisionTrace.new obs.step c.stateId with
    measuredPressure := smoothed
    pressureLevel := rawPressure.level
    forecastPressure := some (F64.clamp forecastPressure (F64.lit 0) (F64.lit 1)) }
  c.chooseAction obs capacity rawPressure.level smoothed exhaustion trace

/-- One complete control cycle. -/
def step (c : ElasticController F R B) (obs : Observation F) :
    Except ε (Decision F) × ElasticController F R B :=
  let capacity := c.effectiveCapacity obs.capacityBytes
  let (action, trace, c) := c.decideAction obs
  if !c.config.dryRun && action ≠ .none then
    match c.execute action obs capacity with
    | (.error e, c) => (.error e, c)
    | (.ok (outcome, verified), c) => (.ok ⟨action, trace.complete outcome verified⟩, c)
  else (.ok ⟨action, trace⟩, c)

/-- Budget and configuration, which a step reads and never writes. -/
def limits (c : ElasticController F R B) := (c.budget, c.budgetNode, c.config)

omit [ElasticBackend B ε] in
theorem limits_chooseAction (c : ElasticController F R B) (obs : Observation F) (capacity : ℕ)
    (level : PressureLevel) (smoothed : F) (exhaustion : Option ℕ) (trace : DecisionTrace F) :
    (c.chooseAction obs capacity level smoothed exhaustion trace).2.2.limits = c.limits := by
  unfold chooseAction
  cases exhaustion <;> dsimp only <;> split_ifs <;> rfl

omit [F64 F] in
theorem limits_execute (c : ElasticController F R B) (action : ActionRequest)
    (obs : Observation F) (capacity : ℕ) :
    (c.execute action obs capacity).2.limits = c.limits := by
  unfold execute
  split
  · rfl
  · split <;> rfl

omit [ElasticBackend B ε] in
theorem limits_decideAction (c : ElasticController F R B) (obs : Observation F) :
    (c.decideAction obs).2.2.limits = c.limits := limits_chooseAction _ _ _ _ _ _ _

theorem limits_step (c : ElasticController F R B) (obs : Observation F) :
    (c.step obs).2.limits = c.limits := by
  have hd := limits_decideAction c obs
  unfold step
  dsimp only
  split_ifs
  · split
    · rename_i h
      have he := congrArg (fun r => r.2.limits) h
      exact he.symm.trans ((limits_execute _ _ _ _).trans hd)
    · rename_i h
      have he := congrArg (fun r => r.2.limits) h
      exact he.symm.trans ((limits_execute _ _ _ _).trans hd)
  · exact hd

omit [ElasticBackend B ε] in
/-- Over capacity the hard condition decides, whatever the signal history is. -/
theorem decideAction_over (c : ElasticController F R B) (obs : Observation F)
    (h : c.effectiveCapacity obs.capacityBytes < obs.usedBytes) :
    (c.decideAction obs).1 = .demote := by
  unfold decideAction chooseAction
  dsimp only
  rw [if_pos ((fromUsed_critical_iff _ _ _).mpr h)]

/-- No request of this controller can fail: it makes none, or the backend takes all. -/
def NeverFails (c : ElasticController F R B) : Prop :=
  c.config.dryRun = true ∨ ∀ (c' : ElasticController F R B) (action : ActionRequest)
    (obs : Observation F) (capacity : ℕ), ∃ r, (c'.execute action obs capacity).1 = .ok r

/-- A step that cannot fail decides, and decides to demote when over capacity. -/
theorem step_decides (c : ElasticController F R B) (obs : Observation F) (hc : NeverFails c) :
    ∃ d, (c.step obs).1 = .ok d ∧
      (c.effectiveCapacity obs.capacityBytes < obs.usedBytes → d.action = .demote) := by
  have hover := decideAction_over c obs
  have hcfg : (c.decideAction obs).2.2.config = c.config :=
    congrArg (fun l => l.2.2) (limits_decideAction c obs)
  unfold step
  dsimp only
  split_ifs with hx
  · rcases hc with hdry | hfree
    · rw [hcfg, hdry] at hx
      simp at hx
    · obtain ⟨r, hr⟩ := hfree (c.decideAction obs).2.2 (c.decideAction obs).1 obs
        (c.effectiveCapacity obs.capacityBytes)
      split
      · rename_i he
        rw [he] at hr
        cases hr
      · exact ⟨_, rfl, hover⟩
  · exact ⟨_, rfl, hover⟩

end ElasticController

end SlhaV2.ControlLoop
