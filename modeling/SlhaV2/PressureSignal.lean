import SlhaV2.FloatingPoint

/-!
# Pressure, forecast and hysteresis of the control loop

The signal chain in front of a decision: a normalized pressure with its coarse
level, an exponential average, a bounded linear forecast and the gate against
oscillation. The level separates the hard condition from the tunable ones: only
the comparison of two integers decides it.
-/
namespace SlhaV2.PressureSignal
open MachineWord FloatingPoint

variable {F : Type} [F64 F]

inductive PressureLevel where
  | low | normal | high | critical
deriving DecidableEq, Repr

structure Watermarks (F : Type) where
  high : F
  low : F

def Watermarks.standard : Watermarks F := ⟨F64.lit (85 / 100), F64.lit (70 / 100)⟩

structure Pressure (F : Type) where
  value : F
  level : PressureLevel

/-- Normalized pressure for `used` of `capacity`. -/
def Pressure.fromUsed (used capacity : ℕ) (wm : Watermarks F) : Pressure F :=
  if capacity = 0 then
    if used = 0 then ⟨F64.lit 0, .low⟩ else ⟨F64.lit 1, .critical⟩
  else
    let value := F64.clamp (F64.ofNat used / F64.ofNat capacity) (F64.lit 0) (F64.lit 1)
    let level :=
      if capacity < used then .critical
      else if F64.le wm.high value then .high
      else if F64.le value wm.low then .low
      else .normal
    ⟨value, level⟩

/-- The hard condition is exactly integer overflow of the capacity, whatever
the arithmetic of the normalized value does. -/
theorem fromUsed_critical_iff (used capacity : ℕ) (wm : Watermarks F) :
    (Pressure.fromUsed used capacity wm).level = .critical ↔ capacity < used := by
  unfold Pressure.fromUsed
  dsimp only
  split_ifs <;> simp_all
  omega

structure PressureSmoother (F : Type) where
  alpha : F
  current : Option F

def PressureSmoother.new (alpha : F) : PressureSmoother F := ⟨alpha, none⟩

/-- Push a raw sample; the smoothed value is also the new state. -/
def PressureSmoother.push (s : PressureSmoother F) (raw : F) : F × PressureSmoother F :=
  let value := match s.current with
    | none => raw
    | some prev => s.alpha * raw + (F64.lit 1 - s.alpha) * prev
  (value, { s with current := some value })

structure Forecast (F : Type) where
  level : F
  trend : F
  maxTrend : F
  alpha : F
  beta : F
  initialized : Bool

def Forecast.new (alpha beta maxTrend : F) : Forecast F :=
  ⟨F64.lit 0, F64.lit 0, maxTrend, alpha, beta, false⟩

def Forecast.forecast (f : Forecast F) (steps : ℕ) : F :=
  if f.initialized then f.level + f.trend * F64.ofNat steps else F64.lit 0

/-- A sample that is not finite leaves the forecast as it was. -/
def Forecast.observe (f : Forecast F) (value : F) : F × Forecast F :=
  if !F64.isFinite value then (f.forecast 1, f)
  else if !f.initialized then
    (value, { f with level := value, trend := F64.lit 0, initialized := true })
  else
    let prediction := f.level + f.trend
    let error := value - prediction
    let level := f.level + f.alpha * error
    let trend := F64.clamp (f.trend + f.beta * error) (-f.maxTrend) f.maxTrend
    (level + trend, { f with level := level, trend := trend })

def stepsToExhaustion (f : Forecast F) (capacity : F) : Option ℕ :=
  if !f.initialized || !F64.isFinite capacity || F64.lt capacity (F64.lit 0) then none
  else if !F64.isFinite f.level || !F64.isFinite f.trend then none
  else if F64.le capacity f.level then some 0
  else if F64.le f.trend (F64.lit 0) then none
  else
    let raw := (capacity - f.level) / f.trend
    if !F64.isFinite raw || F64.lt raw (F64.lit 0) || F64.lt (F64.ofNat maxWord) raw then none
    else
      let truncated := F64.toU64 raw
      some (if F64.eq (F64.ofNat truncated) raw then truncated else satAdd truncated 1)

inductive HysteresisState where
  | idle | active
deriving DecidableEq, Repr

def HysteresisState.isActive (s : HysteresisState) : Bool := s = .active

structure HysteresisGate (F : Type) where
  high : F
  low : F
  cooldownSteps : ℕ
  minIntervalSteps : ℕ
  state : HysteresisState
  lastActionStep : ℕ

/-- The step `maxWord` stands for "no action yet". -/
def HysteresisGate.new (high low : F) (cooldownSteps minIntervalSteps : ℕ) : HysteresisGate F :=
  ⟨high, low, cooldownSteps, minIntervalSteps, .idle, maxWord⟩

def HysteresisGate.inCooldown (g : HysteresisGate F) (step : ℕ) : Bool :=
  if g.lastActionStep = maxWord then false else step - g.lastActionStep < g.cooldownSteps

def HysteresisGate.inMinInterval (g : HysteresisGate F) (step : ℕ) : Bool :=
  if g.lastActionStep = maxWord then false else step - g.lastActionStep < g.minIntervalSteps

/-- Feed a smoothed sample. Entering the active state records the step. -/
def HysteresisGate.update (g : HysteresisGate F) (value : F) (step : ℕ) :
    Bool × HysteresisGate F :=
  if !F64.isFinite value then (g.state = .active, g)
  else match g.state with
    | .active =>
        if F64.le value g.low then (false, { g with state := .idle }) else (true, g)
    | .idle =>
        let intervalOk := !g.inMinInterval step
        if F64.le g.high value && intervalOk then
          (true, { g with state := .active, lastActionStep := step })
        else (false, g)

def HysteresisGate.noteAction (g : HysteresisGate F) (step : ℕ) : HysteresisGate F :=
  { g with lastActionStep := step }

def HysteresisGate.noteOppositeAction (g : HysteresisGate F) (step : ℕ) : HysteresisGate F :=
  g.noteAction step

end SlhaV2.PressureSignal
