import SlhaV2.ControlLoop

/-!
# Intervals between the decisions of a controller

The gate records the step of a decision, and what it lets through later keeps its
distance from the recorded one. Two of the three ways to demote do not tell the gate,
so the intervals hold in runs which take neither of them.
-/
namespace SlhaV2.AntiThrash
open MachineWord FloatingPoint PressureSignal ByteBudget ControlLoop ElasticController

section Record
variable {α : Type}

/-- Events at rising times, of which some are recorded and some must keep a distance from
the recorded one before them. -/
inductive Recorded (k : ℕ) (records needs : α → Prop) (time : α → ℕ) : Option ℕ → List α → Prop
  | nil (last : Option ℕ) : Recorded k records needs time last []
  | recorded {last : Option ℕ} {e : α} {es : List α} : records e →
      (∀ t ∈ last, t ≤ time e) → (needs e → ∀ t ∈ last, t + k ≤ time e) →
      Recorded k records needs time (some (time e)) es →
      Recorded k records needs time last (e :: es)
  | other {last : Option ℕ} {e : α} {es : List α} : ¬records e →
      (needs e → ∀ t ∈ last, t + k ≤ time e) → Recorded k records needs time last es →
      Recorded k records needs time last (e :: es)

variable {k : ℕ} {records needs : α → Prop} {time : α → ℕ} {last : Option ℕ} {es : List α}

theorem Recorded.later (h : Recorded k records needs time last es) :
    ∀ t ∈ last, ∀ e ∈ es, needs e → t + k ≤ time e := by
  induction h with
  | nil last => simp
  | @recorded last d ds _ hle hfar _ ih =>
      intro t ht e he hneeds
      rcases List.mem_cons.mp he with rfl | he
      · exact hfar hneeds t ht
      · have hlast := ih (time d) rfl e he hneeds
        have hrise := hle t ht
        omega
  | other _ hfar _ ih =>
      intro t ht e he hneeds
      rcases List.mem_cons.mp he with rfl | he
      · exact hfar hneeds t ht
      · exact ih t ht e he hneeds

/-- Every event that must keep the distance keeps it from all recorded ones before it. -/
theorem Recorded.pairwise (h : Recorded k records needs time last es) :
    es.Pairwise fun a b => records a → needs b → time a + k ≤ time b := by
  induction h with
  | nil last => exact List.Pairwise.nil
  | @recorded last d ds _ _ _ hrest ih =>
      exact List.Pairwise.cons (fun e he _ hneeds => hrest.later (time d) rfl e he hneeds) ih
  | other hnot _ _ ih =>
      exact List.Pairwise.cons (fun _ _ hrec => absurd hrec hnot) ih

end Record

section Choice
variable {F R B ε : Type} [F64 F]

/-- What the branch chain can do to a controller whose gate agrees with its own record. -/
inductive Chosen (c : ElasticController F R B) (step : ℕ) (level : PressureLevel) (smoothed : F)
    (exhaustion : Option ℕ) : ActionRequest → ElasticController F R B → Prop
  | critical : level = .critical → Chosen c step level smoothed exhaustion .demote c
  | foreseen {steps : ℕ} : level ≠ .critical → exhaustion = some steps →
      steps ≤ c.config.forecastHorizon → c.gate.state = .idle →
      Chosen c step level smoothed exhaustion .demote c
  | entered : level ≠ .critical → F64.le c.gate.high smoothed = true →
      c.gate.inMinInterval step = false →
      Chosen c step level smoothed exhaustion .demote
        { c with
          gate := { c.gate with state := .active, lastActionStep := step }
          lastActionStep := step }
  | promoted : level ≠ .critical → F64.le smoothed c.config.watermarks.low = true →
      c.gate.inCooldown step = false →
      Chosen c step level smoothed exhaustion .promote
        { c with
          lastPromotedStep := step
          gate := { c.gate with state := .idle, lastActionStep := step }
          lastActionStep := step }
  | quiet (state : HysteresisState) : (state = .active → c.gate.state = .active) →
      Chosen c step level smoothed exhaustion .none
        { c with gate := { c.gate with state := state } }

theorem update_cases (g : HysteresisGate F) (value : F) (step : ℕ) :
    (g.update value step = (true, { g with state := .active, lastActionStep := step }) ∧
      F64.le g.high value = true ∧ g.inMinInterval step = false) ∨
    ∃ s, g.update value step = (decide (s = .active), { g with state := s }) ∧
      (s = .active → g.state = .active) := by
  unfold HysteresisGate.update
  by_cases hfin : F64.isFinite value = true
  swap
  · rw [if_pos (by simpa using hfin)]
    exact .inr ⟨g.state, rfl, id⟩
  rw [if_neg (by simp [hfin])]
  cases hstate : g.state with
  | active =>
      dsimp only
      split_ifs
      · exact .inr ⟨.idle, rfl, fun h => by cases h⟩
      · refine .inr ⟨g.state, ?_, fun _ => rfl⟩
        rw [decide_eq_true hstate]
  | idle =>
      dsimp only
      split_ifs with henter
      · simp only [Bool.and_eq_true, Bool.not_eq_true'] at henter
        exact .inl ⟨rfl, henter⟩
      · refine .inr ⟨g.state, ?_, fun h => by rw [hstate] at h; cases h⟩
        rw [decide_eq_false (by simp [hstate])]

/-- What the controller has recorded of its own agrees with its gate. -/
structure Agrees (c : ElasticController F R B) (step : ℕ) : Prop where
  active : c.gate.state = .active →
    c.lastActionStep = c.gate.lastActionStep ∧ c.lastActionStep ≠ 0
  own : c.lastActionStep = 0 ∨ c.lastActionStep < step

theorem chooseAction_chosen {c : ElasticController F R B} {obs : Observation F}
    (h : Agrees c obs.step) (capacity : ℕ) (level : PressureLevel) (smoothed : F)
    (exhaustion : Option ℕ) (trace : DecisionTrace F) :
    Chosen c obs.step level smoothed exhaustion
      (c.chooseAction obs capacity level smoothed exhaustion trace).1
      (c.chooseAction obs capacity level smoothed exhaustion trace).2.2 := by
  have hquiet : Chosen c obs.step level smoothed exhaustion .none c := .quiet c.gate.state id
  unfold chooseAction
  by_cases hcritical : level = .critical
  · rw [if_pos hcritical]
    exact .critical hcritical
  rw [if_neg hcritical]
  cases exhaustion with
  | some steps =>
      dsimp only
      split_ifs with hsoon
      · rw [Bool.and_eq_true, decide_eq_true_iff, Bool.not_eq_true'] at hsoon
        refine .foreseen hcritical rfl hsoon.1 ?_
        cases hstate : c.gate.state with
        | idle => rfl
        | active => simp [hstate, HysteresisState.isActive] at hsoon
      · exact hquiet
  | none =>
      dsimp only
      rcases update_cases c.gate smoothed obs.step with ⟨heq, hhigh, hfar⟩ | ⟨s, heq, hs⟩
      · rw [heq]
        have hfresh : (c.lastActionStep != obs.step || c.lastActionStep == 0) = true := by
          rcases h.own with hzero | hlt
          · simp [hzero]
          · simp [Nat.ne_of_lt hlt]
        simp only [HysteresisState.isActive, decide_true, Bool.true_and, hfresh, if_true]
        exact .entered hcritical hhigh hfar
      · rw [heq]
        cases s with
        | active =>
            obtain ⟨hsame, hne⟩ := h.active (hs rfl)
            have hheld : (c.lastActionStep != c.gate.lastActionStep || c.lastActionStep == 0) =
                false := by simp [← hsame, hne]
            simp only [HysteresisState.isActive, decide_true, Bool.true_and, hheld, if_true,
              Bool.false_eq_true, if_false]
            exact .quiet .active hs
        | idle =>
            simp only [reduceCtorEq, decide_false, Bool.false_eq_true, if_false, decide_true,
              Bool.and_true]
            have hstay : Chosen c obs.step level smoothed none .none
                { c with gate := { c.gate with state := .idle } } := .quiet .idle hs
            split_ifs with hlow hcool hagain
            · exact hstay
            · exact .promoted hcritical hlow ((Bool.not_eq_true _).mp hcool)
            · exact hstay
            · exact hstay

end Choice

/-- A decision, as the trace of a step shows it. -/
structure Taken where
  step : ℕ
  action : ActionRequest
  level : PressureLevel
deriving DecidableEq, Repr

section Run
variable {F R B ε : Type} [F64 F]

def pressureOf (c : ElasticController F R B) (obs : Observation F) : Pressure F :=
  Pressure.fromUsed obs.usedBytes (c.effectiveCapacity obs.capacityBytes) c.config.watermarks

/-- The smoothed pressure of a step, and the controller which has observed it. -/
def observed (c : ElasticController F R B) (obs : Observation F) : F × ElasticController F R B :=
  c.observe (pressureOf c obs).value

/-- The forecast announces exhaustion within the horizon, and the gate is not active. -/
def foresees (c : ElasticController F R B) (obs : Observation F) : Bool :=
  match stepsToExhaustion (observed c obs).2.forecast (F64.lit 1) with
  | some steps => steps ≤ c.config.forecastHorizon && !c.gate.state.isActive
  | none => false

def taken (c : ElasticController F R B) (obs : Observation F) : Taken :=
  ⟨obs.step, (c.decideAction obs).1, (pressureOf c obs).level⟩

/-- A decision other than a demotion at the critical level. -/
def Taken.Counts (t : Taken) : Prop :=
  t.action ≠ .none ∧ ¬(t.action = .demote ∧ t.level = .critical)

/-- The minimum interval between any two such decisions. -/
def IntervalLaw (k : ℕ) (ts : List Taken) : Prop :=
  ts.Pairwise fun a b => a.Counts → b.Counts → a.step + k ≤ b.step

/-- No promotion within the cooldown of a demotion. -/
def CooldownLaw (k : ℕ) (ts : List Taken) : Prop :=
  ts.Pairwise fun a b => a.action = .demote → b.action = .promote → a.step + k ≤ b.step

theorem decideAction_chosen {c : ElasticController F R B} {obs : Observation F}
    (h : Agrees c obs.step) :
    Chosen (observed c obs).2 obs.step (pressureOf c obs).level (observed c obs).1
      (stepsToExhaustion (observed c obs).2.forecast (F64.lit 1))
      (c.decideAction obs).1 (c.decideAction obs).2.2 :=
  chooseAction_chosen (c := (observed c obs).2) ⟨h.active, h.own⟩ _ _ _ _ _

variable [ElasticBackend B ε]

def log : ElasticController F R B → List (Observation F) → List Taken
  | _, [] => []
  | c, obs :: rest => taken c obs :: log (c.step obs).2 rest

/-- A condition of each step, along a run. -/
def Along (P : ElasticController F R B → Observation F → Prop) :
    ElasticController F R B → List (Observation F) → Prop
  | _, [] => True
  | c, obs :: rest => P c obs ∧ Along P (c.step obs).2 rest

/-- The backend changes nothing that a later decision looks at. -/
theorem step_gate (c : ElasticController F R B) (obs : Observation F) :
    (c.step obs).2.gate = (c.decideAction obs).2.2.gate ∧
      (c.step obs).2.lastActionStep = (c.decideAction obs).2.2.lastActionStep := by
  unfold ElasticController.step ElasticController.execute
  dsimp only
  split_ifs
  · cases hp : (c.decideAction obs).2.2.perform (c.decideAction obs).1 obs
      (c.effectiveCapacity obs.capacityBytes) with
    | mk result b =>
        cases result with
        | error e => exact ⟨rfl, rfl⟩
        | ok r =>
            dsimp only
            cases ElasticBackend.verify b r.2 with
            | mk result b => cases result <;> exact ⟨rfl, rfl⟩
  · exact ⟨rfl, rfl⟩

/-- A step on which no demotion bypasses the gate's record, except at a critical level: the
forecast does not demote, the gate does not take effect at step 0, and where it lets a
promotion through the minimum interval has passed as well. -/
structure Regular (c : ElasticController F R B) (obs : Observation F) : Prop where
  forecast : (pressureOf c obs).level = .critical ∨ foresees c obs = false
  first : obs.step = 0 → F64.le c.gate.high (observed c obs).1 = false
  interval : F64.le (observed c obs).1 c.config.watermarks.low = true →
    c.gate.inMinInterval obs.step = true → c.gate.inCooldown obs.step = true

/-- The step which the gate has recorded. -/
def recordedStep (g : HysteresisGate F) : Option ℕ :=
  if g.lastActionStep = maxWord then none else some g.lastActionStep

omit [F64 F] in
theorem mem_recordedStep {g : HysteresisGate F} {t : ℕ} :
    t ∈ recordedStep g ↔ g.lastActionStep ≠ maxWord ∧ g.lastActionStep = t := by
  unfold recordedStep
  split_ifs with hnever <;> simp [hnever]

omit [F64 F] in
/-- A window which the gate finds closed has passed since the recorded step. -/
theorem far_of_closed {g : HysteresisGate F} {step k : ℕ}
    (h : (if g.lastActionStep = maxWord then false else decide (step - g.lastActionStep < k)) =
      false) (hle : ∀ t ∈ recordedStep g, t ≤ step) : ∀ t ∈ recordedStep g, t + k ≤ step := by
  intro t ht
  have hlast := hle t ht
  obtain ⟨hever, heq⟩ := mem_recordedStep.mp ht
  rw [if_neg hever, heq, decide_eq_false_iff_not] at h
  omega

/-- What holds between steps, if all later steps are numbered from `n` on. -/
structure Ready (config : ControllerConfig F) (c : ElasticController F R B) (n : ℕ) : Prop where
  agrees : Agrees c n
  recorded : ∀ t ∈ recordedStep c.gate, t < n
  cooldown : c.gate.cooldownSteps = config.cooldownSteps
  interval : c.gate.minIntervalSteps = config.minIntervalSteps

omit [F64 F] [ElasticBackend B ε] in
theorem Ready.congr {config : ControllerConfig F} {c c' : ElasticController F R B} {n : ℕ}
    (h : Ready config c n) (hgate : c'.gate = c.gate)
    (hown : c'.lastActionStep = c.lastActionStep) : Ready config c' n := by
  obtain ⟨⟨hactive, hbefore⟩, hrec, hcool, hint⟩ := h
  constructor
  · exact ⟨by rwa [hgate, hown], by rwa [hown]⟩
  · rwa [hgate]
  · rwa [hgate]
  · rwa [hgate]

omit [F64 F] [ElasticBackend B ε] in
theorem Ready.mono {config : ControllerConfig F} {c : ElasticController F R B} {n m : ℕ}
    (h : Ready config c n) (hle : n ≤ m) : Ready config c m := by
  obtain ⟨⟨hactive, hbefore⟩, hrec, hcool, hint⟩ := h
  refine ⟨⟨hactive, ?_⟩, ?_, hcool, hint⟩
  · exact hbefore.imp_right fun hlt => hlt.trans_le hle
  · exact fun t ht => (hrec t ht).trans_le hle

omit [F64 F] [ElasticBackend B ε] in
/-- Right after a recorded step. -/
theorem Ready.record {config : ControllerConfig F} {c c' : ElasticController F R B} {n : ℕ}
    (h : Ready config c n) (hlast : c'.gate.lastActionStep = n) (hown : c'.lastActionStep = n)
    (hcool : c'.gate.cooldownSteps = c.gate.cooldownSteps)
    (hint : c'.gate.minIntervalSteps = c.gate.minIntervalSteps)
    (hne : c'.gate.state = .active → n ≠ 0) : Ready config c' (n + 1) := by
  constructor
  · constructor
    · exact fun hactive => ⟨hown.trans hlast.symm, hown ▸ hne hactive⟩
    · exact .inr (hown ▸ Nat.lt_succ_self n)
  · intro t ht
    have heq := (mem_recordedStep.mp ht).2
    omega
  · exact hcool.trans h.cooldown
  · exact hint.trans h.interval

/-- What a choice does to the record, as the distances need it. -/
inductive Marks (config : ControllerConfig F) (c : ElasticController F R B) (step : ℕ)
    (level : PressureLevel) : ActionRequest → ElasticController F R B → Prop
  | counted {action : ActionRequest} {c' : ElasticController F R B} :
      action ≠ .none → level ≠ .critical → c'.gate.lastActionStep = step →
      (∀ t ∈ recordedStep c.gate, t + config.minIntervalSteps ≤ step) →
      (action = .promote → ∀ t ∈ recordedStep c.gate, t + config.cooldownSteps ≤ step) →
      Marks config c step level action c'
  | uncounted {action : ActionRequest} {c' : ElasticController F R B} :
      action = .none ∨ (action = .demote ∧ level = .critical) → action ≠ .promote →
      recordedStep c'.gate = recordedStep c.gate → Marks config c step level action c'

omit [ElasticBackend B ε] in
theorem Chosen.marks {config : ControllerConfig F} {c c' : ElasticController F R B} {step : ℕ}
    {level : PressureLevel} {smoothed : F} {exhaustion : Option ℕ} {action : ActionRequest}
    (hchosen : Chosen c step level smoothed exhaustion action c') (h : Ready config c step)
    (hforecast : level = .critical ∨ ∀ steps, exhaustion = some steps →
      steps ≤ c.config.forecastHorizon → c.gate.state ≠ .idle)
    (hfirst : step = 0 → F64.le c.gate.high smoothed = false)
    (hinterval : F64.le smoothed c.config.watermarks.low = true →
      c.gate.inMinInterval step = true → c.gate.inCooldown step = true) :
    Ready config c' (step + 1) ∧ Marks config c step level action c' := by
  have hle : ∀ t ∈ recordedStep c.gate, t ≤ step := fun t ht => (h.recorded t ht).le
  have hfar (hmin : c.gate.inMinInterval step = false) :
      ∀ t ∈ recordedStep c.gate, t + config.minIntervalSteps ≤ step := by
    rw [← h.interval]
    exact far_of_closed hmin hle
  cases hchosen with
  | critical hcritical =>
      exact ⟨h.mono (Nat.le_succ _), .uncounted (.inr ⟨rfl, hcritical⟩) (by simp) rfl⟩
  | foreseen hlevel hsome hsoon hidle =>
      rcases hforecast with hcritical | hnot
      · exact absurd hcritical hlevel
      · exact absurd hidle (hnot _ hsome hsoon)
  | entered hlevel hhigh hmin =>
      constructor
      · refine h.record rfl rfl rfl rfl fun _ hzero => ?_
        rw [hfirst hzero] at hhigh
        cases hhigh
      · exact .counted (by simp) hlevel rfl (hfar hmin) (by simp)
  | promoted hlevel hlow hcool =>
      have hmin : c.gate.inMinInterval step = false := by
        cases hin : c.gate.inMinInterval step with
        | false => rfl
        | true =>
            rw [hinterval hlow hin] at hcool
            cases hcool
      constructor
      · exact h.record rfl rfl rfl rfl fun hactive => by cases hactive
      · refine .counted (by simp) hlevel rfl (hfar hmin) fun _ => ?_
        rw [← h.cooldown]
        exact far_of_closed hcool hle
  | quiet state hstate =>
      constructor
      · have hnext := h.mono (Nat.le_succ step)
        exact ⟨⟨fun hactive => hnext.agrees.active (hstate hactive), hnext.agrees.own⟩,
          hnext.recorded, hnext.cooldown, hnext.interval⟩
      · exact .uncounted (.inl rfl) (by simp) rfl

theorem step_marks {config : ControllerConfig F} {c : ElasticController F R B}
    {obs : Observation F} (h : Ready config c obs.step) (hreg : Regular c obs) :
    Ready config (c.step obs).2 (obs.step + 1) ∧
      Marks config c obs.step (taken c obs).level (taken c obs).action (c.step obs).2 := by
  obtain ⟨hgate, hown⟩ := step_gate c obs
  have hready : Ready config (observed c obs).2 obs.step := h.congr rfl rfl
  have hforecast : (pressureOf c obs).level = .critical ∨ ∀ steps,
      stepsToExhaustion (observed c obs).2.forecast (F64.lit 1) = some steps →
      steps ≤ c.config.forecastHorizon → c.gate.state ≠ .idle := by
    refine hreg.forecast.imp_right fun hnot steps hsteps hsoon hidle => ?_
    unfold foresees at hnot
    rw [hsteps] at hnot
    simp [hsoon, hidle, HysteresisState.isActive] at hnot
  obtain ⟨hnext, hmarks⟩ := (decideAction_chosen h.agrees).marks hready hforecast hreg.first
    hreg.interval
  refine ⟨hnext.congr hgate hown, ?_⟩
  change Marks config c obs.step (pressureOf c obs).level (c.decideAction obs).1 _
  cases hmarks with
  | counted hact hlevel hlast hmin hcool =>
      exact .counted hact hlevel (hgate ▸ hlast) hmin hcool
  | uncounted hact hpro hsame => exact .uncounted hact hpro (hgate ▸ hsame)

/-- A run of regular steps keeps the minimum interval between the decisions that count, and
the cooldown before each promotion. -/
theorem log_recorded {config : ControllerConfig F} {c : ElasticController F R B} {n : ℕ}
    {obs : List (Observation F)} (h : Ready config c n) (hn : ∀ o ∈ obs, n ≤ o.step)
    (hsteps : obs.Pairwise fun a b => a.step < b.step) (hword : ∀ o ∈ obs, o.step ≤ maxWord)
    (hreg : Along Regular c obs) :
    Recorded config.minIntervalSteps Taken.Counts Taken.Counts Taken.step (recordedStep c.gate)
        (log c obs) ∧
      Recorded config.cooldownSteps Taken.Counts (fun t => t.action = .promote) Taken.step
        (recordedStep c.gate) (log c obs) := by
  induction obs generalizing c n with
  | nil => exact ⟨.nil _, .nil _⟩
  | cons o rest ih =>
      obtain ⟨hlt, hrest⟩ := List.pairwise_cons.mp hsteps
      have hready := h.mono (hn o (List.mem_cons_self ..))
      have hle : ∀ t ∈ recordedStep c.gate, t ≤ o.step := fun t ht => (hready.recorded t ht).le
      obtain ⟨hnext, hmarks⟩ := step_marks hready hreg.1
      obtain ⟨hmin, hcool⟩ := ih hnext hlt hrest
        (fun b hb => hword b (List.mem_cons_of_mem o hb)) hreg.2
      cases hmarks with
      | counted hact hlevel hlast hfar hcold =>
          have hcounts : (taken c o).Counts := ⟨hact, fun hexempt => hlevel hexempt.2⟩
          -- the record is the step itself, unless no step can follow
          have hmark : rest = [] ∨ recordedStep (c.step o).2.gate = some o.step := by
            cases rest with
            | nil => exact .inl rfl
            | cons b rest =>
                have hb := hlt b (List.mem_cons_self ..)
                have hbw := hword b (by simp)
                have hever : o.step ≠ maxWord := by omega
                exact .inr (mem_recordedStep.mpr ⟨hlast ▸ hever, hlast⟩)
          rcases hmark with rfl | hmark
          · exact ⟨.recorded hcounts hle (fun _ => hfar) (.nil _),
              .recorded hcounts hle hcold (.nil _)⟩
          · rw [hmark] at hmin hcool
            exact ⟨.recorded hcounts hle (fun _ => hfar) hmin,
              .recorded hcounts hle hcold hcool⟩
      | uncounted hact hpro hsame =>
          have hnot : ¬(taken c o).Counts := by
            rintro ⟨hsome, hexempt⟩
            exact hact.elim hsome hexempt
          rw [hsame] at hmin hcool
          exact ⟨.other hnot (fun hcounts => absurd hcounts hnot) hmin,
            .other hnot (fun hpromote => absurd hpromote hpro) hcool⟩

omit [ElasticBackend B ε] in
theorem ready_new (resource : R) (backend : B) (config : ControllerConfig F) (budget : BudgetTree)
    (node : Option ℕ) :
    Ready config (ElasticController.new resource backend config budget node) 0 := by
  constructor
  · exact ⟨fun h => (by cases h), .inl rfl⟩
  · intro t ht
    exact absurd rfl (mem_recordedStep.mp ht).1
  · rfl
  · rfl

/-- Within its capacity a controller is never at the critical level. -/
theorem log_level {c : ElasticController F R B} {obs : List (Observation F)}
    (h : Along (fun c o => o.usedBytes ≤ c.effectiveCapacity o.capacityBytes) c obs) :
    ∀ t ∈ log c obs, t.level ≠ .critical := by
  induction obs generalizing c with
  | nil => simp [log]
  | cons o rest ih =>
      intro t ht hcritical
      rcases List.mem_cons.mp ht with rfl | ht
      · have hover := (fromUsed_critical_iff _ _ _).mp hcritical
        exact absurd h.1 (Nat.not_le.mpr hover)
      · exact ih h.2 t ht hcritical

/-- In a run of regular steps the minimum interval is kept, and if the capacity is never
exceeded the cooldown is kept as well. -/
theorem intervals_kept (resource : R) (backend : B) (config : ControllerConfig F)
    (budget : BudgetTree) (node : Option ℕ) (obs : List (Observation F))
    (hsteps : obs.Pairwise fun a b => a.step < b.step) (hword : ∀ o ∈ obs, o.step ≤ maxWord)
    (hreg : Along Regular (ElasticController.new resource backend config budget node) obs) :
    IntervalLaw config.minIntervalSteps
        (log (ElasticController.new resource backend config budget node) obs) ∧
      (Along (fun c o => o.usedBytes ≤ c.effectiveCapacity o.capacityBytes)
          (ElasticController.new resource backend config budget node) obs →
        CooldownLaw config.cooldownSteps
          (log (ElasticController.new resource backend config budget node) obs)) := by
  obtain ⟨hmin, hcool⟩ := log_recorded (ready_new resource backend config budget node)
    (fun _ _ => Nat.zero_le _) hsteps hword hreg
  refine ⟨hmin.pairwise, fun hwithin => ?_⟩
  have hlevel := log_level hwithin
  refine hcool.pairwise.imp_of_mem fun ha _ hfar hdemote hpromote => hfar ?_ hpromote
  exact ⟨by rw [hdemote]; simp, fun hexempt => hlevel _ ha hexempt.2⟩

end Run

section Runs

/-- A backend which does nothing. -/
instance : ElasticBackend Unit Unit where
  demote b n := (.ok n, b)
  promote b n := (.ok n, b)
  offload b n := (.ok n, b)
  restore b n := (.ok n, b)
  prefetch b := (.ok (), b)
  rebalance b := (.ok (), b)
  verify b _ := (.ok true, b)

def standardController : ElasticController ℚ Unit Unit :=
  ElasticController.new () () ControllerConfig.standard BudgetTree.new none

/-- A high use that falls, under a forecast without a trend. -/
def fallingUse : List (Observation ℚ) := [.new 1 90 100 0, .new 2 0 100 0, .new 4 0 100 0]

def flatConfig : ControllerConfig ℚ := { ControllerConfig.standard with maxTrend := 0 }

def flatController : ElasticController ℚ Unit Unit :=
  ElasticController.new () () flatConfig BudgetTree.new none

example : log flatController fallingUse =
    [⟨1, .demote, .high⟩, ⟨2, .none, .low⟩, ⟨4, .promote, .low⟩] := by decide +kernel

theorem fallingUse_regular : Along Regular flatController fallingUse := by
  refine ⟨⟨?_, ?_, ?_⟩, ⟨?_, ?_, ?_⟩, ⟨?_, ?_, ?_⟩, trivial⟩ <;> decide +kernel

theorem intervals_kept_falling :
    IntervalLaw 2 (log flatController fallingUse) ∧
      CooldownLaw 3 (log flatController fallingUse) := by
  have h := intervals_kept () () flatConfig BudgetTree.new none fallingUse (by decide)
    (by decide) fallingUse_regular
  exact ⟨h.1, h.2 ⟨by decide +kernel, by decide +kernel, by decide +kernel, trivial⟩⟩

/-- Out of capacity, and empty a step later. -/
def suddenRelief : List (Observation ℚ) := [.new 1 2 1 0, .new 2 0 1 0]

/-- Use that rises up to the capacity. -/
def risingUse : List (Observation ℚ) :=
  [.new 1 0 100 0, .new 2 80 100 0, .new 3 100 100 0, .new 4 100 100 0, .new 5 100 100 0,
    .new 6 100 100 0]

theorem log_suddenRelief : log standardController suddenRelief =
    [⟨1, .demote, .critical⟩, ⟨2, .promote, .low⟩] := by decide +kernel

theorem log_risingUse : log standardController risingUse =
    [⟨1, .promote, .low⟩, ⟨2, .none, .normal⟩, ⟨3, .none, .high⟩, ⟨4, .none, .high⟩,
      ⟨5, .demote, .high⟩, ⟨6, .demote, .high⟩] := by decide +kernel

/-- The standard configuration promotes one step after a demotion, and demotes at two
consecutive steps below the critical level. -/
theorem intervals_broken :
    (suddenRelief.Pairwise fun a b => a.step < b.step) ∧
      ¬CooldownLaw standardController.config.cooldownSteps (log standardController suddenRelief) ∧
      (risingUse.Pairwise fun a b => a.step < b.step) ∧
      ¬IntervalLaw standardController.config.minIntervalSteps (log standardController risingUse) := by
  refine ⟨by decide, ?_, by decide, ?_⟩
  · rw [log_suddenRelief]
    intro h
    have hfar := (List.pairwise_cons.mp h).1 _ (List.mem_singleton_self _) rfl rfl
    exact absurd hfar (by decide)
  · rw [log_risingUse]
    intro h
    have hlast := List.Pairwise.drop (i := 4) h
    have hfar := (List.pairwise_cons.mp hlast).1 _ (List.mem_singleton_self _)
      ⟨by decide, by decide⟩ ⟨by decide, by decide⟩
    exact absurd hfar (by decide)

end Runs

end SlhaV2.AntiThrash
