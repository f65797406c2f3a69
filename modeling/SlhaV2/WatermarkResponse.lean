import Mathlib.Tactic.FieldSimp
import Mathlib.Tactic.Linarith
import SlhaV2.AntiThrash

/-!
# Who answers a high pressure

The gate demotes when the pressure reaches the high watermark, but it is asked
only while the forecast announces nothing. A forecast that announces exhaustion
beyond the horizon answers in the gate's place, with no action at all. Over exact
arithmetic the announcement is a comparison of the projected level with one, so
the pressures that go unanswered can be named.
-/
namespace SlhaV2.WatermarkResponse
open MachineWord FloatingPoint PressureSignal ByteBudget ControlLoop ElasticController
open AntiThrash

/-- The level is at one, or rises to it within `k` steps. -/
def Exhausts (f : Forecast ℚ) (k : ℕ) : Prop :=
  1 ≤ f.level ∨ 0 < f.trend ∧ 1 ≤ f.level + f.trend * k

/-- Rounding up to a word, the way the source does. -/
theorem roundedUp_le_iff {raw : ℚ} (hpos : 0 ≤ raw) (hword : raw ≤ (maxWord : ℚ)) (k : ℕ) :
    (if ((⌊raw⌋₊ : ℕ) : ℚ) = raw then ⌊raw⌋₊ else satAdd ⌊raw⌋₊ 1) ≤ k ↔ raw ≤ k := by
  have hfloor : (⌊raw⌋₊ : ℚ) ≤ raw := Nat.floor_le hpos
  have hnext : raw < (⌊raw⌋₊ : ℚ) + 1 := Nat.lt_floor_add_one raw
  by_cases hwhole : ((⌊raw⌋₊ : ℕ) : ℚ) = raw
  · rw [if_pos hwhole]
    constructor
    · intro hle
      rw [← hwhole]
      exact_mod_cast hle
    · intro hle
      rw [← hwhole] at hle
      exact_mod_cast hle
  · rw [if_neg hwhole]
    have hlt : (⌊raw⌋₊ : ℚ) < raw := lt_of_le_of_ne hfloor hwhole
    have hroom : ⌊raw⌋₊ < maxWord := by exact_mod_cast hlt.trans_le hword
    have hsat : satAdd ⌊raw⌋₊ 1 = ⌊raw⌋₊ + 1 := by
      unfold satAdd
      omega
    rw [hsat]
    constructor
    · intro hle
      have hcast : (⌊raw⌋₊ : ℚ) + 1 ≤ k := by exact_mod_cast hle
      exact hnext.le.trans hcast
    · intro hle
      have hcast : ⌊raw⌋₊ < k := by exact_mod_cast hlt.trans_le hle
      exact hcast

theorem quotient_le_iff {f : Forecast ℚ} (htrend : 0 < f.trend) (k : ℕ) :
    (1 - f.level) / f.trend ≤ k ↔ 1 ≤ f.level + f.trend * k := by
  rw [div_le_iff₀ htrend]
  constructor
  · intro h
    linarith
  · intro h
    linarith

/-- What the forecast announces, with the tests on words of `f64` read exactly. -/
theorem stepsToExhaustion_eq {f : Forecast ℚ} (hinit : f.initialized = true) :
    stepsToExhaustion f 1 =
      if 1 ≤ f.level then some 0
      else if f.trend ≤ 0 then none
      else if (maxWord : ℚ) < (1 - f.level) / f.trend then none
      else some (if ((⌊(1 - f.level) / f.trend⌋₊ : ℕ) : ℚ) = (1 - f.level) / f.trend
        then ⌊(1 - f.level) / f.trend⌋₊ else satAdd ⌊(1 - f.level) / f.trend⌋₊ 1) := by
  have hone : F64.lt (1 : ℚ) (F64.lit 0) = false := by decide
  unfold stepsToExhaustion
  rw [hinit, hone]
  by_cases hlevel : 1 ≤ f.level
  · rw [if_pos hlevel]
    simp [F64.isFinite, F64.le, hlevel]
  rw [if_neg hlevel]
  by_cases htrend : f.trend ≤ 0
  · rw [if_pos htrend]
    simp [F64.isFinite, F64.le, F64.lit, hlevel, htrend]
  rw [if_neg htrend]
  have hrise : 0 < f.trend := lt_of_not_ge htrend
  have hpos : 0 ≤ (1 - f.level) / f.trend :=
    div_nonneg (sub_nonneg.mpr (le_of_not_ge hlevel)) hrise.le
  by_cases hword : (maxWord : ℚ) < (1 - f.level) / f.trend
  · rw [if_pos hword]
    simp [F64.isFinite, F64.le, F64.lt, F64.lit, F64.ofNat, hlevel, htrend, hword]
  · rw [if_neg hword]
    have hfloor : F64.toU64 ((1 - f.level) / f.trend) = ⌊(1 - f.level) / f.trend⌋₊ := by
      have hle : ⌊(1 - f.level) / f.trend⌋₊ ≤ maxWord := by
        have hcast := (Nat.floor_le hpos).trans (le_of_not_gt hword)
        exact_mod_cast hcast
      unfold F64.toU64
      exact min_eq_left hle
    simp [F64.isFinite, F64.le, F64.lt, F64.eq, F64.lit, F64.ofNat, hlevel, htrend, hword,
      not_lt.mpr hpos, hfloor]

/-- The forecast announces a number of steps within `k` exactly when it projects
exhaustion within `k` steps and within a word. -/
theorem announces_iff {f : Forecast ℚ} (hinit : f.initialized = true) (k : ℕ) :
    (∃ m, stepsToExhaustion f 1 = some m ∧ m ≤ k) ↔ Exhausts f k ∧ Exhausts f maxWord := by
  rw [stepsToExhaustion_eq hinit]
  unfold Exhausts
  by_cases hlevel : 1 ≤ f.level
  · rw [if_pos hlevel]
    exact ⟨fun _ => ⟨.inl hlevel, .inl hlevel⟩, fun _ => ⟨0, rfl, Nat.zero_le k⟩⟩
  rw [if_neg hlevel]
  by_cases htrend : f.trend ≤ 0
  · rw [if_pos htrend]
    constructor
    · rintro ⟨_, hnone, _⟩
      cases hnone
    · rintro ⟨hone | ⟨hrise, _⟩, _⟩
      · exact (hlevel hone).elim
      · exact (not_lt.mpr htrend hrise).elim
  rw [if_neg htrend]
  have hrise : 0 < f.trend := lt_of_not_ge htrend
  have hpos : 0 ≤ (1 - f.level) / f.trend :=
    div_nonneg (sub_nonneg.mpr (le_of_not_ge hlevel)) hrise.le
  by_cases hword : (maxWord : ℚ) < (1 - f.level) / f.trend
  · rw [if_pos hword]
    constructor
    · rintro ⟨_, hnone, _⟩
      cases hnone
    · rintro ⟨_, hone | ⟨_, hreach⟩⟩
      · exact (hlevel hone).elim
      · exact (not_lt.mpr ((quotient_le_iff hrise maxWord).mpr hreach) hword).elim
  · rw [if_neg hword]
    have hfits := (quotient_le_iff hrise maxWord).mp (le_of_not_gt hword)
    have hround := roundedUp_le_iff hpos (le_of_not_gt hword) k
    rw [quotient_le_iff hrise k] at hround
    constructor
    · rintro ⟨m, hm, hle⟩
      rw [← Option.some.inj hm] at hle
      exact ⟨.inr ⟨hrise, hround.mp hle⟩, .inr ⟨hrise, hfits⟩⟩
    · rintro ⟨hone | ⟨_, hreach⟩, _⟩
      · exact (hlevel hone).elim
      · exact ⟨_, rfl, hround.mpr hreach⟩

theorem silent_iff {f : Forecast ℚ} (hinit : f.initialized = true) :
    stepsToExhaustion f 1 = none ↔ ¬ Exhausts f maxWord := by
  rw [stepsToExhaustion_eq hinit]
  unfold Exhausts
  split_ifs with hlevel htrend hword
  · constructor
    · intro hsome
      cases hsome
    · intro hno
      exact (hno (.inl hlevel)).elim
  · refine ⟨fun _ => ?_, fun _ => rfl⟩
    rintro (hone | ⟨hrise, _⟩)
    · exact hlevel hone
    · exact not_lt.mpr htrend hrise
  · refine ⟨fun _ => ?_, fun _ => rfl⟩
    rintro (hone | ⟨hrise, hreach⟩)
    · exact hlevel hone
    · exact not_lt.mpr ((quotient_le_iff hrise maxWord).mpr hreach) hword
  · have hrise : 0 < f.trend := lt_of_not_ge htrend
    have hfits := (quotient_le_iff hrise maxWord).mp (le_of_not_gt hword)
    constructor
    · intro hsome
      cases hsome
    · intro hno
      exact (hno (.inr ⟨hrise, hfits⟩)).elim

section Decision
variable {R B ε : Type} [ElasticBackend B ε] {c : ElasticController ℚ R B} {obs : Observation ℚ}

/-- The forecast after this observation. -/
def foreseen (c : ElasticController ℚ R B) (obs : Observation ℚ) : Forecast ℚ :=
  (observed c obs).2.forecast

omit [ElasticBackend B ε] in
theorem foreseen_initialized (c : ElasticController ℚ R B) (obs : Observation ℚ) :
    (foreseen c obs).initialized = true := by
  unfold foreseen observed ElasticController.observe Forecast.observe
  cases hinit : c.forecast.initialized <;> simp [F64.isFinite]

/-- The step decides to demote, and any decision it reports says so. -/
def DecidesDemote (c : ElasticController ℚ R B) (obs : Observation ℚ) : Prop :=
  (c.decideAction obs).1 = .demote ∧ ∀ d, (c.step obs).1 = .ok d → d.action = .demote

theorem step_action {d : Decision ℚ} (h : (c.step obs).1 = .ok d) :
    d.action = (c.decideAction obs).1 := by
  unfold ElasticController.step at h
  dsimp only at h
  split_ifs at h
  · split at h
    · cases h
    · cases h
      rfl
  · cases h
    rfl

theorem decidesDemote_iff : DecidesDemote c obs ↔ (c.decideAction obs).1 = .demote := by
  constructor
  · intro h
    exact h.1
  · intro h
    exact ⟨h, fun d hd => (step_action hd).trans h⟩

omit [ElasticBackend B ε] in
/-- At the high watermark the forecast decides; only its silence leaves it to the gate. -/
theorem decideAction_high (hlevel : (pressureOf c obs).level ≠ .critical)
    (hidle : c.gate.state = .idle) (hfar : c.gate.inMinInterval obs.step = false)
    (hhigh : c.gate.high ≤ (observed c obs).1) :
    (c.decideAction obs).1 = .demote ↔
      (∃ m, stepsToExhaustion (foreseen c obs) 1 = some m ∧ m ≤ c.config.forecastHorizon) ∨
        stepsToExhaustion (foreseen c obs) 1 = none ∧
          (c.lastActionStep = obs.step → obs.step = 0) := by
  have hgate : (observed c obs).2.gate.update (observed c obs).1 obs.step =
      (true, { c.gate with state := .active, lastActionStep := obs.step }) := by
    have hsame : (observed c obs).2.gate = c.gate := rfl
    have hle : F64.le c.gate.high (observed c obs).1 = true := decide_eq_true hhigh
    unfold HysteresisGate.update
    rw [hsame, hidle, hfar, hle]
    rfl
  have hunfold : c.decideAction obs = (observed c obs).2.chooseAction obs
      (c.effectiveCapacity obs.capacityBytes) (pressureOf c obs).level (observed c obs).1
      (stepsToExhaustion (foreseen c obs) 1) _ := rfl
  rw [hunfold]
  unfold chooseAction
  rw [if_neg hlevel]
  cases hannounced : stepsToExhaustion (foreseen c obs) 1 with
  | some m =>
      have hstate : (observed c obs).2.gate.state.isActive = false := by
        have hsame : (observed c obs).2.gate.state = .idle := hidle
        rw [hsame]
        rfl
      have hhorizon : (observed c obs).2.config.forecastHorizon = c.config.forecastHorizon := rfl
      dsimp only
      rw [hstate, hhorizon]
      by_cases hsoon : m ≤ c.config.forecastHorizon
      · simp [hsoon]
      · simp [hsoon]
  | none =>
      have hlast : (observed c obs).2.lastActionStep = c.lastActionStep := rfl
      dsimp only
      rw [hgate]
      by_cases hacted : c.lastActionStep = obs.step
      · by_cases hzero : obs.step = 0
        · simp [HysteresisState.isActive, hlast, hacted, hzero]
        · simp [HysteresisState.isActive, hlast, hacted, hzero]
      · simp [HysteresisState.isActive, hlast, hacted]

/-- The controllers that a new one becomes by steps. -/
def Reachable (c : ElasticController ℚ R B) : Prop :=
  ∃ (resource : R) (backend : B) (config : ControllerConfig ℚ) (budget : BudgetTree)
    (budgetNode : Option ℕ) (history : List (Observation ℚ)),
    c = history.foldl (fun c obs => (c.step obs).2)
      (ElasticController.new resource backend config budget budgetNode)

theorem high_chooseAction (c : ElasticController ℚ R B) (obs : Observation ℚ) (capacity : ℕ)
    (level : PressureLevel) (smoothed : ℚ) (exhaustion : Option ℕ) (trace : DecisionTrace ℚ) :
    (c.chooseAction obs capacity level smoothed exhaustion trace).2.2.gate.high = c.gate.high := by
  unfold ElasticController.chooseAction
  by_cases hcritical : level = .critical
  · rw [if_pos hcritical]
  rw [if_neg hcritical]
  cases exhaustion with
  | some steps =>
      dsimp only
      split_ifs <;> rfl
  | none =>
      dsimp only
      rcases update_cases c.gate smoothed obs.step with ⟨heq, _⟩ | ⟨s, heq, _⟩
      · rw [heq]
        dsimp only
        split_ifs <;> rfl
      · rw [heq]
        dsimp only
        split_ifs <;> rfl

/-- The gate enters at the configured watermark. -/
def Configured (c : ElasticController ℚ R B) : Prop :=
  c.gate.high = c.config.watermarks.high

theorem Configured.step (h : Configured c) (obs : Observation ℚ) : Configured (c.step obs).2 := by
  have hgate : (c.step obs).2.gate.high = c.gate.high := by
    rw [(step_gate c obs).1]
    exact high_chooseAction _ _ _ _ _ _ _
  have hconfig : (c.step obs).2.config = c.config := congrArg (·.2.2) (limits_step c obs)
  unfold Configured
  rw [hgate, hconfig]
  exact h

theorem Reachable.configured (h : Reachable c) : Configured c := by
  obtain ⟨resource, backend, config, budget, budgetNode, history, rfl⟩ := h
  have hrun : ∀ c : ElasticController ℚ R B, Configured c →
      Configured (history.foldl (fun c obs => (c.step obs).2) c) := by
    induction history with
    | nil => exact fun _ h => h
    | cons obs history ih => exact fun c h => ih _ (h.step obs)
  exact hrun _ rfl

/-- A high pressure outside the minimum interval is answered with a demotion
exactly when the forecast projects exhaustion within the horizon, or projects
none at all and the step has not been acted on before. -/
theorem high_pressure_demotes_iff (h : Reachable c)
    (hlevel : (pressureOf c obs).level ≠ .critical) (hidle : c.gate.state = .idle)
    (hfar : c.gate.inMinInterval obs.step = false)
    (hhigh : c.config.watermarks.high ≤ (observed c obs).1) :
    DecidesDemote c obs ↔
      Exhausts (foreseen c obs) c.config.forecastHorizon ∧ Exhausts (foreseen c obs) maxWord ∨
        ¬ Exhausts (foreseen c obs) maxWord ∧ (c.lastActionStep = obs.step → obs.step = 0) := by
  have hinit := foreseen_initialized c obs
  have hgate : c.gate.high ≤ (observed c obs).1 := by
    rw [h.configured]
    exact hhigh
  rw [decidesDemote_iff, decideAction_high hlevel hidle hfar hgate, announces_iff hinit,
    silent_iff hinit]

end Decision

section Example

/-- A slow rise through the watermark. -/
def slowRise : ElasticController ℚ Unit Unit := (standardController.step (.new 1 84 100 0)).2

theorem slowRise_reachable : Reachable slowRise :=
  ⟨(), (), ControllerConfig.standard, BudgetTree.new, none, [.new 1 84 100 0], rfl⟩

/-- A level use above the watermark is answered. -/
theorem high_pressure_demotes_level :
    DecidesDemote standardController (.new 1 90 100 0) :=
  (high_pressure_demotes_iff ⟨(), (), ControllerConfig.standard, BudgetTree.new, none, [], rfl⟩
    (by decide +kernel) rfl rfl (by decide +kernel)).mpr
    (.inr ⟨by unfold Exhausts; decide +kernel, by decide +kernel⟩)

/-- The pressure has risen above the watermark, the gate is idle and free to act,
and the step takes no action: exhaustion is announced, and lies beyond the horizon. -/
theorem high_pressure_unanswered :
    Reachable slowRise ∧ (pressureOf slowRise (.new 2 88 100 0)).level ≠ .critical ∧
      slowRise.gate.state = .idle ∧ slowRise.gate.inMinInterval 2 = false ∧
      slowRise.config.watermarks.high ≤ (observed slowRise (.new 2 88 100 0)).1 ∧
      ¬ DecidesDemote slowRise (.new 2 88 100 0) :=
  ⟨slowRise_reachable, by decide +kernel, by decide +kernel, by decide +kernel,
    by decide +kernel, fun h => absurd h.1 (by decide +kernel)⟩

end Example

end SlhaV2.WatermarkResponse
