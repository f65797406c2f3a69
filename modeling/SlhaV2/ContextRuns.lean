import SlhaV2.LogicalContext

/-!
# Steps of the logical context

A step ends in one of two ways: an error that leaves the cache as it was, or an
action whose moves the cache has committed. Between steps the owner may run any
cache operation, so the invariant only mentions what no operation changes.
-/
namespace SlhaV2.ContextRuns
open MachineWord FloatingPoint ByteBudget ControlLoop GuardedRun PhysicalCache
open PhysicalCache.ElasticKvCache TileCodec SlotVector PhysicalSteps SlotOperations
open CacheOperations CacheRuns HardBudget LogicalContext LogicalContext.ElasticContext

variable {F : Type} {x x' : ElasticContext F} {budget : ℕ} {id : String}

/-- The slots, the count and the evictions are what they were. -/
def Unchanged (c c' : ElasticKvCache F) : Prop :=
  c'.slots = c.slots ∧ c'.residentBytes = c.residentBytes ∧ c'.evictions = c.evictions

/-- How a step ends, with the release it owes when the forecast needs one. -/
structure StepEnds (budget shortfall : ℕ) (x : ElasticContext F)
    (r : Outcome ActionRequest × ElasticContext F) : Prop where
  noPanic : r.1 ≠ .error .panic
  failed : (∃ m, r.1 = .error (.err m)) → Unchanged x.cache r.2.cache
  capped : Succeeded r.1 → r.2.cache.residentBytes ≤ budget
  pins : ∀ i s, slotAt x.cache.slots i = some s → s.tier = .pinned →
    slotAt r.2.cache.slots i = some s
  released : r.1 = .ok .demote → r.2.cache.residentBytes ≤ x.cache.residentBytes - shortfall
  path : Path (fun _ => False) x.cache r.2.cache
  controller : r.2.controller.limits = x.controller.limits
  vramBudget : r.2.vramBudget = x.vramBudget

/-- An error before the cache is reached. -/
theorem StepEnds.early {shortfall : ℕ} {m : String} (hc : x'.cache = x.cache)
    (hl : x'.controller.limits = x.controller.limits) (hv : x'.vramBudget = x.vramBudget) :
    StepEnds budget shortfall x (.error (.err m), x') where
  noPanic := by simp
  failed _ := by rw [hc]; exact ⟨rfl, rfl, rfl⟩
  capped := by simp
  pins i s hat _ := by rw [hc]; exact hat
  released := by simp
  path := by rw [hc]
  controller := hl
  vramBudget := hv

/-- A change of the bookkeeping before a part does not disturb how it ends. -/
theorem StepEnds.after {shortfall : ℕ} {r : Outcome ActionRequest × ElasticContext F}
    (h : StepEnds budget shortfall x' r) (hc : x'.cache = x.cache)
    (hl : x'.controller.limits = x.controller.limits) (hv : x'.vramBudget = x.vramBudget) :
    StepEnds budget shortfall x r where
  noPanic := h.noPanic
  failed he := by rw [← hc]; exact h.failed he
  capped := h.capped
  pins := by rw [← hc]; exact h.pins
  released := by rw [← hc]; exact h.released
  path := by rw [← hc]; exact h.path
  controller := h.controller.trans hl
  vramBudget := h.vramBudget.trans hv

/-- The forced rung never exceeds what the shortfall allows. -/
theorem releaseTarget_le (action : ActionRequest) (resident shortfall budget : ℕ) :
    releaseTarget action resident shortfall budget ≤ resident - shortfall := by
  unfold releaseTarget
  dsimp only
  split_ifs with h
  · obtain ⟨_, hpos, hge⟩ := h
    have := le_min_iff.mp hge
    omega
  · exact min_le_left _ _

theorem releases_iff {action : ActionRequest} :
    releases action = true ↔ action = .demote ∨ action = .offload := by
  simp [releases]

theorem cache_counted (x : ElasticContext F) (action : ActionRequest) :
    (x.counted action).cache = x.cache ∧ (x.counted action).controller = x.controller ∧
      (x.counted action).vramBudget = x.vramBudget := by
  cases action <;> exact ⟨rfl, rfl, rfl⟩

variable [F64 F]

/-- What every operation on a context keeps. -/
structure Held (budget : ℕ) (id : String) (x : ElasticContext F) : Prop where
  sound : Sound x.cache
  fits : Fits x.cache
  cacheLimits : limits x.cache = limits (ElasticKvCache.new (F := F) budget id)
  controller : x.controller.limits = (rootOnly budget, some 0, dryRunConfig)
  vramBudget : x.vramBudget = ⟨.adaptive (budget / 4) budget, none⟩

theorem Held.budget_eq (h : Held budget id x) : x.controllerBudgetBytes = budget := by
  have hle : budget / 4 ≤ budget := Nat.div_le_self _ _
  simp [controllerBudgetBytes, h.vramBudget, AdaptiveValue.current, hle]

theorem Held.configBudget (h : Held budget id x) : x.cache.configBudgetBytes = budget :=
  configBudgetBytes_of_limits h.cacheLimits

theorem Held.capacity (h : Held budget id x) (n : ℕ) :
    x.controller.effectiveCapacity n = min n budget := by
  have hl := h.controller
  simp only [ElasticController.limits, Prod.mk.injEq] at hl
  simp [ElasticController.effectiveCapacity, hl.1, hl.2.1, Except.toOption]

theorem Held.neverFails (h : Held budget id x) : x.controller.NeverFails := by
  have hl := congrArg (fun l => l.2.2) h.controller
  refine .inl ?_
  rw [show x.controller.config = dryRunConfig from hl]
  rfl

theorem refreshCacheTelemetry_ok (hs : Sound x.cache) (hfit : Fits x.cache) :
    ∃ y : ElasticContext F, x.refreshCacheTelemetry = .ok y ∧ y.cache = x.cache ∧
      y.controller = x.controller ∧ y.vramBudget = x.vramBudget := by
  have hle : (x.cache.slots.reduceOption.map PhysicalSlot.offloadedBytes).sum ≤ maxWord :=
    (offloaded_le hs).trans hfit
  simp only [refreshCacheTelemetry, checkedSum, if_pos hle, Except.map]
  exact ⟨_, rfl, rfl, rfl, rfl⟩

/-- Applying an action to the cache and reporting it. -/
theorem enact_ends (h : Held budget id x) (action : ActionRequest) (shortfall : ℕ) :
    StepEnds budget shortfall x (x.enact action shortfall budget) := by
  unfold enact
  dsimp only
  generalize htgt : (if releases action = true then
    releaseTarget action x.cache.residentBytes shortfall budget else budget) = target
  have hcases := applyAction_cases action target h.sound h.fits
  have hpath := applyAction_path (fun _ => False) action target h.sound h.fits
  rcases hra : x.cache.applyAction action target with ⟨ra, cache⟩
  rw [hra] at hcases hpath
  cases ra with
  | error e =>
      obtain ⟨⟨m, hm⟩, h₁, h₂, h₃, _⟩ : (∃ m, e = .err m) ∧ cache.slots = x.cache.slots ∧
          cache.residentBytes = x.cache.residentBytes ∧
          cache.evictions = x.cache.evictions ∧ True := by
        rcases hcases with ⟨_, hb, _⟩ | ⟨⟨m, hm⟩, h₁, h₂, h₃, _⟩
        · cases hb
        · exact ⟨⟨m, Except.error.inj hm⟩, h₁, h₂, h₃, trivial⟩
      subst hm
      exact ⟨by simp, fun _ => ⟨h₁, h₂, h₃⟩, by simp,
        fun i s hat _ => by rw [h₁]; exact hat, by simp, hpath, rfl, rfl⟩
  | ok changed =>
      have hmoves : Moves x.cache cache := by
        rcases hcases with ⟨_, _, hm⟩ | ⟨⟨m, hm⟩, _⟩
        · exact hm
        · cases hm
      obtain ⟨heq, hch, hcap, hrel⟩ := applyAction_ok (congrArg Prod.fst hra)
      rw [hra] at heq hch hcap hrel
      have hbud : cache.configBudgetBytes = budget :=
        (configBudgetBytes_congr (Moves.keeps_all h.sound hmoves).2.2.2.2).trans h.configBudget
      have hrelease : action = .demote → cache.residentBytes ≤
          x.cache.residentBytes - shortfall := by
        intro ha
        have hle := (hrel (.inl ha)).trans (min_le_left _ _)
        rw [← htgt, if_pos (releases_iff.mpr (.inl ha))] at hle
        exact hle.trans (releaseTarget_le _ _ _ _)
      dsimp only
      by_cases hstall : shortfall > 0 ∧ releases action = true ∧ (!changed) = true
      · rw [if_pos hstall]
        -- The release freed nothing, so the loop made no move.
        have hsame : cache = x.cache := by
          rcases mutate_release_le (releases_iff.mp hstall.2.1)
            (min target x.cache.configBudgetBytes) h.sound with hid | hlt
          · exact heq.trans hid
          · rw [← heq] at hlt
            have hchanged : changed = true := by rw [hch]; simpa using hlt.ne
            simp [hchanged] at hstall
        exact StepEnds.early hsame rfl rfl
      · rw [if_neg hstall]
        generalize hy : (if changed = true then
          ({ x with cache := cache } : ElasticContext F).counted action
          else { x with cache := cache }) = y
        obtain ⟨hyc, hyk, hyv⟩ : y.cache = cache ∧ y.controller = x.controller ∧
            y.vramBudget = x.vramBudget := by
          subst hy
          split_ifs
          · exact cache_counted _ action
          · exact ⟨rfl, rfl, rfl⟩
        have hsy : Sound y.cache := hyc ▸ Moves.sound h.sound hmoves
        have hfy : Fits y.cache := hyc ▸ Moves.fits h.sound h.fits hmoves
        obtain ⟨z, hz, hzc, hzk, hzv⟩ := refreshCacheTelemetry_ok hsy hfy
        rw [hz]
        have hzcache : z.cache = cache := hzc.trans hyc
        refine ⟨by simp, by simp, fun _ => ?_, fun i s hat ht => ?_, fun ha => ?_, ?_, ?_, ?_⟩
        · rw [hzcache, ← hbud]
          exact hcap
        · rw [hzcache]
          exact Moves.pinned hmoves hat ht
        · rw [hzcache]
          exact hrelease (Except.ok.inj ha)
        · rw [hzcache]
          exact hpath
        · rw [hzk, hyk]
        · exact hzv.trans hyv

/-- A context only ever answers with the action it enacted. -/
theorem action_of_enact {action a : ActionRequest} {shortfall n : ℕ}
    (h : (x.enact action shortfall n).1 = .ok a) : a = action := by
  unfold enact at h
  dsimp only at h
  split at h
  · cases h
  · split_ifs at h
    all_goals
      split at h
      · cases h
      · exact (Except.ok.inj h).symm

/-- The observation was accepted: free memory is within the total when there is one. -/
theorem available_le_of_validate {obs : ContextObservation} (h : obs.validate = .ok ()) :
    obs.vramTotal ≠ 0 → obs.vramAvailable.toNat ≤ obs.vramTotal.toNat := by
  intro hne
  unfold ContextObservation.validate at h
  split at h
  · cases h
  · split_ifs at h with h₁
    exact UInt64.le_iff_toNat_le.mp (UInt64.not_lt.mp fun hlt => h₁ ⟨hne, hlt⟩)

theorem record_ok {obs : ContextObservation} (demand : RawDemand)
    (hav : obs.vramTotal ≠ 0 → obs.vramAvailable.toNat ≤ obs.vramTotal.toNat) :
    ∃ y : ElasticContext F, x.record obs demand = .ok y ∧ y.cache = x.cache ∧
      y.controller = x.controller ∧ y.vramBudget = x.vramBudget := by
  unfold record
  by_cases hz : obs.vramTotal = 0
  · simp only [if_pos hz, Except.map]
    exact ⟨_, rfl, rfl, rfl, rfl⟩
  · simp only [if_neg hz, wordSub, if_pos (hav hz), Except.map]
    exact ⟨_, rfl, rfl, rfl, rfl⟩

theorem scaledSystemPressure_ok (total available : ℕ) {budget : ℕ} (hb : budget ≤ maxWord)
    (hav : total ≠ 0 → available ≤ total) :
    ∃ n, scaledSystemPressure total available budget = .ok n := by
  unfold scaledSystemPressure
  split_ifs with hz
  · exact ⟨0, rfl⟩
  · push Not at hz
    simp only [wordSub, if_pos (hav hz.1)]
    rw [if_pos ((min_le_right _ _).trans hb)]
    exact ⟨_, rfl⟩

theorem Held.of_same {y : ElasticContext F} (h : Held budget id x) (hc : y.cache = x.cache)
    (hk : y.controller.limits = x.controller.limits) (hv : y.vramBudget = x.vramBudget) :
    Held budget id y where
  sound := hc ▸ h.sound
  fits := hc ▸ h.fits
  cacheLimits := hc ▸ h.cacheLimits
  controller := hk.trans h.controller
  vramBudget := hv.trans h.vramBudget

/-- Deciding and enacting; a demand past the budget can only be answered by a demotion. -/
theorem control_ends (h : Held budget id x) (hb : budget < maxWord) {obs : ContextObservation}
    (demand : RawDemand)
    (hav : obs.vramTotal ≠ 0 → obs.vramAvailable.toNat ≤ obs.vramTotal.toNat) :
    StepEnds budget (demand.growthBytes - obs.vramAvailable.toNat) x (x.control obs demand) ∧
      (budget < x.cache.residentBytes + (demand.growthBytes - obs.vramAvailable.toNat) →
        ∀ a, (x.control obs demand).1 = .ok a → a = .demote) := by
  obtain ⟨y, hy, hyc, hyk, hyv⟩ := record_ok (x := x) demand hav
  have hy' : Held budget id y := h.of_same hyc (by rw [hyk]) hyv
  obtain ⟨n, hn⟩ := scaledSystemPressure_ok obs.vramTotal.toNat
    obs.vramAvailable.toNat hb.le
    (fun hne => hav fun hz => hne (by rw [hz]; rfl))
  unfold ElasticContext.control
  simp only [hy, hy'.budget_eq, hn]
  generalize hobs : Observation.new (F := F) obs.step.toNat _ budget _ = o
  obtain ⟨d, hd, hover⟩ := y.controller.step_decides o hy'.neverFails
  have hlim := y.controller.limits_step o
  rcases hcs : y.controller.step o with ⟨rd, ctrl⟩
  rw [hcs] at hd hlim
  obtain rfl : rd = _ := hd
  have hz : Held budget id { y with controller := ctrl } := hy'.of_same rfl hlim rfl
  have hend := enact_ends hz d.action (demand.growthBytes - obs.vramAvailable.toNat)
  refine ⟨hend.after hyc (hlim.trans (by rw [hyk])) hyv, fun hgrow a ha => ?_⟩
  have hdem : d.action = .demote := by
    refine hover ?_
    rw [hy'.capacity, ← hobs]
    refine (min_le_right _ _).trans_lt (lt_max_of_lt_left ?_)
    rw [hyc]
    exact lt_satAdd hgrow hb
  have hact : a = d.action := action_of_enact ha
  exact hact.trans hdem

theorem growthBytes_of_rawDemand {obs : ContextObservation} {n : ℕ} {d : RawDemand}
    (h : obs.rawDemand n = .ok d) : ∃ b, obs.topology.tryRawBytesPerToken = .ok b ∧
      d.growthBytes = obs.predictedGrowth.toNat * b := by
  unfold ContextObservation.rawDemand at h
  split at h
  · cases h
  · rename_i b hb
    refine ⟨b, hb, ?_⟩
    split at h
    · cases h
    · split at h
      · cases h
      · split at h
        · cases h
        · rename_i g hg
          cases h
          exact (checkedMul_eq_some.mp hg).2

omit [F64 F] in
/-- Both limits bound a forecast that the effective limit admits. -/
theorem le_limits_of_effectiveLimit {obs : ContextObservation} {n : ℕ}
    (h : ¬ ((x.effectiveLimit obs).elim false (fun l => decide (n > l))) = true) :
    (∀ l, x.modelPositionalLimit = some l → n ≤ l) ∧
      ∀ l, obs.modelPositionalLimit = some l → n ≤ l.toNat := by
  unfold effectiveLimit at h
  cases hx : x.modelPositionalLimit <;> cases ho : obs.modelPositionalLimit <;>
    simp [hx, ho] at h ⊢ <;> omega

/-- What an accepted step promises about its answer. -/
structure Answers (budget : ℕ) (x : ElasticContext F) (obs : ContextObservation)
    (shortfall : ℕ) (a : ActionRequest) : Prop where
  configured : ∀ l, x.modelPositionalLimit = some l →
    obs.logicalTokens.toNat + obs.predictedGrowth.toNat ≤ l
  observed : ∀ l, obs.modelPositionalLimit = some l →
    obs.logicalTokens.toNat + obs.predictedGrowth.toNat ≤ l.toNat
  shortfall_eq : ∃ b, obs.topology.tryRawBytesPerToken = .ok b ∧
    shortfall = obs.predictedGrowth.toNat * b - obs.vramAvailable.toNat
  demotes : budget < x.cache.residentBytes + shortfall → a = .demote

theorem step_ends (h : Held budget id x) (hb : budget < maxWord) (obs : ContextObservation) :
    ∃ shortfall, StepEnds budget shortfall x (x.step obs) ∧
      ∀ a, (x.step obs).1 = .ok a → Answers budget x obs shortfall a := by
  unfold ElasticContext.step
  cases hval : obs.validate with
  | error e => exact ⟨0, StepEnds.early rfl rfl rfl, by simp⟩
  | ok _ =>
      have hav := available_le_of_validate hval
      cases hadd : checkedAdd obs.logicalTokens.toNat obs.predictedGrowth.toNat with
      | none => exact ⟨0, StepEnds.early rfl rfl rfl, by simp⟩
      | some n =>
          obtain ⟨_, rfl⟩ := checkedAdd_eq_some.mp hadd
          dsimp only
          by_cases hlim : ((x.effectiveLimit obs).elim false (fun l =>
              decide (obs.logicalTokens.toNat + obs.predictedGrowth.toNat > l))) = true
          · rw [if_pos hlim]
            exact ⟨0, StepEnds.early rfl rfl rfl, by simp⟩
          · rw [if_neg hlim]
            cases hdem : obs.rawDemand (obs.logicalTokens.toNat + obs.predictedGrowth.toNat) with
            | error e => exact ⟨0, StepEnds.early rfl rfl rfl, by simp⟩
            | ok demand =>
                obtain ⟨hl₁, hl₂⟩ := le_limits_of_effectiveLimit hlim
                obtain ⟨b, hbpt, hg⟩ := growthBytes_of_rawDemand hdem
                have hy : Held budget id { x with telemetry := { x.telemetry with
                    modelPositionalLimit := x.effectiveLimit obs } } := h.of_same rfl rfl rfl
                obtain ⟨hend, hover⟩ := control_ends hy hb demand hav
                refine ⟨_, hend.after rfl rfl rfl, fun a ha => ⟨hl₁, hl₂, ⟨b, hbpt, ?_⟩, ?_⟩⟩
                · rw [hg]
                · exact fun hgrow => hover hgrow a ha

/-- What may happen to a context: the owner uses the cache, or a step runs. -/
inductive ContextOp where
  | cache (op : Op)
  | setPositionalLimit (limit : UInt64)
  | step (obs : ContextObservation)

section Runs
variable [F32Arith]

def execContext (x : ElasticContext F) : ContextOp → ElasticContext F
  | .cache op => { x with cache := exec x.cache op }
  | .setPositionalLimit limit => x.setPositionalLimit limit
  | .step obs => (x.step obs).2

omit [F32Arith] in
theorem held_new {topology : KvTopology} (h : ElasticContext.new id budget topology = .ok x) :
    Held budget id x := by
  unfold ElasticContext.new at h
  split at h
  · cases h
  · cases h
    exact ⟨sound_new budget id, fits_new budget id, rfl, rfl, rfl⟩

theorem execContext_held (h : Held budget id x) (hb : budget < maxWord) (op : ContextOp)
    (hfit : Fits (execContext x op).cache) : Held budget id (execContext x op) := by
  cases op with
  | cache op =>
      have hpath := (exec_path h.sound h.fits op hfit).1
      exact ⟨Path.sound h.sound hpath, hfit, hpath.limits_eq.trans h.cacheLimits, h.controller,
        h.vramBudget⟩
  | setPositionalLimit limit => exact h.of_same rfl rfl rfl
  | step obs =>
      obtain ⟨_, hend, _⟩ := step_ends h hb obs
      exact ⟨Path.sound h.sound hend.path, hfit, hend.path.limits_eq.trans h.cacheLimits,
        hend.controller.trans h.controller, hend.vramBudget.trans h.vramBudget⟩

theorem reachable_held {x₀ : ElasticContext F} {topology : KvTopology} {ops : List ContextOp}
    (hb : budget < maxWord) (hnew : ElasticContext.new id budget topology = .ok x₀)
    (hrun : Runs execContext (fun x => Fits x.cache) x₀ ops x) : Held budget id x :=
  hrun.invariant (held_new hnew) fun _ op hp hok => execContext_held hp hb op hok

/-- A step of a reachable context never panics; an error leaves the cache as it
was; an answer respects both positional limits, the budget and every pin; and a
forecast past the budget is answered by a demotion that releases the shortfall. -/
theorem context_step_contract {x₀ : ElasticContext F} {topology : KvTopology}
    {ops : List ContextOp} (hb : budget < maxWord)
    (hnew : ElasticContext.new id budget topology = .ok x₀)
    (hrun : Runs execContext (fun x => Fits x.cache) x₀ ops x) (obs : ContextObservation) :
    (x.step obs).1 ≠ .error .panic ∧
      ((∃ m, (x.step obs).1 = .error (.err m)) → Unchanged x.cache (x.step obs).2.cache) ∧
      ∀ a, (x.step obs).1 = .ok a →
        (∀ l, x.modelPositionalLimit = some l →
          obs.logicalTokens.toNat + obs.predictedGrowth.toNat ≤ l) ∧
        (∀ l, obs.modelPositionalLimit = some l →
          obs.logicalTokens.toNat + obs.predictedGrowth.toNat ≤ l.toNat) ∧
        (x.step obs).2.cache.residentBytes ≤ budget ∧
        (∀ i s, slotAt x.cache.slots i = some s → s.tier = .pinned →
          slotAt (x.step obs).2.cache.slots i = some s) ∧
        ∃ b, obs.topology.tryRawBytesPerToken = .ok b ∧
          let g := obs.predictedGrowth.toNat * b - obs.vramAvailable.toNat
          budget < x.cache.residentBytes + g →
            a = .demote ∧ (x.step obs).2.cache.residentBytes ≤ x.cache.residentBytes - g := by
  obtain ⟨shortfall, hend, hans⟩ := step_ends (reachable_held hb hnew hrun) hb obs
  refine ⟨hend.noPanic, hend.failed, fun a ha => ?_⟩
  obtain ⟨hl₁, hl₂, ⟨b, hbpt, rfl⟩, hdem⟩ := hans a ha
  refine ⟨hl₁, hl₂, hend.capped ⟨a, ha⟩, hend.pins, b, hbpt, fun hgrow => ?_⟩
  obtain rfl := hdem hgrow
  exact ⟨rfl, hend.released ha⟩

end Runs

section Example
local instance : F32Arith := F32Arith.trivial

def unitTopology : KvTopology := ⟨1, 1, 1, 1, false, 0⟩

/-- 300 more tokens of one byte each, and no free memory. -/
def growing : ContextObservation := ⟨1, 0, 0, 300, unitTopology, 0, 0, 0, 0, none⟩

/-- One tile resident under a budget of 400 bytes, with 300 bytes forecast. -/
theorem context_step_contract_forecast :
    ∃ x₀ : ElasticContext ℚ, ElasticContext.new "kv" 400 unitTopology = .ok x₀ ∧
      let x := execContext x₀ (.cache (.insert (ByteBuffer.zeros tileBytes)))
      (x.step growing).1 = .ok .demote ∧
        (x.step growing).2.cache.residentBytes ≤ x.cache.residentBytes - 300 := by
  obtain ⟨x₀, hnew⟩ : ∃ x₀ : ElasticContext ℚ,
      ElasticContext.new "kv" 400 unitTopology = .ok x₀ := ⟨_, rfl⟩
  have hone : growing.topology.tryRawBytesPerToken = .ok 1 := by
    simp [growing, unitTopology, KvTopology.tryRawBytesPerToken, KvTopology.validate, checkedMul,
      checkedAdd, maxWord]
  have hcache : x₀.cache = ElasticKvCache.new 400 "kv" := by
    cases hnew
    rfl
  refine ⟨x₀, hnew, ?_⟩
  have hrun : Runs execContext (fun x => Fits x.cache) x₀
      [.cache (.insert (ByteBuffer.zeros tileBytes))]
      (execContext x₀ (.cache (.insert (ByteBuffer.zeros tileBytes)))) := by
    refine Runs.single ?_
    simp only [execContext, hcache]
    decide
  have hok : ((execContext x₀ (.cache (.insert (ByteBuffer.zeros tileBytes)))).step growing).1 =
      .ok .demote := by
    cases hnew
    decide +kernel
  obtain ⟨_, _, h⟩ := context_step_contract (by decide) hnew hrun growing
  obtain ⟨_, _, _, _, b, hb, hforecast⟩ := h .demote hok
  obtain rfl : 1 = b := Except.ok.inj (hone.symm.trans hb)
  refine ⟨hok, (hforecast ?_).2⟩
  simp only [execContext, hcache]
  decide

end Example

end SlhaV2.ContextRuns
