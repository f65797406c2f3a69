import SlhaV2.CacheRuns

/-!
# Relief to a residency target

The demotion loop takes HOT slots down to WARM while there are any and only
then evicts. It stops at its target or when nothing but pins is resident, so
the pinned bytes alone decide whether a target can be met. Over the hard budget
the controller always asks for this loop, whatever its signals have seen.
-/
namespace SlhaV2.HardBudget
open MachineWord ByteBuffer TileCodec SlotVector FloatingPoint PressureSignal ByteBudget
open ControlLoop GuardedRun PhysicalCache PhysicalCache.ElasticKvCache ResidencyGraph
open PhysicalSteps SlotOperations CacheOperations CacheRuns
open Relation (ReflTransGen)

variable {F : Type} {c c' : ElasticKvCache F} {i : ℕ}

/-- One round of relief: a demotion, or an eviction once no slot is HOT. -/
inductive ReliefStep (c : ElasticKvCache F) : ElasticKvCache F → Prop
  | demote {i : ℕ} {c' : ElasticKvCache F} : MoveAt c i .hot .warm c' → ReliefStep c c'
  | evict {i : ℕ} {c' : ElasticKvCache F} : NoHot c → MoveAt c i .warm .coldPacked c' →
      ReliefStep c c'

abbrev Relief := ReflTransGen (ReliefStep (F := F))

/-- Number of PINNED slots. -/
def pinnedCount (c : ElasticKvCache F) : ℕ := c.counts.2.2.2

def Stuck (c : ElasticKvCache F) : Prop :=
  ∀ i s, slotAt c.slots i = some s → s.tier ≠ .hot ∧ s.tier ≠ .warm

theorem ReliefStep.moves (h : ReliefStep c c') : Moves c c' := by
  cases h with
  | demote hm => exact ReflTransGen.single ⟨_, _, _, .demote, hm⟩
  | evict _ hm => exact ReflTransGen.single ⟨_, _, _, .evictWarm, hm⟩

theorem Relief.moves (h : Relief c c') : Moves c c' := by
  induction h with
  | refl => exact .refl
  | tail _ hr ih => exact ih.trans hr.moves

/-- Relief does not consult the controller. -/
theorem Relief.same_control (h : Relief c c') :
    c'.controller = c.controller ∧ c'.lastReason = c.lastReason := by
  induction h with
  | refl => exact ⟨rfl, rfl⟩
  | tail _ hr ih =>
      cases hr with
      | demote hm => obtain ⟨⟩ := hm; exact ih
      | evict _ hm => obtain ⟨⟩ := hm; exact ih

theorem ReliefStep.lt (h : ReliefStep c c') : c'.residentBytes < c.residentBytes := by
  cases h with
  | demote hm => exact demoted_lt hm
  | evict _ hm =>
      have hr : c'.residentBytes + 96 = c.residentBytes + 0 := residentBytes_moveAt hm
      omega

/-- A move from HOT or WARM to an adaptable form is not a move of a pinned slot. -/
theorem slotAt_pinned_moveAt {f g : Form} {s : PhysicalSlot} (h : MoveAt c i f g c')
    (hf : f ≠ .pinned) {j : ℕ} (hat : slotAt c.slots j = some s) (ht : s.tier = .pinned) :
    slotAt c'.slots j = some s := by
  obtain ⟨hi, _, hrep, _, _, _, _, _⟩ := h
  have hij : i ≠ j := by
    rintro rfl
    cases hi.symm.trans hat
    exact hf (tier_pinned_iff.mp (hrep.tier.symm.trans ht))
  rw [slotAt_set_of_ne hij]
  exact hat

/-- No edge of the graph leaves PINNED, so moves keep pinned slots exactly. -/
theorem Moves.pinned {s : PhysicalSlot} (h : Moves c c')
    (hat : slotAt c.slots i = some s) (ht : s.tier = .pinned) : slotAt c'.slots i = some s := by
  induction h with
  | refl => exact hat
  | tail _ hr ih =>
      obtain ⟨j, f, g, hm, hmv⟩ := hr
      exact slotAt_pinned_moveAt hmv (by rintro rfl; cases hm) ih ht

theorem pinnedCount_moveAt {f g : Form} (h : MoveAt c i f g c') (hf : f ≠ .pinned)
    (hg : g ≠ .pinned) : pinnedCount c' = pinnedCount c := by
  cases h with
  | @mk s s' _ _ _ hi _ hrep hrep' =>
      have hfp := fun h => hf (tier_pinned_iff.mp (hrep.tier.symm.trans h))
      have hgp := fun h => hg (tier_pinned_iff.mp (hrep'.tier.symm.trans h))
      have ht := total_set (fun s : PhysicalSlot => if s.tier = .pinned then 1 else 0) c.slots i
        (some s') (slotAt_lt hi)
      rw [hi, weight_some, weight_some, if_neg hfp, if_neg hgp] at ht
      exact ht

theorem Relief.pinnedCount (h : Relief c c') : pinnedCount c' = pinnedCount c := by
  induction h with
  | refl => rfl
  | tail _ hr ih =>
      rw [← ih]
      cases hr with
      | demote hm => exact pinnedCount_moveAt hm (by decide) (by decide)
      | evict _ hm => exact pinnedCount_moveAt hm (by decide) (by decide)

/-- The pins are a lower bound of the resident bytes, and all of them when stuck. -/
theorem pinned_le_resident (hs : Sound c) : tileBytes * pinnedCount c ≤ c.residentBytes := by
  rw [hs.accounting, pinnedCount, counts, ← total_mul_left]
  refine total_le_total fun j s hat => ?_
  obtain ⟨t, f, _, hf⟩ := hs.wellFormed j s hat
  rw [hf.allocatedBytes, hf.tier]
  cases f <;> decide

theorem Stuck.resident_eq (hs : Sound c) (h : Stuck c) :
    c.residentBytes = tileBytes * pinnedCount c := by
  rw [hs.accounting, pinnedCount, counts, ← total_mul_left]
  refine total_congr fun j s hat => ?_
  obtain ⟨t, f, _, hf⟩ := hs.wellFormed j s hat
  have ht := h j s hat
  rw [hf.tier] at ht
  rw [hf.allocatedBytes, hf.tier]
  cases f with
  | hot => exact (ht.1 rfl).elim
  | warm => exact (ht.2 rfl).elim
  | coldFull | coldPacked | pinned => rfl

/-- With enough fuel the loop is relief that ends at the target or stuck. -/
theorem demoteLoop_relief (target fuel : ℕ) (hs : Sound c) (hfuel : c.residentBytes < fuel) :
    Relief c (demoteLoop target fuel c) ∧
      ((demoteLoop target fuel c).residentBytes ≤ target ∨ Stuck (demoteLoop target fuel c)) := by
  induction fuel generalizing c with
  | zero => omega
  | succ fuel ih =>
      unfold demoteLoop
      by_cases hover : c.residentBytes > target
      · rw [if_pos hover]
        -- One round either is a relief step or finds nothing to adapt.
        have hround : ∀ c₁, ReliefStep c c₁ →
            Relief c (if c₁.residentBytes = c.residentBytes then c₁
              else demoteLoop target fuel c₁) ∧
            ((if c₁.residentBytes = c.residentBytes then c₁
              else demoteLoop target fuel c₁).residentBytes ≤ target ∨
            Stuck (if c₁.residentBytes = c.residentBytes then c₁
              else demoteLoop target fuel c₁)) := by
          intro c₁ hr
          have hlt := hr.lt
          rw [if_neg hlt.ne]
          obtain ⟨h₁, h₂⟩ := ih (Moves.sound hs hr.moves) (by omega)
          exact ⟨(ReflTransGen.single hr).trans h₁, h₂⟩
        rcases demoteLowestImportance_one hs with ⟨hno, hd⟩ | ⟨i, c₁, hm, hd⟩
        · simp only [hd, if_true]
          rcases evictLowestImportance_one hs with ⟨hn, he⟩ | ⟨j, c₁, hm, he⟩
          · simp only [he, if_true]
            exact ⟨.refl, .inr hn⟩
          · simp only [he]
            refine hround c₁ ?_
            rcases hm with hm | hm
            · obtain ⟨s, hat, ht⟩ : ∃ s, slotAt c.slots j = some s ∧ s.tier = .hot := by
                obtain ⟨hat, _, hf, _⟩ := hm
                exact ⟨_, hat, hf.tier⟩
              exact (hno j s hat ht).elim
            · exact .evict hno hm
        · simp only [hd, one_ne_zero, if_false]
          exact hround c₁ (.demote hm)
      · rw [if_neg hover]
        exact ⟨.refl, .inl (Nat.le_of_not_lt hover)⟩

/-- The count stays within a word along moves. -/
theorem resident_le_maxWord (hs : Sound c) (hfit : Fits c) : c.residentBytes ≤ maxWord :=
  (resident_le hs).trans hfit

/-- What a request that succeeds has done. -/
theorem applyAction_ok {action : ActionRequest} {target : ℕ} {b : Bool}
    (h : (c.applyAction action target).1 = .ok b) :
    (c.applyAction action target).2 = c.mutate action (min target c.configBudgetBytes) ∧
      b = ((c.applyAction action target).2.residentBytes != c.residentBytes) ∧
      (c.applyAction action target).2.residentBytes ≤
        (c.applyAction action target).2.configBudgetBytes ∧
      (action = .demote ∨ action = .offload → (c.applyAction action target).2.residentBytes ≤
        min target c.configBudgetBytes) := by
  unfold applyAction at h ⊢
  dsimp only at h ⊢
  generalize c.mutate action (min target c.configBudgetBytes) = d at *
  split at h
  · cases h
  · rename_i hne
    have hc : d.checkAction action (min target c.configBudgetBytes) c.residentBytes = .ok b := h
    rw [hc]
    unfold checkAction at hc
    split at hc
    · cases hc
    · split_ifs at hc with h₁ h₂
      refine ⟨rfl, (Except.ok.inj hc).symm, Nat.le_of_not_lt h₂, fun hr => ?_⟩
      exact Nat.le_of_not_lt fun hgt => h₁ ⟨hr, hgt⟩

theorem Relief.le (h : Relief c c') : c' = c ∨ c'.residentBytes < c.residentBytes := by
  induction h with
  | refl => exact .inl rfl
  | tail _ hr ih =>
      rcases ih with rfl | hlt
      · exact .inr hr.lt
      · exact .inr (hr.lt.trans hlt)

theorem offloadLoop_le (target fuel : ℕ) (hs : Sound c) :
    offloadLoop target fuel c = c ∨
      (offloadLoop target fuel c).residentBytes < c.residentBytes := by
  induction fuel generalizing c with
  | zero => exact .inl rfl
  | succ fuel ih =>
      unfold offloadLoop
      split_ifs with hover
      · rcases evictLowestImportance_one hs with ⟨_, he⟩ | ⟨i, c₁, hm, he⟩
        · simp only [he, if_true]
          exact .inl trivial
        · have hlt : c₁.residentBytes < c.residentBytes := by
            rcases hm with hm | hm
            · have hr : c₁.residentBytes + 128 = c.residentBytes + 0 := residentBytes_moveAt hm
              omega
            · have hr : c₁.residentBytes + 96 = c.residentBytes + 0 := residentBytes_moveAt hm
              omega
          have hs₁ : Sound c₁ := by rcases hm with hm | hm <;> exact hm.sound hs
          simp only [he, if_neg hlt.ne]
          rcases ih hs₁ with h | h
          · rw [h]
            exact .inr hlt
          · exact .inr (h.trans hlt)
      · exact .inl rfl

/-- A release that frees nothing has done nothing. -/
theorem mutate_release_le {action : ActionRequest} (ha : action = .demote ∨ action = .offload)
    (target : ℕ) (hs : Sound c) :
    c.mutate action target = c ∨ (c.mutate action target).residentBytes < c.residentBytes := by
  rcases ha with rfl | rfl
  · exact (demoteLoop_relief target _ hs (Nat.lt_succ_self _)).1.le
  · exact offloadLoop_le target _ hs

/-- A demotion request is met exactly when the pins fit its target. -/
theorem applyAction_demote (target : ℕ) (hs : Sound c) (hfit : Fits c) :
    (Succeeded (c.applyAction .demote target).1 ↔
        tileBytes * pinnedCount c ≤ min target c.configBudgetBytes) ∧
      (Succeeded (c.applyAction .demote target).1 →
        Relief c (c.applyAction .demote target).2 ∧
          (c.applyAction .demote target).2.residentBytes ≤ min target c.configBudgetBytes) := by
  obtain ⟨hrel, hend⟩ := demoteLoop_relief (min target c.configBudgetBytes)
    (c.residentBytes + 1) hs (Nat.lt_succ_self _)
  have hmoves := hrel.moves
  have hs' := Moves.sound hs hmoves
  have hv := verifyAccounting_ok hs' (resident_le_maxWord hs' (Moves.fits hs hfit hmoves))
  have hbud := configBudgetBytes_congr (Moves.keeps_all hs hmoves).2.2.2.2
  have hpin := hrel.pinnedCount
  have hle := pinned_le_resident hs'
  unfold applyAction mutate
  dsimp only
  generalize demoteLoop (min target c.configBudgetBytes) (c.residentBytes + 1) c = d at *
  unfold checkAction
  rw [hv, hbud]
  dsimp only
  by_cases hmet : d.residentBytes ≤ min target c.configBudgetBytes
  · have hcap : ¬ d.residentBytes > c.configBudgetBytes :=
      Nat.not_lt.mpr (hmet.trans (min_le_right _ _))
    rw [if_neg (fun h => Nat.not_lt.mpr hmet h.2), if_neg hcap]
    refine ⟨⟨fun _ => ?_, fun _ => ⟨_, rfl⟩⟩, fun _ => ⟨hrel, hmet⟩⟩
    rw [← hpin]
    exact hle.trans hmet
  · rw [if_pos ⟨.inl rfl, Nat.lt_of_not_le hmet⟩]
    refine ⟨⟨by simp, fun h => ?_⟩, by simp⟩
    rcases hend with hend | hend
    · exact (hmet hend).elim
    · rw [hend.resident_eq hs', hpin] at hmet
      exact (hmet h).elim

theorem execute_ok (ctrl : ElasticController F KvCacheResource KvCacheBackend)
    (action : ActionRequest) (obs : Observation F) (capacity : ℕ) :
    ∃ r, (ctrl.execute action obs capacity).1 = .ok r := by
  cases action <;> exact ⟨_, rfl⟩

theorem configBudgetBytes_of_limits [F64 F] {budget : ℕ} {id : String}
    (h : limits c = limits (new (F := F) budget id)) : c.configBudgetBytes = budget :=
  configBudgetBytes_congr h

theorem effectiveCapacity_of_limits [F64 F] {budget : ℕ} {id : String}
    (h : limits c = limits (new (F := F) budget id)) (n : ℕ) :
    c.controller.effectiveCapacity n = min n budget := by
  have hl : c.controller.limits = (rootOnly budget, some 0, ControllerConfig.standard) :=
    congrArg (fun l => l.2.2.2) h
  simp only [ElasticController.limits, Prod.mk.injEq] at hl
  simp [ElasticController.effectiveCapacity, hl.1, hl.2.1, Except.toOption]

/-- The cache's own controller always decides, and over budget it decides to demote. -/
theorem controller_decides [F64 F] {budget : ℕ} {id : String}
    (h : limits c = limits (new (F := F) budget id)) :
    ∃ d, (c.controller.step c.observation).1 = .ok d ∧
      (budget < c.residentBytes → d.action = .demote) := by
  obtain ⟨d, hd, hact⟩ := c.controller.step_decides c.observation (.inr execute_ok)
  refine ⟨d, hd, fun hover => hact ?_⟩
  rw [effectiveCapacity_of_limits h]
  exact (min_le_right _ _).trans_lt hover

/-- Over budget, a step is the demotion request down to the budget, made by a
cache that differs in its controller only. -/
theorem step_over [F64 F] {budget : ℕ} {id : String}
    (h : limits c = limits (new (F := F) budget id)) (hs : Sound c) (hfit : Fits c)
    (hover : budget < c.residentBytes) :
    ∃ ctrl reason, ctrl.limits = c.controller.limits ∧
      let r := { c with controller := ctrl, lastReason := reason }.applyAction .demote budget
      (Succeeded c.step.1 ↔ Succeeded r.1) ∧ c.step.2 = r.2 ∧
        (¬ Succeeded c.step.1 → ∃ m, c.step.1 = .error (.err m)) := by
  obtain ⟨⟨action, trace⟩, hd, hact⟩ := controller_decides h
  obtain rfl : action = .demote := hact hover
  have hlim := c.controller.limits_step c.observation
  have hbud := configBudgetBytes_of_limits h
  rcases hcs : c.controller.step c.observation with ⟨r, ctrl⟩
  rw [hcs] at hd hlim
  obtain rfl : r = _ := hd
  refine ⟨ctrl, trace.reason, hlim, ?_⟩
  have hs₀ : Sound { c with controller := ctrl, lastReason := trace.reason } :=
    ⟨hs.accounting, hs.wellFormed⟩
  have hfit₀ : Fits { c with controller := ctrl, lastReason := trace.reason } := hfit
  have hcases := applyAction_cases .demote budget hs₀ hfit₀
  have hmet := (applyAction_demote budget hs₀ hfit₀).2
  unfold step
  simp only [hcs, hbud, gt_iff_lt, hover, if_true]
  generalize ({ c with controller := ctrl, lastReason := trace.reason } : ElasticKvCache F) = c₀
    at *
  rcases hra : c₀.applyAction .demote budget with ⟨ra, c₁⟩
  rw [hra] at hcases hmet
  cases ra with
  | error e =>
      refine ⟨by simp, rfl, fun _ => ?_⟩
      rcases hcases with ⟨_, hb, _⟩ | ⟨⟨m, hm⟩, _⟩
      · cases hb
      · obtain rfl : e = .err m := Except.error.inj hm
        exact ⟨m, rfl⟩
  | ok changed =>
      obtain ⟨hrel, hle⟩ := hmet ⟨changed, rfl⟩
      have hs₁ := Moves.sound hs₀ hrel.moves
      have hv := verifyAccounting_ok hs₁
        (resident_le_maxWord hs₁ (Moves.fits hs₀ hfit₀ hrel.moves))
      have hcap : c₁.residentBytes ≤ budget := hle.trans (min_le_left _ _)
      simp [hv, hcap]

/-- One step over the hard budget brings the cache back under it whenever the
pins allow it, by relief that leaves the pins alone; otherwise it reports an
error and the slots, the count and the evictions are what they were. -/
theorem step_restores_hard_budget [F64 F] [F32Arith] {budget : ℕ} {id : String} {ops : List Op}
    (hrun : Runs exec Fits (new (F := F) budget id) ops c) (hover : budget < c.residentBytes) :
    (Succeeded c.step.1 ↔ tileBytes * pinnedCount c ≤ budget) ∧
      (Succeeded c.step.1 → c.step.2.residentBytes ≤ budget ∧
        (∀ i s, slotAt c.slots i = some s → s.tier = .pinned →
          slotAt c.step.2.slots i = some s) ∧
        Relief { c with
          controller := c.step.2.controller
          lastReason := c.step.2.lastReason } c.step.2) ∧
      (¬ Succeeded c.step.1 → (∃ m, c.step.1 = .error (.err m)) ∧ c.step.2.slots = c.slots ∧
        c.step.2.residentBytes = c.residentBytes ∧ c.step.2.evictions = c.evictions) := by
  obtain ⟨hs, hfit⟩ := reachable_sound_fits hrun
  have hlim := reachable_limits hrun
  have hbud := configBudgetBytes_of_limits hlim
  obtain ⟨ctrl, reason, _, hiff, heq, herr⟩ := step_over hlim hs hfit hover
  have hs₀ : Sound { c with controller := ctrl, lastReason := reason } :=
    ⟨hs.accounting, hs.wellFormed⟩
  have hfit₀ : Fits { c with controller := ctrl, lastReason := reason } := hfit
  have hbud₀ : { c with controller := ctrl, lastReason := reason }.configBudgetBytes = budget :=
    hbud
  obtain ⟨hmet, hdone⟩ := applyAction_demote budget hs₀ hfit₀
  have hcases := applyAction_cases .demote budget hs₀ hfit₀
  rw [hbud₀, min_self] at hmet hdone
  refine ⟨hiff.trans hmet, fun hok => ?_, fun hno => ⟨herr hno, ?_⟩⟩
  · obtain ⟨hrel, hle⟩ := hdone (hiff.mp hok)
    rw [heq]
    refine ⟨hle, fun i s hat ht => Moves.pinned hrel.moves hat ht, ?_⟩
    have hsame := hrel.same_control
    rw [hsame.1, hsame.2]
    exact hrel
  · rw [heq]
    rcases hcases with ⟨b, hb, _⟩ | ⟨_, h₁, h₂, h₃, _⟩
    · exact (hno (hiff.mpr ⟨b, hb⟩)).elim
    · exact ⟨h₁, h₂, h₃⟩

section Example
local instance : F32Arith := F32Arith.trivial

/-- Two tiles over a budget of 200 bytes, after one step. -/
theorem step_restores_hard_budget_two_tiles :
    let c := exec (exec (new (F := ℚ) 200 "kv") (.insert (zeros tileBytes)))
      (.insert (zeros tileBytes))
    200 < c.residentBytes ∧ Succeeded c.step.1 ∧ c.step.2.residentBytes ≤ 200 := by
  intro c
  have hrun : Runs exec Fits (new (F := ℚ) 200 "kv")
      ([.insert (zeros tileBytes)] ++ [.insert (zeros tileBytes)]) c :=
    Runs.snoc (Runs.single (by decide)) (by decide)
  have hover : 200 < c.residentBytes := by decide
  obtain ⟨hiff, hdone, _⟩ := step_restores_hard_budget hrun hover
  have hok := hiff.mpr (by decide)
  exact ⟨hover, hok, (hdone hok).1⟩

end Example

end SlhaV2.HardBudget
