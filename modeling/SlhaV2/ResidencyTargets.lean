import SlhaV2.OffloadCycle

/-!
# Residency targets

Demotion and offload requests name a target. Only pins can keep a request from
its target, and a request that fails leaves the slots as they were. A demotion
request evicts only when every slot that is not pinned is WARM already.
-/
namespace SlhaV2.ResidencyTargets
open MachineWord ByteBuffer TileCodec SlotVector FloatingPoint ByteBudget ControlLoop GuardedRun
open PhysicalCache PhysicalCache.ElasticKvCache ResidencyGraph PhysicalSteps SlotOperations
open CacheOperations CacheRuns HardBudget OffloadCycle
open Relation (ReflTransGen)

variable {F : Type} {c c' : ElasticKvCache F} {i : ℕ} {s : PhysicalSlot}

/-- The body of the demotion loop. -/
def demoteRound (c : ElasticKvCache F) : ElasticKvCache F :=
  let r := c.demoteLowestImportance 1
  if r.1 = 0 then (r.2.evictLowestImportance 1).2 else r.2

/-- The body of the offload loop. -/
def offloadRound (c : ElasticKvCache F) : ElasticKvCache F := (c.evictLowestImportance 1).2

def releaseRound (action : ActionRequest) : ElasticKvCache F → ElasticKvCache F :=
  if action = .demote then demoteRound else offloadRound

/-- No bytes were released. -/
def Stalled (c c' : ElasticKvCache F) : Prop := c'.residentBytes = c.residentBytes

/-- A round releases bytes or changes nothing. -/
theorem demoteRound_lt (hs : Sound c) :
    demoteRound c = c ∨ Sound (demoteRound c) ∧ (demoteRound c).residentBytes < c.residentBytes := by
  unfold demoteRound
  rcases demoteLowestImportance_one hs with ⟨_, hd⟩ | ⟨i, c₁, hm, hd⟩
  · rw [hd]
    dsimp only
    rw [if_pos rfl]
    rcases evictLowestImportance_cooled hs with ⟨_, he⟩ | ⟨c₁, _, hs₁, hlt, he⟩
    · rw [he]
      exact .inl rfl
    · rw [he]
      exact .inr ⟨hs₁, hlt⟩
  · rw [hd]
    exact .inr ⟨hm.sound hs, demoted_lt hm⟩

theorem offloadRound_lt (hs : Sound c) :
    offloadRound c = c ∨
      Sound (offloadRound c) ∧ (offloadRound c).residentBytes < c.residentBytes := by
  unfold offloadRound
  rcases evictLowestImportance_cooled hs with ⟨_, he⟩ | ⟨c₁, _, hs₁, hlt, he⟩
  · rw [he]
    exact .inl rfl
  · rw [he]
    exact .inr ⟨hs₁, hlt⟩

/-- A loop over such rounds ends before the fuel does. -/
theorem loop_ends (loop : ℕ → ElasticKvCache F → ElasticKvCache F)
    (round : ElasticKvCache F → ElasticKvCache F) (target : ℕ)
    (hloop : ∀ fuel c, loop (fuel + 1) c = if c.residentBytes > target then
      if (round c).residentBytes = c.residentBytes then round c else loop fuel (round c) else c)
    (hround : ∀ c, Sound c →
      round c = c ∨ Sound (round c) ∧ (round c).residentBytes < c.residentBytes)
    (fuel : ℕ) (hs : Sound c) (hfuel : c.residentBytes < fuel) :
    LoopEnds (fun c => target < c.residentBytes) round Stalled c (loop fuel c) := by
  induction fuel generalizing c with
  | zero => omega
  | succ fuel ih =>
      rw [hloop]
      by_cases hover : c.residentBytes > target
      · rw [if_pos hover]
        by_cases hstall : (round c).residentBytes = c.residentBytes
        · rw [if_pos hstall]
          exact .stall hover hstall
        · rw [if_neg hstall]
          rcases hround c hs with hsame | ⟨hs₁, hlt⟩
          · exact (hstall (congrArg residentBytes hsame)).elim
          · exact .again hover hstall (ih hs₁ (by omega))
      · rw [if_neg hover]
        exact .exit hover

theorem mutate_ends {action : ActionRequest} (ha : action = .demote ∨ action = .offload)
    (target : ℕ) (hs : Sound c) :
    LoopEnds (fun c => target < c.residentBytes) (releaseRound action) Stalled c
      (c.mutate action target) := by
  rcases ha with rfl | rfl
  · exact loop_ends (demoteLoop target) demoteRound target (fun _ _ => rfl)
      (fun _ h => demoteRound_lt h) _ hs (Nat.lt_succ_self _)
  · exact loop_ends (offloadLoop target) offloadRound target (fun _ _ => rfl)
      (fun _ h => offloadRound_lt h) _ hs (Nat.lt_succ_self _)

/-- Cooling down touches no pin and makes none. -/
theorem Cooled.pinnedCount (h : Cooled c c') : pinnedCount c' = pinnedCount c := by
  have hw : ∀ i, weight (fun s : PhysicalSlot => if s.tier = .pinned then 1 else 0)
      (slotAt c'.slots i) =
      weight (fun s : PhysicalSlot => if s.tier = .pinned then 1 else 0) (slotAt c.slots i) := by
    intro i
    rcases h.slots i with hi | ⟨s, hat, ha, hi⟩
    · rw [hi]
    · have hcold : (chill s).tier ≠ .pinned := PhysicalTier.noConfusion
      have hpin : s.tier ≠ .pinned := by
        rcases ha with ht | ht <;> rw [ht] <;> exact PhysicalTier.noConfusion
      rw [hi, hat, weight_some, weight_some, if_neg hcold, if_neg hpin]
  exact le_antisymm (total_le_of_slotAt h.length fun i => (hw i).le)
    (total_le_of_slotAt h.length.symm fun i => (hw i).ge)

/-- What both loops end with: the pins are those of before, and only they can
keep the count above the target. -/
structure Released (c : ElasticKvCache F) (target : ℕ) (d : ElasticKvCache F) : Prop where
  sound : Sound d
  fits : Fits d
  limits : limits d = limits c
  pinned : pinnedCount d = pinnedCount c
  settled : d.residentBytes ≤ target ∨ Stuck d

theorem mutate_released {action : ActionRequest} (ha : action = .demote ∨ action = .offload)
    (target : ℕ) (hs : Sound c) (hfit : Fits c) : Released c target (c.mutate action target) := by
  have hmoves := mutate_moves action target hs hfit
  obtain ⟨hs', _, _, _, hlim⟩ := Moves.keeps_all hs hmoves
  have hfit' := Moves.fits hs hfit hmoves
  rcases ha with rfl | rfl
  · obtain ⟨hrel, hend⟩ := demoteLoop_relief target (c.residentBytes + 1) hs (Nat.lt_succ_self _)
    exact ⟨hs', hfit', hlim, hrel.pinnedCount, hend⟩
  · obtain ⟨hcool, _, hend⟩ := offloadLoop_cooled target (c.residentBytes + 1) hs
      (Nat.lt_succ_self _)
    exact ⟨hs', hfit', hlim, Cooled.pinnedCount hcool, hend⟩

/-- A request succeeds exactly when the pins fit its target, and then meets it. -/
theorem applyAction_release {action : ActionRequest} (ha : action = .demote ∨ action = .offload)
    (target : ℕ) (hs : Sound c) (hfit : Fits c) :
    (Succeeded (c.applyAction action target).1 ↔
        tileBytes * pinnedCount c ≤ min target c.configBudgetBytes) ∧
      (Succeeded (c.applyAction action target).1 →
        (c.applyAction action target).2 = c.mutate action (min target c.configBudgetBytes) ∧
          (c.applyAction action target).2.residentBytes ≤ min target c.configBudgetBytes) := by
  have hrel := mutate_released ha (min target c.configBudgetBytes) hs hfit
  have hv := verifyAccounting_ok hrel.sound (resident_le_maxWord hrel.sound hrel.fits)
  have hbud := configBudgetBytes_congr hrel.limits
  have hle := pinned_le_resident hrel.sound
  unfold applyAction
  dsimp only
  generalize c.mutate action (min target c.configBudgetBytes) = d at *
  unfold checkAction
  rw [hv, hbud]
  dsimp only
  by_cases hmet : d.residentBytes ≤ min target c.configBudgetBytes
  · have hcap : ¬ d.residentBytes > c.configBudgetBytes :=
      Nat.not_lt.mpr (hmet.trans (min_le_right _ _))
    rw [if_neg (fun h => Nat.not_lt.mpr hmet h.2), if_neg hcap]
    refine ⟨⟨fun _ => ?_, fun _ => ⟨_, rfl⟩⟩, fun _ => ⟨rfl, hmet⟩⟩
    rw [← hrel.pinned]
    exact hle.trans hmet
  · rw [if_pos ⟨ha, Nat.lt_of_not_le hmet⟩]
    refine ⟨⟨by simp, fun h => ?_⟩, by simp⟩
    rcases hrel.settled with hend | hend
    · exact (hmet hend).elim
    · rw [hend.resident_eq hrel.sound, hrel.pinned] at hmet
      exact (hmet h).elim

section Run
variable [F64 F] [F32Arith] {budget : ℕ} {id : String} {ops : List Op}

/-- A demotion or offload request ends. It succeeds exactly when the pinned tiles
fit the target under the hard budget, then meets the target, and otherwise
reports an error and leaves slots, count and evictions as they were. -/
theorem release_request_contract (hrun : Runs exec Fits (new (F := F) budget id) ops c)
    (action : ActionRequest) (ha : action = .demote ∨ action = .offload) (target : ℕ) :
    (∃ last, LoopEnds (fun d => min target budget < d.residentBytes) (releaseRound action)
        Stalled c last ∧ c.mutate action (min target budget) = last) ∧
      (Succeeded (c.applyAction action target).1 ↔
        tileBytes * pinnedCount c ≤ min target budget) ∧
      (Succeeded (c.applyAction action target).1 →
        (c.applyAction action target).2.residentBytes ≤ min target budget) ∧
      (¬ Succeeded (c.applyAction action target).1 →
        (∃ m, (c.applyAction action target).1 = .error (.err m)) ∧
        (c.applyAction action target).2.slots = c.slots ∧
        (c.applyAction action target).2.residentBytes = c.residentBytes ∧
        (c.applyAction action target).2.evictions = c.evictions) := by
  obtain ⟨hs, hfit⟩ := reachable_sound_fits hrun
  have hbud := configBudgetBytes_of_limits (reachable_limits hrun)
  obtain ⟨hiff, hdone⟩ := applyAction_release ha target hs hfit
  rw [hbud] at hiff hdone
  refine ⟨⟨_, mutate_ends ha _ hs, rfl⟩, hiff, fun hok => (hdone hok).2, fun hno => ?_⟩
  rcases applyAction_cases action target hs hfit with ⟨b, hb, _⟩ | ⟨hm, h₁, h₂, h₃, _⟩
  · exact (hno ⟨b, hb⟩).elim
  · exact ⟨hm, h₁, h₂, h₃⟩

end Run

section Example
local instance : F32Arith := F32Arith.trivial

/-- Two tiles, the first of them pinned, in a budget of two. -/
def pinAndTile [F64 F] : ElasticKvCache F :=
  exec (exec (exec (new 256 "kv") (.insert (zeros tileBytes))) (.insert (zeros tileBytes))) (.pin 0)

theorem runs_pinAndTile : Runs exec Fits (new (F := ℚ) 256 "kv")
    ([.insert (zeros tileBytes)] ++ [.insert (zeros tileBytes)] ++ [.pin 0]) pinAndTile :=
  Runs.snoc (Runs.snoc (Runs.single (by decide)) (by decide)) (by decide +kernel)

theorem release_request_contract_pinAndTile :
    Succeeded ((pinAndTile (F := ℚ)).applyAction .offload 128).1 ∧
      ((pinAndTile (F := ℚ)).applyAction .offload 128).2.residentBytes ≤ min 128 256 := by
  obtain ⟨_, hiff, hdone, _⟩ := release_request_contract runs_pinAndTile .offload (.inr rfl) 128
  have hok := hiff.mpr (by decide +kernel)
  exact ⟨hok, hdone hok⟩

end Example

/-- Slots that are not COLD can be scored. -/
def scoreableCount (c : ElasticKvCache F) : ℕ := c.counts.1 + c.counts.2.1 + c.counts.2.2.2

/-- Every slot that could be scored still can. -/
def KeepsScoreable (c c' : ElasticKvCache F) : Prop :=
  ∀ i s, slotAt c.slots i = some s → s.tier ≠ .cold →
    ∃ s', slotAt c'.slots i = some s' ∧ s'.tier ≠ .cold

/-- The bytes a slot holds once it is as small as a demotion makes it. -/
def leastBytes (s : PhysicalSlot) : ℕ :=
  if s.tier = .cold then 0 else if s.tier = .pinned then tileBytes else warmPackedBytes

theorem total_leastBytes (c : ElasticKvCache F) :
    total leastBytes c.slots = warmPackedBytes * scoreableCount c + residualBytes * pinnedCount c := by
  have hw : ∀ i s, slotAt c.slots i = some s → leastBytes s =
      warmPackedBytes * ((if s.tier = .hot then 1 else 0) + (if s.tier = .warm then 1 else 0) +
        (if s.tier = .pinned then 1 else 0)) + residualBytes * (if s.tier = .pinned then 1 else 0) := by
    intro i s _
    unfold leastBytes
    cases s.tier <;> rfl
  rw [total_congr hw, total_add, total_mul_left, total_mul_left, total_add, total_add]
  rfl

theorem leastBytes_le (hs : Sound c) (hat : slotAt c.slots i = some s) :
    leastBytes s ≤ s.allocatedBytes := by
  obtain ⟨t, f, _, hf⟩ := hs.wellFormed i s hat
  unfold leastBytes
  rw [hf.allocatedBytes, hf.tier]
  cases f <;> decide

/-- Without HOT slots every slot is as small as it gets. -/
theorem NoHot.resident_eq (hs : Sound c) (h : NoHot c) : c.residentBytes = total leastBytes c.slots := by
  rw [hs.accounting]
  apply total_congr
  intro i s hat
  have hhot := h i s hat
  obtain ⟨t, f, _, hf⟩ := hs.wellFormed i s hat
  unfold leastBytes
  rw [hf.tier] at hhot
  rw [hf.allocatedBytes, hf.tier]
  cases f with
  | hot => exact (hhot rfl).elim
  | warm | coldFull | coldPacked | pinned => rfl

theorem total_leastBytes_demoted (h : MoveAt c i .hot .warm c') :
    total leastBytes c'.slots = total leastBytes c.slots := by
  cases h with
  | @mk s s' _ _ _ hat _ hf hg =>
      have hset := total_set leastBytes c.slots i (some s') (slotAt_lt hat)
      have hold : leastBytes s = warmPackedBytes := by
        unfold leastBytes
        rw [hf.tier]
        rfl
      have hnew : leastBytes s' = warmPackedBytes := by
        unfold leastBytes
        rw [hg.tier]
        rfl
      rw [hat, weight_some, weight_some, hold, hnew] at hset
      exact Nat.add_right_cancel hset

theorem keepsScoreable_demoted (h : MoveAt c i .hot .warm c') : KeepsScoreable c c' := by
  intro j s hat ht
  obtain ⟨hi, _, _, hg, _, _, _, _⟩ := h
  by_cases hij : i = j
  · subst hij
    refine ⟨_, slotAt_set_self (slotAt_lt hi) _, ?_⟩
    rw [hg.tier]
    exact PhysicalTier.noConfusion
  · exact ⟨s, (slotAt_set_of_ne hij _).trans hat, ht⟩

theorem KeepsScoreable.trans {d : ElasticKvCache F} (h : KeepsScoreable c c')
    (k : KeepsScoreable c' d) : KeepsScoreable c d := by
  intro i s hat ht
  obtain ⟨s₁, hat₁, ht₁⟩ := h i s hat ht
  exact k i s₁ hat₁ ht₁

/-- A target that all slots at their smallest fit is reached by demotions alone. -/
theorem demoteLoop_keepsScoreable (target fuel : ℕ) (hs : Sound c)
    (hroom : total leastBytes c.slots ≤ target) : KeepsScoreable c (demoteLoop target fuel c) := by
  induction fuel generalizing c with
  | zero => exact fun i s hat ht => ⟨s, hat, ht⟩
  | succ fuel ih =>
      unfold demoteLoop
      by_cases hover : c.residentBytes > target
      · rw [if_pos hover]
        rcases demoteLowestImportance_one hs with ⟨hno, _⟩ | ⟨i, c₁, hm, hd⟩
        · have hleast := NoHot.resident_eq hs hno
          omega
        · simp only [hd, one_ne_zero, if_false]
          have hkeep := keepsScoreable_demoted hm
          split_ifs
          · exact hkeep
          · refine hkeep.trans (ih (hm.sound hs) ?_)
            rw [total_leastBytes_demoted hm]
            exact hroom
      · rw [if_neg hover]
        exact fun i s hat ht => ⟨s, hat, ht⟩

/-- Slots that stay scoreable, and pins that stay pins, need their least bytes. -/
theorem least_le_of_keepsScoreable (hs' : Sound c') (hm : Moves c c')
    (hlen : c'.slots.length = c.slots.length) (h : KeepsScoreable c c') :
    total leastBytes c.slots ≤ c'.residentBytes := by
  have hle : total leastBytes c.slots ≤ total leastBytes c'.slots := by
    apply total_le_of_slotAt hlen.symm
    intro i
    cases hat : slotAt c.slots i with
    | none => exact Nat.zero_le _
    | some s =>
        rw [weight_some]
        by_cases hcold : s.tier = .cold
        · have hzero : leastBytes s = 0 := if_pos hcold
          rw [hzero]
          exact Nat.zero_le _
        · by_cases hpin : s.tier = .pinned
          · rw [Moves.pinned hm hat hpin, weight_some]
          · obtain ⟨s', hat', hcold'⟩ := h i s hat hcold
            rw [hat', weight_some]
            unfold leastBytes
            rw [if_neg hcold, if_neg hpin, if_neg hcold']
            split_ifs <;> decide
  rw [hs'.accounting]
  exact hle.trans (total_le_total fun i s hat => leastBytes_le hs' hat)

section Run
variable [F64 F] [F32Arith] {budget : ℕ} {id : String} {ops : List Op}

/-- A demotion request keeps every scoreable slot scoreable exactly when its target
has 96 bytes for each of them and the residual planes of the pins beside, or when
the pins alone exceed the target and the request is rolled back. -/
theorem demoteTo_keepsScoreable_iff (hrun : Runs exec Fits (new (F := F) budget id) ops c)
    (target : ℕ) (hcap : target ≤ budget) :
    KeepsScoreable c (c.demoteTo target).2 ↔
      warmPackedBytes * scoreableCount c + residualBytes * pinnedCount c ≤ target ∨
        target < tileBytes * pinnedCount c := by
  obtain ⟨hs, hfit⟩ := reachable_sound_fits hrun
  have hbud := configBudgetBytes_of_limits (reachable_limits hrun)
  have hmin : min target c.configBudgetBytes = target := by rw [hbud, min_eq_left hcap]
  obtain ⟨hiff, hdone⟩ := applyAction_release (.inl rfl : ActionRequest.demote = .demote ∨ _)
    target hs hfit
  rw [hmin] at hiff hdone
  have hcases := applyAction_cases .demote target hs hfit
  unfold ElasticKvCache.demoteTo
  rw [← total_leastBytes]
  by_cases hfits : tileBytes * pinnedCount c ≤ target
  · -- The request is granted: what counts is whether it had to evict.
    obtain ⟨heq, hle⟩ := hdone (hiff.mpr hfits)
    have hmoves : Moves c (c.applyAction .demote target).2 := by
      rw [heq]
      exact mutate_moves .demote target hs hfit
    obtain ⟨hs', _, _, hlen, _⟩ := Moves.keeps_all hs hmoves
    constructor
    · intro hkeep
      exact .inl ((least_le_of_keepsScoreable hs' hmoves hlen hkeep).trans hle)
    · rintro (hroom | hlt)
      · rw [heq]
        exact demoteLoop_keepsScoreable target _ hs hroom
      · omega
  · -- The request is refused: the slots are what they were.
    constructor
    · intro _
      exact .inr (Nat.lt_of_not_le hfits)
    · intro _
      rcases hcases with ⟨b, hb, _⟩ | ⟨_, hslots, _⟩
      · exact (hfits (hiff.mp ⟨b, hb⟩)).elim
      · intro i s hat ht
        exact ⟨s, by rw [hslots]; exact hat, ht⟩

end Run

section Example
local instance : F32Arith := F32Arith.trivial

theorem demoteTo_keepsScoreable_iff_pinAndTile :
    192 ≤ 256 ∧ (KeepsScoreable (pinAndTile (F := ℚ)) (pinAndTile.demoteTo 192).2 ↔
      warmPackedBytes * scoreableCount (pinAndTile (F := ℚ)) +
          residualBytes * pinnedCount (pinAndTile (F := ℚ)) ≤ 192 ∨
        192 < tileBytes * pinnedCount (pinAndTile (F := ℚ))) :=
  ⟨by decide, demoteTo_keepsScoreable_iff runs_pinAndTile 192 (by decide)⟩

/-- 192 bytes are 96 for each of the two slots, but the pin keeps 128 of them. -/
theorem demoteTo_evicts_beside_pin :
    warmPackedBytes * scoreableCount (pinAndTile (F := ℚ)) ≤ 192 ∧ 192 ≤ 256 ∧
      ¬ KeepsScoreable (pinAndTile (F := ℚ)) (pinAndTile.demoteTo 192).2 := by
  refine ⟨by decide +kernel, by decide, fun h => ?_⟩
  have hgone : (slotAt (pinAndTile (F := ℚ)).slots 1).map PhysicalSlot.tier = some .hot ∧
      (slotAt (pinAndTile.demoteTo (F := ℚ) 192).2.slots 1).map PhysicalSlot.tier = some .cold := by
    decide +kernel
  obtain ⟨s, hat, ht⟩ := Option.map_eq_some_iff.mp hgone.1
  obtain ⟨s', hat', hcold⟩ := Option.map_eq_some_iff.mp hgone.2
  obtain ⟨s₁, hat₁, hne⟩ := h 1 s hat (by rw [ht]; exact PhysicalTier.noConfusion)
  rw [hat'] at hat₁
  cases hat₁
  exact hne hcold

end Example

end SlhaV2.ResidencyTargets
