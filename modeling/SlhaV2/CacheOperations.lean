import SlhaV2.SlotOperations

/-!
# Whole-cache operations as paths

The adaptation loops only move slots along the residency graph. A failed
transaction ends where it began, so its path is a single control step.
-/
namespace SlhaV2.CacheOperations
open MachineWord ByteBuffer TileCodec SlotVector FloatingPoint ByteBudget ControlLoop
open PhysicalCache PhysicalCache.ElasticKvCache ResidencyGraph PhysicalSteps SlotOperations
open Relation (ReflTransGen)

variable {F : Type} {c c' : ElasticKvCache F} {i : ℕ} {s : PhysicalSlot} {f g : Form}

theorem presentCount_moveAt (h : MoveAt c i f g c') : c'.presentCount = c.presentCount := by
  cases h with
  | @mk s s' _ _ _ hat =>
      have ht := total_set (fun _ : PhysicalSlot => 1) c.slots i (some s') (slotAt_lt hat)
      rw [hat, weight_some, weight_some] at ht
      exact Nat.add_right_cancel ht

/-- What a path of moves keeps: soundness, the number of slots, the bookkeeping. -/
theorem Moves.keeps_all (hs : Sound c) (h : Moves c c') :
    Sound c' ∧ c'.presentCount = c.presentCount ∧ c'.nextSeq = c.nextSeq ∧
      c'.slots.length = c.slots.length ∧ limits c' = limits c := by
  induction h with
  | refl => exact ⟨hs, rfl, rfl, rfl, rfl⟩
  | tail _ hp ih =>
      obtain ⟨i, f, g, _, hat⟩ := hp
      obtain ⟨h₁, h₂, h₃, h₄, h₅⟩ := ih
      refine ⟨hat.sound h₁, (presentCount_moveAt hat).trans h₂, ?_⟩
      obtain ⟨⟩ := hat
      exact ⟨h₃, (List.length_set).trans h₄, h₅⟩

theorem Moves.sound (hs : Sound c) (h : Moves c c') : Sound c' := (Moves.keeps_all hs h).1

theorem Moves.fits (hs : Sound c) (hfit : Fits c) (h : Moves c c') : Fits c' := by
  unfold Fits
  rw [(Moves.keeps_all hs h).2.1]
  exact hfit

/-- Moves never fill a hole. -/
theorem Moves.slotAt_none (h : Moves c c') (hn : slotAt c.slots i = none) :
    slotAt c'.slots i = none := by
  induction h with
  | refl => exact hn
  | tail _ hp ih =>
      obtain ⟨j, f, g, _, hat⟩ := hp
      obtain ⟨hj, _⟩ := hat
      have hij : j ≠ i := fun hij => by
        rw [hij, ih] at hj
        cases hj
      rw [slotAt_set_of_ne hij]
      exact ih

theorem moves_of_acts {op : ElasticKvCache F → ℕ → Outcome Unit × ElasticKvCache F}
    (hop : ActsOn op) (hs : Sound c) (hfit : Fits c) (i : ℕ) : Moves c (op c i).2 := by
  rcases hop c i hs hfit with h | ⟨f, g, hm, hat⟩
  · rw [h]
  · exact ReflTransGen.single ⟨i, f, g, hm, hat⟩

theorem applyEach_moves {op : ElasticKvCache F → ℕ → Outcome Unit × ElasticKvCache F}
    (hop : ActsOn op) (xs : List ℕ) (hs : Sound c) (hfit : Fits c) :
    Moves c (applyEach op xs c).2 := by
  induction xs generalizing c with
  | nil => exact .refl
  | cons i xs ih =>
      have h := moves_of_acts hop hs hfit i
      exact h.trans (ih (Moves.sound hs h) (Moves.fits hs hfit h))

theorem applyUntil_moves {op : ElasticKvCache F → ℕ → Outcome Unit × ElasticKvCache F}
    (hop : ActsOn op) (n : ℕ) (xs : List ℕ) (hs : Sound c) (hfit : Fits c) :
    Moves c (applyUntil op n xs c) := by
  induction xs generalizing c n with
  | nil => cases n <;> exact .refl
  | cons i xs ih =>
      cases n with
      | zero => exact .refl
      | succ n =>
          have h := moves_of_acts hop hs hfit i
          exact h.trans (ih _ (Moves.sound hs h) (Moves.fits hs hfit h))

theorem demoteLowestImportance_moves (hs : Sound c) (hfit : Fits c) (n : ℕ) :
    Moves c (c.demoteLowestImportance n).2 := applyEach_moves demoteSlot_acts _ hs hfit

theorem evictLowestImportance_moves (hs : Sound c) (hfit : Fits c) (n : ℕ) :
    Moves c (c.evictLowestImportance n).2 := applyEach_moves evictSlot_acts _ hs hfit

theorem mem_slotsWhere {p : PhysicalTier → Bool} :
    i ∈ c.slotsWhere p ↔ ∃ s, slotAt c.slots i = some s ∧ p s.tier = true := by
  unfold slotsWhere
  rw [List.mem_filter, List.mem_range]
  constructor
  · rintro ⟨_, h⟩
    cases hat : slotAt c.slots i with
    | none => simp [hat] at h
    | some s => exact ⟨s, rfl, by simpa [hat] using h⟩
  · rintro ⟨s, hat, h⟩
    exact ⟨slotAt_lt hat, by simpa [hat] using h⟩

/-- The first of a sorted selection: nothing was selected, or one selected slot. -/
theorem take_one_sortLowFirst (p : PhysicalTier → Bool) :
    ((c.sortLowFirst (c.slotsWhere p)).take 1 = [] ∧
        ∀ i s, slotAt c.slots i = some s → p s.tier = false) ∨
      ∃ i s, (c.sortLowFirst (c.slotsWhere p)).take 1 = [i] ∧ slotAt c.slots i = some s ∧
        p s.tier = true := by
  have hmem : ∀ i, i ∈ c.sortLowFirst (c.slotsWhere p) ↔
      ∃ s, slotAt c.slots i = some s ∧ p s.tier = true := fun i => by
    rw [← mem_slotsWhere, sortLowFirst, List.mem_mergeSort]
  cases hl : c.sortLowFirst (c.slotsWhere p) with
  | nil =>
      refine .inl ⟨rfl, fun i s hat => ?_⟩
      have hn := (hmem i).not.mp (by simp [hl])
      exact Bool.eq_false_iff.mpr fun hp => hn ⟨s, hat, hp⟩
  | cons i rest =>
      obtain ⟨s, hat, hp⟩ := (hmem i).mp (by simp [hl])
      exact .inr ⟨i, s, rfl, hat, hp⟩

/-- No slot is HOT. -/
def NoHot (c : ElasticKvCache F) : Prop := ∀ i s, slotAt c.slots i = some s → s.tier ≠ .hot

theorem residentBytes_moveAt (h : MoveAt c i f g c') :
    c'.residentBytes + f.residentBytes = c.residentBytes + g.residentBytes := by
  obtain ⟨_, _, _, _, _, _, hr, _⟩ := h
  exact hr

theorem demoted_lt (h : MoveAt c i .hot .warm c') : c'.residentBytes < c.residentBytes := by
  have hr : c'.residentBytes + 128 = c.residentBytes + 96 := residentBytes_moveAt h
  omega

/-- One demotion: there is no HOT slot, or one of them becomes WARM. -/
theorem demoteLowestImportance_one (hs : Sound c) :
    (NoHot c ∧ c.demoteLowestImportance 1 = (0, c)) ∨
      ∃ i c', MoveAt c i .hot .warm c' ∧ c.demoteLowestImportance 1 = (1, c') := by
  unfold demoteLowestImportance candidates
  rcases take_one_sortLowFirst (c := c) (fun t => decide (t = .hot)) with
    ⟨hl, hn⟩ | ⟨i, s, hl, hat, hp⟩
  · rw [hl]
    exact .inl ⟨fun i s hat => of_decide_eq_false (hn i s hat), rfl⟩
  · rw [hl]
    obtain ⟨hok, hmv⟩ := demoteSlot_hot hs hat (of_decide_eq_true hp)
    exact .inr ⟨i, _, hmv, by simp [applyEach, hok]⟩

/-- One eviction: nothing adaptable is resident, or one slot goes COLD. -/
theorem evictLowestImportance_one (hs : Sound c) :
    ((∀ i s, slotAt c.slots i = some s → s.tier ≠ .hot ∧ s.tier ≠ .warm) ∧
        c.evictLowestImportance 1 = (0, c)) ∨
      ∃ i c', (MoveAt c i .hot .coldFull c' ∨ MoveAt c i .warm .coldPacked c') ∧
        c.evictLowestImportance 1 = (1, c') := by
  unfold evictLowestImportance
  rcases take_one_sortLowFirst (c := c) (fun t => t = .hot || t = .warm) with
    ⟨hl, hn⟩ | ⟨i, s, hl, hat, hp⟩
  · rw [hl]
    exact .inl ⟨fun i s hat => by simpa using hn i s hat, rfl⟩
  · rw [hl]
    have ht : s.tier = .hot ∨ s.tier = .warm := by simpa using hp
    rcases ht with ht | ht
    · obtain ⟨hok, hmv⟩ := evictSlot_hot hs hat ht
      exact .inr ⟨i, _, .inl hmv, by simp [applyEach, hok]⟩
    · obtain ⟨hok, hmv⟩ := evictSlot_warm hs hat ht
      exact .inr ⟨i, _, .inr hmv, by simp [applyEach, hok]⟩

theorem demoteLoop_moves (target fuel : ℕ) (hs : Sound c) (hfit : Fits c) :
    Moves c (demoteLoop target fuel c) := by
  induction fuel generalizing c with
  | zero => exact .refl
  | succ fuel ih =>
      unfold demoteLoop
      have h₁ := demoteLowestImportance_moves hs hfit 1
      have h₂ := evictLowestImportance_moves (Moves.sound hs h₁) (Moves.fits hs hfit h₁) 1
      have h₃ : Moves c (if (c.demoteLowestImportance 1).1 = 0 then
          ((c.demoteLowestImportance 1).2.evictLowestImportance 1).2
          else (c.demoteLowestImportance 1).2) := by
        split_ifs
        · exact h₁.trans h₂
        · exact h₁
      dsimp only
      split_ifs at h₃ ⊢
      · exact h₃
      · exact h₃.trans (ih (Moves.sound hs h₃) (Moves.fits hs hfit h₃))
      · exact h₃
      · exact h₃.trans (ih (Moves.sound hs h₃) (Moves.fits hs hfit h₃))
      · exact .refl
      · exact .refl

theorem offloadLoop_moves (target fuel : ℕ) (hs : Sound c) (hfit : Fits c) :
    Moves c (offloadLoop target fuel c) := by
  induction fuel generalizing c with
  | zero => exact .refl
  | succ fuel ih =>
      unfold offloadLoop
      have h := evictLowestImportance_moves hs hfit 1
      dsimp only
      split_ifs
      · exact h
      · exact h.trans (ih (Moves.sound hs h) (Moves.fits hs hfit h))
      · exact .refl

theorem denseLoop_moves (need target fuel : ℕ) (hs : Sound c) (hfit : Fits c) :
    Moves c (denseLoop need target fuel c).2 := by
  induction fuel generalizing c with
  | zero => exact .refl
  | succ fuel ih =>
      unfold denseLoop
      have h := demoteLowestImportance_moves hs hfit 1
      cases checkedAdd c.residentBytes need with
      | none => exact .refl
      | some n =>
          dsimp only
          split_ifs
          · exact h
          · exact h.trans (ih (Moves.sound hs h) (Moves.fits hs hfit h))
          · exact .refl

/-- Every round of a dense write that goes on has demoted a slot, so the fuel lasts. -/
theorem denseLoop_ne_panic (need target fuel : ℕ) (hs : Sound c)
    (hfuel : c.residentBytes < fuel) : (denseLoop need target fuel c).1 ≠ .error .panic := by
  induction fuel generalizing c with
  | zero => omega
  | succ fuel ih =>
      unfold denseLoop
      cases checkedAdd c.residentBytes need with
      | none => simp
      | some n =>
          rcases demoteLowestImportance_one hs with ⟨_, h⟩ | ⟨i, c', hmv, h⟩
          · simp only [h, true_or, if_true]
            split_ifs <;> simp
          · obtain ⟨hlt, hs'⟩ : c'.residentBytes < c.residentBytes ∧ Sound c' :=
              ⟨demoted_lt hmv, hmv.sound hs⟩
            simp only [h]
            split_ifs
            · simp
            · exact ih hs' (by omega)
            · simp

theorem mutate_moves (action : ActionRequest) (target : ℕ) (hs : Sound c) (hfit : Fits c) :
    Moves c (c.mutate action target) := by
  unfold mutate
  cases action with
  | demote => exact demoteLoop_moves target _ hs hfit
  | offload => exact offloadLoop_moves target _ hs hfit
  | promote => exact applyUntil_moves promoteSlot_acts _ _ hs hfit
  | restore => exact applyUntil_moves restoreSlot_acts _ _ hs hfit
  | none | prefetch | rebalance | operator _ => exact .refl

/-- An action either commits its moves or ends in the state it started from. -/
theorem applyAction_cases (action : ActionRequest) (target : ℕ) (hs : Sound c) (hfit : Fits c) :
    (∃ b, (c.applyAction action target).1 = .ok b ∧
        Moves c (c.applyAction action target).2) ∨
      (∃ m, (c.applyAction action target).1 = .error (.err m)) ∧
        (c.applyAction action target).2.slots = c.slots ∧
        (c.applyAction action target).2.residentBytes = c.residentBytes ∧
        (c.applyAction action target).2.evictions = c.evictions ∧
        (c.applyAction action target).2.nextSeq = c.nextSeq ∧
        limits (c.applyAction action target).2 = limits c := by
  have hm := mutate_moves action (min target c.configBudgetBytes) hs hfit
  obtain ⟨hsm, hpm, hqm, _, hlm⟩ := Moves.keeps_all hs hm
  have hle : (c.mutate action (min target c.configBudgetBytes)).residentBytes ≤ maxWord := by
    have := resident_le hsm
    rw [hpm] at this
    exact this.trans hfit
  unfold applyAction
  dsimp only
  have hv := verifyAccounting_ok hsm hle
  unfold checkAction
  rw [hv]
  dsimp only
  split_ifs
  · exact .inr ⟨⟨_, rfl⟩, rfl, rfl, rfl, hqm, hlm⟩
  · exact .inr ⟨⟨_, rfl⟩, rfl, rfl, rfl, hqm, hlm⟩
  · exact .inl ⟨_, rfl, hm⟩

theorem applyAction_path (touch : ℕ → Prop) (action : ActionRequest) (target : ℕ)
    (hs : Sound c) (hfit : Fits c) : Path touch c (c.applyAction action target).2 := by
  rcases applyAction_cases action target hs hfit with ⟨_, _, h⟩ | ⟨_, h₁, h₂, _, h₃, h₄⟩
  · exact Moves.path h touch
  · exact ReflTransGen.single (Prim.control h₁ h₂ h₃ h₄)

end SlhaV2.CacheOperations
