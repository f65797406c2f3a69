import SlhaV2.PhysicalSteps

/-!
# The four residency transitions and pinning, exactly

Each transition either moves its slot along one edge of the residency graph or
leaves the cache as it was. The count never wraps: a slot that gives bytes back
was charged for them, and a slot that takes bytes stays within one full tile.
-/
namespace SlhaV2.SlotOperations
open MachineWord ByteBuffer TileCodec SlotVector FloatingPoint ByteBudget ControlLoop
open PhysicalCache PhysicalCache.ElasticKvCache ResidencyGraph PhysicalSteps
open Relation (ReflTransGen)

variable {F : Type} {c : ElasticKvCache F} {i : ℕ} {s : PhysicalSlot} {t : Tile} {f : Form}

/-- The bytes a slot still lacks are free space under the full-tile total. -/
theorem resident_add_missing_le (hs : Sound c) (hat : slotAt c.slots i = some s)
    (hf : Represents s t f) :
    c.residentBytes + f.backingBytes ≤ tileBytes * c.presentCount := by
  have hw : ∀ j a, slotAt c.slots j = some a →
      a.allocatedBytes + a.offloadedBytes = tileBytes * 1 := by
    intro j a ha
    obtain ⟨u, g, _, hg⟩ := hs.wellFormed j a ha
    rw [hg.allocatedBytes, hg.offloadedBytes, g.residentBytes_add_backingBytes, mul_one]
  have hsum := total_congr hw
  rw [total_add, total_mul_left] at hsum
  have hle := weight_le_total PhysicalSlot.offloadedBytes hat
  rw [hf.offloadedBytes] at hle
  rw [hs.accounting, presentCount]
  omega

theorem resident_le (hs : Sound c) : c.residentBytes ≤ tileBytes * c.presentCount := by
  have hle : total PhysicalSlot.allocatedBytes c.slots ≤ total (fun _ => tileBytes * 1) c.slots :=
    total_le_total fun j a ha => by
      obtain ⟨u, g, _, hg⟩ := hs.wellFormed j a ha
      rw [hg.allocatedBytes]
      exact g.residentBytes_le
  rw [total_mul_left] at hle
  rw [hs.accounting]
  exact hle

/-- The backing bytes, bounded the same way. -/
theorem offloaded_le (hs : Sound c) : c.offloadedBytes ≤ tileBytes * c.presentCount := by
  have hle : total PhysicalSlot.offloadedBytes c.slots ≤ total (fun _ => tileBytes * 1) c.slots :=
    total_le_total fun j a ha => by
      obtain ⟨u, g, _, hg⟩ := hs.wellFormed j a ha
      rw [hg.offloadedBytes]
      exact Nat.le_of_add_left_le g.residentBytes_add_backingBytes.le
  rw [total_mul_left] at hle
  exact hle

/-- The check the source repeats after every mutation succeeds on sound states. -/
theorem verifyAccounting_ok (hs : Sound c) (h : c.residentBytes ≤ maxWord) :
    c.verifyAccounting = .ok () := by
  have hsum : (c.slots.reduceOption.map PhysicalSlot.allocatedBytes).sum = c.residentBytes :=
    hs.accounting.symm
  have hall : c.slots.reduceOption.all verifySlot = true := by
    rw [List.all_eq_true]
    intro s hm
    obtain ⟨i, hi⟩ := exists_slotAt_iff.mpr (List.reduceOption_mem_iff.mp hm)
    obtain ⟨t, f, _, hf⟩ := hs.wellFormed i s hi
    exact hf.verifySlot
  unfold verifyAccounting
  rw [checkedSum_ok (by rw [hsum]; exact h), hsum]
  simp only [ne_eq, not_true_eq_false, if_false, hall, if_true]

theorem demoteSlot_hot (hs : Sound c) (hat : slotAt c.slots i = some s) (ht : s.tier = .hot) :
    (demoteSlot c i).1 = .ok () ∧ MoveAt c i .hot .warm (demoteSlot c i).2 := by
  obtain ⟨t, f, hc, hf⟩ := hs.wellFormed i s hat
  obtain rfl : f = .hot := tier_hot_iff.mp (hf.tier.symm.trans ht)
  have hle := hs.allocated_le hat
  rw [hf.allocatedBytes] at hle
  have hb : tryInto tileBytes s.bytes = some t := by rw [hf.bytes]; exact tryInto_val t
  unfold demoteSlot
  rw [hat]
  simp only [ht, hb]
  refine ⟨trivial, MoveAt.mk hat hc hf ⟨rfl, rfl, rfl, rfl⟩ rfl rfl ?_ rfl⟩
  simp only [Form.residentBytes, tileBytes, warmPackedBytes, residualWords] at hle ⊢
  omega

/-- Demotion acts on HOT slots only. -/
theorem demoteSlot_of_not_hot (h : ∀ s, slotAt c.slots i = some s → s.tier ≠ .hot) :
    (demoteSlot c i).2 = c := by
  unfold demoteSlot
  cases hat : slotAt c.slots i with
  | none => rfl
  | some s =>
      have ht := h s hat
      cases hs : s.tier with
      | hot => exact (ht hs).elim
      | warm | cold | pinned => simp only [hs]

theorem promoteSlot_warm (hs : Sound c) (hfit : Fits c) (hat : slotAt c.slots i = some s)
    (ht : s.tier = .warm) (hb : c.residentBytes + residualBytes ≤ c.configBudgetBytes) :
    (promoteSlot c i).1 = .ok () ∧ MoveAt c i .warm .hot (promoteSlot c i).2 := by
  obtain ⟨t, f, hc, hf⟩ := hs.wellFormed i s hat
  obtain rfl : f = .warm := tier_warm_iff.mp (hf.tier.symm.trans ht)
  have hroom := (resident_add_missing_le hs hat hf).trans hfit
  have hadd : satAdd c.residentBytes (tileBytes - warmPackedBytes) =
      c.residentBytes + residualBytes := satAdd_eq hroom
  have hpk : tryInto warmPackedBytes s.bytes = some (packWarm (setWarmFlag t true)) := by
    rw [hf.bytes]
    exact tryInto_val _
  unfold promoteSlot
  rw [hat]
  simp only [ht, hadd, hpk, hf.warmResidual, Form.residual, not_lt.mpr hb, if_false]
  refine ⟨trivial, MoveAt.mk hat hc hf ⟨rfl, ?_, hf.offloaded, rfl⟩ rfl rfl ?_ rfl⟩
  · exact congrArg Subtype.val ((unpackWithResidual_packWarm t).trans hc)
  · simp only [Form.residentBytes, tileBytes, warmPackedBytes, residualWords, residualBytes]

/-- Otherwise promotion changes nothing, and fails unless the slot is HOT. -/
theorem promoteSlot_of_not (hs : Sound c) (hfit : Fits c)
    (h : ∀ s, slotAt c.slots i = some s → s.tier = .warm →
      c.configBudgetBytes < c.residentBytes + residualBytes) :
    (promoteSlot c i).2 = c ∧
      (Succeeded (promoteSlot c i).1 → c.tier i = some .hot) := by
  unfold promoteSlot ElasticKvCache.tier
  cases hat : slotAt c.slots i with
  | none => simp
  | some s =>
      cases ht : s.tier with
      | hot => simp [ht]
      | pinned | cold => simp [ht]
      | warm =>
          obtain ⟨t, f, hc, hf⟩ := hs.wellFormed i s hat
          obtain rfl : f = .warm := tier_warm_iff.mp (hf.tier.symm.trans ht)
          have hadd : satAdd c.residentBytes (tileBytes - warmPackedBytes) =
              c.residentBytes + residualBytes :=
            satAdd_eq ((resident_add_missing_le hs hat hf).trans hfit)
          simp [ht, hadd, h s hat ht]

theorem evictSlot_hot (hs : Sound c) (hat : slotAt c.slots i = some s) (ht : s.tier = .hot) :
    (evictSlot c i).1 = .ok () ∧ MoveAt c i .hot .coldFull (evictSlot c i).2 := by
  obtain ⟨t, f, hc, hf⟩ := hs.wellFormed i s hat
  obtain rfl : f = .hot := tier_hot_iff.mp (hf.tier.symm.trans ht)
  have hle := hs.allocated_le hat
  have hlen : s.bytes.length = tileBytes := hf.allocatedBytes
  unfold evictSlot
  rw [hat]
  simp only [ht, reduceCtorEq, if_false, hlen, ne_eq, not_true_eq_false, false_and]
  refine ⟨trivial, MoveAt.mk hat hc hf ⟨rfl, rfl, ?_, hf.warmResidual⟩ rfl rfl ?_ rfl⟩
  · exact congrArg some hf.bytes
  · rw [hf.allocatedBytes] at hle
    simp only [Form.residentBytes] at hle ⊢
    omega

theorem evictSlot_warm (hs : Sound c) (hat : slotAt c.slots i = some s) (ht : s.tier = .warm) :
    (evictSlot c i).1 = .ok () ∧ MoveAt c i .warm .coldPacked (evictSlot c i).2 := by
  obtain ⟨t, f, hc, hf⟩ := hs.wellFormed i s hat
  obtain rfl : f = .warm := tier_warm_iff.mp (hf.tier.symm.trans ht)
  have hle := hs.allocated_le hat
  have hlen : s.bytes.length = warmPackedBytes := hf.allocatedBytes
  unfold evictSlot
  rw [hat]
  simp only [ht, reduceCtorEq, if_false, hlen, ne_eq, not_true_eq_false, and_false]
  refine ⟨trivial, MoveAt.mk hat hc hf ⟨rfl, rfl, ?_, hf.warmResidual⟩ rfl rfl ?_ rfl⟩
  · exact congrArg some hf.bytes
  · rw [hf.allocatedBytes] at hle
    simp only [Form.residentBytes] at hle ⊢
    omega

theorem evictSlot_of_not_resident
    (h : ∀ s, slotAt c.slots i = some s → s.tier = .cold ∨ s.tier = .pinned) :
    (evictSlot c i).2 = c := by
  unfold evictSlot
  cases hat : slotAt c.slots i with
  | none => rfl
  | some s => rcases h s hat with ht | ht <;> simp [ht]

/-- The image a COLD form keeps has the length of the form it restores to. -/
theorem length_image {image : List UInt8} (hf : Represents s t f) (ho : s.offloaded = some image) :
    f = .coldFull ∧ image = t.1 ∨
      f = .coldPacked ∧ image = (packWarm (setWarmFlag t true)).1 := by
  rw [hf.offloaded] at ho
  cases f with
  | hot | warm | pinned => cases ho
  | coldFull => exact .inl ⟨rfl, (Option.some.inj ho).symm⟩
  | coldPacked => exact .inr ⟨rfl, (Option.some.inj ho).symm⟩

/-- Restoring a COLD slot goes back along the edge it was evicted by. -/
theorem restoreSlot_cold (hs : Sound c) (hfit : Fits c) (hat : slotAt c.slots i = some s)
    {image : List UInt8} (ht : s.tier = .cold) (ho : s.offloaded = some image)
    (hb : c.residentBytes + image.length ≤ c.configBudgetBytes) :
    (restoreSlot c i).1 = .ok () ∧
      (MoveAt c i .coldFull .hot (restoreSlot c i).2 ∨
        MoveAt c i .coldPacked .warm (restoreSlot c i).2) := by
  obtain ⟨t, f, hc, hf⟩ := hs.wellFormed i s hat
  have hroom := (resident_add_missing_le hs hat hf).trans hfit
  have hcases := length_image hf ho
  have h128 : t.1.length = 128 := t.2
  have h96 : (packWarm (setWarmFlag t true)).1.length = 96 := (packWarm (setWarmFlag t true)).2
  have hback : image.length ≤ f.backingBytes := by
    rcases hcases with ⟨rfl, rfl⟩ | ⟨rfl, rfl⟩
    · exact h128.le
    · exact h96.le.trans (by decide)
  have hadd : satAdd c.residentBytes image.length = c.residentBytes + image.length :=
    satAdd_eq (by omega)
  unfold restoreSlot
  rw [hat]
  simp only [ht, ne_eq, not_true_eq_false, if_false, ho, hadd, not_lt.mpr hb]
  rcases hcases with ⟨rfl, rfl⟩ | ⟨rfl, rfl⟩
  · simp only [PhysicalSlot.restore, h128, tileBytes, if_true, true_and]
    refine .inl (MoveAt.mk hat hc hf ⟨rfl, rfl, rfl, hf.warmResidual⟩ rfl rfl ?_ rfl)
    simp only [Form.residentBytes, tileBytes]
  · simp only [PhysicalSlot.restore, h96, tileBytes, warmPackedBytes, residualWords,
      Nat.reduceEqDiff, if_false, Nat.reduceMul, Nat.reduceSub, if_true, true_and]
    refine .inr (MoveAt.mk hat hc hf ⟨rfl, rfl, rfl, hf.warmResidual⟩ rfl rfl ?_ rfl)
    simp only [Form.residentBytes, tileBytes, warmPackedBytes, residualWords]

theorem restoreSlot_of_not (hs : Sound c) (hfit : Fits c)
    (h : ∀ s image, slotAt c.slots i = some s → s.tier = .cold → s.offloaded = some image →
      c.configBudgetBytes < c.residentBytes + image.length) :
    (restoreSlot c i).2 = c := by
  unfold restoreSlot
  cases hat : slotAt c.slots i with
  | none => rfl
  | some s =>
      by_cases ht : s.tier = .cold
      · cases ho : s.offloaded with
        | none => simp only [ht, ne_eq, not_true_eq_false, if_false, ho]
        | some image =>
            obtain ⟨t, f, hc, hf⟩ := hs.wellFormed i s hat
            have hroom := (resident_add_missing_le hs hat hf).trans hfit
            have hback : image.length ≤ f.backingBytes := by
              rcases length_image hf ho with ⟨rfl, rfl⟩ | ⟨rfl, rfl⟩
              · exact t.2.le
              · exact (packWarm (setWarmFlag t true)).2.le.trans (by decide)
            have hadd : satAdd c.residentBytes image.length =
                c.residentBytes + image.length := satAdd_eq (by omega)
            simp only [ht, ne_eq, not_true_eq_false, if_false, ho, hadd, gt_iff_lt,
              h s image hat ht ho, if_true]
      · simp only [ne_eq, ht, not_false_eq_true, if_true]

/-- An operation on one slot moves it along the graph or changes nothing. -/
def ActsOn (op : ElasticKvCache F → ℕ → Outcome Unit × ElasticKvCache F) : Prop :=
  ∀ c i, Sound c → Fits c →
    (op c i).2 = c ∨ ∃ f g, Form.Move f g ∧ MoveAt c i f g (op c i).2

theorem demoteSlot_acts : ActsOn (demoteSlot (F := F)) := by
  intro c i hs _
  by_cases h : ∃ s, slotAt c.slots i = some s ∧ s.tier = .hot
  · obtain ⟨s, hat, ht⟩ := h
    exact .inr ⟨_, _, .demote, (demoteSlot_hot hs hat ht).2⟩
  · exact .inl (demoteSlot_of_not_hot fun s hat ht => h ⟨s, hat, ht⟩)

theorem promoteSlot_acts : ActsOn (promoteSlot (F := F)) := by
  intro c i hs hfit
  by_cases h : ∃ s, slotAt c.slots i = some s ∧ s.tier = .warm ∧
      c.residentBytes + residualBytes ≤ c.configBudgetBytes
  · obtain ⟨s, hat, ht, hb⟩ := h
    exact .inr ⟨_, _, .promote, (promoteSlot_warm hs hfit hat ht hb).2⟩
  · exact .inl (promoteSlot_of_not hs hfit fun s hat ht =>
      Nat.lt_of_not_le fun hb => h ⟨s, hat, ht, hb⟩).1

theorem evictSlot_acts : ActsOn (evictSlot (F := F)) := by
  intro c i hs _
  cases hat : slotAt c.slots i with
  | none => exact .inl (evictSlot_of_not_resident fun s h => by rw [hat] at h; cases h)
  | some s =>
      cases ht : s.tier with
      | hot => exact .inr ⟨_, _, .evictHot, (evictSlot_hot hs hat ht).2⟩
      | warm => exact .inr ⟨_, _, .evictWarm, (evictSlot_warm hs hat ht).2⟩
      | cold =>
          exact .inl (evictSlot_of_not_resident fun s' h => by
            cases hat.symm.trans h
            exact .inl ht)
      | pinned =>
          exact .inl (evictSlot_of_not_resident fun s' h => by
            cases hat.symm.trans h
            exact .inr ht)

theorem restoreSlot_acts : ActsOn (restoreSlot (F := F)) := by
  intro c i hs hfit
  by_cases h : ∃ s image, slotAt c.slots i = some s ∧ s.tier = .cold ∧
      s.offloaded = some image ∧ c.residentBytes + image.length ≤ c.configBudgetBytes
  · obtain ⟨s, image, hat, ht, ho, hb⟩ := h
    rcases (restoreSlot_cold hs hfit hat ht ho hb).2 with hm | hm
    · exact .inr ⟨_, _, .restoreFull, hm⟩
    · exact .inr ⟨_, _, .restorePacked, hm⟩
  · exact .inl (restoreSlot_of_not hs hfit fun s image hat ht ho =>
      Nat.lt_of_not_le fun hb => h ⟨s, image, hat, ht, ho, hb⟩)

end SlhaV2.SlotOperations
