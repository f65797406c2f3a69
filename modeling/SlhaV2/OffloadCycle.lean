import SlhaV2.HardBudget

/-!
# Offloading a whole cache and restoring it

An eviction moves the resident bytes of a slot to its backing store and changes
nothing else, so restoring the slot undoes it exactly. Offloading to nothing
evicts every slot that is not pinned; restoring the slots in order goes back
through caches that are charged no more than the one before the offload.
-/
namespace SlhaV2.OffloadCycle
open MachineWord ByteBuffer TileCodec SlotVector FloatingPoint ByteBudget ControlLoop
open PhysicalCache PhysicalCache.ElasticKvCache ResidencyGraph PhysicalSteps SlotOperations
open CacheOperations HardBudget

variable {F : Type} {c c' d : ElasticKvCache F} {i k : ℕ} {s : PhysicalSlot}

/-- A slot after its eviction. -/
def chill (s : PhysicalSlot) : PhysicalSlot :=
  { s with bytes := [], offloaded := some s.bytes, tier := .cold }

/-- A slot that an offload takes. -/
def Adaptable (s : PhysicalSlot) : Prop := s.tier = .hot ∨ s.tier = .warm

theorem length_adaptable (hw : WellFormed s) (ha : Adaptable s) :
    s.tier = .hot ∧ s.bytes.length = tileBytes ∨
      s.tier = .warm ∧ s.bytes.length = warmPackedBytes := by
  obtain ⟨t, f, _, hf⟩ := hw
  have hlen : s.bytes.length = f.residentBytes := hf.allocatedBytes
  rcases ha with ht | ht
  · obtain rfl : f = .hot := tier_hot_iff.mp (hf.tier.symm.trans ht)
    exact .inl ⟨ht, hlen⟩
  · obtain rfl : f = .warm := tier_warm_iff.mp (hf.tier.symm.trans ht)
    exact .inr ⟨ht, hlen⟩

theorem evictSlot_chill (hs : Sound c) (hat : slotAt c.slots i = some s) (ha : Adaptable s) :
    c.evictSlot i = (.ok (), { c with
      slots := c.slots.set i (some (chill s))
      residentBytes := c.residentBytes - s.allocatedBytes
      evictions := satAdd c.evictions 1 }) := by
  have hlen := length_adaptable (hs.wellFormed i s hat) ha
  unfold evictSlot
  rw [hat]
  rcases hlen with ⟨ht, hlen⟩ | ⟨ht, hlen⟩
  · simp only [ht, reduceCtorEq, if_false, hlen, ne_eq, not_true_eq_false, false_and]
    rw [PhysicalSlot.allocatedBytes, hlen]
    rfl
  · simp only [ht, reduceCtorEq, if_false, hlen, ne_eq, not_true_eq_false, and_false]
    rw [PhysicalSlot.allocatedBytes, hlen]
    rfl

/-- The image says by its length which tier it came from. -/
theorem restore_chill (hw : WellFormed s) (ha : Adaptable s) :
    (chill s).restore s.bytes = (.ok (), s) := by
  have hoff : s.offloaded = none := by
    obtain ⟨t, f, _, hf⟩ := hw
    rw [hf.offloaded]
    rcases ha with ht | ht
    · obtain rfl : f = .hot := tier_hot_iff.mp (hf.tier.symm.trans ht)
      rfl
    · obtain rfl : f = .warm := tier_warm_iff.mp (hf.tier.symm.trans ht)
      rfl
  unfold PhysicalSlot.restore chill
  rcases length_adaptable hw ha with ⟨ht, hlen⟩ | ⟨ht, hlen⟩
  · rw [if_pos hlen, ← hoff, ← ht]
  · have hne : s.bytes.length ≠ tileBytes := by rw [hlen]; decide
    rw [if_neg hne, if_pos hlen, ← hoff, ← ht]

theorem restoreSlot_chill (hw : WellFormed s) (ha : Adaptable s)
    (hat : slotAt c.slots i = some (chill s))
    (hb : c.residentBytes + s.allocatedBytes ≤ c.configBudgetBytes)
    (hword : c.residentBytes + s.allocatedBytes ≤ maxWord) :
    c.restoreSlot i = (.ok (), { c with
      slots := c.slots.set i (some s)
      residentBytes := c.residentBytes + s.allocatedBytes }) := by
  have hadd : satAdd c.residentBytes s.bytes.length = c.residentBytes + s.allocatedBytes :=
    satAdd_eq hword
  have hbud : ¬ c.residentBytes + s.allocatedBytes > c.configBudgetBytes := Nat.not_lt.mpr hb
  have hoff : (chill s).offloaded = some s.bytes := rfl
  have hcold : ¬ (chill s).tier ≠ .cold := fun h => h rfl
  unfold restoreSlot
  rw [hat]
  dsimp only
  rw [if_neg hcold, hoff]
  dsimp only
  rw [hadd, if_neg hbud, restore_chill hw ha]

/-- Some adaptable slots of `c` went COLD; nothing but slots, count and statistics changed. -/
structure Cooled (c c' : ElasticKvCache F) : Prop where
  slots : ∀ i, slotAt c'.slots i = slotAt c.slots i ∨
    ∃ s, slotAt c.slots i = some s ∧ Adaptable s ∧ slotAt c'.slots i = some (chill s)
  length : c'.slots.length = c.slots.length
  rest : c' = { c with
    slots := c'.slots
    residentBytes := c'.residentBytes
    evictions := c'.evictions }

theorem Cooled.refl (c : ElasticKvCache F) : Cooled c c := ⟨fun _ => .inl rfl, rfl, rfl⟩

theorem Cooled.trans (h : Cooled c c') (k : Cooled c' d) : Cooled c d where
  slots i := by
    rcases k.slots i with hk | ⟨s, hs, ha, hd⟩
    · rw [hk]
      exact h.slots i
    · rcases h.slots i with hh | ⟨s₀, hs₀, ha₀, hc⟩
      · rw [hh] at hs
        exact .inr ⟨s, hs, ha, hd⟩
      · -- A COLD slot is not adaptable.
        rw [hc] at hs
        cases hs
        rcases ha with ht | ht <;> cases ht
  length := k.length.trans h.length
  rest := by
    rw [k.rest, h.rest]

theorem Cooled.configBudgetBytes (h : Cooled c c') :
    c'.configBudgetBytes = c.configBudgetBytes := by
  rw [h.rest]
  rfl

theorem adaptable_pos (hs : Sound c) (hat : slotAt c.slots i = some s) (ha : Adaptable s) :
    0 < s.allocatedBytes := by
  unfold PhysicalSlot.allocatedBytes
  rcases length_adaptable (hs.wellFormed i s hat) ha with ⟨_, hlen⟩ | ⟨_, hlen⟩
  · rw [hlen]
    decide
  · rw [hlen]
    decide

theorem cooled_evictSlot (hs : Sound c) (hat : slotAt c.slots i = some s) (ha : Adaptable s) :
    Cooled c (c.evictSlot i).2 := by
  rw [evictSlot_chill hs hat ha]
  refine ⟨fun j => ?_, List.length_set, rfl⟩
  by_cases hij : i = j
  · subst hij
    exact .inr ⟨s, hat, ha, slotAt_set_self (slotAt_lt hat) _⟩
  · exact .inl (slotAt_set_of_ne hij _)

/-- One round of an offload: nothing adaptable is left, or one slot cools down. -/
theorem evictLowestImportance_cooled (hs : Sound c) :
    (Stuck c ∧ c.evictLowestImportance 1 = (0, c)) ∨
      ∃ c', Cooled c c' ∧ Sound c' ∧ c'.residentBytes < c.residentBytes ∧
        c.evictLowestImportance 1 = (1, c') := by
  unfold evictLowestImportance
  rcases take_one_sortLowFirst (c := c) (fun t => t = .hot || t = .warm) with
    ⟨hl, hn⟩ | ⟨i, s, hl, hat, hp⟩
  · rw [hl]
    exact .inl ⟨fun i s hat => by simpa using hn i s hat, rfl⟩
  · rw [hl]
    have ha : s.tier = .hot ∨ s.tier = .warm := by simpa using hp
    have hev := evictSlot_chill hs hat ha
    have hle := hs.allocated_le hat
    have hpos := adaptable_pos hs hat ha
    refine .inr ⟨(c.evictSlot i).2, cooled_evictSlot hs hat ha, ?_, ?_, ?_⟩
    · rcases ha with ht | ht
      · exact (evictSlot_hot hs hat ht).2.sound hs
      · exact (evictSlot_warm hs hat ht).2.sound hs
    · rw [hev]
      dsimp only
      omega
    · simp [applyEach, hev]

/-- The loop stops at its target or when nothing adaptable is left. -/
theorem offloadLoop_cooled (target fuel : ℕ) (hs : Sound c) (hfuel : c.residentBytes < fuel) :
    Cooled c (offloadLoop target fuel c) ∧ Sound (offloadLoop target fuel c) ∧
      ((offloadLoop target fuel c).residentBytes ≤ target ∨
        Stuck (offloadLoop target fuel c)) := by
  induction fuel generalizing c with
  | zero => omega
  | succ fuel ih =>
      unfold offloadLoop
      by_cases hover : c.residentBytes > target
      · rw [if_pos hover]
        rcases evictLowestImportance_cooled hs with ⟨hstuck, he⟩ | ⟨c₁, hcool, hs₁, hlt, he⟩
        · simp only [he, if_true]
          exact ⟨Cooled.refl c, hs, .inr hstuck⟩
        · simp only [he, if_neg hlt.ne]
          obtain ⟨h₁, h₂, h₃⟩ := ih hs₁ (by omega)
          exact ⟨hcool.trans h₁, h₂, h₃⟩
      · rw [if_neg hover]
        exact ⟨Cooled.refl c, hs, .inl (Nat.le_of_not_lt hover)⟩

/-- An adaptable slot and its COLD form are not pinned. -/
theorem Cooled.unpinned (h : Cooled c c')
    (hp : ∀ i s, slotAt c.slots i = some s → s.tier ≠ .pinned) :
    ∀ i s, slotAt c'.slots i = some s → s.tier ≠ .pinned := by
  intro i s hat
  rcases h.slots i with hi | ⟨s₀, _, _, hi⟩
  · rw [hi] at hat
    exact hp i s hat
  · rw [hi] at hat
    cases hat
    intro ht
    cases ht

/-- With nothing resident every slot is COLD. -/
theorem cold_of_resident_zero (hs : Sound c) (h : c.residentBytes = 0) :
    ∀ i s, slotAt c.slots i = some s → s.tier = .cold := by
  intro i s hat
  have hle := hs.allocated_le hat
  obtain ⟨t, f, _, hf⟩ := hs.wellFormed i s hat
  rw [h, hf.allocatedBytes] at hle
  rw [hf.tier]
  cases f with
  | coldFull | coldPacked => rfl
  | hot | pinned | warm => simp [Form.residentBytes, tileBytes, warmPackedBytes] at hle

theorem resident_zero_of_stuck (hs : Sound c) (hstuck : Stuck c)
    (hp : ∀ i s, slotAt c.slots i = some s → s.tier ≠ .pinned) : c.residentBytes = 0 := by
  rw [hs.accounting]
  have hzero : total PhysicalSlot.allocatedBytes c.slots = total (fun _ => 0 * 0) c.slots := by
    apply total_congr
    intro i s hat
    obtain ⟨t, f, _, hf⟩ := hs.wellFormed i s hat
    obtain ⟨hhot, hwarm⟩ := hstuck i s hat
    have hpin := hp i s hat
    rw [hf.tier] at hhot hwarm hpin
    rw [hf.allocatedBytes]
    cases f with
    | hot => exact (hhot rfl).elim
    | warm => exact (hwarm rfl).elim
    | pinned => exact (hpin rfl).elim
    | coldFull | coldPacked => rfl
  rw [hzero, total_mul_left, Nat.zero_mul]

/-- Without pins the whole cache can be offloaded. -/
theorem offloadTo_zero (hs : Sound c)
    (hp : ∀ i s, slotAt c.slots i = some s → s.tier ≠ .pinned) :
    (∃ b, (c.offloadTo 0).1 = .ok b) ∧ Cooled c (c.offloadTo 0).2 ∧
      Sound (c.offloadTo 0).2 ∧ (c.offloadTo 0).2.residentBytes = 0 := by
  obtain ⟨hcool, hs', hend⟩ := offloadLoop_cooled 0 (c.residentBytes + 1) hs (Nat.lt_succ_self _)
  have hzero : (offloadLoop 0 (c.residentBytes + 1) c).residentBytes = 0 := by
    rcases hend with h | h
    · exact Nat.le_zero.mp h
    · exact resident_zero_of_stuck hs' h (hcool.unpinned hp)
  have hv := verifyAccounting_ok hs' (by rw [hzero]; exact Nat.zero_le _)
  unfold offloadTo applyAction mutate
  dsimp only
  rw [Nat.zero_min]
  generalize offloadLoop 0 (c.residentBytes + 1) c = d at *
  unfold checkAction
  rw [hv, hzero]
  dsimp only
  rw [if_neg (fun h => Nat.lt_irrefl 0 h.2), if_neg (Nat.not_lt_zero _)]
  exact ⟨⟨_, rfl⟩, hcool, hs', hzero⟩

/-- The slots before `k` are those of `c`, the others are still offloaded. -/
structure Thawed (c : ElasticKvCache F) (k : ℕ) (d : ElasticKvCache F) : Prop where
  before : ∀ i, i < k → slotAt d.slots i = slotAt c.slots i
  after : ∀ i, k ≤ i → slotAt d.slots i = (slotAt c.slots i).map chill
  length : d.slots.length = c.slots.length
  accounting : d.residentBytes = total PhysicalSlot.allocatedBytes d.slots
  rest : d = { c with
    slots := d.slots
    residentBytes := d.residentBytes
    evictions := d.evictions }

/-- Offloading everything that was resident leaves every slot to restore. -/
theorem Cooled.thawed (h : Cooled c c') (hs' : Sound c') (hz : c'.residentBytes = 0)
    (ha : ∀ i s, slotAt c.slots i = some s → Adaptable s) : Thawed c 0 c' where
  before i hi := (Nat.not_lt_zero i hi).elim
  after i _ := by
    rcases h.slots i with hi | ⟨s, hat, _, hi⟩
    · cases hat : slotAt c.slots i with
      | none => rw [hi, hat, Option.map_none]
      | some s =>
          rw [hat] at hi
          have hcold := cold_of_resident_zero hs' hz i s hi
          rcases ha i s hat with ht | ht <;> rw [ht] at hcold <;> cases hcold
    · rw [hi, hat, Option.map_some]
  length := h.length
  accounting := hs'.accounting
  rest := h.rest

theorem Thawed.hole (h : Thawed c k d) (hat : slotAt c.slots k = none) : Thawed c (k + 1) d where
  before i hi := by
    by_cases hik : i = k
    · subst hik
      rw [h.after i le_rfl, hat, Option.map_none]
    · exact h.before i (by omega)
  after i hi := h.after i (by omega)
  length := h.length
  accounting := h.accounting
  rest := h.rest

theorem Thawed.configBudgetBytes (h : Thawed c k d) :
    d.configBudgetBytes = c.configBudgetBytes := by
  rw [h.rest]
  rfl

/-- Restoring one slot more stays within what `c` was charged. -/
theorem Thawed.resident_le (h : Thawed c k d) (hs : Sound c) (hat : slotAt c.slots k = some s) :
    d.residentBytes + s.allocatedBytes ≤ c.residentBytes := by
  have hk : slotAt d.slots k = some (chill s) := by rw [h.after k le_rfl, hat, Option.map_some]
  have hset := total_set PhysicalSlot.allocatedBytes d.slots k (some s) (slotAt_lt hk)
  rw [hk, weight_some, weight_some] at hset
  have hzero : (chill s).allocatedBytes = 0 := rfl
  have hle : total PhysicalSlot.allocatedBytes (d.slots.set k (some s)) ≤
      total PhysicalSlot.allocatedBytes c.slots := by
    apply total_le_of_slotAt (List.length_set.trans h.length)
    intro i
    by_cases hik : k = i
    · subst hik
      rw [slotAt_set_self (slotAt_lt hk), hat]
    · rw [slotAt_set_of_ne hik]
      by_cases hlt : i < k
      · rw [h.before i hlt]
      · rw [h.after i (Nat.le_of_not_lt hlt)]
        cases slotAt c.slots i with
        | none => exact le_rfl
        | some a => exact Nat.zero_le _
  rw [h.accounting, hs.accounting]
  omega

/-- One slot goes back to what it was. -/
theorem Thawed.step (h : Thawed c k d) (hs : Sound c) (hat : slotAt c.slots k = some s)
    (ha : Adaptable s) (hbud : c.residentBytes ≤ c.configBudgetBytes)
    (hword : c.residentBytes ≤ maxWord) :
    (d.restoreSlot k).1 = .ok () ∧ Thawed c (k + 1) (d.restoreSlot k).2 := by
  have hk : slotAt d.slots k = some (chill s) := by rw [h.after k le_rfl, hat, Option.map_some]
  have hle := h.resident_le hs hat
  have hcap := h.configBudgetBytes
  rw [restoreSlot_chill (hs.wellFormed k s hat) ha hk (by omega) (by omega)]
  refine ⟨rfl, ?_, ?_, List.length_set.trans h.length, ?_, ?_⟩
  · intro i hi
    by_cases hik : k = i
    · subst hik
      rw [slotAt_set_self (slotAt_lt hk), hat]
    · rw [slotAt_set_of_ne hik]
      exact h.before i (by omega)
  · intro i hi
    rw [slotAt_set_of_ne (by omega)]
    exact h.after i (by omega)
  · have hset := total_set PhysicalSlot.allocatedBytes d.slots k (some s) (slotAt_lt hk)
    rw [hk, weight_some, weight_some] at hset
    have hzero : (chill s).allocatedBytes = 0 := rfl
    rw [h.accounting]
    dsimp only
    omega
  · conv_lhs => rw [h.rest]

/-- Once every position is passed the cache is back, its statistics apart. -/
theorem Thawed.done (h : Thawed c k d) (hs : Sound c) (hk : c.slots.length ≤ k) :
    d = { c with evictions := d.evictions } := by
  have hslots : d.slots = c.slots := by
    apply slotAt_ext h.length
    intro i
    by_cases hlt : i < k
    · exact h.before i hlt
    · rw [slotAt_of_le (by rw [h.length]; omega), slotAt_of_le (by omega)]
  have hres : d.residentBytes = c.residentBytes := by
    rw [h.accounting, hs.accounting, hslots]
  rw [h.rest, hslots, hres]

end SlhaV2.OffloadCycle
