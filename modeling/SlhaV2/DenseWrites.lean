import SlhaV2.ResidencyTargets

/-!
# What a dense write achieves

A dense write vacates its position, demotes other slots while the tile does not
fit, and stores the tile at the best form that does. It never evicts, so it
succeeds exactly when the other slots at their smallest leave room for the tile
at its own smallest.
-/
namespace SlhaV2.DenseWrites
open MachineWord ByteBuffer TileCodec SlotVector FloatingPoint ByteBudget ControlLoop GuardedRun
open PhysicalCache PhysicalCache.ElasticKvCache ResidencyGraph PhysicalSteps SlotOperations
open CacheOperations CacheWrites CacheRuns HardBudget ResidencyTargets
open Relation (ReflTransGen)

variable {F : Type} {c c' d : ElasticKvCache F} {i slot : ℕ} {s : PhysicalSlot}

/-- Some HOT slots became WARM. -/
abbrev Demoted := ReflTransGen fun c c' : ElasticKvCache F => ∃ i, MoveAt c i .hot .warm c'

theorem Demoted.moves (h : Demoted c c') : Moves c c' := by
  induction h with
  | refl => exact .refl
  | tail _ hm ih =>
      obtain ⟨i, hm⟩ := hm
      exact ih.tail ⟨i, .hot, .warm, .demote, hm⟩

theorem Demoted.total_leastBytes (h : Demoted c c') :
    total leastBytes c'.slots = total leastBytes c.slots := by
  induction h with
  | refl => rfl
  | tail _ hm ih =>
      obtain ⟨i, hm⟩ := hm
      exact (total_leastBytes_demoted hm).trans ih

theorem Demoted.residentBytes_le (h : Demoted c c') : c'.residentBytes ≤ c.residentBytes := by
  induction h with
  | refl => exact le_rfl
  | tail _ hm ih =>
      obtain ⟨i, hm⟩ := hm
      exact (demoted_lt hm).le.trans ih

/-- A slot is what it was, or it was HOT and is WARM. -/
theorem Demoted.slotAt (h : Demoted c c') (hat : slotAt c.slots i = some s) :
    ∃ s', slotAt c'.slots i = some s' ∧ (s' = s ∨ s.tier = .hot ∧ s'.tier = .warm) := by
  induction h with
  | refl => exact ⟨s, hat, .inl rfl⟩
  | tail _ hm ih =>
      obtain ⟨s₁, hat₁, h₁⟩ := ih
      obtain ⟨j, hm⟩ := hm
      obtain ⟨hj, _, hf, hg, _, _, _, _⟩ := hm
      by_cases hij : j = i
      · subst hij
        cases hj.symm.trans hat₁
        refine ⟨_, slotAt_set_self (slotAt_lt hat₁) _, .inr ⟨?_, hg.tier⟩⟩
        rcases h₁ with rfl | ⟨hhot, _⟩
        · exact hf.tier
        · exact hhot
      · exact ⟨s₁, (slotAt_set_of_ne hij _).trans hat₁, h₁⟩

/-- The loop makes room by demotions, or there is no room even when all is WARM. -/
theorem denseLoop_spec (need target fuel : ℕ) (hs : Sound c)
    (hword : c.residentBytes + need ≤ maxWord) (hfuel : c.residentBytes < fuel) :
    (∃ d, denseLoop need target fuel c = (.ok (), d) ∧ Demoted c d ∧
        d.residentBytes + need ≤ target) ∨
      (∃ m d, denseLoop need target fuel c = (.error (.err m), d) ∧
        target < total leastBytes c.slots + need) := by
  induction fuel generalizing c with
  | zero => omega
  | succ fuel ih =>
      unfold denseLoop
      rw [checkedAdd_eq_some.mpr ⟨hword, rfl⟩]
      dsimp only
      by_cases hover : c.residentBytes + need > target
      · rw [if_pos hover]
        rcases demoteLowestImportance_one hs with ⟨hno, hd⟩ | ⟨i, c₁, hm, hd⟩
        · rw [← NoHot.resident_eq hs hno, hd]
          dsimp only
          rw [if_pos (.inl rfl)]
          exact .inr ⟨_, c, rfl, hover⟩
        · have hlt := demoted_lt hm
          have hstep : Demoted c c₁ := ReflTransGen.single ⟨i, hm⟩
          rw [hd]
          dsimp only
          have hgo : ¬ ((1 : ℕ) = 0 ∨ c₁.residentBytes = c.residentBytes) := by omega
          rw [if_neg hgo]
          rcases ih (hm.sound hs) (by omega) (by omega) with ⟨d, h₁, h₂, h₃⟩ | ⟨m, d, h₁, h₂⟩
          · exact .inl ⟨d, h₁, hstep.trans h₂, h₃⟩
          · rw [total_leastBytes_demoted hm] at h₂
            exact .inr ⟨m, d, h₁, h₂⟩
      · rw [if_neg hover]
        exact .inl ⟨c, rfl, .refl, Nat.le_of_not_lt hover⟩

theorem Demoted.leastBytes_le (hs : Sound c) (h : Demoted c d) :
    total leastBytes c.slots ≤ d.residentBytes := by
  have hs' := Moves.sound hs h.moves
  rw [← h.total_leastBytes, hs'.accounting]
  exact total_le_total fun i s hat => ResidencyTargets.leastBytes_le hs' hat

/-- The tile stored at a position in this form. -/
def stored (c : ElasticKvCache F) (slot : ℕ) (tile : Tile) (tier : PhysicalTier) :
    ElasticKvCache F :=
  { c with
    slots := c.slots.set slot (some {
      bytes := (denseForm (setWarmFlag tile false) tier).1
      offloaded := none
      warmResidual := (denseForm (setWarmFlag tile false) tier).2
      tier := tier
      seq := c.nextSeq
      importance := F32.zero })
    nextSeq := satAdd c.nextSeq 1
    residentBytes := c.residentBytes + (denseForm (setWarmFlag tile false) tier).1.length }

/-- The bytes of a stored tile. -/
def formBytes (tier : PhysicalTier) : ℕ := if tier = .warm then warmPackedBytes else tileBytes

theorem length_denseForm (tile : Tile) (tier : PhysicalTier) :
    (denseForm tile tier).1.length = formBytes tier := by
  cases tier with
  | warm => exact (packWarm _).2
  | hot | cold | pinned => exact tile.2

/-- The best form the target leaves room for. -/
theorem denseTier_cases (pinned : Bool) (target : ℕ) (hword : c.residentBytes + tileBytes ≤ maxWord) :
    pinned = true ∧ c.denseTier pinned target = .pinned ∨
      pinned = false ∧ c.denseTier pinned target = .hot ∧ c.residentBytes + tileBytes ≤ target ∨
      pinned = false ∧ c.denseTier pinned target = .warm ∧
        target < c.residentBytes + tileBytes := by
  unfold denseTier
  dsimp only
  rw [checkedAdd_eq_some.mpr ⟨hword, rfl⟩]
  cases pinned with
  | true => exact .inl ⟨rfl, rfl⟩
  | false =>
      by_cases hfits : c.residentBytes + tileBytes ≤ target
      · refine .inr (.inl ⟨rfl, ?_, hfits⟩)
        simp [hfits]
      · refine .inr (.inr ⟨rfl, ?_, Nat.lt_of_not_le hfits⟩)
        simp [hfits]

/-- Once the smallest form fits, the tile is stored. -/
theorem admitDense_stored (tile : Tile) (hs : Sound c) (pinned : Bool) (target : ℕ)
    (hslot : slot < c.slots.length) (hcell : slotAt c.slots slot = none)
    (hword : c.residentBytes + tileBytes ≤ maxWord) (hcap : target ≤ c.configBudgetBytes)
    (hfits : c.residentBytes + (if pinned then tileBytes else warmPackedBytes) ≤ target) :
    c.admitDense slot tile pinned target =
      (.ok (c.denseTier pinned target), stored c slot tile (c.denseTier pinned target)) ∧
      (stored c slot tile (c.denseTier pinned target)).residentBytes ≤ target := by
  have hlen := length_denseForm (setWarmFlag tile false) (c.denseTier pinned target)
  have hnext : c.residentBytes + formBytes (c.denseTier pinned target) ≤ target := by
    rcases denseTier_cases pinned target hword with ⟨rfl, ht⟩ | ⟨rfl, ht, hhot⟩ | ⟨rfl, ht, _⟩
    · rw [ht]
      exact hfits
    · rw [ht]
      exact hhot
    · rw [ht]
      exact hfits
  have hle : formBytes (c.denseTier pinned target) ≤ tileBytes := by
    unfold formBytes
    split_ifs <;> decide
  have hsum : c.residentBytes + (denseForm (setWarmFlag tile false)
      (c.denseTier pinned target)).1.length ≤ maxWord := by omega
  have hends : DenseEnds c slot tile (c.admitDense slot tile pinned target) :=
    admitDense_ends hs slot pinned target hslot hcell
  have hsound := Path.sound hs hends.path
  constructor
  · have hlimit : ¬ (c.residentBytes + (denseForm (setWarmFlag tile false)
        (c.denseTier pinned target)).1.length > target ∨ c.residentBytes +
        (denseForm (setWarmFlag tile false) (c.denseTier pinned target)).1.length >
          c.configBudgetBytes) := by omega
    unfold admitDense at hsound ⊢
    dsimp only at hsound ⊢
    rw [checkedAdd_eq_some.mpr ⟨hsum, rfl⟩] at hsound ⊢
    dsimp only at hsound ⊢
    rw [if_neg hlimit] at hsound ⊢
    dsimp only at hsound ⊢
    rw [verifyAccounting_ok hsound hsum]
    rfl
  · unfold stored
    dsimp only
    rw [hlen]
    exact hnext

/-- The smallest form a write may take. -/
def leastForm (pinned : Bool) : ℕ := if pinned then tileBytes else warmPackedBytes

theorem fillDense_spec (tile : Tile) (hs : Sound c) (pinned : Bool) (target : ℕ)
    (hslot : slot < c.slots.length) (hcell : slotAt c.slots slot = none)
    (hword : c.residentBytes + tileBytes ≤ maxWord) (hcap : target ≤ c.configBudgetBytes) :
    (∃ d, Demoted c d ∧ d.residentBytes + leastForm pinned ≤ target ∧
        c.fillDense slot tile pinned target =
          (.ok (d.denseTier pinned target), stored d slot tile (d.denseTier pinned target)) ∧
        (stored d slot tile (d.denseTier pinned target)).residentBytes ≤ target) ∨
      (∃ m d, c.fillDense slot tile pinned target = (.error (.err m), d) ∧
        target < total leastBytes c.slots + leastForm pinned) := by
  have hneed : leastForm pinned ≤ tileBytes := by
    unfold leastForm
    split_ifs <;> decide
  unfold fillDense
  dsimp only
  rcases denseLoop_spec (leastForm pinned) target (c.residentBytes + 1) hs (by omega)
    (Nat.lt_succ_self _) with ⟨d, hd, hdem, hle⟩ | ⟨m, d, hd, hlt⟩
  · have hd' := hd
    unfold leastForm at hd'
    rw [hd']
    obtain ⟨hs', _, _, hlen, hlim⟩ := Moves.keeps_all hs hdem.moves
    have hres := hdem.residentBytes_le
    obtain ⟨hadm, hbound⟩ := admitDense_stored tile hs' pinned target
      (by rw [hlen]; exact hslot) (Moves.slotAt_none hdem.moves hcell) (by omega)
      (by rw [configBudgetBytes_congr hlim]; exact hcap) hle
    exact .inl ⟨d, hdem, hle, hadm, hbound⟩
  · have hd' := hd
    unfold leastForm at hd'
    rw [hd']
    exact .inr ⟨m, d, rfl, hlt⟩

/-- The position grown to and emptied. -/
def vacated (c : ElasticKvCache F) (slot : ℕ) : ElasticKvCache F :=
  erased { c with slots := c.slots ++ List.replicate (slot + 1 - c.slots.length) none } slot

def wasPinned (c : ElasticKvCache F) (slot : ℕ) : Bool :=
  (slotAt c.slots slot).elim false fun s => s.tier = .pinned

theorem lt_length_vacated (c : ElasticKvCache F) (slot : ℕ) :
    slot < (vacated c slot).slots.length := by
  unfold vacated erased
  rw [List.length_set, List.length_append, List.length_replicate]
  omega

theorem slotAt_vacated_self (c : ElasticKvCache F) (slot : ℕ) :
    slotAt (vacated c slot).slots slot = none := by
  have hlt := lt_length_vacated c slot
  unfold vacated at hlt ⊢
  apply slotAt_erased
  unfold erased at hlt
  rw [List.length_set] at hlt
  exact hlt

theorem slotAt_vacated (hi : i ≠ slot) :
    slotAt (vacated c slot).slots i = slotAt c.slots i := by
  unfold vacated erased
  rw [slotAt_set_of_ne hi.symm, slotAt_append_none]

theorem total_vacated (w : PhysicalSlot → ℕ) (c : ElasticKvCache F) (slot : ℕ) :
    total w (vacated c slot).slots = total w (c.slots.set slot none) := by
  have h₁ := total_set_none w
    (c.slots ++ List.replicate (slot + 1 - c.slots.length) none) slot
  have h₂ := total_set_none w c.slots slot
  rw [slotAt_append_none, total_append, total_replicate_none] at h₁
  unfold vacated erased
  dsimp only
  omega

theorem vacated_path (c : ElasticKvCache F) (slot : ℕ) : Path (· = slot) c (vacated c slot) := by
  have hgrow : Path (· = slot) c
      { c with slots := c.slots ++ List.replicate (slot + 1 - c.slots.length) none } :=
    ReflTransGen.single (Prim.grow _)
  refine hgrow.trans (erased_path _ rfl ?_)
  rw [List.length_append, List.length_replicate]
  omega

theorem denseWriteBody_eq (tile : Tile) (hs : Sound c) (hadd : slot + 1 ≤ maxWord)
    (hin : c.residentBytes ≤ c.configBudgetBytes) (target : ℕ) :
    c.denseWriteBody slot tile target true =
      (vacated c slot).fillDense slot tile (wasPinned c slot) target := by
  have hresize : c.resize (slot + 1) true =
      .ok { c with slots := c.slots ++ List.replicate (slot + 1 - c.slots.length) none } := by
    unfold resize
    by_cases hlt : c.slots.length < slot + 1
    · rw [if_pos hlt, if_pos rfl]
    · have hzero : slot + 1 - c.slots.length = 0 := by omega
      rw [if_neg hlt, hzero, List.replicate_zero, List.append_nil]
  have hold := old_le hs slot
  unfold denseWriteBody
  rw [if_neg (Nat.not_lt.mpr hin), checkedAdd_eq_some.mpr ⟨hadd, rfl⟩]
  dsimp only
  rw [hresize]
  dsimp only
  rw [slotAt_append_none, checkedSub_eq_some.mpr ⟨hold, rfl⟩]
  unfold vacated erased wasPinned
  dsimp only
  rw [slotAt_append_none]

/-- Slots other than this one, by their tier. -/
def otherCount (c : ElasticKvCache F) (slot : ℕ) (p : PhysicalTier → Bool) : ℕ :=
  total (fun s => if p s.tier then 1 else 0) (c.slots.set slot none)

/-- The least residency that holds the other slots and the written one. -/
def denseNeed (c : ElasticKvCache F) (slot : ℕ) : ℕ :=
  warmPackedBytes * otherCount c slot (fun t => t = .hot || t = .warm) +
    tileBytes * otherCount c slot (fun t => t = .pinned) + leastForm (wasPinned c slot)

theorem denseNeed_eq (c : ElasticKvCache F) (slot : ℕ) :
    denseNeed c slot = total leastBytes (vacated c slot).slots + leastForm (wasPinned c slot) := by
  have hw : ∀ i s, slotAt (c.slots.set slot none) i = some s → leastBytes s =
      warmPackedBytes * (if (decide (s.tier = .hot) || decide (s.tier = .warm)) then 1 else 0) +
        tileBytes * (if decide (s.tier = .pinned) then 1 else 0) := by
    intro i s _
    unfold leastBytes
    cases s.tier <;> rfl
  unfold denseNeed otherCount
  rw [total_vacated, total_congr hw, total_add, total_mul_left, total_mul_left]

/-- Room for the tile in the address space or under a target, once its position is vacated. -/
theorem vacated_room (hs : Sound c) {limit : ℕ}
    (halloc : tileBytes * (otherCount c slot (fun _ => true) + 1) ≤ limit) :
    (vacated c slot).residentBytes + tileBytes ≤ limit := by
  have hle := resident_le (Path.sound hs (vacated_path c slot))
  have hcount : (vacated c slot).presentCount = otherCount c slot (fun _ => true) :=
    total_vacated (fun _ => 1) c slot
  rw [hcount] at hle
  rw [Nat.mul_succ] at halloc
  omega

/-- What an admitted write leaves, under the limit it was given. -/
structure DenseWritten (c : ElasticKvCache F) (slot : ℕ) (tile : Tile) (limit : ℕ)
    (c' : ElasticKvCache F) : Prop where
  bounded : c'.residentBytes ≤ limit
  others : ∀ i s, i ≠ slot → slotAt c.slots i = some s → ∃ s', slotAt c'.slots i = some s' ∧
    (s'.tier = .cold → s.tier = .cold) ∧ (s.tier = .pinned → s'.tier = .pinned)
  written : ∃ s', slotAt c'.slots slot = some s' ∧
    (s'.tier = .hot ∨ s'.tier = .warm ∨ s'.tier = .pinned) ∧
    (s'.tier = .pinned ↔ wasPinned c slot = true) ∧
    recover s' = some (setWarmFlag tile false) ∧
    (s'.tier = .warm → limit < c'.residentBytes - warmPackedBytes + tileBytes)

theorem stored_written (tile : Tile) (hs : Sound c) (hdem : Demoted (vacated c slot) d) (target : ℕ)
    (hword : d.residentBytes + tileBytes ≤ maxWord)
    (hbound : (stored d slot tile (d.denseTier (wasPinned c slot) target)).residentBytes ≤ target) :
    DenseWritten c slot tile target
      (stored d slot tile (d.denseTier (wasPinned c slot) target)) where
  bounded := hbound
  others := by
    intro i s hi hat
    rw [← slotAt_vacated hi] at hat
    obtain ⟨s', hat', hsame⟩ := Demoted.slotAt hdem hat
    refine ⟨s', (slotAt_set_of_ne hi.symm _).trans hat', ?_⟩
    rcases hsame with rfl | ⟨hhot, hwarm⟩
    · exact ⟨id, id⟩
    · constructor
      · intro hcold
        rw [hwarm] at hcold
        cases hcold
      · intro hpin
        rw [hhot] at hpin
        cases hpin
  written := by
    have hsound := Path.sound hs (vacated_path c slot)
    obtain ⟨_, _, _, hlen, _⟩ := Moves.keeps_all hsound hdem.moves
    have hlt : slot < d.slots.length := by
      rw [hlen]
      exact lt_length_vacated c slot
    obtain ⟨f, _, _, hrep⟩ := represents_dense (setWarmFlag tile false) d.nextSeq
      (d.denseTier (wasPinned c slot) target) (denseTier_ne_cold _ target)
    refine ⟨_, slotAt_set_self hlt _, ?_, ?_, hrep.recover (clean_setWarmFlag tile), ?_⟩
    · rcases denseTier_cases (wasPinned c slot) target hword with
        ⟨_, ht⟩ | ⟨_, ht, _⟩ | ⟨_, ht, _⟩
      · exact .inr (.inr ht)
      · exact .inl ht
      · exact .inr (.inl ht)
    · rcases denseTier_cases (wasPinned c slot) target hword with
        ⟨hp, ht⟩ | ⟨hp, ht, _⟩ | ⟨hp, ht, _⟩
      · exact ⟨fun _ => hp, fun _ => ht⟩
      · refine ⟨fun h => absurd (ht.symm.trans h) PhysicalTier.noConfusion, fun h => ?_⟩
        rw [hp] at h
        cases h
      · refine ⟨fun h => absurd (ht.symm.trans h) PhysicalTier.noConfusion, fun h => ?_⟩
        rw [hp] at h
        cases h
    · intro hwarm
      have hres : (stored d slot tile (d.denseTier (wasPinned c slot) target)).residentBytes =
          d.residentBytes + warmPackedBytes := by
        unfold stored
        dsimp only at hwarm ⊢
        rw [length_denseForm, hwarm]
        rfl
      rw [hres, Nat.add_sub_cancel]
      rcases denseTier_cases (wasPinned c slot) target hword with
        ⟨_, ht⟩ | ⟨_, ht, _⟩ | ⟨_, _, hlt⟩
      · rw [ht] at hwarm
        cases hwarm
      · rw [ht] at hwarm
        cases hwarm
      · exact hlt

/-- A write within the budget stores the tile after some demotions, or it is undone. -/
theorem writeAtDenseBudget_stored (tile : Tile) (hs : Sound c) (hadd : slot + 1 ≤ maxWord)
    (halloc : tileBytes * (otherCount c slot (fun _ => true) + 1) ≤ maxWord)
    (hin : c.residentBytes ≤ c.configBudgetBytes) (target : ℕ) :
    (∃ d tier, Demoted (vacated c slot) d ∧ denseNeed c slot ≤ min target c.configBudgetBytes ∧
        tier = d.denseTier (wasPinned c slot) (min target c.configBudgetBytes) ∧
        c.writeAtDenseBudget slot tile target true = (.ok tier, stored d slot tile tier) ∧
        DenseWritten c slot tile (min target c.configBudgetBytes) (stored d slot tile tier)) ∨
      (∃ m d, c.writeAtDenseBudget slot tile target true = (.error (.err m), d) ∧
        d.slots = c.slots ∧ d.residentBytes = c.residentBytes ∧
        min target c.configBudgetBytes < denseNeed c slot) := by
  have hpath := vacated_path c slot
  have hsound := Path.sound hs hpath
  have hroom := vacated_room hs halloc
  have hcap : min target c.configBudgetBytes ≤ (vacated c slot).configBudgetBytes := by
    rw [configBudgetBytes_congr hpath.limits_eq]
    exact min_le_right _ _
  have hbody := denseWriteBody_eq tile hs hadd hin (min target c.configBudgetBytes)
  unfold writeAtDenseBudget
  dsimp only
  rw [hbody, denseNeed_eq]
  rcases fillDense_spec tile hsound (wasPinned c slot) (min target c.configBudgetBytes)
    (lt_length_vacated c slot) (slotAt_vacated_self c slot) hroom hcap with
    ⟨d, hdem, hle, heq, hbound⟩ | ⟨m, d, heq, hlt⟩
  · have hres := hdem.residentBytes_le
    have hleast := hdem.leastBytes_le hsound
    rw [heq]
    exact .inl ⟨d, _, hdem, by omega, rfl, rfl,
      stored_written tile hs hdem _ (by omega) hbound⟩
  · rw [heq]
    exact .inr ⟨m, _, rfl, rfl, rfl, hlt⟩

/-- A write over an adaptable cache, with the limit its caller and its budget set. -/
theorem writeAtDenseBudget_spec (tile : Tile) (hs : Sound c) (hadd : slot + 1 ≤ maxWord)
    (halloc : tileBytes * (otherCount c slot (fun _ => true) + 1) ≤ maxWord)
    (hin : c.residentBytes ≤ c.configBudgetBytes) (target : ℕ) :
    (Succeeded (c.writeAtDenseBudget slot tile target true).1 ∧
        denseNeed c slot ≤ min target c.configBudgetBytes ∧
        DenseWritten c slot tile (min target c.configBudgetBytes)
          (c.writeAtDenseBudget slot tile target true).2) ∨
      (¬ Succeeded (c.writeAtDenseBudget slot tile target true).1 ∧
        min target c.configBudgetBytes < denseNeed c slot) := by
  rcases writeAtDenseBudget_stored tile hs hadd halloc hin target with
    ⟨d, tier, _, hle, _, heq, hw⟩ | ⟨m, d, heq, _, _, hlt⟩
  · rw [heq]
    exact .inl ⟨⟨tier, rfl⟩, hle, hw⟩
  · rw [heq]
    exact .inr ⟨by simp, hlt⟩

/-- Over its hard budget the cache takes no dense write. -/
theorem writeAtDenseBudget_over (tile : Tile) (slot target : ℕ) (reserve : Bool)
    (hover : c.configBudgetBytes < c.residentBytes) :
    ¬ Succeeded (c.writeAtDenseBudget slot tile target reserve).1 := by
  have hbody : c.denseWriteBody slot tile (min target c.configBudgetBytes) reserve =
      (.error (.err "physical residency already exceeds hard budget"), c) := if_pos hover
  unfold writeAtDenseBudget
  dsimp only
  rw [hbody]
  simp

section Run
variable [F64 F] [F32Arith] {budget : ℕ} {id : String} {ops : List Op}

/-- A dense write succeeds exactly when the cache is within its budget and the
other slots, as small as demotion makes them, leave room for the tile. It then
meets its limit without taking any other slot out of reach, and otherwise it
leaves slots, count and generations as they were. -/
theorem writeAtDenseBudget_contract (hrun : Runs exec Fits (new (F := F) budget id) ops c)
    (slot : ℕ) (tile : Tile) (target : ℕ) (haddable : slot + 1 ≤ maxWord)
    (halloc : tileBytes * (otherCount c slot (fun _ => true) + 1) ≤ maxWord) :
    (Succeeded (c.writeAtDenseBudget slot tile target true).1 ↔
        c.residentBytes ≤ budget ∧ denseNeed c slot ≤ min target budget) ∧
      (Succeeded (c.writeAtDenseBudget slot tile target true).1 →
        DenseWritten c slot tile (min target budget)
          (c.writeAtDenseBudget slot tile target true).2) ∧
      (¬ Succeeded (c.writeAtDenseBudget slot tile target true).1 →
        (∃ m, (c.writeAtDenseBudget slot tile target true).1 = .error (.err m)) ∧
        (c.writeAtDenseBudget slot tile target true).2.slots = c.slots ∧
        (c.writeAtDenseBudget slot tile target true).2.residentBytes = c.residentBytes ∧
        (c.writeAtDenseBudget slot tile target true).2.nextSeq = c.nextSeq) := by
  obtain ⟨hs, hfit⟩ := reachable_sound_fits hrun
  have hbud := configBudgetBytes_of_limits (reachable_limits hrun)
  refine ⟨?_, ?_, ?_⟩
  · by_cases hin : c.residentBytes ≤ budget
    · rcases writeAtDenseBudget_spec tile hs haddable halloc (by rw [hbud]; exact hin)
        target with ⟨hok, hle, _⟩ | ⟨hno, hlt⟩
      · rw [hbud] at hle
        exact ⟨fun _ => ⟨hin, hle⟩, fun _ => hok⟩
      · rw [hbud] at hlt
        exact ⟨fun hok => (hno hok).elim, fun h => (Nat.not_lt.mpr h.2 hlt).elim⟩
    · have hover : c.configBudgetBytes < c.residentBytes := by
        rw [hbud]
        exact Nat.lt_of_not_le hin
      exact ⟨fun hok => (writeAtDenseBudget_over tile slot target true hover hok).elim,
        fun h => (hin h.1).elim⟩
  · intro hok
    by_cases hin : c.residentBytes ≤ c.configBudgetBytes
    · rcases writeAtDenseBudget_spec tile hs haddable halloc hin target with
        ⟨_, _, hw⟩ | ⟨hno, _⟩
      · rw [hbud] at hw
        exact hw
      · exact (hno hok).elim
    · exact (writeAtDenseBudget_over tile slot target true (Nat.lt_of_not_le hin) hok).elim
  · intro hno
    have hnopanic := (denseWriteBody_ends tile hs hfit slot (min target c.configBudgetBytes)
      true).noPanic
    unfold writeAtDenseBudget at hno ⊢
    dsimp only at hno ⊢
    rcases hr : c.denseWriteBody slot tile (min target c.configBudgetBytes) true with ⟨r, c'⟩
    rw [hr] at hno hnopanic
    cases r with
    | ok t => exact (hno ⟨t, rfl⟩).elim
    | error e =>
        cases e with
        | panic => exact (hnopanic rfl).elim
        | err m => exact ⟨⟨m, rfl⟩, rfl, rfl, rfl⟩

end Run

section Example
local instance : F32Arith := F32Arith.trivial

/-- Beside the pin 230 bytes have room for a WARM tile only. -/
theorem writeAtDenseBudget_contract_pinAndTile :
    Succeeded ((pinAndTile (F := ℚ)).writeAtDenseBudget 1 (zeros tileBytes) 230 true).1 ∧
      DenseWritten (pinAndTile (F := ℚ)) 1 (zeros tileBytes) (min 230 256)
        (pinAndTile.writeAtDenseBudget 1 (zeros tileBytes) 230 true).2 := by
  obtain ⟨hiff, hdone, _⟩ := writeAtDenseBudget_contract runs_pinAndTile 1 (zeros tileBytes) 230
    (by decide) (by decide +kernel)
  have hok := hiff.mpr (by decide +kernel)
  exact ⟨hok, hdone hok⟩

end Example

end SlhaV2.DenseWrites
