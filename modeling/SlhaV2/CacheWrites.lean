import SlhaV2.CacheOperations

/-!
# Writes, erasures and pins as paths

A write erases whatever the position held and stores the new tile under the
next generation. A dense write also demotes other slots in between; while it
does, its own position is a hole, so the demotions cannot reach it.
-/
namespace SlhaV2.CacheWrites
open MachineWord ByteBuffer TileCodec SlotVector FloatingPoint ByteBudget ControlLoop
open PhysicalCache PhysicalCache.ElasticKvCache ResidencyGraph PhysicalSteps SlotOperations
open CacheOperations
open Relation (ReflTransGen)

variable {F : Type} {c c' : ElasticKvCache F} {i : ℕ} {tile : Tile}

/-- The position now holds this tile, under the generation that was next. -/
structure Wrote (c c' : ElasticKvCache F) (i : ℕ) (tile : Tile) : Prop where
  stored : ∃ s f, slotAt c'.slots i = some s ∧ Represents s (setWarmFlag tile false) f ∧
    s.seq = c.nextSeq
  nextSeq : c'.nextSeq = satAdd c.nextSeq 1

/-- The two ends of a write: the tile is stored, or no slot was touched. -/
def WriteEnds {α : Type} (c : ElasticKvCache F) (i : ℕ) (tile : Tile)
    (r : Outcome α × ElasticKvCache F) : Prop :=
  (Succeeded r.1 ∧ Path (· = i) c r.2 ∧ Wrote c r.2 i tile) ∨
    (¬ Succeeded r.1 ∧ ∀ touch : ℕ → Prop, Path touch c r.2)

/-- Growing either appends holes or fails; afterwards the position exists. -/
theorem resize_ok {n : ℕ} {reserve : Bool} (h : c.resize n reserve = .ok c') :
    c' = { c with slots := c.slots ++ List.replicate (n - c.slots.length) none } ∧
      n ≤ c'.slots.length := by
  unfold resize at h
  split_ifs at h with h₁ h₂
  · cases h
    refine ⟨rfl, ?_⟩
    simp only [List.length_append, List.length_replicate]
    omega
  · cases h
    have hz : n - c.slots.length = 0 := by omega
    exact ⟨by rw [hz]; simp, by omega⟩

theorem set_none_of_slotAt_none {xs : List (Option PhysicalSlot)} (hi : i < xs.length)
    (h : slotAt xs i = none) : xs.set i none = xs := by
  apply List.ext_getElem?
  intro j
  by_cases hij : i = j
  · subst hij
    rw [List.getElem?_set_self hi, List.getElem?_eq_getElem hi]
    rw [slotAt, List.getElem?_eq_getElem hi] at h
    exact congrArg some h.symm
  · rw [List.getElem?_set_ne hij]

/-- Emptying a position and giving back what it was charged. -/
def erased (c : ElasticKvCache F) (i : ℕ) : ElasticKvCache F :=
  { c with
    slots := c.slots.set i none
    residentBytes := c.residentBytes - (slotAt c.slots i).elim 0 PhysicalSlot.allocatedBytes }

theorem erased_path (touch : ℕ → Prop) (ht : touch i) (hi : i < c.slots.length) :
    Path touch c (erased c i) := by
  unfold erased
  cases hat : slotAt c.slots i with
  | none =>
      refine ReflTransGen.single (Prim.control ?_ rfl rfl rfl)
      exact set_none_of_slotAt_none hi hat
  | some s => exact ReflTransGen.single (Prim.erase ht hat)

theorem slotAt_erased (hi : i < c.slots.length) : slotAt (erased c i).slots i = none :=
  slotAt_set_self hi none

theorem old_le (hs : Sound c) (i : ℕ) :
    (slotAt c.slots i).elim 0 PhysicalSlot.allocatedBytes ≤ c.residentBytes := by
  cases hat : slotAt c.slots i with
  | none => exact Nat.zero_le _
  | some s => exact hs.allocated_le hat

/-- A granted resize is a path of holes, and the position exists afterwards. -/
theorem resize_path (touch : ℕ → Prop) {slot n : ℕ} {reserve : Bool} (hfit : Fits c)
    (hadd : checkedAdd slot 1 = some n) (hrs : c.resize n reserve = .ok c') :
    Path touch c c' ∧ slot < c'.slots.length ∧ Fits c' ∧ c'.nextSeq = c.nextSeq := by
  obtain ⟨rfl, hn⟩ := resize_ok hrs
  obtain ⟨_, rfl⟩ := checkedAdd_eq_some.mp hadd
  refine ⟨ReflTransGen.single (Prim.grow _), by omega, ?_, rfl⟩
  unfold Fits presentCount at hfit ⊢
  rw [total_append, total_replicate_none, Nat.add_zero]
  exact hfit

theorem erased_fits (hfit : Fits c) (hi : i < c.slots.length) : Fits (erased c i) := by
  have ht := total_set (fun _ : PhysicalSlot => 1) c.slots i none hi
  rw [weight_none] at ht
  refine le_trans (Nat.mul_le_mul_left _ ?_) hfit
  exact Nat.le_of_add_right_le ht.le

/-- The form a write stores the tile in. -/
theorem represents_full (tile : Tile) (n : ℕ) (pinned : Bool) :
    Represents ⟨tile.1, none, none, if pinned then .pinned else .hot, n, F32.zero⟩ tile
      (if pinned then .pinned else .hot) := by
  cases pinned <;> exact ⟨rfl, rfl, rfl, rfl⟩

theorem insert_path (hs : Sound c) (hfit : Fits (c.insert tile).2) :
    Path (· = c.slots.length) c (c.insert tile).2 ∧
      Wrote c (c.insert tile).2 c.slots.length tile := by
  have hpres : (c.insert tile).2.presentCount = c.presentCount + 1 := by
    simp [ElasticKvCache.insert, presentCount, total_append]
  have hroom : c.residentBytes + tileBytes ≤ maxWord := by
    have h₁ := resident_le hs
    unfold Fits at hfit
    rw [hpres, Nat.mul_succ] at hfit
    omega
  have hset : (c.slots ++ List.replicate 1 none).set c.slots.length =
      fun o => c.slots ++ [o] := by
    funext o
    simp
  constructor
  · refine (ReflTransGen.single (Prim.grow 1)).tail ?_
    have hst : Prim (· = c.slots.length)
        { c with slots := c.slots ++ List.replicate 1 none } _ := Prim.store (i := c.slots.length) rfl
      (by simp) (by rw [slotAt_append_none, slotAt_of_le le_rfl]) (clean_setWarmFlag tile)
      (represents_full (setWarmFlag tile false) c.nextSeq false) rfl
    simp only [hset] at hst
    unfold ElasticKvCache.insert
    rw [satAdd_eq hroom]
    exact hst
  · exact ⟨⟨_, .hot, slotAt_append_length _ _, ⟨rfl, rfl, rfl, rfl⟩, rfl⟩, rfl⟩

/-- Erasing a position and storing a tile there, in one update. -/
theorem overwrite_path (touch : ℕ → Prop) {s : PhysicalSlot} {f : Form} (ht : touch i)
    (hi : i < c.slots.length) (hr : Represents s (setWarmFlag tile false) f)
    (hq : s.seq = c.nextSeq) :
    Path touch c { c with
      slots := c.slots.set i (some s)
      nextSeq := satAdd c.nextSeq 1
      residentBytes := c.residentBytes -
        (slotAt c.slots i).elim 0 PhysicalSlot.allocatedBytes + f.residentBytes } := by
  refine (erased_path touch ht hi).tail ?_
  have hst : Prim touch (erased c i) _ := Prim.store ht
    (by simpa [erased] using hi) (slotAt_erased hi) (clean_setWarmFlag tile) hr hq
  simpa only [erased, List.set_set] using hst

/-- A write at a position, successful or not. -/
theorem writeAt_ends (hs : Sound c) (hfit : Fits c) (slot : ℕ) (reserve : Bool) :
    WriteEnds c slot tile (c.writeAt slot tile reserve) := by
  unfold writeAt
  dsimp only
  cases hadd : checkedAdd slot 1 with
  | none => exact .inr ⟨by simp, fun _ => .refl⟩
  | some n =>
      dsimp only
      cases hrs : c.resize n reserve with
      | error e => exact .inr ⟨by simp, fun _ => .refl⟩
      | ok c₁ =>
          dsimp only
          split
          · exact .inr ⟨by simp, fun touch => (resize_path touch hfit hadd hrs).1⟩
          · rename_i next hnext
            obtain ⟨hgrow, hslot, _, hq⟩ := resize_path (· = slot) hfit hadd hrs
            obtain ⟨r, h₁, h₂⟩ := Option.bind_eq_some_iff.mp hnext
            obtain ⟨_, rfl⟩ := checkedSub_eq_some.mp h₁
            obtain ⟨hword, rfl⟩ := checkedAdd_eq_some.mp h₂
            have hrep := represents_full (setWarmFlag tile false) c₁.nextSeq
              ((slotAt c₁.slots slot).elim false (fun s => s.tier = .pinned))
            have hpath := overwrite_path (· = slot) rfl hslot hrep rfl
            have hres : ∀ b : Bool, (if b then Form.pinned else Form.hot).residentBytes =
                tileBytes := by decide
            rw [hres] at hpath
            have hv := verifyAccounting_ok (Path.sound hs (hgrow.trans hpath)) hword
            refine .inl ⟨⟨(), hv⟩, hgrow.trans hpath, ⟨⟨_, _, ?_, hrep, hq⟩, ?_⟩⟩
            · exact slotAt_set_self hslot _
            · exact congrArg (satAdd · 1) hq

/-- The stored form of a dense write represents the tile. -/
theorem represents_dense (tile : Tile) (n : ℕ) (tier : PhysicalTier) (ht : tier ≠ .cold) :
    ∃ f : Form, f.tier = tier ∧ (denseForm tile tier).1.length = f.residentBytes ∧
      Represents ⟨(denseForm tile tier).1, none, (denseForm tile tier).2, tier, n, F32.zero⟩
        tile f := by
  cases tier with
  | hot => exact ⟨.hot, rfl, tile.2, rfl, rfl, rfl, rfl⟩
  | warm => exact ⟨.warm, rfl, (packWarm _).2, rfl, rfl, rfl, rfl⟩
  | cold => exact (ht rfl).elim
  | pinned => exact ⟨.pinned, rfl, tile.2, rfl, rfl, rfl, rfl⟩

theorem denseTier_ne_cold (pinned : Bool) (target : ℕ) : c.denseTier pinned target ≠ .cold := by
  unfold denseTier
  dsimp only
  split_ifs <;> decide

/-- What the parts of a dense write are given: a path that touches the position
only, the tile stored on success, and no panic. -/
structure DenseEnds (c : ElasticKvCache F) (i : ℕ) (tile : Tile)
    (r : Outcome PhysicalTier × ElasticKvCache F) : Prop where
  path : Path (· = i) c r.2
  wrote : Succeeded r.1 → Wrote c r.2 i tile
  noPanic : r.1 ≠ .error .panic

/-- A part that fails with a message and has done nothing. -/
theorem DenseEnds.refused (c : ElasticKvCache F) (i : ℕ) (tile : Tile) (m : String) :
    DenseEnds c i tile (.error (.err m), c) := ⟨.refl, by simp, by simp⟩

/-- Steps before a part do not disturb its end when the generation is the same. -/
theorem DenseEnds.after {c₁ : ElasticKvCache F} {r : Outcome PhysicalTier × ElasticKvCache F}
    (h : DenseEnds c₁ i tile r) (hp : Path (· = i) c c₁) (hq : c₁.nextSeq = c.nextSeq) :
    DenseEnds c i tile r where
  path := hp.trans h.path
  wrote hok := by
    obtain ⟨⟨s, f, h₁, h₂, h₃⟩, h₄⟩ := h.wrote hok
    exact ⟨⟨s, f, h₁, h₂, h₃.trans hq⟩, by rw [h₄, hq]⟩
  noPanic := h.noPanic

/-- Admission stores the tile at the vacated position or leaves the cache alone. -/
theorem admitDense_ends (hs : Sound c) (slot : ℕ) (pinned : Bool) (target : ℕ)
    (hslot : slot < c.slots.length) (hcell : slotAt c.slots slot = none) :
    DenseEnds c slot tile (c.admitDense slot tile pinned target) := by
  obtain ⟨f, _, hlen, hrep⟩ := represents_dense (setWarmFlag tile false) c.nextSeq
    (c.denseTier pinned target) (denseTier_ne_cold pinned target)
  unfold admitDense
  dsimp only
  cases hadd : checkedAdd c.residentBytes
      (denseForm (setWarmFlag tile false) (c.denseTier pinned target)).1.length with
  | none => exact DenseEnds.refused c slot tile _
  | some next =>
      dsimp only
      split_ifs
      · exact DenseEnds.refused c slot tile _
      · obtain ⟨hword, rfl⟩ := checkedAdd_eq_some.mp hadd
        have hst : Prim (· = slot) c _ :=
          Prim.store rfl hslot hcell (clean_setWarmFlag tile) hrep rfl
        rw [hlen] at hword ⊢
        rw [verifyAccounting_ok (hst.sound hs) hword]
        exact ⟨ReflTransGen.single hst,
          fun _ => ⟨⟨_, f, slotAt_set_self hslot _, hrep, rfl⟩, rfl⟩, by simp [Except.map]⟩

/-- Making room and admitting. -/
theorem fillDense_ends (tile : Tile) (hs : Sound c) (hfit : Fits c) (slot : ℕ) (pinned : Bool) (target : ℕ)
    (hslot : slot < c.slots.length) (hcell : slotAt c.slots slot = none) :
    DenseEnds c slot tile (c.fillDense slot tile pinned target) := by
  unfold fillDense
  dsimp only
  generalize (if pinned then tileBytes else warmPackedBytes) = need
  have hmoves := denseLoop_moves need target (c.residentBytes + 1) hs hfit
  have hlast := denseLoop_ne_panic need target (c.residentBytes + 1) hs (Nat.lt_succ_self _)
  obtain ⟨hs', _, hq, hlen, _⟩ := Moves.keeps_all hs hmoves
  have hcell' := Moves.slotAt_none hmoves hcell
  have hpath := Moves.path hmoves (· = slot)
  split
  · rename_i e c' hd
    rw [hd] at hpath hlast
    refine ⟨hpath, by simp, ?_⟩
    intro he
    cases he
    exact hlast rfl
  · rename_i c' hd
    rw [hd] at hpath hcell' hlen hq hs'
    exact (admitDense_ends hs' slot pinned target (by rw [hlen]; exact hslot) hcell').after
      hpath hq

/-- The body of a dense write. -/
theorem denseWriteBody_ends (tile : Tile) (hs : Sound c) (hfit : Fits c) (slot : ℕ) (target : ℕ)
    (reserve : Bool) : DenseEnds c slot tile (c.denseWriteBody slot tile target reserve) := by
  unfold denseWriteBody
  split_ifs with hover
  · exact DenseEnds.refused c slot tile _
  cases hadd : checkedAdd slot 1 with
  | none => exact DenseEnds.refused c slot tile _
  | some n =>
      dsimp only
      cases hrs : c.resize n reserve with
      | error e =>
          have he : e = .err "slot allocation failed" := by
            unfold resize at hrs
            split_ifs at hrs
            cases hrs
            rfl
          subst he
          exact DenseEnds.refused c slot tile _
      | ok c₁ =>
          obtain ⟨hgrow, hslot, hfit₁, hq⟩ := resize_path (· = slot) hfit hadd hrs
          have hs₁ := Path.sound hs hgrow
          have herase := hgrow.trans (erased_path (· = slot) rfl hslot)
          have hsub : checkedSub c₁.residentBytes
              ((slotAt c₁.slots slot).elim 0 PhysicalSlot.allocatedBytes) =
              some (erased c₁ slot).residentBytes :=
            checkedSub_eq_some.mpr ⟨old_le hs₁ slot, rfl⟩
          dsimp only
          rw [hsub]
          have hfill := fillDense_ends (c := erased c₁ slot) tile
            (Path.sound hs herase) (erased_fits hfit₁ hslot) slot
            ((slotAt c₁.slots slot).elim false fun s => decide (s.tier = .pinned)) target
            (by simpa [erased] using hslot) (slotAt_erased hslot)
          exact hfill.after herase hq

/-- A dense write commits its body or ends in the state it started from. -/
theorem writeAtDenseBudget_ends (hs : Sound c) (hfit : Fits c) (slot : ℕ) (target : ℕ)
    (reserve : Bool) :
    WriteEnds c slot tile (c.writeAtDenseBudget slot tile target reserve) := by
  have hbody := denseWriteBody_ends tile hs hfit slot
    (min target c.configBudgetBytes) reserve
  unfold writeAtDenseBudget
  dsimp only
  split
  · rename_i m c' hd
    rw [hd] at hbody
    exact .inr ⟨by simp, fun _ =>
      ReflTransGen.single (Prim.control rfl rfl rfl hbody.path.limits_eq)⟩
  · rename_i hne
    have hok : Succeeded (c.denseWriteBody slot tile (min target c.configBudgetBytes) reserve).1 := by
      rcases hr : c.denseWriteBody slot tile (min target c.configBudgetBytes) reserve with
        ⟨_ | _, c'⟩
      · rename_i e
        cases e with
        | err m => exact (hne m c' hr).elim
        | panic => exact (hbody.noPanic (by rw [hr])).elim
      · exact ⟨_, rfl⟩
    exact .inl ⟨hok, hbody.path, hbody.wrote hok⟩

theorem clearSlot_path (slot : ℕ) : Path (· = slot) c (c.clearSlot slot).2 := by
  unfold clearSlot
  cases hat : slotAt c.slots slot with
  | none => exact .refl
  | some s => exact ReflTransGen.single (Prim.erase rfl hat)

theorem set_slotAt_self {xs : List (Option PhysicalSlot)} {s : PhysicalSlot}
    (h : slotAt xs i = some s) : xs.set i (some s) = xs := by
  apply List.ext_getElem?
  intro j
  by_cases hij : i = j
  · subst hij
    rw [List.getElem?_set_self (slotAt_lt h)]
    rw [slotAt, Option.join_eq_some_iff] at h
    exact h.symm
  · rw [List.getElem?_set_ne hij]

/-- Setting the pin on a HOT slot is the edge into PINNED. -/
theorem moveAt_pin {s : PhysicalSlot} (hs : Sound c) (hat : slotAt c.slots i = some s)
    (ht : s.tier = .hot) : MoveAt c i .hot .pinned
      { c with slots := c.slots.set i (some { s with tier := .pinned }) } := by
  obtain ⟨t, f, hc, hf⟩ := hs.wellFormed i s hat
  obtain rfl : f = .hot := tier_hot_iff.mp (hf.tier.symm.trans ht)
  exact MoveAt.mk hat hc hf ⟨rfl, hf.bytes, hf.offloaded, hf.warmResidual⟩ rfl rfl rfl rfl

/-- A move leaves the slot in its new form. -/
theorem slotAt_moveAt {f g : Form} (h : MoveAt c i f g c') :
    ∃ s, slotAt c'.slots i = some s ∧ s.tier = g.tier := by
  obtain ⟨hat, _, _, hg, _, _, _, _⟩ := h
  exact ⟨_, slotAt_set_self (slotAt_lt hat) _, hg.tier⟩

/-- Pinning keeps the tile: at most a promotion, then the edge into PINNED. -/
theorem pin_path {touch : ℕ → Prop} (hs : Sound c) (hfit : Fits c) (slot : ℕ) :
    Path touch c (c.pin slot).2 := by
  unfold pin ElasticKvCache.tier
  cases hat : slotAt c.slots slot with
  | none => exact .refl
  | some s =>
      cases ht : s.tier with
      | cold => simp only [Option.map_some, ht]; exact .refl
      | hot =>
          simp only [Option.map_some, ht, reduceCtorEq, if_false, hat]
          exact ReflTransGen.single (Prim.move .pin (moveAt_pin hs hat ht))
      | pinned =>
          simp only [Option.map_some, ht, reduceCtorEq, if_false, hat]
          have heq : { s with tier := .pinned } = s := by rw [← ht]
          refine ReflTransGen.single (Prim.control ?_ rfl rfl rfl)
          rw [heq]
          exact set_slotAt_self hat
      | warm =>
          simp only [Option.map_some, ht, if_true]
          by_cases hb : c.residentBytes + residualBytes ≤ c.configBudgetBytes
          · obtain ⟨hok, hmv⟩ := promoteSlot_warm hs hfit hat ht hb
            obtain ⟨s', hat', ht'⟩ := slotAt_moveAt hmv
            simp only [hok, hat']
            exact (ReflTransGen.single (Prim.move .promote hmv)).tail
              (Prim.move .pin (moveAt_pin (hmv.sound hs) hat' ht'))
          · obtain ⟨hsame, hfail⟩ := promoteSlot_of_not (i := slot) hs hfit
              (fun _ _ _ => Nat.lt_of_not_le hb)
            have herr : ∃ e, (c.promoteSlot slot).1 = .error e := by
              cases hr : (c.promoteSlot slot).1 with
              | error e => exact ⟨e, rfl⟩
              | ok u =>
                  have := hfail ⟨u, hr⟩
                  simp [ElasticKvCache.tier, hat, ht] at this
            obtain ⟨e, he⟩ := herr
            simp only [he, hsame]
            exact .refl

theorem modifySlot_importance_path {touch : ℕ → Prop} (slot : ℕ) (g : PhysicalSlot → F32) :
    Path touch c (c.modifySlot slot fun s => { s with importance := g s }) := by
  unfold modifySlot
  cases hat : slotAt c.slots slot with
  | none => exact .refl
  | some s => exact ReflTransGen.single (Prim.note _ hat)

theorem foldl_importance_path {touch : ℕ → Prop} (g : ℕ × F32 → PhysicalSlot → F32)
    (scores : List (ℕ × F32)) : Path touch c
      (scores.foldl (fun c p => c.modifySlot p.1 fun s => { s with importance := g p s }) c) := by
  induction scores generalizing c with
  | nil => exact .refl
  | cons p rest ih => exact (modifySlot_importance_path p.1 _).trans ih

/-- Scores change importances and nothing else. -/
theorem observeScores_path {touch : ℕ → Prop} [F32Arith] (scores : List (ℕ × F32))
    (temperature : F32) : Path touch c (c.observeScores scores temperature) := by
  unfold observeScores
  dsimp only
  split_ifs
  · exact .refl
  · exact .refl
  · exact foldl_importance_path _ scores

/-- A controller-driven step: its decision, then one action. -/
theorem step_path {touch : ℕ → Prop} [F64 F] (hs : Sound c) (hfit : Fits c) :
    Path touch c c.step.2 := by
  have hlim := ElasticController.limits_step c.controller c.observation
  unfold step
  dsimp only
  split
  · rename_i e ctrl hd
    rw [hd] at hlim
    refine ReflTransGen.single (Prim.control rfl rfl rfl ?_)
    simp only [limits, hlim]
  · rename_i d ctrl hd
    rw [hd] at hlim
    have hctl : Path touch c { c with controller := ctrl, lastReason := d.trace.reason } :=
      ReflTransGen.single (Prim.control rfl rfl rfl (by simp only [limits, hlim]))
    have hact := fun target => applyAction_path touch d.action target
      (Path.sound hs hctl) (hfit : Fits { c with controller := ctrl, lastReason := d.trace.reason })
    split
    · rename_i h
      have h₂ := congrArg Prod.snd h
      rw [← h₂]
      exact hctl.trans (hact _)
    · rename_i h
      have h₂ := congrArg Prod.snd h
      split_ifs <;> (rw [← h₂]; exact hctl.trans (hact _))

end SlhaV2.CacheWrites
