import SlhaV2.PageTransition

/-!
# Page transitions interleaved with the owning runtime

Generations only grow: a slot that was written or cleared since it was bound is
absent or carries a generation the binding has never seen. The comparison made
under the lock therefore excludes recycled slots, and on the bound page the
demotion and its undoing are exact.
-/
namespace SlhaV2.PageRuns
open MachineWord ByteBuffer TileCodec SlotVector FloatingPoint GuardedRun PhysicalCache
open PhysicalCache.ElasticKvCache ResidencyGraph PhysicalSteps SlotOperations CacheOperations
open CacheWrites CacheRuns ControlPlanes PageTransition PageTransition.SlhaKvTransitionBackend
open Relation (ReflTransGen)

section Generations
variable {F : Type} {c c' : ElasticKvCache F} {touch : ℕ → Prop} {i n : ℕ}

/-- Every stored generation was issued before the next one. -/
def Fresh (c : ElasticKvCache F) : Prop :=
  ∀ i s, slotAt c.slots i = some s → s.seq < c.nextSeq

theorem Prim.nextSeq_le (h : Prim touch c c') (hlt : c'.nextSeq < maxWord) :
    c.nextSeq ≤ c'.nextSeq := by
  cases h with
  | move _ hm => obtain ⟨⟩ := hm; exact le_rfl
  | control _ _ hq _ => exact hq.ge
  | store => exact le_satAdd (by simp only [satAdd] at hlt; omega)
  | note | grow | erase | clear => exact le_rfl

theorem Path.nextSeq_le (h : Path touch c c') (hlt : c'.nextSeq < maxWord) :
    c.nextSeq ≤ c'.nextSeq := by
  induction h with
  | refl => exact le_rfl
  | tail _ hp ih =>
      have hle := Prim.nextSeq_le hp hlt
      exact (ih (hle.trans_lt hlt)).trans hle

/-- A slot of the new state is an old one with its generation, or was just stored. -/
theorem Prim.seq_cases (h : Prim touch c c') {s' : PhysicalSlot}
    (hat : slotAt c'.slots i = some s') :
    (∃ s, slotAt c.slots i = some s ∧ s'.seq = s.seq) ∨
      touch i ∧ s'.seq = c.nextSeq ∧ c'.nextSeq = satAdd c.nextSeq 1 := by
  have other : ∀ (j : ℕ) (o : Option PhysicalSlot), j ≠ i →
      slotAt (c.slots.set j o) i = some s' → ∃ s, slotAt c.slots i = some s ∧ s'.seq = s.seq :=
    fun j o hj h => ⟨s', by rwa [slotAt_set_of_ne hj] at h, rfl⟩
  cases h with
  | @move j f g _ _ hmv =>
      obtain ⟨hj, _, _, _, hq, _, _, _⟩ := hmv
      by_cases hji : j = i
      · subst hji
        rw [slotAt_set_self (slotAt_lt hj)] at hat
        cases hat
        exact .inl ⟨_, hj, hq⟩
      · exact .inl (other j _ hji hat)
  | @note j s x hj =>
      by_cases hji : j = i
      · subst hji
        rw [slotAt_set_self (slotAt_lt hj)] at hat
        cases hat
        exact .inl ⟨_, hj, rfl⟩
      · exact .inl (other j _ hji hat)
  | control h₁ => exact .inl ⟨s', by rwa [h₁] at hat, rfl⟩
  | grow k => exact .inl ⟨s', by rwa [slotAt_append_none] at hat, rfl⟩
  | @erase j s _ hj =>
      by_cases hji : j = i
      · subst hji
        rw [slotAt_set_self (slotAt_lt hj)] at hat
        cases hat
      · exact .inl (other j _ hji hat)
  | @store j s t f ht hj _ _ _ hq =>
      by_cases hji : j = i
      · subst hji
        rw [slotAt_set_self hj] at hat
        cases hat
        exact .inr ⟨ht, hq, rfl⟩
      · exact .inl (other j _ hji hat)
  | clear _ => simp [ElasticKvCache.clear, slotAt] at hat

theorem Path.fresh (h : Path touch c c') (hf : Fresh c) (hlt : c'.nextSeq < maxWord) :
    Fresh c' := by
  induction h with
  | refl => exact hf
  | @tail b d _ hp ih =>
      have hle := Prim.nextSeq_le hp hlt
      intro i s hat
      rcases Prim.seq_cases hp hat with ⟨s₀, hat₀, hq⟩ | ⟨_, hq, hn⟩
      · rw [hq]
        exact (ih (hle.trans_lt hlt) i s₀ hat₀).trans_le hle
      · rw [hn] at hlt ⊢
        rw [hq]
        simp only [satAdd] at hlt ⊢
        omega

/-- The slot is absent, or its generation is at least this one. -/
def SeqFrom (n i : ℕ) (c : ElasticKvCache F) : Prop :=
  n ≤ c.nextSeq ∧ ∀ s, slotAt c.slots i = some s → n ≤ s.seq

theorem Path.seqFrom (h : Path touch c c') (hn : SeqFrom n i c) (hlt : c'.nextSeq < maxWord) :
    SeqFrom n i c' := by
  induction h with
  | refl => exact hn
  | @tail b d _ hp ih =>
      have hle := Prim.nextSeq_le hp hlt
      obtain ⟨h₁, h₂⟩ := ih (hle.trans_lt hlt)
      refine ⟨h₁.trans hle, fun s hat => ?_⟩
      rcases Prim.seq_cases hp hat with ⟨s₀, hat₀, hq⟩ | ⟨_, hq, _⟩
      · rw [hq]
        exact h₂ s₀ hat₀
      · rw [hq]
        exact h₁

end Generations

section Backend
variable {F I E S T : Type} {c c' : ElasticKvCache F} {b : SlhaKvTransitionBackend I E S}

/-- What binding establishes about the backend itself. -/
structure Bound (b : SlhaKvTransitionBackend I E S) : Prop where
  distinct : b.source ≠ b.target
  codec : PageTransition.codecName b.sourceHotTile = .ok b.codecName

/-- The slot holds the bound page in this form. -/
def HoldsPage (b : SlhaKvTransitionBackend I E S) (c : ElasticKvCache F) (f : Form) : Prop :=
  ∃ s, slotAt c.slots b.slot = some s ∧ s.seq = b.slotGeneration ∧
    Represents s b.sourceHotTile f ∧ Clean b.sourceHotTile

theorem restorable_of_represents {s : PhysicalSlot} {t : Tile} {f : Form}
    (hf : Represents s t f) (hc : Clean t) (h : f = .hot ∨ f = .warm) :
    s.restorableHotTile = some t := by
  have hr := hf.recover hc
  rcases h with rfl | rfl
  · simpa [recover, hf.tier, Form.tier] using hr
  · simpa [recover, hf.tier, Form.tier] using hr

/-- On the bound page the descriptor is the source when HOT and the target when WARM. -/
theorem currentDescriptor_of_holds (hb : Bound b) {f : Form} (h : HoldsPage b c f)
    (hf : f = .hot ∨ f = .warm) :
    b.currentDescriptorLocked c = .ok (if f = .hot then b.source else b.target) := by
  obtain ⟨s, hat, hq, hrep, hc⟩ := h
  have hr := restorable_of_represents hrep hc hf
  have hback := hrep.offloadedBytes
  have ht := hrep.tier
  unfold currentDescriptorLocked
  simp only [ElasticKvCache.slotGeneration, ElasticKvCache.restorableHotTile, ElasticKvCache.tier,
    slotBackingBytes, hat, Option.map_some, hq, hr, hb.codec, ne_eq, not_true_eq_false, if_false]
  rcases hf with rfl | rfl
  · rw [ht]
    rfl
  · rw [ht, hback]
    rfl

/-- The descriptor is only given for the bound page. -/
theorem holds_of_currentDescriptor (hs : Sound c) {d : KvPageDescriptor I E S}
    (h : b.currentDescriptorLocked c = .ok d) :
    (HoldsPage b c .hot ∧ d = b.source) ∨ (HoldsPage b c .warm ∧ d = b.target) := by
  unfold currentDescriptorLocked at h
  cases hat : slotAt c.slots b.slot with
  | none => simp [ElasticKvCache.slotGeneration, hat] at h
  | some s =>
      obtain ⟨t, f, hc, hf⟩ := hs.wellFormed _ s hat
      simp only [ElasticKvCache.slotGeneration, ElasticKvCache.restorableHotTile,
        ElasticKvCache.tier, slotBackingBytes, hat, Option.map_some] at h
      by_cases hq : s.seq = b.slotGeneration
      swap
      · rw [if_pos hq] at h
        cases h
      rw [if_neg (not_not.mpr hq)] at h
      cases htile : s.restorableHotTile with
      | none => rw [htile] at h; cases h
      | some tile =>
          rw [htile] at h
          dsimp only at h
          by_cases hsame : tile = b.sourceHotTile
          swap
          · rw [if_pos hsame] at h
            cases h
          subst hsame
          rw [if_neg (not_not.mpr rfl)] at h
          have key : ∀ g, (g = Form.hot ∨ g = .warm) → f = g → HoldsPage b c g := by
            rintro g hg rfl
            have ht := restorable_of_represents hf hc hg
            rw [ht] at htile
            obtain rfl : t = b.sourceHotTile := Option.some.inj htile
            exact ⟨s, hat, hq, hf, hc⟩
          split at h
          · cases h
          split_ifs at h <;> cases ht : s.tier <;> rw [ht] at h <;> cases h
          · exact .inl ⟨key .hot (.inl rfl) (tier_hot_iff.mp (hf.tier.symm.trans ht)), rfl⟩
          · exact .inl ⟨key .hot (.inl rfl) (tier_hot_iff.mp (hf.tier.symm.trans ht)), rfl⟩
          · exact .inr ⟨key .warm (.inr rfl) (tier_warm_iff.mp (hf.tier.symm.trans ht)), rfl⟩

theorem holdsPage_of_moveAt {f g : Form} (h : HoldsPage b c f) (hm : MoveAt c b.slot f g c') :
    HoldsPage b c' g := by
  obtain ⟨s, hat, hq, hrep, hc⟩ := h
  cases hm with
  | @mk s₀ s' t _ _ hat₀ hct hf hg hseq =>
      cases hat₀.symm.trans hat
      obtain rfl : t = b.sourceHotTile :=
        Option.some.inj ((hf.recover hct).symm.trans (hrep.recover hc))
      exact ⟨s', slotAt_set_self (slotAt_lt hat) _, hseq.trans hq, hg, hc⟩

/-- Reports of the comparison are errors with a message. -/
theorem err_of_currentDescriptor {e : Fault} (h : b.currentDescriptorLocked c = .error e) :
    ∃ m, e = .err m := by
  cases e with
  | err m => exact ⟨m, rfl⟩
  | panic =>
      unfold currentDescriptorLocked at h
      repeat' split at h
      all_goals cases h

/-- The page went from one form to another, or nothing happened and a message says why. -/
def TransitionEnds (b : SlhaKvTransitionBackend I E S) (h : SlhaKvCacheHandle F) (f g : Form)
    (r : Outcome Unit × SlhaKvCacheHandle F) : Prop :=
  (r.1 = .ok () ∧ HoldsPage b h.cache f ∧ MoveAt h.cache b.slot f g r.2.cache ∧
    r.2.poisoned = h.poisoned) ∨ ((∃ m, r.1 = .error (.err m)) ∧ r.2 = h)

variable [DecidableEq I] [DecidableEq E] [DecidableEq S] [DecidableEq T]

theorem err_of_sameTransition [KvContract I E S T] {source target : KvPageDescriptor I E S}
    {transition : T} {text : String} {e : Fault}
    (h : b.sameTransition source target transition text = .error e) : ∃ m, e = .err m := by
  cases e with
  | err m => exact ⟨m, rfl⟩
  | panic =>
      unfold sameTransition at h
      repeat' split at h
      all_goals cases h

theorem eq_of_sameTransition [KvContract I E S T] {source target : KvPageDescriptor I E S}
    {transition : T} {text : String}
    (h : b.sameTransition source target transition text = .ok ()) :
    source = b.source ∧ target = b.target := by
  unfold sameTransition at h
  split_ifs at h with hne
  push Not at hne
  exact hne

theorem err_of_lock {h : SlhaKvCacheHandle F} {e : Fault} (hl : h.lock = .error e) :
    ∃ m, e = .err m := by
  unfold SlhaKvCacheHandle.lock at hl
  split_ifs at hl
  cases hl
  exact ⟨_, rfl⟩

theorem eq_of_lock {h : SlhaKvCacheHandle F} (hl : h.lock = .ok c) : c = h.cache := by
  unfold SlhaKvCacheHandle.lock at hl
  split_ifs at hl
  exact (Except.ok.inj hl).symm

/-- Under the lock: the demotion of the bound page, or no change at all. -/
theorem applyLocked_cases (hb : Bound b) (hs : Sound c) :
    (b.applyLocked c b.source b.target).1 = .ok () ∧ HoldsPage b c .hot ∧
        MoveAt c b.slot .hot .warm (b.applyLocked c b.source b.target).2 ∨
      (∃ m, (b.applyLocked c b.source b.target).1 = .error (.err m)) ∧
        (b.applyLocked c b.source b.target).2 = c := by
  unfold applyLocked
  cases hcur : b.currentDescriptorLocked c with
  | error e =>
      obtain ⟨m, rfl⟩ := err_of_currentDescriptor hcur
      exact .inr ⟨⟨m, rfl⟩, rfl⟩
  | ok d =>
      dsimp only
      rcases holds_of_currentDescriptor hs hcur with ⟨hpage, rfl⟩ | ⟨_, rfl⟩
      · rw [if_neg (not_not.mpr rfl)]
        obtain ⟨s, hat, _, hrep, _⟩ := id hpage
        obtain ⟨hok, hmv⟩ := demoteSlot_hot hs hat hrep.tier
        rcases hd : c.demoteSlot b.slot with ⟨rd, c'⟩
        rw [hd] at hok hmv
        obtain rfl : rd = .ok () := hok
        have hafter := currentDescriptor_of_holds hb (holdsPage_of_moveAt hpage hmv) (.inr rfl)
        rw [if_neg (by decide)] at hafter
        simp only [hafter, if_true]
        exact .inl ⟨trivial, hpage, hmv⟩
      · rw [if_pos hb.distinct.symm]
        exact .inr ⟨⟨_, rfl⟩, rfl⟩

theorem applyTransitionIfSource_ends [KvContract I E S T] {h : SlhaKvCacheHandle F}
    (hb : Bound b) (hs : Sound h.cache) (source target : KvPageDescriptor I E S)
    (transition : T) : TransitionEnds b h .hot .warm
      (b.applyTransitionIfSource h source target transition) := by
  unfold applyTransitionIfSource
  cases hsame : b.sameTransition source target transition
      "SLHAv2 apply received a foreign KV transition" with
  | error e =>
      obtain ⟨m, rfl⟩ := err_of_sameTransition hsame
      exact .inr ⟨⟨m, rfl⟩, rfl⟩
  | ok _ =>
      obtain ⟨rfl, rfl⟩ := eq_of_sameTransition hsame
      dsimp only
      cases hl : h.lock with
      | error e =>
          obtain ⟨m, rfl⟩ := err_of_lock hl
          exact .inr ⟨⟨m, rfl⟩, rfl⟩
      | ok c =>
          obtain rfl := eq_of_lock hl
          rcases applyLocked_cases hb hs with ⟨h₁, h₂, h₃⟩ | ⟨h₁, h₂⟩
          · exact .inl ⟨h₁, h₂, h₃, rfl⟩
          · refine .inr ⟨h₁, ?_⟩
            dsimp only
            rw [h₂]

/-- Under the lock: the page is HOT already, or it is promoted, or nothing changes. -/
theorem restoreLocked_cases (hb : Bound b) (hs : Sound c) (hfit : Fits c) :
    (b.restoreLocked c b.source).1 = .ok () ∧
        (HoldsPage b c .hot ∧ (b.restoreLocked c b.source).2 = c ∨
          HoldsPage b c .warm ∧ MoveAt c b.slot .warm .hot (b.restoreLocked c b.source).2) ∨
      (∃ m, (b.restoreLocked c b.source).1 = .error (.err m)) ∧
        (b.restoreLocked c b.source).2 = c := by
  unfold restoreLocked
  cases hcur : b.currentDescriptorLocked c with
  | error e =>
      obtain ⟨m, rfl⟩ := err_of_currentDescriptor hcur
      exact .inr ⟨⟨m, rfl⟩, rfl⟩
  | ok d =>
      dsimp only
      rcases holds_of_currentDescriptor hs hcur with ⟨hpage, rfl⟩ | ⟨hpage, rfl⟩
      · rw [if_pos rfl]
        exact .inl ⟨rfl, .inl ⟨hpage, rfl⟩⟩
      · rw [if_neg hb.distinct.symm, if_neg (not_not.mpr rfl)]
        obtain ⟨s, hat, _, hrep, _⟩ := id hpage
        by_cases hroom : c.residentBytes + residualBytes ≤ c.configBudgetBytes
        · obtain ⟨hok, hmv⟩ := promoteSlot_warm hs hfit hat hrep.tier hroom
          rcases hp : c.promoteSlot b.slot with ⟨rp, c'⟩
          rw [hp] at hok hmv
          obtain rfl : rp = .ok () := hok
          have hafter := currentDescriptor_of_holds hb (holdsPage_of_moveAt hpage hmv) (.inl rfl)
          rw [if_pos rfl] at hafter
          simp only [hafter, ne_eq, not_true_eq_false, if_false]
          exact .inl ⟨trivial, .inr ⟨hpage, hmv⟩⟩
        · obtain ⟨hsame, hfail⟩ := promoteSlot_of_not (i := b.slot) hs hfit
            fun _ _ _ => Nat.lt_of_not_le hroom
          rcases hp : c.promoteSlot b.slot with ⟨rp, c'⟩
          rw [hp] at hsame hfail
          obtain rfl : c' = c := hsame
          cases rp with
          | error e => exact .inr ⟨⟨_, rfl⟩, rfl⟩
          | ok u =>
              have := hfail ⟨u, rfl⟩
              simp [ElasticKvCache.tier, hat, hrep.tier, Form.tier] at this

/-- How a restore ends. -/
def RestoreEnds (b : SlhaKvTransitionBackend I E S) (h : SlhaKvCacheHandle F)
    (r : Outcome Unit × SlhaKvCacheHandle F) : Prop :=
  (r.1 = .ok () ∧ (HoldsPage b h.cache .hot ∧ r.2 = h ∨ HoldsPage b h.cache .warm ∧
    MoveAt h.cache b.slot .warm .hot r.2.cache ∧ r.2.poisoned = h.poisoned)) ∨
  ((∃ m, r.1 = .error (.err m)) ∧ r.2 = h)

theorem restorePage_ends {h : SlhaKvCacheHandle F} (hb : Bound b) (hs : Sound h.cache)
    (hfit : Fits h.cache) (source : KvPageDescriptor I E S) :
    RestoreEnds b h (b.restorePage h source) := by
  unfold restorePage
  by_cases hsrc : source = b.source
  · subst hsrc
    rw [if_neg (not_not.mpr rfl)]
    cases hl : h.lock with
    | error e =>
        obtain ⟨m, rfl⟩ := err_of_lock hl
        exact .inr ⟨⟨m, rfl⟩, rfl⟩
    | ok c =>
        obtain rfl := eq_of_lock hl
        rcases restoreLocked_cases hb hs hfit with ⟨h₁, ⟨h₂, h₃⟩ | ⟨h₂, h₃⟩⟩ | ⟨h₁, h₂⟩
        · refine .inl ⟨h₁, .inl ⟨h₂, ?_⟩⟩
          dsimp only
          rw [h₃]
        · exact .inl ⟨h₁, .inr ⟨h₂, h₃, rfl⟩⟩
        · refine .inr ⟨h₁, ?_⟩
          dsimp only
          rw [h₂]
  · rw [if_pos hsrc]
    exact .inr ⟨⟨_, rfl⟩, rfl⟩

end Backend

section Binding
variable {F I E S T : Type} [KvContract I E S T] {c : ElasticKvCache F}
  {b : SlhaKvTransitionBackend I E S} {slot : ℕ} {epoch : E} {semantics : S}

/-- Identifiers keep the text they are made from. -/
def IdsKeepText (I E S T : Type) [KvContract I E S T] : Prop :=
  ∀ x y (i : I), KvContract.newId E S T x = .ok i → KvContract.newId E S T y = .ok i → x = y

/-- What a binding read of its slot. -/
structure BoundAt (b : SlhaKvTransitionBackend I E S) (c : ElasticKvCache F) (slot : ℕ) :
    Prop where
  slot_eq : b.slot = slot
  tier : c.tier slot = some .hot
  generation : c.slotGeneration slot = some b.slotGeneration
  tile : c.restorableHotTile slot = some b.sourceHotTile

theorem readHotSlot_ok {generation : ℕ} {tile : Tile} {codec : String}
    (h : readHotSlot c slot = .ok (generation, tile, codec)) :
    c.tier slot = some .hot ∧ c.slotGeneration slot = some generation ∧
      c.restorableHotTile slot = some tile ∧ PageTransition.codecName tile = .ok codec := by
  unfold readHotSlot at h
  split_ifs at h with ht
  split at h
  · cases h
  · rename_i hg
    split at h
    · cases h
    · rename_i htile
      split at h
      · cases h
      · rename_i hcodec
        cases h
        exact ⟨not_not.mp ht, hg, htile, hcodec⟩

theorem bindHotSlot_ok (hid : IdsKeepText I E S T)
    (h : bindHotSlot T (.new c) slot epoch semantics = .ok b) : Bound b ∧ BoundAt b c slot := by
  unfold bindHotSlot at h
  simp only [SlhaKvCacheHandle.lock, SlhaKvCacheHandle.new, Bool.false_eq_true, if_false] at h
  split at h
  · cases h
  rename_i generation tile codec hread
  obtain ⟨ht, hg, htile, hcodec⟩ := readHotSlot_ok hread
  split at h
  · cases h
  split at h
  · cases h
  rename_i source hsource
  split at h
  · cases h
  rename_i target htarget
  cases h
  refine ⟨⟨?_, hcodec⟩, ⟨rfl, ht, hg, htile⟩⟩
  -- The identifiers differ in the tier at the end of their text.
  unfold descriptor at hsource htarget
  split at hsource
  · cases hsource
  rename_i i hi
  split at htarget
  · cases htarget
  rename_i j hj
  cases hsource
  cases htarget
  intro heq
  obtain rfl : i = j := congrArg KvPageDescriptor.id heq
  have htext := congrArg String.toList (hid _ _ _ hi hj)
  simp only [String.toList_append, List.append_assoc, List.append_cancel_left_eq] at htext
  revert htext
  decide

end Binding

section Interleaving
variable {F I E S T : Type} [F64 F] [F32Arith] [DecidableEq I] [DecidableEq E] [DecidableEq S]
  [DecidableEq T] [KvContract I E S T]

/-- What may happen between two calls: the runtime uses the cache, some holder
of the lock panics, or the protocol calls its backend. -/
inductive PageOp (I E S T : Type) where
  | cache (op : Op)
  | poison
  | prepare (source target : KvPageDescriptor I E S) (transition : T)
  | apply (source target : KvPageDescriptor I E S) (transition : T)
  | verify (target : KvPageDescriptor I E S) (transition : T)
  | restore (source : KvPageDescriptor I E S)

/-- Checks only read the cache. -/
def execPage (b : SlhaKvTransitionBackend I E S) (h : SlhaKvCacheHandle F) :
    PageOp I E S T → SlhaKvCacheHandle F
  | .cache op => if h.poisoned then h else { h with cache := exec h.cache op }
  | .poison => { h with poisoned := true }
  | .prepare _ _ _ | .verify _ _ => h
  | .apply source target transition => (b.applyTransitionIfSource h source target transition).2
  | .restore source => (b.restorePage h source).2

/-- Bytes fit a word and generations have not run out. -/
def Ample (c : ElasticKvCache F) : Prop := Fits c ∧ c.nextSeq < maxWord

instance (c : ElasticKvCache F) : Decidable (Ample c) := by unfold Ample; infer_instance

variable {b : SlhaKvTransitionBackend I E S} {h h₀ : SlhaKvCacheHandle F} {slot : ℕ}
  {c c₀ : ElasticKvCache F}

/-- The runtime replaced or cleared the slot with this operation. -/
def Recycles (h : SlhaKvCacheHandle F) (i : ℕ) : PageOp I E S T → Prop
  | .cache op => h.poisoned = false ∧ touches h.cache op i
  | _ => False

/-- Every call of the interleaving is a path that touches recycled slots only. -/
theorem execPage_path (hb : Bound b) (hs : Sound h.cache) (hfit : Fits h.cache)
    (op : PageOp I E S T) (hok : Ample (execPage b h op).cache) :
    Path (fun i => Recycles h i op) h.cache (execPage b h op).cache := by
  cases op with
  | cache op =>
      cases hp : h.poisoned with
      | true => simp only [execPage, hp, if_true]; exact .refl
      | false =>
          simp only [execPage, hp, Bool.false_eq_true, if_false] at hok ⊢
          exact (exec_path hs hfit op hok.1).1.mono fun i ht => ⟨hp, ht⟩
  | poison => exact .refl
  | prepare _ _ _ => exact .refl
  | verify _ _ => exact .refl
  | apply source target transition =>
      rcases applyTransitionIfSource_ends hb hs source target transition with
        ⟨_, _, hm, _⟩ | ⟨_, heq⟩
      · exact ReflTransGen.single (Prim.move .demote hm)
      · rw [execPage, heq]
  | restore source =>
      rcases restorePage_ends hb hs hfit source with ⟨_, ⟨_, heq⟩ | ⟨_, hm, _⟩⟩ | ⟨_, heq⟩
      · rw [execPage, heq]
      · exact ReflTransGen.single (Prim.move .promote hm)
      · rw [execPage, heq]

/-- What holds along every interleaving. -/
structure Steady (h : SlhaKvCacheHandle F) : Prop where
  sound : Sound h.cache
  fits : Fits h.cache
  fresh : Fresh h.cache

theorem execPage_steady (hb : Bound b) (hh : Steady h) (op : PageOp I E S T)
    (hok : Ample (execPage b h op).cache) : Steady (execPage b h op) := by
  have hpath := execPage_path hb hh.sound hh.fits op hok
  exact ⟨Path.sound hh.sound hpath, hok.1, Path.fresh hpath hh.fresh hok.2⟩

theorem runs_steady (hb : Bound b) (hh : Steady h₀) {ops : List (PageOp I E S T)}
    (hrun : Runs (execPage b) (fun h => Ample h.cache) h₀ ops h) : Steady h :=
  hrun.invariant hh fun _ op hp hok => execPage_steady hb hp op hok

theorem runs_nextSeq_le (hb : Bound b) (hh : Steady h₀) {ops : List (PageOp I E S T)}
    (hrun : Runs (execPage b) (fun h => Ample h.cache) h₀ ops h) :
    h₀.cache.nextSeq ≤ h.cache.nextSeq := by
  have hp := hrun.invariant (P := fun h => Steady h ∧ h₀.cache.nextSeq ≤ h.cache.nextSeq)
    ⟨hh, le_rfl⟩ ?_
  · exact hp.2
  · rintro u op ⟨hu, hle⟩ hok
    exact ⟨execPage_steady hb hu op hok,
      hle.trans (Path.nextSeq_le (execPage_path hb hu.sound hu.fits op hok) hok.2)⟩

/-- From a recycling on, the slot is absent or has a later generation. -/
theorem seqFrom_of_recycles (hb : Bound b) (hh : Steady h) {op : PageOp I E S T} {i : ℕ}
    (hok : Ample (execPage b h op).cache) (hr : Recycles h i op) :
    SeqFrom h.cache.nextSeq i (execPage b h op).cache := by
  refine ⟨Path.nextSeq_le (execPage_path hb hh.sound hh.fits op hok) hok.2, fun s hat => ?_⟩
  cases op with
  | cache op =>
      obtain ⟨hp, ht⟩ := hr
      simp only [execPage, hp, Bool.false_eq_true, if_false] at hok hat
      rcases ht with ⟨tile, hw⟩ | hc
      · obtain ⟨⟨s₀, _, hat₀, _, hq⟩, _⟩ := (exec_path hh.sound hh.fits op hok.1).2 i tile hw
        cases hat₀.symm.trans hat
        exact hq.ge
      · rw [slotAt_exec_of_clears hc] at hat
        cases hat
  | poison | prepare | verify | apply | restore => exact hr.elim

theorem runs_seqFrom (hb : Bound b) (hh : Steady h₀) {n i : ℕ} (hn : SeqFrom n i h₀.cache)
    {ops : List (PageOp I E S T)}
    (hrun : Runs (execPage b) (fun h => Ample h.cache) h₀ ops h) : SeqFrom n i h.cache := by
  have hp := hrun.invariant (P := fun h => Steady h ∧ SeqFrom n i h.cache) ⟨hh, hn⟩ ?_
  · exact hp.2
  · rintro u op ⟨hu, hq⟩ hok
    exact ⟨execPage_steady hb hu op hok,
      Path.seqFrom (execPage_path hb hu.sound hu.fits op hok) hq hok.2⟩

omit [DecidableEq I] [DecidableEq E] [DecidableEq S] [DecidableEq T] [KvContract I E S T] in
theorem reachable_steady {budget : ℕ} {id : String} {ops : List Op}
    (hrun : Runs exec Ample (new (F := F) budget id) ops c) (poisoned : Bool) :
    Steady ⟨c, poisoned⟩ := by
  have hp := hrun.invariant (P := fun c => Sound c ∧ Fits c ∧ Fresh c)
    ⟨sound_new _ _, fits_new _ _, fun i s hat => by simp [ElasticKvCache.new, slotAt] at hat⟩ ?_
  · exact ⟨hp.1, hp.2.1, hp.2.2⟩
  · rintro u op ⟨hs, hfit, hf⟩ hok
    have hpath := (exec_path hs hfit op hok.1).1
    exact ⟨Path.sound hs hpath, hok.1, Path.fresh hpath hf hok.2⟩

/-- Some operation of the interleaving recycled the slot. -/
def Recycled (b : SlhaKvTransitionBackend I E S) (h₀ : SlhaKvCacheHandle F)
    (ops : List (PageOp I E S T)) : Prop :=
  ∃ ops₁ op ops₂, ops = ops₁ ++ [op] ++ ops₂ ∧
    Recycles (ops₁.foldl (execPage b) h₀) b.slot op

/-- A slot recycled since it was bound never holds the bound page again. -/
theorem not_holdsPage_of_recycled (hb : Bound b) (hh : Steady h₀)
    (hgen : b.slotGeneration < h₀.cache.nextSeq) {ops : List (PageOp I E S T)}
    (hrun : Runs (execPage b) (fun h => Ample h.cache) h₀ ops h) (hr : Recycled b h₀ ops)
    (f : Form) : ¬ HoldsPage b h.cache f := by
  rintro ⟨s, hat, hq, _, _⟩
  obtain ⟨ops₁, op, ops₂, rfl, hrec⟩ := hr
  obtain ⟨w, hrun₁₂, hrun₃⟩ := hrun.split
  obtain ⟨u, hrun₁, hrun₂⟩ := hrun₁₂.split
  obtain rfl := hrun₁.eq_foldl
  obtain ⟨hok, rfl⟩ := hrun₂.of_single
  have hu := runs_steady hb hh hrun₁
  have hw := execPage_steady hb hu op hok
  have hmono := runs_nextSeq_le hb hh hrun₁
  have hfrom := (runs_seqFrom hb hw (seqFrom_of_recycles hb hu hok hrec) hrun₃).2 s hat
  omega

/-- The slot holds the bound generation, HOT, with the bound bytes. -/
def HotAsBound (b : SlhaKvTransitionBackend I E S) (c : ElasticKvCache F) : Prop :=
  ∃ s, slotAt c.slots b.slot = some s ∧ s.seq = b.slotGeneration ∧ s.tier = .hot ∧
    s.bytes = b.sourceHotTile.1

omit [F64 F] [F32Arith] [DecidableEq I] [DecidableEq E] [DecidableEq S] [DecidableEq T]
  [KvContract I E S T] in
theorem HoldsPage.hotAsBound (hp : HoldsPage b c .hot) : HotAsBound b c := by
  obtain ⟨s, hat, hq, hrep, _⟩ := hp
  exact ⟨s, hat, hq, hrep.tier, hrep.bytes⟩

/-- The slot still stands for the bound page, HOT or WARM. -/
def StillBound (b : SlhaKvTransitionBackend I E S) (c : ElasticKvCache F) : Prop :=
  ∃ s, slotAt c.slots b.slot = some s ∧ s.seq = b.slotGeneration ∧
    s.restorableHotTile = some b.sourceHotTile

omit [F64 F] [F32Arith] [DecidableEq I] [DecidableEq E] [DecidableEq S] [DecidableEq T]
  [KvContract I E S T] in
theorem HoldsPage.stillBound {f : Form} (hp : HoldsPage b c f) (hf : f = .hot ∨ f = .warm) :
    StillBound b c := by
  obtain ⟨s, hat, hq, hrep, hc⟩ := hp
  exact ⟨s, hat, hq, restorable_of_represents hrep hc hf⟩

/-- However its calls interleave with the owning runtime, a bound backend only
moves the page it was bound to: a successful application demotes that page, a
successful restore leaves it HOT with its bytes, everything else is an error
that changes nothing, and a recycled slot only ever gets errors. -/
theorem transition_touches_bound_page_only {budget : ℕ} {id : String} {ops₀ : List Op}
    {ops : List (PageOp I E S T)} {epoch : E} {semantics : S} (hid : IdsKeepText I E S T)
    (hrun₀ : Runs exec Ample (new (F := F) budget id) ops₀ c₀)
    (hbind : bindHotSlot T (.new c₀) slot epoch semantics = .ok b)
    (hrun : Runs (execPage b) (fun h => Ample h.cache) (.new c₀) ops h)
    (source target : KvPageDescriptor I E S) (transition : T) :
    BoundAt b c₀ slot ∧
      ((b.applyTransitionIfSource h source target transition).1 = .ok () →
        HotAsBound b h.cache ∧ MoveAt h.cache b.slot .hot .warm
          (b.applyTransitionIfSource h source target transition).2.cache) ∧
      ((b.applyTransitionIfSource h source target transition).1 ≠ .ok () →
        (∃ m, (b.applyTransitionIfSource h source target transition).1 = .error (.err m)) ∧
          (b.applyTransitionIfSource h source target transition).2 = h) ∧
      ((b.restorePage h source).1 = .ok () → StillBound b h.cache ∧
        HotAsBound b (b.restorePage h source).2.cache ∧
        ((b.restorePage h source).2 = h ∨
          MoveAt h.cache b.slot .warm .hot (b.restorePage h source).2.cache)) ∧
      ((b.restorePage h source).1 ≠ .ok () →
        (∃ m, (b.restorePage h source).1 = .error (.err m)) ∧
          (b.restorePage h source).2 = h) ∧
      (Recycled b (.new c₀) ops →
        (b.applyTransitionIfSource h source target transition).1 ≠ .ok () ∧
          (b.restorePage h source).1 ≠ .ok ()) := by
  obtain ⟨hb, hat⟩ := bindHotSlot_ok hid hbind
  have hh₀ : Steady (SlhaKvCacheHandle.new c₀) := reachable_steady hrun₀ false
  have hh := runs_steady hb hh₀ hrun
  have hgen : b.slotGeneration < c₀.nextSeq := by
    obtain ⟨s, hs, hq⟩ := Option.map_eq_some_iff.mp hat.generation
    rw [← hq]
    exact hh₀.fresh slot s hs
  have happly := applyTransitionIfSource_ends hb hh.sound source target transition
  have hrestore := restorePage_ends hb hh.sound hh.fits source
  have hnone := fun hr f => not_holdsPage_of_recycled hb hh₀ hgen hrun hr f
  refine ⟨hat, ?_, ?_, ?_, ?_, fun hr => ⟨?_, ?_⟩⟩
  · intro hok
    rcases happly with ⟨_, hp, hm, _⟩ | ⟨⟨m, hm⟩, _⟩
    · exact ⟨hp.hotAsBound, hm⟩
    · rw [hm] at hok
      cases hok
  · intro hno
    rcases happly with ⟨hok, _⟩ | herr
    · exact (hno hok).elim
    · exact herr
  · intro hok
    rcases hrestore with ⟨_, ⟨hp, heq⟩ | ⟨hp, hm, _⟩⟩ | ⟨⟨m, hm⟩, _⟩
    · exact ⟨hp.stillBound (.inl rfl), by rw [heq]; exact hp.hotAsBound, .inl heq⟩
    · exact ⟨hp.stillBound (.inr rfl), (holdsPage_of_moveAt hp hm).hotAsBound, .inr hm⟩
    · rw [hm] at hok
      cases hok
  · intro hno
    rcases hrestore with ⟨hok, _⟩ | herr
    · exact (hno hok).elim
    · exact herr
  · intro hok
    rcases happly with ⟨_, hp, _⟩ | ⟨⟨m, hm⟩, _⟩
    · exact hnone hr _ hp
    · rw [hm] at hok
      cases hok
  · intro hok
    rcases hrestore with ⟨_, ⟨hp, _⟩ | ⟨hp, _⟩⟩ | ⟨⟨m, hm⟩, _⟩
    · exact hnone hr _ hp
    · exact hnone hr _ hp
    · rw [hm] at hok
      cases hok

end Interleaving

/-- Identifiers as their text, epochs as numbers, one plan between any two descriptors. -/
instance : KvContract String ℕ Unit Unit where
  newId text := .ok text
  nextEpoch n := .ok (n + 1)
  transitionPlan _ _ := .ok ()

section Example
local instance : F32Arith := F32Arith.trivial

/-- A tile is bound and the runtime demotes its slot before the protocol applies. -/
theorem transition_touches_bound_page_only_demoted :
    let c₀ := exec (new (F := ℚ) 256 "kv") (.insert (zeros tileBytes))
    ∃ b : SlhaKvTransitionBackend String ℕ Unit,
      bindHotSlot Unit (.new c₀) 0 0 () = .ok b ∧ BoundAt b c₀ 0 ∧
        let h := execPage (T := Unit) b (.new c₀) (.cache (.demoteSlot 0))
        ((b.applyTransitionIfSource h b.source b.target ()).1 ≠ .ok () →
          (b.applyTransitionIfSource h b.source b.target ()).2 = h) := by
  have hbound : Succeeded (bindHotSlot (I := String) (E := ℕ) (S := Unit) Unit
      (.new (exec (new (F := ℚ) 256 "kv") (.insert (zeros tileBytes)))) 0 0 ()) := by
    decide +kernel
  have hample : Ample (exec (exec (new (F := ℚ) 256 "kv") (.insert (zeros tileBytes)))
      (.demoteSlot 0)) := by decide +kernel
  have hrun₀ : Runs exec Ample (new (F := ℚ) 256 "kv") [.insert (zeros tileBytes)] _ :=
    Runs.single (by decide)
  have hids : IdsKeepText String ℕ Unit Unit := by
    rintro x y i ⟨⟩ ⟨⟩
    rfl
  generalize exec (new (F := ℚ) 256 "kv") (.insert (zeros tileBytes)) = c₀ at *
  obtain ⟨b, hb⟩ := hbound
  have hrun : Runs (execPage (T := Unit) b) (fun h => Ample h.cache) (.new c₀)
      [.cache (.demoteSlot 0)] _ := Runs.single (by simpa [execPage, SlhaKvCacheHandle.new])
  obtain ⟨h₁, _, h₂, _⟩ :=
    transition_touches_bound_page_only hids hrun₀ hb hrun b.source b.target ()
  exact ⟨b, hb, h₁, fun hno => (h₂ hno).2⟩

end Example

end SlhaV2.PageRuns
