import Mathlib.Data.List.Infix
import SlhaV2.CcosRuns

/-!
# How far one enforcement goes down

Bringing the cache under its budget visits the slots of four rungs, each rung in
the order its policy gives on the cache the rungs before it have left. A trace
records the visits; each of them is made while the cache is over budget, and
nothing in a trace ever makes a slot hotter or gives a plane back.
-/
namespace SlhaV2.BudgetLadder
open MachineWord ByteBuffer FloatingPoint TileCodec HostFile SlhaTile EventLog CcosCache CcosSteps
open CcosRuns ElasticKvCache

/-- The four ways down, each harsher than the one before. -/
inductive Rung where
  | dropHot | page | dropWarm | evict
deriving DecidableEq

/-- The slots of a rung in the order of its policy. -/
def order (c : ElasticKvCache) : Rung → List ℕ
  | .dropHot => c.slotsInPagingOrder .hot
  | .page => c.slotsInPagingOrder .hot
  | .dropWarm => c.slotsInPagingOrder .warm
  | .evict => c.evictionOrder

def degrade (faults : ℕ → Faults) : Rung → ElasticKvCache → ℕ → Outcome ElasticKvCache
  | .dropHot => dropStep
  | .page => pageOut
  | .dropWarm => dropStep
  | .evict => evictStep faults

/-- Visits one after the other, each made over budget. -/
inductive Trace (faults : ℕ → Faults) :
    ElasticKvCache → List (Rung × ℕ) → ElasticKvCache → Prop
  | nil {c : ElasticKvCache} : Trace faults c [] c
  | cons {c d e : ElasticKvCache} {r : Rung} {s : ℕ} {steps : List (Rung × ℕ)} :
      c.budgetBytes < c.liveBytes → degrade faults r c s = .ok d → Trace faults d steps e →
        Trace faults c ((r, s) :: steps) e

/-- A live slot whose correction plane can still be paged out. -/
def Droppable (c : ElasticKvCache) (i : ℕ) : Prop :=
  Live c i ∧ ∃ t : SciRustSlhaTile, c.tiles[i]? = some t ∧ t.separableCorrBytes ≠ 0 ∧
    t.isTq3Nocorr = false

/-- The slot is not what it was. -/
def Changed (c d : ElasticKvCache) (i : ℕ) : Prop :=
  d.state[i]? ≠ c.state[i]? ∨ d.tiles[i]? ≠ c.tiles[i]?

/-- One rung: a prefix of its order, all of it unless the budget is met. -/
structure Phase (faults : ℕ → Faults) (r : Rung) (c : ElasticKvCache) (visited : List ℕ)
    (d : ElasticKvCache) : Prop where
  trace : Trace faults c (visited.map (Prod.mk r)) d
  policy : visited <+: order c r
  finished : visited = order c r ∨ d.liveBytes ≤ d.budgetBytes

/-- The four rungs of one enforcement. -/
structure Ladder (faults : ℕ → Faults) (c d : ElasticKvCache) where
  afterDrops : ElasticKvCache
  afterPaging : ElasticKvCache
  afterWarmDrops : ElasticKvCache
  dropped : List ℕ
  paged : List ℕ
  warmDropped : List ℕ
  attempted : List ℕ
  drops : Phase faults .dropHot c dropped afterDrops
  pages : Phase faults .page afterDrops paged afterPaging
  warmDrops : Phase faults .dropWarm afterPaging warmDropped afterWarmDrops
  attempts : Phase faults .evict afterWarmDrops attempted d

/-- All the visits of an enforcement. -/
def Ladder.steps {faults : ℕ → Faults} {c d : ElasticKvCache} (l : Ladder faults c d) :
    List (Rung × ℕ) :=
  l.dropped.map (Prod.mk .dropHot) ++ (l.paged.map (Prod.mk .page) ++
    (l.warmDropped.map (Prod.mk .dropWarm) ++ l.attempted.map (Prod.mk .evict)))

/-- No slot is hotter or fuller than before, and what the orders read is unchanged. -/
structure Lowered (c d : ElasticKvCache) : Prop where
  length : d.tiles.length = c.tiles.length
  hot : ∀ i : ℕ, d.state[i]? = some .hot → c.state[i]? = some .hot
  live : ∀ i, Live d i → Live c i
  droppable : ∀ i, Droppable d i → Droppable c i
  position : ∀ (i : ℕ) (t : SciRustSlhaTile), d.tiles[i]? = some t →
    ∃ u, c.tiles[i]? = some u ∧ t.position = u.position
  seq : d.seq = c.seq
  importance : d.importance = c.importance
  budgetBytes : d.budgetBytes = c.budgetBytes
  policy : d.policy = c.policy
  eviction : d.eviction = c.eviction
  evictionDurability : d.evictionDurability = c.evictionDurability

namespace Lowered
variable {c d e : ElasticKvCache}

theorem of_sameSlots (h : SameSlots c d) : Lowered c d := by
  constructor
  · rw [h.tiles]
  · intro i hi
    rwa [h.state] at hi
  · intro i hi
    unfold Live at hi ⊢
    rwa [h.state] at hi
  · intro i hi
    unfold Droppable Live at hi ⊢
    rwa [h.state, h.tiles] at hi
  · intro i t ht
    exact ⟨t, h.tiles ▸ ht, rfl⟩
  · exact h.seq
  · exact h.importance
  · exact h.budgetBytes
  · exact h.policy
  · exact h.eviction
  · exact h.evictionDurability

theorem refl (c : ElasticKvCache) : Lowered c c := of_sameSlots (SameSlots.refl c)

theorem trans (h : Lowered c d) (k : Lowered d e) : Lowered c e := by
  constructor
  · exact k.length.trans h.length
  · exact fun i hi => h.hot i (k.hot i hi)
  · exact fun i hi => h.live i (k.live i hi)
  · exact fun i hi => h.droppable i (k.droppable i hi)
  · intro i t ht
    obtain ⟨u, hu, htu⟩ := k.position i t ht
    obtain ⟨v, hv, huv⟩ := h.position i u hu
    exact ⟨v, hv, htu.trans huv⟩
  · exact k.seq.trans h.seq
  · exact k.importance.trans h.importance
  · exact k.budgetBytes.trans h.budgetBytes
  · exact k.policy.trans h.policy
  · exact k.eviction.trans h.eviction
  · exact k.evictionDurability.trans h.evictionDurability

end Lowered

theorem slot_of_not_changed {c d : ElasticKvCache} {i : ℕ} (h : ¬ Changed c d i) :
    d.state[i]? = c.state[i]? ∧ d.tiles[i]? = c.tiles[i]? := by
  unfold Changed at h
  push Not at h
  exact h

theorem not_changed_of_sameSlots {c d : ElasticKvCache} (h : SameSlots c d) (i : ℕ) :
    ¬ Changed c d i := by
  unfold Changed
  rw [h.state, h.tiles]
  simp

/-- What is not changed can be dropped as before. -/
theorem droppable_congr {c d : ElasticKvCache} {i : ℕ} (h : ¬ Changed c d i) :
    Droppable d i ↔ Droppable c i := by
  obtain ⟨hs, ht⟩ := slot_of_not_changed h
  unfold Droppable Live
  rw [hs, ht]

theorem droppable_iff {c : ElasticKvCache} {i : ℕ} {s : TileState} {t : SciRustSlhaTile}
    (hs : c.state[i]? = some s) (ht : c.tiles[i]? = some t) :
    Droppable c i ↔ s ≠ .cold ∧ t.separableCorrBytes ≠ 0 ∧ t.isTq3Nocorr = false := by
  constructor
  · intro h
    obtain ⟨hlive, u, hu, hplane⟩ := h
    obtain rfl : t = u := Option.some_inj.mp (ht.symm.trans hu)
    refine ⟨?_, hplane⟩
    intro hcold
    exact not_live_of_cold (hcold ▸ hs) hlive
  · intro h
    exact ⟨live_of_ne_cold hs h.1, t, ht, h.2⟩

/-- A live slot rewritten, no hotter and with no plane it did not have. -/
theorem lowered_rewritten {c : ElasticKvCache} {i : ℕ} {old new : TileState}
    {t u : SciRustSlhaTile} (counter : ℕ) (hs : c.state[i]? = some old)
    (ht : c.tiles[i]? = some t) (hold : old ≠ .cold) (hnew : new = .hot → old = .hot)
    (hplane : u.separableCorrBytes ≠ 0 ∧ u.isTq3Nocorr = false →
      t.separableCorrBytes ≠ 0 ∧ t.isTq3Nocorr = false)
    (hposition : u.position = t.position) : Lowered c (rewritten c i new u counter) := by
  have hi : i < c.state.length := (List.getElem?_eq_some_iff.mp hs).1
  have hti : i < c.tiles.length := (List.getElem?_eq_some_iff.mp ht).1
  have hstate : ∀ j, (c.state.set i new)[j]? = if i = j then some new else c.state[j]? :=
    getElem?_set_ite hi new
  have htile : ∀ j, (c.tiles.set i u)[j]? = if i = j then some u else c.tiles[j]? :=
    getElem?_set_ite hti u
  constructor
  · simp [rewritten]
  · intro j hj
    simp only [rewritten, hstate] at hj
    split_ifs at hj with hij
    · rw [← hij, hs, hnew (Option.some_inj.mp hj)]
    · exact hj
  · exact fun j => live_of_rewritten hs hold
  · intro j hj
    obtain ⟨hlive, v, hv, hsep⟩ := hj
    refine ⟨live_of_rewritten hs hold hlive, ?_⟩
    simp only [rewritten, htile] at hv
    split_ifs at hv with hij
    · obtain rfl : u = v := Option.some_inj.mp hv
      exact ⟨t, hij ▸ ht, hplane hsep⟩
    · exact ⟨v, hv, hsep⟩
  · intro j v hv
    simp only [rewritten, htile] at hv
    split_ifs at hv with hij
    · obtain rfl : u = v := Option.some_inj.mp hv
      exact ⟨t, hij ▸ ht, hposition⟩
    · exact ⟨v, hv, rfl⟩
  all_goals rfl

theorem rewritten_elsewhere (c : ElasticKvCache) {i j : ℕ} (s : TileState)
    (t : SciRustSlhaTile) (counter : ℕ) (hij : j ≠ i) :
    ¬ Changed c (rewritten c i s t counter) j := by
  unfold Changed rewritten
  simp only [List.getElem?_set_ne (Ne.symm hij)]
  simp

theorem lowered_chilled {c e : ElasticKvCache} {i counter : ℕ} (h : SameSlots c e)
    (hi : i < c.state.length) : Lowered c (chilled e i counter) := by
  have hei : i < e.state.length := by rwa [h.state]
  have hlive : ∀ j, Live (chilled e i counter) j → Live c j := by
    intro j hj
    have hlive := (live_of_chilled hei hj).1
    unfold Live at hlive ⊢
    rwa [h.state] at hlive
  constructor
  · exact congrArg List.length h.tiles
  · intro j hj
    rcases hlive j (Or.inl hj) with hhot | hwarm
    · exact hhot
    · have hij := (live_of_chilled hei (Or.inl hj)).2
      have heq : (chilled e i counter).state[j]? = c.state[j]? := by
        unfold chilled
        rw [List.getElem?_set_ne (Ne.symm hij), h.state]
      exact heq ▸ hj
  · exact hlive
  · intro j hj
    obtain ⟨hl, t, ht, hplane⟩ := hj
    exact ⟨hlive j hl, t, h.tiles ▸ ht, hplane⟩
  · intro j t ht
    exact ⟨t, h.tiles ▸ ht, rfl⟩
  · exact h.seq
  · exact h.importance
  · exact h.budgetBytes
  · exact h.policy
  · exact h.eviction
  · exact h.evictionDurability

/-- What every visit does: it lowers its slot, or leaves all slots alone. -/
structure Visited (c d : ElasticKvCache) (i : ℕ) : Prop where
  valid : Valid d
  lowered : Lowered c d
  elsewhere : ∀ j, j ≠ i → ¬ Changed c d j
  effect : SameSlots c d ∨ Changed c d i ∧ d.liveBytes < c.liveBytes

theorem Visited.of_sameSlots {c d : ElasticKvCache} (hc : Valid c) (h : SameSlots c d) (i : ℕ) :
    Visited c d i where
  valid := h.valid hc
  lowered := Lowered.of_sameSlots h
  elsewhere := fun j _ => not_changed_of_sameSlots h j
  effect := Or.inl h

theorem dropStep_visited {c : ElasticKvCache} (hc : Valid c) {i : ℕ} (hi : i < c.tiles.length) :
    ∃ d, c.dropStep i = .ok d ∧ Visited c d i ∧ d.state = c.state ∧
      (Changed c d i ↔ Droppable c i) ∧ ¬ Droppable d i := by
  obtain ⟨b, d, heq, hvalid, -⟩ := hc.dropCorrection hi
  refine ⟨d, dropStep_eq heq, ?_⟩
  obtain ⟨s, hs⟩ := hc.state_of_lt hi
  obtain ⟨t, ht⟩ := hc.tile_of_state hs
  by_cases hplane : s ≠ .cold ∧ t.separableCorrBytes ≠ 0 ∧ t.isTq3Nocorr = false
  · obtain ⟨hcold, hbytes, hnocorr⟩ := hplane
    have hle : t.separableCorrBytes ≤ c.liveBytesCounter := by
      have hfoot := hc.footprint_le hs ht
      have hcorr := separableCorrBytes_le t
      have hrec : reclaimed t = 0 := by simp [reclaimed, hnocorr]
      cases s with
      | hot =>
          simp only [footprint, hrec, hotBytes] at hfoot
          omega
      | warm =>
          simp only [footprint, hrec, warmBytes, hotBytes, residualWords] at hfoot
          omega
      | cold => exact (hcold rfl).elim
    have hdrop : c.dropCorrection i = .ok (true, rewritten c i s (withoutCorrection t)
        (c.liveBytesCounter - t.separableCorrBytes)) := by
      unfold dropCorrection
      simp only [getAt_some hs, getAt_some ht, bind, Except.bind, pure, Except.pure]
      rw [if_neg (by simp [hcold, hbytes, hnocorr]), wordSub_of_le hle]
      simp only [rewritten, set_same hs]
      rfl
    obtain ⟨-, rfl⟩ := Prod.mk.inj (Except.ok.inj (heq.symm.trans hdrop))
    have hstate : (rewritten c i s (withoutCorrection t)
        (c.liveBytesCounter - t.separableCorrBytes)).state = c.state := set_same hs
    have htile : (rewritten c i s (withoutCorrection t)
        (c.liveBytesCounter - t.separableCorrBytes)).tiles[i]? = some (withoutCorrection t) :=
      List.getElem?_set_self hi
    have hchanged : Changed c (rewritten c i s (withoutCorrection t)
        (c.liveBytesCounter - t.separableCorrBytes)) i := by
      right
      rw [htile, ht]
      intro hcon
      have hflag := withoutCorrection_isTq3Nocorr t
      rw [Option.some_inj.mp hcon, hnocorr] at hflag
      exact Bool.false_ne_true hflag
    refine ⟨⟨hvalid, ?_, fun j hj => rewritten_elsewhere c s _ _ hj, Or.inr ⟨hchanged, ?_⟩⟩,
      hstate, ?_, ?_⟩
    · exact lowered_rewritten _ hs ht hcold id (fun _ => ⟨hbytes, hnocorr⟩) rfl
    · change c.liveBytesCounter - t.separableCorrBytes < c.liveBytesCounter
      omega
    · exact iff_of_true hchanged ((droppable_iff hs ht).mpr ⟨hcold, hbytes, hnocorr⟩)
    · rw [droppable_iff (hstate.symm ▸ hs) htile, withoutCorrection_isTq3Nocorr]
      simp
  · have hskip : s = .cold ∨ t.separableCorrBytes = 0 ∨ t.isTq3Nocorr = true := by
      simpa only [not_and_or, not_not, ne_eq, Bool.not_eq_false] using hplane
    have hsame : c.dropCorrection i = .ok (false, c) := by
      unfold dropCorrection
      simp only [getAt_some hs, getAt_some ht, bind, Except.bind, pure, Except.pure]
      exact if_pos hskip
    obtain ⟨-, rfl⟩ := Prod.mk.inj (Except.ok.inj (heq.symm.trans hsame))
    have hnot : ¬ Droppable d i := by rwa [droppable_iff hs ht]
    exact ⟨Visited.of_sameSlots hc (SameSlots.refl d) i, rfl,
      iff_of_false (not_changed_of_sameSlots (SameSlots.refl d) i) hnot, hnot⟩

theorem pageOut_visited {c : ElasticKvCache} (hc : Valid c) {i : ℕ} (hi : i < c.tiles.length) :
    ∃ d, c.pageOut i = .ok d ∧ Visited c d i ∧ (Changed c d i ↔ c.state[i]? = some .hot) ∧
      d.state[i]? ≠ some .hot ∧ (c.state[i]? = some .hot → d.state[i]? = some .warm) := by
  obtain ⟨d, heq, hvalid, -⟩ := hc.pageOut hi
  refine ⟨d, heq, ?_⟩
  rcases pageOut_cases hc hi with ⟨t, hs, ht, hpage⟩ | ⟨hs, hpage⟩
  · obtain rfl := Except.ok.inj (heq.symm.trans hpage)
    have hsi : i < c.state.length := (List.getElem?_eq_some_iff.mp hs).1
    have hwarm : (c.state.set i .warm)[i]? = some TileState.warm := List.getElem?_set_self hsi
    have hfoot := hc.footprint_le hs ht
    have hle := reclaimed_le t
    have hrec : reclaimed (maskResidual t) = reclaimed t := by
      unfold reclaimed
      rw [maskResidual_isTq3Nocorr, maskResidual_separableCorrBytes]
    refine ⟨⟨hvalid, ?_, fun j hj => rewritten_elsewhere c _ _ _ hj, Or.inr ⟨Or.inl ?_, ?_⟩⟩,
      iff_of_true (Or.inl ?_) hs, ?_, fun _ => hwarm⟩
    · refine lowered_rewritten _ hs ht (by decide) (by simp) (fun h => ?_) rfl
      rwa [maskResidual_separableCorrBytes, maskResidual_isTq3Nocorr] at h
    · simp [rewritten, hwarm, hs]
    · simp only [rewritten, ElasticKvCache.liveBytes, footprint, hrec, warmBytes, hotBytes,
        residualWords] at hfoot ⊢
      omega
    · simp [rewritten, hwarm, hs]
    · simp [rewritten, hwarm]
  · obtain rfl := Except.ok.inj (heq.symm.trans hpage)
    exact ⟨Visited.of_sameSlots hc (SameSlots.refl d) i,
      iff_of_false (not_changed_of_sameSlots (SameSlots.refl d) i) hs, hs, fun h => (hs h).elim⟩

/-- Only a durable log can refuse a live slot. -/
theorem evict_of_bestEffort {c : ElasticKvCache} (hc : Valid c) {i : ℕ} (hlive : Live c i)
    (hbest : c.evictionDurability ≠ .requireDurable) (faults : Faults) :
    ∃ d, c.evict i faults = .ok (true, d) := by
  have hpersist : ∀ b d, c.persist i faults = .ok (b, d) → b = true := by
    intro b d h
    obtain ⟨s, hs⟩ : ∃ s, c.state[i]? = some s := by
      rcases hlive with hs | hs <;> exact ⟨_, hs⟩
    obtain ⟨t, ht⟩ := hc.tile_of_state hs
    have hq : i < c.seq.length := by
      rw [hc.seqLength]
      exact hc.lt_of_state hs
    unfold persist at h
    cases hlog : c.eventLog with
    | none =>
        simp only [hlog, if_neg hbest] at h
        exact (Prod.mk.inj (Except.ok.inj h)).1.symm
    | some log =>
        simp only [hlog, getAt_some (List.getElem?_eq_getElem hq), getAt_some ht, bind,
          Except.bind, pure, Except.pure] at h
        generalize writeRecord c.evictionDurability log _ faults = written at h
        obtain ⟨result, after⟩ := written
        cases result with
        | ok u => exact (Prod.mk.inj (Except.ok.inj h)).1.symm
        | error e =>
            simp only [if_neg hbest] at h
            exact (Prod.mk.inj (Except.ok.inj h)).1.symm
  rcases evict_cases hc i faults with ⟨d, heq, -⟩ | ⟨e, s, t, -, -, -, -, -, heq⟩
  · unfold evict at heq
    have hdead : ¬ (c.state[i]? ≠ some .hot ∧ c.state[i]? ≠ some .warm) := by
      intro h
      exact hlive.elim h.1 h.2
    rw [if_neg hdead] at heq
    obtain ⟨s, hs⟩ : ∃ s, c.state[i]? = some s := by
      rcases hlive with hs | hs <;> exact ⟨_, hs⟩
    obtain ⟨b, e, he, hsame⟩ := persist_ok hc hs faults
    obtain rfl := hpersist b e he
    obtain ⟨t, ht⟩ := hc.tile_of_state hs
    have hes : e.state[i]? = some s := hsame.state ▸ hs
    have het : e.tiles[i]? = some t := hsame.tiles ▸ ht
    rw [he] at heq
    simp only [bind, Except.bind, slotLiveBytes_eq hes het, hsame.liveBytesCounter,
      wordSub_of_le (hc.footprint_le hs ht)] at heq
    cases heq
  · exact ⟨_, heq⟩

theorem evictStep_visited {c : ElasticKvCache} (hc : Valid c) (faults : ℕ → Faults) (i : ℕ) :
    ∃ d, c.evictStep faults i = .ok d ∧ Visited c d i ∧
      (Changed c d i → d.state[i]? = some .cold) ∧
      (c.evictionDurability ≠ .requireDurable → Live c i → d.state[i]? = some .cold) := by
  obtain ⟨b, d, heq, hvalid, -⟩ := hc.evict i (faults i)
  refine ⟨d, evictStep_eq heq, ?_⟩
  rcases evict_cases hc i (faults i) with
    ⟨e, hrefused, hsame⟩ | ⟨e, s, t, -, hsame, hs, hcold, ht, hevict⟩
  · obtain ⟨rfl, rfl⟩ := Prod.mk.inj (Except.ok.inj (heq.symm.trans hrefused))
    refine ⟨Visited.of_sameSlots hc hsame i, fun h => (not_changed_of_sameSlots hsame i h).elim,
      fun hbest hlive => ?_⟩
    obtain ⟨e, he⟩ := evict_of_bestEffort hc hlive hbest (faults i)
    exact absurd (Prod.mk.inj (Except.ok.inj (he.symm.trans heq))).1 (by decide)
  · obtain ⟨rfl, rfl⟩ := Prod.mk.inj (Except.ok.inj (heq.symm.trans hevict))
    have hi : i < c.state.length := (List.getElem?_eq_some_iff.mp hs).1
    have hchill : (e.state.set i .cold)[i]? = some TileState.cold :=
      List.getElem?_set_self (hsame.state ▸ hi)
    have hfoot := hc.footprint_le hs ht
    have hrec := reclaimed_le t
    refine ⟨⟨hvalid, lowered_chilled hsame hi, fun j hj => ?_, Or.inr ⟨Or.inl ?_, ?_⟩⟩,
      fun _ => hchill, fun _ _ => hchill⟩
    · unfold Changed chilled
      simp only [List.getElem?_set_ne (Ne.symm hj), hsame.state, hsame.tiles]
      simp
    · simp only [chilled, hchill, hs, ne_eq, Option.some.injEq]
      exact fun h => hcold h.symm
    · change c.liveBytesCounter - footprint s t < c.liveBytesCounter
      cases s with
      | hot =>
          simp only [footprint, hotBytes] at hfoot ⊢
          omega
      | warm =>
          simp only [footprint, warmBytes, hotBytes, residualWords] at hfoot ⊢
          omega
      | cold => exact (hcold rfl).elim

/-- Every rung succeeds on a slot of the arena. -/
theorem degrade_visited {c : ElasticKvCache} (hc : Valid c) (faults : ℕ → Faults) (r : Rung)
    {i : ℕ} (hi : i < c.tiles.length) : ∃ d, degrade faults r c i = .ok d ∧ Visited c d i := by
  cases r with
  | dropHot =>
      obtain ⟨d, heq, hv, -⟩ := dropStep_visited hc hi
      exact ⟨d, heq, hv⟩
  | page =>
      obtain ⟨d, heq, hv, -⟩ := pageOut_visited hc hi
      exact ⟨d, heq, hv⟩
  | dropWarm =>
      obtain ⟨d, heq, hv, -⟩ := dropStep_visited hc hi
      exact ⟨d, heq, hv⟩
  | evict =>
      obtain ⟨d, heq, hv, -⟩ := evictStep_visited hc faults i
      exact ⟨d, heq, hv⟩

/-- The visit of a slot of the arena, whatever the rung. -/
theorem visited_of_degrade {c d : ElasticKvCache} (hc : Valid c) {faults : ℕ → Faults} {r : Rung}
    {i : ℕ} (hi : i < c.tiles.length) (h : degrade faults r c i = .ok d) : Visited c d i := by
  obtain ⟨e, he, hv⟩ := degrade_visited hc faults r hi
  obtain rfl := Except.ok.inj (h.symm.trans he)
  exact hv

/-- The steps visit slots of the arena only. -/
def Within (n : ℕ) (steps : List (Rung × ℕ)) : Prop := ∀ r i, (r, i) ∈ steps → i < n

namespace Trace
variable {faults : ℕ → Faults} {c d e : ElasticKvCache} {p q : List (Rung × ℕ)}

theorem append (h : Trace faults c p d) (k : Trace faults d q e) : Trace faults c (p ++ q) e := by
  induction h with
  | nil => exact k
  | cons hover hstep _ ih => exact .cons hover hstep (ih k)

theorem split (h : Trace faults c (p ++ q) e) : ∃ d, Trace faults c p d ∧ Trace faults d q e := by
  induction p generalizing c with
  | nil => exact ⟨c, .nil, h⟩
  | cons step p ih =>
      cases h with
      | cons hover hstep hrest =>
          obtain ⟨d, hp, hq⟩ := ih hrest
          exact ⟨d, .cons hover hstep hp, hq⟩

/-- A trace keeps the invariant and only lowers. -/
theorem lowered (h : Trace faults c p d) (hc : Valid c) (hw : Within c.tiles.length p) :
    Valid d ∧ Lowered c d := by
  induction h with
  | nil => exact ⟨hc, Lowered.refl _⟩
  | cons hover hstep hrest ih =>
      have hv := visited_of_degrade hc (hw _ _ List.mem_cons_self) hstep
      have hw' : Within _ _ := fun r i hmem => hw r i (List.mem_cons_of_mem _ hmem)
      obtain ⟨hvalid, hlow⟩ := ih hv.valid (hv.lowered.length ▸ hw')
      exact ⟨hvalid, hv.lowered.trans hlow⟩

/-- A slot that is not visited stays as it was. -/
theorem not_changed (h : Trace faults c p d) (hc : Valid c) (hw : Within c.tiles.length p) {i : ℕ}
    (hi : ∀ r, (r, i) ∉ p) : ¬ Changed c d i := by
  induction h with
  | nil => exact not_changed_of_sameSlots (SameSlots.refl _) i
  | @cons c d e r s steps hover hstep hrest ih =>
      have hv := visited_of_degrade hc (hw _ _ List.mem_cons_self) hstep
      have hw' : Within c.tiles.length steps :=
        fun r i hmem => hw r i (List.mem_cons_of_mem _ hmem)
      have hne : i ≠ s := by
        intro his
        exact hi r (by simp [his])
      obtain ⟨hs, ht⟩ := slot_of_not_changed (hv.elsewhere i hne)
      have hrest := ih hv.valid (hv.lowered.length ▸ hw')
        (fun r hmem => hi r (List.mem_cons_of_mem _ hmem))
      unfold Changed at hrest ⊢
      rwa [hs, ht] at hrest

end Trace

theorem slotsInPagingOrder_perm (c : ElasticKvCache) (s : TileState) :
    List.Perm (c.slotsInPagingOrder s) (c.slotsIn s) := by
  unfold slotsInPagingOrder
  split <;> exact List.mergeSort_perm _ _

theorem evictionOrder_perm (c : ElasticKvCache) : List.Perm c.evictionOrder c.liveSlots := by
  unfold evictionOrder
  split <;> exact List.mergeSort_perm _ _

theorem changed_congr {c d e f : ElasticKvCache} {i : ℕ} (h : ¬ Changed c e i)
    (k : ¬ Changed f d i) : Changed c d i ↔ Changed e f i := by
  obtain ⟨hs, ht⟩ := slot_of_not_changed h
  obtain ⟨hs', ht'⟩ := slot_of_not_changed k
  unfold Changed
  rw [hs, ht, hs', ht']

theorem nodup_order {c : ElasticKvCache} (r : Rung) : (order c r).Nodup := by
  have hpaging : ∀ s, (c.slotsInPagingOrder s).Nodup := fun s =>
    (slotsInPagingOrder_perm c s).nodup_iff.mpr (List.nodup_range.filter _)
  cases r with
  | dropHot => exact hpaging .hot
  | page => exact hpaging .hot
  | dropWarm => exact hpaging .warm
  | evict => exact (evictionOrder_perm c).nodup_iff.mpr (List.nodup_range.filter _)

theorem mem_slotsInPagingOrder {c : ElasticKvCache} (hc : Valid c) {s : TileState} {i : ℕ} :
    i ∈ c.slotsInPagingOrder s ↔ c.state[i]? = some s := by
  rw [(slotsInPagingOrder_perm c s).mem_iff]
  unfold slotsIn
  rw [List.mem_filter, List.mem_range]
  simp only [decide_eq_true_eq, and_iff_right_iff_imp]
  exact hc.lt_of_state

theorem mem_evictionOrder {c : ElasticKvCache} (hc : Valid c) {i : ℕ} :
    i ∈ c.evictionOrder ↔ Live c i := by
  rw [(evictionOrder_perm c).mem_iff]
  unfold liveSlots
  rw [List.mem_filter, List.mem_range]
  simp only [ne_eq, decide_eq_true_eq]
  constructor
  · intro h
    obtain ⟨s, hs⟩ := hc.state_of_lt h.1
    refine live_of_ne_cold hs ?_
    intro hcold
    exact h.2 (hcold ▸ hs)
  · intro h
    refine ⟨?_, ?_⟩
    · rcases h with hs | hs <;> exact hc.lt_of_state hs
    · intro hcold
      exact not_live_of_cold hcold h

theorem lt_of_mem_order {c : ElasticKvCache} {r : Rung} {i : ℕ} (h : i ∈ order c r) :
    i < c.tiles.length := by
  cases r with
  | dropHot => exact lt_of_mem_slotsInPagingOrder h
  | page => exact lt_of_mem_slotsInPagingOrder h
  | dropWarm => exact lt_of_mem_slotsInPagingOrder h
  | evict => exact lt_of_mem_evictionOrder h

namespace Phase
variable {faults : ℕ → Faults} {c d : ElasticKvCache} {r : Rung} {visited : List ℕ}

theorem within (h : Phase faults r c visited d) :
    Within c.tiles.length (visited.map (Prod.mk r)) := by
  intro r' i hmem
  obtain ⟨j, hj, heq⟩ := List.mem_map.mp hmem
  obtain ⟨-, rfl⟩ := Prod.mk.inj heq
  exact lt_of_mem_order (h.policy.subset hj)

theorem lowered (h : Phase faults r c visited d) (hc : Valid c) : Valid d ∧ Lowered c d :=
  h.trace.lowered hc h.within

theorem not_changed (h : Phase faults r c visited d) (hc : Valid c) {i : ℕ} (hi : i ∉ visited) :
    ¬ Changed c d i := by
  apply h.trace.not_changed hc h.within
  intro r' hmem
  obtain ⟨j, hj, heq⟩ := List.mem_map.mp hmem
  obtain ⟨-, rfl⟩ := Prod.mk.inj heq
  exact hi hj

/-- A visited slot is as it was until its visit, and stays as the visit leaves it. -/
theorem visit (h : Phase faults r c visited d) (hc : Valid c) {i : ℕ} (hi : i ∈ visited) :
    ∃ e f, Valid e ∧ Lowered c e ∧ ¬ Changed c e i ∧ degrade faults r e i = .ok f ∧
      ¬ Changed f d i := by
  obtain ⟨p, q, rfl⟩ := List.append_of_mem hi
  have hnodup := (nodup_order r).sublist h.policy.sublist
  have hp : i ∉ p := fun hmem =>
    (List.nodup_append.mp hnodup).2.2 i hmem i List.mem_cons_self rfl
  have hq : i ∉ q := (List.nodup_cons.mp (List.nodup_append.mp hnodup).2.1).1
  have hunvisited : ∀ s : List ℕ, i ∉ s → ∀ r', (r', i) ∉ s.map (Prod.mk r) := by
    intro s hs r' hmem
    obtain ⟨j, hj, heq⟩ := List.mem_map.mp hmem
    obtain ⟨-, rfl⟩ := Prod.mk.inj heq
    exact hs hj
  have htrace := h.trace
  have hwithin := h.within
  rw [List.map_append, List.map_cons] at htrace hwithin
  have hwp : Within c.tiles.length (p.map (Prod.mk r)) :=
    fun r' j hmem => hwithin r' j (List.mem_append_left _ hmem)
  have hwq : Within c.tiles.length (q.map (Prod.mk r)) :=
    fun r' j hmem => hwithin r' j (List.mem_append_right _ (List.mem_cons_of_mem _ hmem))
  obtain ⟨e, hbefore, hafter⟩ := htrace.split
  obtain ⟨hvalid, hlow⟩ := hbefore.lowered hc hwp
  cases hafter with
  | @cons _ f _ _ _ _ hover hstep hrest =>
      have hie : i < e.tiles.length := by
        rw [hlow.length]
        exact lt_of_mem_order (h.policy.subset hi)
      have hv := visited_of_degrade hvalid hie hstep
      have hwq' : Within f.tiles.length (q.map (Prod.mk r)) := by
        rw [hv.lowered.length, hlow.length]
        exact hwq
      exact ⟨e, f, hvalid, hlow, hbefore.not_changed hc hwp (hunvisited p hp), hstep,
        hrest.not_changed hv.valid hwq' (hunvisited q hq)⟩

/-- A rung that drops planes drops those of the visited slots that have one, and no more. -/
theorem drop (h : Phase faults r c visited d) (hc : Valid c) (hr : degrade faults r = dropStep)
    (i : ℕ) : d.state[i]? = c.state[i]? ∧ (Changed c d i ↔ i ∈ visited ∧ Droppable c i) ∧
      (i ∈ visited → ¬ Droppable d i) := by
  by_cases hi : i ∈ visited
  · obtain ⟨e, f, hvalid, hlow, hbefore, hstep, hafter⟩ := h.visit hc hi
    have hie : i < e.tiles.length := by
      rw [hlow.length]
      exact lt_of_mem_order (h.policy.subset hi)
    obtain ⟨f', hf', -, hstate, hchanged, hnot⟩ := dropStep_visited hvalid hie
    rw [hr] at hstep
    obtain rfl := Except.ok.inj (hstep.symm.trans hf')
    refine ⟨?_, ?_, fun _ => ?_⟩
    · rw [(slot_of_not_changed hafter).1, hstate, (slot_of_not_changed hbefore).1]
    · rw [changed_congr hbefore hafter, hchanged, droppable_congr hbefore]
      simp [hi]
    · rwa [droppable_congr hafter]
  · have hsame := h.not_changed hc hi
    exact ⟨(slot_of_not_changed hsame).1, iff_of_false hsame fun hcon => hi hcon.1,
      fun hmem => (hi hmem).elim⟩

/-- Paging makes the visited slots WARM. -/
theorem page (h : Phase faults .page c visited d) (hc : Valid c) (i : ℕ) :
    (Changed c d i ↔ i ∈ visited) ∧
      (i ∈ visited → c.state[i]? = some .hot ∧ d.state[i]? = some .warm) := by
  by_cases hi : i ∈ visited
  · obtain ⟨e, f, hvalid, hlow, hbefore, hstep, hafter⟩ := h.visit hc hi
    have hie : i < e.tiles.length := by
      rw [hlow.length]
      exact lt_of_mem_order (h.policy.subset hi)
    have hot : c.state[i]? = some .hot := (mem_slotsInPagingOrder hc).mp (h.policy.subset hi)
    have hote : e.state[i]? = some .hot := (slot_of_not_changed hbefore).1.trans hot
    obtain ⟨f', hf', -, hchanged, -, hwarm⟩ := pageOut_visited hvalid hie
    obtain rfl := Except.ok.inj (hstep.symm.trans hf')
    refine ⟨?_, fun _ => ⟨hot, ?_⟩⟩
    · rw [changed_congr hbefore hafter, hchanged]
      simp [hi, hote]
    · rw [(slot_of_not_changed hafter).1]
      exact hwarm hote
  · exact ⟨iff_of_false (h.not_changed hc hi) hi, fun hmem => (hi hmem).elim⟩

/-- A slot the last rung changes is COLD; without a durable log so are all it visits. -/
theorem evict (h : Phase faults .evict c visited d) (hc : Valid c) (i : ℕ) :
    (Changed c d i → i ∈ visited ∧ d.state[i]? = some .cold) ∧
      (c.evictionDurability ≠ .requireDurable → i ∈ visited → d.state[i]? = some .cold) := by
  by_cases hi : i ∈ visited
  · obtain ⟨e, f, hvalid, hlow, hbefore, hstep, hafter⟩ := h.visit hc hi
    have hlive : Live c i := (mem_evictionOrder hc).mp (h.policy.subset hi)
    have hlivee : Live e i := by
      unfold Live at hlive ⊢
      rwa [(slot_of_not_changed hbefore).1]
    obtain ⟨f', hf', -, hcold, hbest⟩ := evictStep_visited hvalid faults i
    obtain rfl := Except.ok.inj (hstep.symm.trans hf')
    rw [(slot_of_not_changed hafter).1, changed_congr hbefore hafter]
    exact ⟨fun hchanged => ⟨hi, hcold hchanged⟩,
      fun hdur _ => hbest (hlow.evictionDurability ▸ hdur) hlivee⟩
  · exact ⟨fun hchanged => (h.not_changed hc hi hchanged).elim, fun _ hmem => (hi hmem).elim⟩

/-- A rung that is visited finds the one before it run to its end. -/
theorem all_of_next (h : Phase faults r c visited d) {r' : Rung} {next : List ℕ}
    {e : ElasticKvCache} (k : Phase faults r' d next e) (hne : next ≠ []) :
    visited = order c r := by
  rcases h.finished with hall | hmet
  · exact hall
  · obtain ⟨s, rest, rfl⟩ := List.exists_cons_of_ne_nil hne
    have htrace := k.trace
    rw [List.map_cons] at htrace
    cases htrace with
    | cons hover _ _ => exact absurd hmet (Nat.not_le.mpr hover)

/-- Once the budget is met nothing more is visited. -/
theorem nil_of_met (h : Phase faults r c visited d) (hmet : c.liveBytes ≤ c.budgetBytes) :
    visited = [] ∧ d = c := by
  cases visited with
  | nil =>
      have htrace := h.trace
      cases htrace
      exact ⟨rfl, rfl⟩
  | cons s rest =>
      have htrace := h.trace
      rw [List.map_cons] at htrace
      cases htrace with
      | cons hover _ _ => exact absurd hmet (Nat.not_le.mpr hover)

end Phase

/-- A sweep visits a prefix of its slots: all of them, or enough to meet the budget. -/
theorem sweep_trace {faults : ℕ → Faults} (r : Rung) (slots : List ℕ) {c : ElasticKvCache}
    (hc : Valid c) (hslots : ∀ i ∈ slots, i < c.tiles.length) :
    ∃ b d visited, sweep (degrade faults r) slots c = .ok (b, d) ∧
      Trace faults c (visited.map (Prod.mk r)) d ∧ visited <+: slots ∧
      (b = true → d.liveBytes ≤ d.budgetBytes) ∧ (b = false → visited = slots) := by
  induction slots generalizing c with
  | nil => exact ⟨false, c, [], rfl, .nil, List.nil_prefix, Bool.noConfusion, fun _ => rfl⟩
  | cons s rest ih =>
      unfold sweep
      split_ifs with hmet
      · exact ⟨true, c, [], rfl, .nil, List.nil_prefix, fun _ => hmet, Bool.noConfusion⟩
      · obtain ⟨d, hd, hv⟩ := degrade_visited hc faults r (hslots s List.mem_cons_self)
        have hrest : ∀ i ∈ rest, i < d.tiles.length := by
          intro i hi
          rw [hv.lowered.length]
          exact hslots i (List.mem_cons_of_mem _ hi)
        obtain ⟨b, e, visited, heq, htrace, hprefix, hmet', hall⟩ := ih hv.valid hrest
        refine ⟨b, e, s :: visited, ?_, .cons (Nat.lt_of_not_le hmet) hd htrace,
          List.cons_prefix_cons.mpr ⟨rfl, hprefix⟩, hmet', fun hb => ?_⟩
        · simp only [hd, bind, Except.bind]
          exact heq
        · rw [hall hb]

theorem sweep_phase (faults : ℕ → Faults) (r : Rung) {c : ElasticKvCache} (hc : Valid c) :
    ∃ b d visited, sweep (degrade faults r) (order c r) c = .ok (b, d) ∧
      Phase faults r c visited d ∧ Valid d ∧ (b = true → d.liveBytes ≤ d.budgetBytes) := by
  obtain ⟨b, d, visited, heq, htrace, hprefix, hmet, hall⟩ :=
    sweep_trace r (order c r) hc (fun i hi => lt_of_mem_order hi)
  have hphase : Phase faults r c visited d := by
    refine ⟨htrace, hprefix, ?_⟩
    cases b with
    | false => exact Or.inl (hall rfl)
    | true => exact Or.inr (hmet rfl)
  exact ⟨b, d, visited, heq, hphase, (hphase.lowered hc).1, hmet⟩

/-- A cache within its budget goes down no further. -/
theorem Phase.rest {faults : ℕ → Faults} (r : Rung) {c : ElasticKvCache}
    (hmet : c.liveBytes ≤ c.budgetBytes) : Phase faults r c [] c where
  trace := .nil
  policy := List.nil_prefix
  finished := Or.inr hmet

/-- An enforcement goes down the four rungs and tells whether the budget is met. -/
theorem enforceBudget_ladder {c : ElasticKvCache} (hc : Valid c) (faults : ℕ → Faults) :
    ∃ b d, c.enforceBudget faults = .ok (b, d) ∧ (b = true ↔ d.liveBytes ≤ d.budgetBytes) ∧
      Nonempty (Ladder faults c d) := by
  unfold ElasticKvCache.enforceBudget
  by_cases hmet : c.liveBytesCounter ≤ c.budgetBytes
  · rw [if_pos hmet]
    exact ⟨true, c, rfl, iff_of_true rfl hmet, ⟨c, c, c, [], [], [], [], .rest _ hmet,
      .rest _ hmet, .rest _ hmet, .rest _ hmet⟩⟩
  · rw [if_neg hmet]
    obtain ⟨b₁, c₁, v₁, h₁, p₁, hc₁, m₁⟩ := sweep_phase faults .dropHot hc
    obtain ⟨b₂, c₂, v₂, h₂, p₂, hc₂, m₂⟩ := sweep_phase faults .page hc₁
    obtain ⟨b₃, c₃, v₃, h₃, p₃, hc₃, m₃⟩ := sweep_phase faults .dropWarm hc₂
    obtain ⟨b₄, c₄, v₄, h₄, p₄, hc₄, m₄⟩ := sweep_phase faults .evict hc₃
    have e₁ : c.dropPhase .hot = .ok (b₁, c₁) := h₁
    have e₂ : c₁.pagePhase = .ok (b₂, c₂) := h₂
    have e₃ : c₂.dropPhase .warm = .ok (b₃, c₃) := h₃
    have e₄ : c₃.evictPhase faults = .ok (b₄, c₄) := h₄
    simp only [e₁, e₂, e₃, e₄, bind, Except.bind, pure, Except.pure]
    cases b₁ with
    | true =>
        have hm := m₁ rfl
        exact ⟨true, c₁, rfl, iff_of_true rfl hm, ⟨c₁, c₁, c₁, v₁, [], [], [], p₁,
          .rest _ hm, .rest _ hm, .rest _ hm⟩⟩
    | false =>
        cases b₂ with
        | true =>
            have hm := m₂ rfl
            exact ⟨true, c₂, rfl, iff_of_true rfl hm, ⟨c₁, c₂, c₂, v₁, v₂, [], [], p₁, p₂,
              .rest _ hm, .rest _ hm⟩⟩
        | false =>
            cases b₃ with
            | true =>
                have hm := m₃ rfl
                exact ⟨true, c₃, rfl, iff_of_true rfl hm, ⟨c₁, c₂, c₃, v₁, v₂, v₃, [], p₁,
                  p₂, p₃, .rest _ hm⟩⟩
            | false =>
                have hladder : Nonempty (Ladder faults c c₄) :=
                  ⟨⟨c₁, c₂, c₃, v₁, v₂, v₃, v₄, p₁, p₂, p₃, p₄⟩⟩
                cases b₄ with
                | true => exact ⟨true, c₄, rfl, iff_of_true rfl (m₄ rfl), hladder⟩
                | false =>
                    exact ⟨decide (c₄.liveBytesCounter ≤ c₄.budgetBytes), c₄, rfl,
                      decide_eq_true_iff, hladder⟩

/-- No live slot is HOT or has a plane left. -/
def Bare (c : ElasticKvCache) : Prop := ∀ i, c.state[i]? ≠ some .hot ∧ ¬ Droppable c i

theorem Bare.of_lowered {c d : ElasticKvCache} (h : Bare c) (k : Lowered c d) : Bare d := by
  intro i
  constructor
  · exact fun hot => (h i).1 (k.hot i hot)
  · exact fun hplane => (h i).2 (k.droppable i hplane)

theorem SameSlots.trans {c d e : ElasticKvCache} (h : SameSlots c d) (k : SameSlots d e) :
    SameSlots c e :=
  ⟨k.tiles.trans h.tiles, k.state.trans h.state, k.seq.trans h.seq,
    k.importance.trans h.importance, k.free.trans h.free, k.budgetBytes.trans h.budgetBytes,
    k.liveBytesCounter.trans h.liveBytesCounter, k.policy.trans h.policy,
    k.eviction.trans h.eviction, k.nextSeq.trans h.nextSeq,
    k.evictionDurability.trans h.evictionDurability⟩

/-- The last visit that changed its slot was made over budget, and no slot has
changed since: undone, the cache is over budget again. -/
def LastNeeded (faults : ℕ → Faults) (c : ElasticKvCache) (steps : List (Rung × ℕ))
    (d : ElasticKvCache) : Prop :=
  SameSlots c d ∨ ∃ p r s q e f, steps = p ++ (r, s) :: q ∧ Trace faults c p e ∧
    degrade faults r e s = .ok f ∧ Changed e f s ∧ Trace faults f q d ∧ SameSlots f d ∧
    c.budgetBytes < e.liveBytes

theorem Trace.lastNeeded {faults : ℕ → Faults} {c d : ElasticKvCache}
    {steps : List (Rung × ℕ)} (h : Trace faults c steps d) (hc : Valid c)
    (hw : Within c.tiles.length steps) : LastNeeded faults c steps d := by
  induction h with
  | nil => exact Or.inl (SameSlots.refl _)
  | @cons c d e r s steps hover hstep hrest ih =>
      have hv := visited_of_degrade hc (hw _ _ List.mem_cons_self) hstep
      have hw' : Within c.tiles.length steps :=
        fun r i hmem => hw r i (List.mem_cons_of_mem _ hmem)
      rcases ih hv.valid (hv.lowered.length ▸ hw') with hsame | hlast
      · rcases hv.effect with hnone | ⟨hchanged, -⟩
        · exact Or.inl (SameSlots.trans hnone hsame)
        · exact Or.inr ⟨[], r, s, steps, c, d, rfl, .nil, hstep, hchanged, hrest, hsame, hover⟩
      · obtain ⟨p, r', s', q, e', f, rfl, hp, hstep', hchanged, hq, hsame, hlive⟩ := hlast
        rw [hv.lowered.budgetBytes] at hlive
        exact Or.inr ⟨(r, s) :: p, r', s', q, e', f, rfl, .cons hover hstep hp, hstep',
          hchanged, hq, hsame, hlive⟩

/-- Without a live slot nothing counts. -/
theorem liveBytes_of_no_live {c : ElasticKvCache} (hc : Valid c) (h : ∀ i, ¬ Live c i) :
    c.liveBytes = 0 := by
  unfold ElasticKvCache.liveBytes
  rw [hc.counter]
  apply List.sum_eq_zero
  intro n hn
  obtain ⟨i, hi⟩ := List.mem_iff_getElem?.mp hn
  rw [List.getElem?_zipWith] at hi
  cases hs : c.state[i]? with
  | none => simp [hs] at hi
  | some s =>
      have hcold : s = .cold := by
        by_contra hne
        exact h i (live_of_ne_cold hs hne)
      obtain ⟨t, ht⟩ := hc.tile_of_state hs
      simp only [hs, ht, hcold, footprint, Option.some.injEq] at hi
      exact hi.symm

namespace Ladder
variable {faults : ℕ → Faults} {c d : ElasticKvCache}

theorem stages (l : Ladder faults c d) (hc : Valid c) :
    (Valid l.afterDrops ∧ Lowered c l.afterDrops) ∧
      (Valid l.afterPaging ∧ Lowered l.afterDrops l.afterPaging) ∧
      (Valid l.afterWarmDrops ∧ Lowered l.afterPaging l.afterWarmDrops) ∧
      (Valid d ∧ Lowered l.afterWarmDrops d) := by
  have h₁ := l.drops.lowered hc
  have h₂ := l.pages.lowered h₁.1
  have h₃ := l.warmDrops.lowered h₂.1
  exact ⟨h₁, h₂, h₃, l.attempts.lowered h₃.1⟩

theorem lowered (l : Ladder faults c d) (hc : Valid c) : Valid d ∧ Lowered c d := by
  obtain ⟨⟨-, h₁⟩, ⟨-, h₂⟩, ⟨-, h₃⟩, hd, h₄⟩ := l.stages hc
  exact ⟨hd, h₁.trans (h₂.trans (h₃.trans h₄))⟩

theorem trace (l : Ladder faults c d) : Trace faults c l.steps d :=
  l.drops.trace.append (l.pages.trace.append (l.warmDrops.trace.append l.attempts.trace))

theorem within (l : Ladder faults c d) (hc : Valid c) : Within c.tiles.length l.steps := by
  obtain ⟨⟨-, h₁⟩, ⟨-, h₂⟩, ⟨-, h₃⟩, -⟩ := l.stages hc
  intro r i hmem
  simp only [steps, List.mem_append] at hmem
  rcases hmem with hmem | hmem | hmem | hmem
  · exact l.drops.within r i hmem
  · rw [← h₁.length]
    exact l.pages.within r i hmem
  · rw [← h₁.length, ← h₂.length]
    exact l.warmDrops.within r i hmem
  · rw [← h₁.length, ← h₂.length, ← h₃.length]
    exact l.attempts.within r i hmem

/-- Each rung is entered only when the milder ones have nothing left to give. -/
structure Gentle (l : Ladder faults c d) : Prop where
  paging : l.paged ≠ [] → ∀ i : ℕ, d.state[i]? = some .hot → ¬ Droppable d i
  warmDropping : l.warmDropped ≠ [] → ∀ i : ℕ, d.state[i]? ≠ some .hot
  evicting : l.attempted ≠ [] → Bare l.afterWarmDrops ∧ Bare d

/-- What each rung has changed, in terms of its visits. -/
structure Accounted (l : Ladder faults c d) : Prop where
  dropped : ∀ i, Changed c l.afterDrops i ↔ i ∈ l.dropped ∧ Droppable c i
  paged : ∀ i, Changed l.afterDrops l.afterPaging i ↔ i ∈ l.paged
  warmDropped : ∀ i, Changed l.afterPaging l.afterWarmDrops i ↔
    i ∈ l.warmDropped ∧ Droppable l.afterPaging i
  evicted : ∀ i, Changed l.afterWarmDrops d i → i ∈ l.attempted ∧ d.state[i]? = some .cold
  unrefused : c.evictionDurability ≠ .requireDurable →
    ∀ i, i ∈ l.attempted → d.state[i]? = some .cold

/-- After paging to its end no slot is HOT. -/
theorem not_hot_of_paged_all (l : Ladder faults c d) (hc : Valid c)
    (hall : l.paged = order l.afterDrops .page) (i : ℕ) : l.afterPaging.state[i]? ≠ some .hot := by
  intro hot
  obtain ⟨⟨hc₁, -⟩, ⟨-, h₂⟩, -⟩ := l.stages hc
  have hmem : i ∈ l.paged := by
    rw [hall]
    exact (mem_slotsInPagingOrder hc₁).mpr (h₂.hot i hot)
  have hwarm := ((l.pages.page hc₁ i).2 hmem).2
  rw [hot] at hwarm
  exact absurd (Option.some_inj.mp hwarm) (by decide)

theorem gentle (l : Ladder faults c d) (hc : Valid c) : l.Gentle := by
  obtain ⟨⟨hc₁, h₁⟩, ⟨hc₂, h₂⟩, ⟨hc₃, h₃⟩, hd, h₄⟩ := l.stages hc
  constructor
  · intro hne i hot hplane
    have hall := l.drops.all_of_next l.pages hne
    have hlow : Lowered l.afterDrops d := h₂.trans (h₃.trans h₄)
    have hmem : i ∈ l.dropped := by
      rw [hall]
      exact (mem_slotsInPagingOrder hc).mpr (h₁.hot i (hlow.hot i hot))
    exact (l.drops.drop hc rfl i).2.2 hmem (hlow.droppable i hplane)
  · intro hne i hot
    have hall := l.pages.all_of_next l.warmDrops hne
    exact l.not_hot_of_paged_all hc hall i (h₃.hot i (h₄.hot i hot))
  · intro hne
    have hpaged : l.paged = order l.afterDrops .page := by
      rcases l.pages.finished with hall | hmet
      · exact hall
      · -- the budget is met before the third rung, so nothing would be attempted
        obtain ⟨-, hsame⟩ := l.warmDrops.nil_of_met hmet
        exact (hne (l.attempts.nil_of_met (hsame ▸ hmet)).1).elim
    have hwarm := l.warmDrops.all_of_next l.attempts hne
    have hbare : Bare l.afterWarmDrops := by
      intro i
      have hdrop := l.warmDrops.drop hc₂ rfl i
      have hcool : l.afterWarmDrops.state[i]? ≠ some .hot := by
        rw [hdrop.1]
        exact l.not_hot_of_paged_all hc hpaged i
      refine ⟨hcool, ?_⟩
      intro hplane
      have hstate : l.afterPaging.state[i]? = some .warm := by
        rw [← hdrop.1]
        exact hplane.1.resolve_left hcool
      refine hdrop.2.2 ?_ hplane
      rw [hwarm]
      exact (mem_slotsInPagingOrder hc₂).mpr hstate
    exact ⟨hbare, hbare.of_lowered h₄⟩

theorem accounted (l : Ladder faults c d) (hc : Valid c) : l.Accounted := by
  obtain ⟨⟨hc₁, h₁⟩, ⟨hc₂, h₂⟩, ⟨hc₃, h₃⟩, -⟩ := l.stages hc
  constructor
  · exact fun i => (l.drops.drop hc rfl i).2.1
  · exact fun i => (l.pages.page hc₁ i).1
  · exact fun i => (l.warmDrops.drop hc₂ rfl i).2.1
  · exact fun i => (l.attempts.evict hc₃ i).1
  · intro hbest i
    apply (l.attempts.evict hc₃ i).2
    rw [h₃.evictionDurability, h₂.evictionDurability, h₁.evictionDurability]
    exact hbest

/-- A host that refuses no eviction gets its budget. -/
theorem met_of_bestEffort (l : Ladder faults c d) (hc : Valid c)
    (hbest : c.evictionDurability ≠ .requireDurable) : d.liveBytes ≤ d.budgetBytes := by
  obtain ⟨-, -, ⟨hc₃, -⟩, hd, h₄⟩ := l.stages hc
  rcases l.attempts.finished with hall | hmet
  · have hdead : ∀ i, ¬ Live d i := by
      intro i hlive
      have hmem : i ∈ l.attempted := by
        rw [hall]
        exact (mem_evictionOrder hc₃).mpr (h₄.live i hlive)
      exact not_live_of_cold ((l.accounted hc).unrefused hbest i hmem) hlive
    rw [liveBytes_of_no_live hd hdead]
    exact Nat.zero_le _
  · exact hmet

end Ladder

section Enforcement
variable [F32Arith]

/-- Enforcing the budget on any reachable cache reports whether the budget is met, goes
down no rung before the milder ones are used up, visits on each rung a prefix of the
order of its policy, takes no step it could do without, and is then at rest. -/
theorem enforceBudget_contract (budgetBytes : ℕ) (policy : PageOutPolicy)
    (eviction : EvictionPolicy) {ops : List Op} {c : ElasticKvCache}
    (h : Reaches Permitted
      { ElasticKvCache.new budgetBytes policy with eviction := eviction } ops c)
    (faults : ℕ → Faults) :
    ∃ b d, c.enforceBudget faults = .ok (b, d) ∧ d.budgetBytes = c.budgetBytes ∧
      (b = true ↔ d.liveBytes ≤ c.budgetBytes) ∧
      (c.evictionDurability ≠ .requireDurable → b = true) ∧
      (b = true → ∀ again, d.enforceBudget again = .ok (true, d)) ∧
      ∃ l : Ladder faults c d, l.Gentle ∧ l.Accounted ∧ LastNeeded faults c l.steps d := by
  have hc : Valid c := reaches_valid h (Valid.new budgetBytes policy eviction)
  obtain ⟨b, d, heq, hb, ⟨l⟩⟩ := enforceBudget_ladder hc faults
  have hbudget := (l.lowered hc).2.budgetBytes
  refine ⟨b, d, heq, hbudget, ?_, ?_, ?_, l, l.gentle hc, l.accounted hc,
    l.trace.lastNeeded hc (l.within hc)⟩
  · rw [hb, hbudget]
  · exact fun hbest => hb.mpr (l.met_of_bestEffort hc hbest)
  · intro hmet again
    unfold ElasticKvCache.enforceBudget
    exact if_pos (hb.mp hmet)

end Enforcement

section Example
local instance : F32Arith := F32Arith.trivial

def warmTile : SciRustSlhaTile := { tileFromBytes (zeros tileBytes) with flags := flagWarm }

/-- Two WARM tiles and a durable log. -/
def durablePair : ElasticKvCache :=
  { ElasticKvCache.new 0 .oldestFirst with
    tiles := [warmTile, warmTile]
    state := [.warm, .warm]
    seq := [0, 1]
    importance := [F32.zero, F32.zero]
    liveBytesCounter := 192
    nextSeq := 2
    eventLog := some Log.create
    evictionDurability := .requireDurable }

/-- The first record cannot be written, the second can. -/
def firstRefused (s : ℕ) : Faults := if s = 0 then ⟨some 0, true, true, true⟩ else Faults.none

theorem durablePair_reached : Reaches Permitted (ElasticKvCache.new 0 .oldestFirst)
    [.insert warmTile, .insert warmTile, .attachDurableEventLog Log.create] durablePair := by
  have hone : Reaches Permitted (ElasticKvCache.new 0 .oldestFirst) ([] ++ [.insert warmTile]) _ :=
    Reaches.snoc Reaches.nil trivial rfl
  have htwo : Reaches Permitted (ElasticKvCache.new 0 .oldestFirst)
      ([.insert warmTile] ++ [.insert warmTile]) _ := Reaches.snoc hone trivial rfl
  exact Reaches.snoc htwo trivial rfl

theorem durablePair_orders : durablePair.slotsInPagingOrder .hot = [] ∧
    durablePair.slotsInPagingOrder .warm = [0, 1] ∧ durablePair.evictionOrder = [0, 1] := by
  refine ⟨?_, ?_, ?_⟩
  · exact List.mergeSort_of_pairwise (by decide)
  · exact List.mergeSort_of_pairwise (by decide)
  · exact List.mergeSort_of_pairwise (by decide)

theorem enforceBudget_contract_durable : ∃ b d,
    durablePair.enforceBudget firstRefused = .ok (b, d) ∧ (b = true ↔ d.liveBytes ≤ 0) ∧
      ∃ l : Ladder firstRefused durablePair d, l.Gentle ∧ l.Accounted := by
  obtain ⟨b, d, heq, -, hb, -, -, l, hgentle, haccounted, -⟩ :=
    enforceBudget_contract 0 .oldestFirst .causal durablePair_reached firstRefused
  exact ⟨b, d, heq, hb, l, hgentle, haccounted⟩

theorem durablePair_evictPhase : ∃ d, durablePair.evictPhase firstRefused = .ok (false, d) ∧
    d.state = [.warm, .cold] ∧ d.tiles = [warmTile, warmTile] ∧ d.budgetBytes = 0 ∧
    d.liveBytesCounter = 96 := by
  unfold evictPhase
  rw [durablePair_orders.2.2]
  exact ⟨_, rfl, rfl, rfl, rfl, rfl⟩

/-- A durable log that refuses the first eviction leaves that slot live, and the second
slot is evicted all the same: the evicted slots are no prefix of the order. -/
theorem refused_eviction_skipped : ∃ c d, Reaches Permitted (ElasticKvCache.new 0 .oldestFirst)
      [.insert warmTile, .insert warmTile, .attachDurableEventLog Log.create] c ∧
    c.dropPhase .hot = .ok (false, c) ∧ c.pagePhase = .ok (false, c) ∧
    c.dropPhase .warm = .ok (false, c) ∧ c.enforceBudget firstRefused = .ok (false, d) ∧
    ¬ ∃ p, p <+: c.evictionOrder ∧ ∀ i, i ∈ p ↔ Changed c d i := by
  obtain ⟨hhot, hwarm, horder⟩ := durablePair_orders
  have h₁ : durablePair.dropPhase .hot = .ok (false, durablePair) := by
    unfold dropPhase
    rw [hhot]
    rfl
  have h₂ : durablePair.pagePhase = .ok (false, durablePair) := by
    unfold pagePhase
    rw [hhot]
    rfl
  have h₃ : durablePair.dropPhase .warm = .ok (false, durablePair) := by
    unfold dropPhase
    rw [hwarm]
    rfl
  obtain ⟨d, hd, hstate, htiles, hbudget, hlive⟩ := durablePair_evictPhase
  refine ⟨durablePair, d, durablePair_reached, h₁, h₂, h₃, ?_, ?_⟩
  · unfold ElasticKvCache.enforceBudget
    rw [if_neg (by decide)]
    simp only [h₁, h₂, h₃, hd, bind, Except.bind, pure, Except.pure, hbudget, hlive]
    rfl
  · intro hcon
    obtain ⟨p, hp, hmem⟩ := hcon
    rw [horder] at hp
    have hone : 1 ∈ p := (hmem 1).mpr (Or.inl (by rw [hstate]; decide))
    have hzero : 0 ∈ p := by
      obtain ⟨q, hq⟩ := hp
      cases p with
      | nil => cases hone
      | cons a rest =>
          rw [List.cons_append] at hq
          rw [(List.cons.inj hq).1]
          exact List.mem_cons_self
    rcases (hmem 0).mp hzero with hcon | hcon
    · rw [hstate] at hcon
      exact hcon rfl
    · rw [htiles] at hcon
      exact hcon rfl

end Example

end SlhaV2.BudgetLadder
