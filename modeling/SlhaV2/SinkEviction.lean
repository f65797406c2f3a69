import Mathlib.Data.Prod.Lex
import SlhaV2.BudgetLadder

/-!
# Which tiles an enforcement evicts first

Under the informed policy the live slots are sorted by whether their position is
below the sink window, then by importance, then by age. The window is cut to 32
bits before the comparison; a window that does not fit has every position below
it, so the cut never lets a sink go early.
-/
namespace SlhaV2.SinkEviction
open MachineWord ByteBuffer FloatingPoint TileCodec HostFile SlhaTile EventLog CcosCache CcosSteps
open CcosRuns BudgetLadder ElasticKvCache

/-- The comparison the informed policy sorts by. -/
def evictedFirst (c : ElasticKvCache) (sw : UInt32) (a b : ℕ) : Bool :=
  ((compare (c.isSink sw a) (c.isSink sw b)).then
    ((compare (c.importanceKey a) (c.importanceKey b)).then
      (compare (c.seqKey a) (c.seqKey b)))).isLE

/-- What it compares, as one key. -/
def evictionKey (c : ElasticKvCache) (sw : UInt32) (s : ℕ) : Bool ×ₗ ℤ ×ₗ ℕ :=
  toLex (c.isSink sw s, toLex (c.importanceKey s, c.seqKey s))

/-- Comparing by one key and then by another is comparing the pairs. -/
theorem then_isLE_iff {α : Type} [LinearOrder α] (a b : α) (o : Ordering) :
    ((compare a b).then o).isLE ↔ a < b ∨ a = b ∧ o.isLE := by
  rw [Ordering.isLE_then_iff_or, compare_lt_iff_lt, compare_eq_iff_eq]

theorem evictedFirst_iff (c : ElasticKvCache) (sw : UInt32) (a b : ℕ) :
    evictedFirst c sw a b = true ↔ evictionKey c sw a ≤ evictionKey c sw b := by
  unfold evictedFirst evictionKey
  rw [then_isLE_iff, then_isLE_iff, Prod.Lex.toLex_le_toLex, Prod.Lex.toLex_le_toLex]
  rw [Ordering.isLE_iff_ne_gt, compare_gt_iff_gt, not_lt]

theorem evictionOrder_pairwise {c : ElasticKvCache} {window : ℕ}
    (h : c.eviction = .importance window) : c.evictionOrder.Pairwise fun a b =>
      evictionKey c (UInt32.ofNat window) a ≤ evictionKey c (UInt32.ofNat window) b := by
  have hsorted : c.evictionOrder =
      c.liveSlots.mergeSort (evictedFirst c (UInt32.ofNat window)) := by
    unfold evictionOrder
    rw [h]
    rfl
  rw [hsorted]
  refine List.Pairwise.imp (fun {a b} hab => (evictedFirst_iff c _ a b).mp hab)
    (List.pairwise_mergeSort ?_ ?_ _)
  · intro i j k hij hjk
    rw [evictedFirst_iff] at hij hjk ⊢
    exact hij.trans hjk
  · intro i j
    rw [Bool.or_eq_true, evictedFirst_iff, evictedFirst_iff]
    exact le_total _ _

/-- Going down leaves the keys of the policy alone. -/
theorem evictionKey_of_lowered {c d : ElasticKvCache} (h : Lowered c d) (sw : UInt32) (s : ℕ) :
    evictionKey d sw s = evictionKey c sw s := by
  have hsink : d.isSink sw s = c.isSink sw s := by
    unfold isSink
    cases ht : d.tiles[s]? with
    | none =>
        have hlen : d.tiles.length ≤ s := List.getElem?_eq_none_iff.mp ht
        rw [List.getElem?_eq_none (h.length ▸ hlen)]
    | some t =>
        obtain ⟨u, hu, hposition⟩ := h.position s t ht
        rw [hu]
        simp only [Option.map_some, Option.getD_some, hposition]
  unfold evictionKey importanceKey seqKey
  rw [hsink, h.importance, h.seq]

/-- Without a durable log an attempted slot does not stay live. -/
theorem not_live_of_attempted {faults : ℕ → Faults} {c d : ElasticKvCache} {attempted : List ℕ}
    (h : Trace faults c (attempted.map (Prod.mk .evict)) d) (hc : Valid c)
    (hw : Within c.tiles.length (attempted.map (Prod.mk .evict)))
    (hbest : c.evictionDurability ≠ .requireDurable) {i : ℕ} (hi : i ∈ attempted) :
    ¬ Live d i := by
  induction attempted generalizing c with
  | nil => exact (List.not_mem_nil hi).elim
  | cons s rest ih =>
      rw [List.map_cons] at h hw
      cases h with
      | @cons _ e _ _ _ _ hover hstep hrest =>
          obtain ⟨e', he', hv, -, hcold⟩ := evictStep_visited hc faults s
          obtain rfl := Except.ok.inj (hstep.symm.trans he')
          have hw' : Within e.tiles.length (rest.map (Prod.mk .evict)) := by
            rw [hv.lowered.length]
            exact fun r j hmem => hw r j (List.mem_cons_of_mem _ hmem)
          rcases List.mem_cons.mp hi with his | hmem
          · intro hlive
            have hlive' : Live e i := (hrest.lowered hv.valid hw').2.live i hlive
            have hdead := hcold hbest (his ▸ hv.lowered.live i hlive')
            exact not_live_of_cold (his ▸ hdead) hlive'
          · exact ih hrest hv.valid hw' (hv.lowered.evictionDurability ▸ hbest) hmem

/-- The tile of a slot stands below the window. -/
def Sink (c : ElasticKvCache) (window i : ℕ) : Prop :=
  ∃ t : SciRustSlhaTile, c.tiles[i]? = some t ∧ t.position.toNat < window

/-- The slot may go: a sink only when all that is live is a sink, another slot only when no
live slot outside the window has less importance, or as much and an earlier number. -/
def EvictedInOrder (c : ElasticKvCache) (window s : ℕ) : Prop :=
  (Sink c window s → ∀ j, Live c j → Sink c window j) ∧
    (¬ Sink c window s → ∀ j, Live c j → ¬ Sink c window j →
      c.importanceKey s < c.importanceKey j ∨
        c.importanceKey s = c.importanceKey j ∧ c.seqKey s ≤ c.seqKey j)

/-- A window that fits 32 bits is compared as it is. -/
theorem isSink_iff (c : ElasticKvCache) {window : ℕ} (h : window < 2 ^ 32) (i : ℕ) :
    c.isSink (UInt32.ofNat window) i = true ↔ Sink c window i := by
  have hword : (UInt32.ofNat window).toNat = window := UInt32.toNat_ofNat_of_lt h
  unfold isSink Sink
  cases c.tiles[i]? with
  | none => simp
  | some t => simp [UInt32.lt_iff_toNat_lt, hword]

theorem evictedInOrder_of_key {c : ElasticKvCache} (hc : Valid c) {window s : ℕ}
    (hs : s < c.tiles.length)
    (h : ∀ j, Live c j →
      evictionKey c (UInt32.ofNat window) s ≤ evictionKey c (UInt32.ofNat window) j) :
    EvictedInOrder c window s := by
  have htile : ∀ j, j < c.tiles.length → ∃ t, c.tiles[j]? = some t :=
    fun j hj => ⟨_, List.getElem?_eq_getElem hj⟩
  by_cases hfits : window < 2 ^ 32
  · constructor
    · intro hsink j hj
      by_contra hnot
      have hle := h j hj
      rw [← isSink_iff c hfits] at hsink hnot
      unfold evictionKey at hle
      rw [Prod.Lex.toLex_le_toLex, hsink, Bool.not_eq_true _ |>.mp hnot] at hle
      rcases hle with hlt | ⟨heq, -⟩
      · have hbool : true < false := hlt
        exact absurd hbool (by decide)
      · cases heq
    · intro hsink j hj hnot
      have hle := h j hj
      rw [← isSink_iff c hfits, Bool.not_eq_true] at hsink hnot
      unfold evictionKey at hle
      rw [Prod.Lex.toLex_le_toLex, Prod.Lex.toLex_le_toLex, hsink, hnot] at hle
      simpa using hle
  · -- every position is below the window
    have hall : ∀ j, j < c.tiles.length → Sink c window j := by
      intro j hj
      obtain ⟨t, ht⟩ := htile j hj
      have hlt : t.position.toNat < 2 ^ 32 := t.position.toNat_lt
      exact ⟨t, ht, by omega⟩
    constructor
    · intro _ j hj
      rcases hj with hj | hj <;> exact hall j (hc.lt_of_state hj)
    · exact fun hsink => (hsink (hall s hs)).elim

/-- The rungs above the last evict nothing. -/
theorem live_before_evictions {faults : ℕ → Faults} {c d : ElasticKvCache}
    (l : Ladder faults c d) (hc : Valid c) {i : ℕ} (h : Live c i) : Live l.afterWarmDrops i := by
  obtain ⟨⟨hc₁, -⟩, ⟨hc₂, -⟩, -⟩ := l.stages hc
  have hdrops : Live l.afterDrops i := by
    unfold Live at h ⊢
    rwa [(l.drops.drop hc rfl i).1]
  have hpages : Live l.afterPaging i := by
    by_cases hi : i ∈ l.paged
    · exact Or.inr ((l.pages.page hc₁ i).2 hi).2
    · unfold Live at hdrops ⊢
      rwa [(slot_of_not_changed (l.pages.not_changed hc₁ hi)).1]
  unfold Live at hpages ⊢
  rwa [(l.warmDrops.drop hc₂ rfl i).1]

/-- No slot is visited twice on one rung. -/
theorem not_visited_before {faults : ℕ → Faults} {r : Rung} {c d : ElasticKvCache}
    {visited p q : List ℕ} {s : ℕ} (h : Phase faults r c visited d)
    (hsplit : visited = p ++ s :: q) (r' : Rung) : (r', s) ∉ p.map (Prod.mk r) := by
  intro hmem
  obtain ⟨j, hj, heq⟩ := List.mem_map.mp hmem
  obtain ⟨-, rfl⟩ := Prod.mk.inj heq
  have hnodup := (nodup_order r).sublist h.policy.sublist
  rw [hsplit] at hnodup
  exact (List.nodup_append.mp hnodup).2.2 j hj j List.mem_cons_self rfl

/-- What is attempted comes before every live slot not attempted earlier. -/
theorem key_le_of_not_before {faults : ℕ → Faults} {c d : ElasticKvCache} {window : ℕ}
    {visited p q : List ℕ} {s j : ℕ} (h : Phase faults .evict c visited d) (hc : Valid c)
    (heviction : c.eviction = .importance window) (hsplit : visited = p ++ s :: q)
    (hj : Live c j) (hjp : j ∉ p) :
    evictionKey c (UInt32.ofNat window) s ≤ evictionKey c (UInt32.ofNat window) j := by
  obtain ⟨rest, hrest⟩ := h.policy
  have horder : c.evictionOrder = p ++ s :: (q ++ rest) := by
    rw [hsplit, List.append_assoc, List.cons_append] at hrest
    exact hrest.symm
  have hsorted := evictionOrder_pairwise heviction
  rw [horder] at hsorted
  have hmem := (mem_evictionOrder hc).mpr hj
  rw [horder, List.mem_append, List.mem_cons] at hmem
  rcases hmem.resolve_left hjp with hjs | hafter
  · rw [hjs]
  · exact (List.pairwise_cons.mp (List.pairwise_append.mp hsorted).2.1).1 j hafter

section Runs
variable [F32Arith]

/-- No operation changes the eviction policy. -/
theorem exec_eviction {c d : ElasticKvCache} (hc : Valid c) {op : Op} (hop : Permitted c op)
    (h : exec c op = .ok d) : d.eviction = c.eviction := by
  have hinsert : ∀ (e f : ElasticKvCache) (t : SciRustSlhaTile) (i : ℕ), Valid e →
      e.insertWithState t (stateOf t) = .ok (i, f) → f.eviction = e.eviction := by
    intro e f t i he heq
    obtain ⟨i', f', heq', -, hcases⟩ := he.insertWithState t
    obtain ⟨-, rfl⟩ := Prod.mk.inj (Except.ok.inj (heq.symm.trans heq'))
    rcases hcases with ⟨free, -, hreused⟩ | ⟨-, -, hgrown⟩
    · exact hreused ▸ rfl
    · exact hgrown ▸ rfl
  cases op with
  | insert tile =>
      obtain ⟨i, e, heq, -⟩ := hc.insertWithState tile
      have hexec : exec c (.insert tile) = .ok e := congrArg (Except.map Prod.snd) heq
      obtain rfl := Except.ok.inj (h.symm.trans hexec)
      exact hinsert c d tile i hc heq
  | pageOut slot =>
      obtain ⟨e, heq, hv, -⟩ := pageOut_visited hc hop
      obtain rfl := Except.ok.inj (h.symm.trans heq)
      exact hv.lowered.eviction
  | dropCorrection slot =>
      obtain ⟨b, e, heq, -⟩ := hc.dropCorrection hop
      obtain ⟨f, hf, hv, -⟩ := dropStep_visited hc hop
      have hexec : exec c (.dropCorrection slot) = .ok e := congrArg (Except.map Prod.snd) heq
      obtain rfl := Except.ok.inj (h.symm.trans hexec)
      obtain rfl := Except.ok.inj ((dropStep_eq heq).symm.trans hf)
      exact hv.lowered.eviction
  | evict slot faults =>
      obtain ⟨b, e, heq, -⟩ := hc.evict slot faults
      obtain ⟨f, hf, hv, -⟩ := evictStep_visited hc (fun _ => faults) slot
      have hexec : exec c (.evict slot faults) = .ok e := congrArg (Except.map Prod.snd) heq
      obtain rfl := Except.ok.inj (h.symm.trans hexec)
      obtain rfl := Except.ok.inj ((@evictStep_eq c d slot b (fun _ => faults) heq).symm.trans hf)
      exact hv.lowered.eviction
  | rehydrate seq =>
      rcases rehydrate_cases hc seq with
        ⟨_, e, heq, hsame, -⟩ | ⟨log, r, i, e, hlog, -, hadmit, heq, -⟩
      · have hexec : exec c (.rehydrate seq) = .ok e := congrArg (Except.map Prod.snd) heq
        obtain rfl := Except.ok.inj (h.symm.trans hexec)
        exact hsame.eviction
      · have hexec : exec c (.rehydrate seq) = .ok e := congrArg (Except.map Prod.snd) heq
        obtain rfl := Except.ok.inj (h.symm.trans hexec)
        have hlogged : Valid { c with eventLog := some (log.fetchBySeq seq).2 } :=
          hc.congr rfl rfl rfl rfl rfl rfl rfl
        exact hinsert { c with eventLog := some (log.fetchBySeq seq).2 } d r.tile i hlogged hadmit
  | enforceBudget faults =>
      obtain ⟨b, e, heq, -, ⟨l⟩⟩ := enforceBudget_ladder hc faults
      have hexec : exec c (.enforceBudget faults) = .ok e := congrArg (Except.map Prod.snd) heq
      obtain rfl := Except.ok.inj (h.symm.trans hexec)
      exact (l.lowered hc).2.eviction
  | observeScores scores temperature =>
      obtain rfl := Except.ok.inj h
      obtain ⟨importance, -, heq⟩ := observeScores_eq c scores temperature
      rw [heq]
  | attachEventLog log =>
      obtain rfl := Except.ok.inj h
      rfl
  | attachDurableEventLog log =>
      obtain rfl := Except.ok.inj h
      rfl

theorem reaches_eviction {c d : ElasticKvCache} {ops : List Op} (h : Reaches Permitted c ops d)
    (hc : Valid c) : Valid d ∧ d.eviction = c.eviction := by
  have hstep : ∀ e op f, Valid e ∧ e.eviction = c.eviction → Permitted e op →
      exec e op = .ok f → Valid f ∧ f.eviction = c.eviction := by
    intro e op f he hop heq
    obtain ⟨g, hg, hvalid⟩ := exec_valid he.1 hop
    obtain rfl := Except.ok.inj (heq.symm.trans hg)
    exact ⟨hvalid, (exec_eviction he.1 hop heq).trans he.2⟩
  exact h.invariant hstep ⟨hc, rfl⟩

/-- With any importances, an enforcement on a reachable cache without a durable log evicts
exactly the slots it attempts, each of them when it was its turn. -/
theorem enforceBudget_evicts_in_order (budgetBytes : ℕ) (policy : PageOutPolicy) (window : ℕ)
    {ops : List Op} {c : ElasticKvCache}
    (h : Reaches Permitted
      { ElasticKvCache.new budgetBytes policy with eviction := .importance window } ops c)
    (importance : List F32) (hlen : importance.length = c.importance.length)
    (hbest : c.evictionDurability ≠ .requireDurable) (faults : ℕ → Faults) :
    ∃ b d, enforceBudget { c with importance := importance } faults = .ok (b, d) ∧
      ∃ l : Ladder faults { c with importance := importance } d,
        (∀ i, Live c i → (d.state[i]? = some .cold ↔ i ∈ l.attempted)) ∧
        ∀ p s q, l.attempted = p ++ s :: q → ∃ e f,
          Trace faults l.afterWarmDrops (p.map (Prod.mk .evict)) e ∧
          e.evict s (faults s) = .ok (true, f) ∧ Trace faults f (q.map (Prod.mk .evict)) d ∧
          EvictedInOrder e window s := by
  obtain ⟨hvalid, heviction⟩ := reaches_eviction h (Valid.new budgetBytes policy _)
  have hc : Valid { c with importance := importance } :=
    hvalid.congr rfl rfl rfl hlen rfl rfl rfl
  obtain ⟨b, d, heq, -, ⟨l⟩⟩ := enforceBudget_ladder hc faults
  obtain ⟨⟨hc₁, h₁⟩, ⟨hc₂, h₂⟩, ⟨hc₃, h₃⟩, hd, h₄⟩ := l.stages hc
  have hlow : Lowered { c with importance := importance } l.afterWarmDrops :=
    h₁.trans (h₂.trans h₃)
  have hbest₃ : l.afterWarmDrops.evictionDurability ≠ .requireDurable := by
    rw [hlow.evictionDurability]
    exact hbest
  refine ⟨b, d, heq, l, fun i hi => ⟨?_, (l.accounted hc).unrefused hbest i⟩, ?_⟩
  · intro hcold
    have hlive : Live l.afterWarmDrops i := live_before_evictions l hc hi
    by_contra hnot
    have hsame := l.attempts.not_changed hc₃ hnot
    rw [(slot_of_not_changed hsame).1] at hcold
    exact not_live_of_cold hcold hlive
  · intro p s q hsplit
    have htrace := l.attempts.trace
    have hwithin := l.attempts.within
    rw [hsplit, List.map_append, List.map_cons] at htrace hwithin
    have hwp : Within l.afterWarmDrops.tiles.length (p.map (Prod.mk .evict)) :=
      fun r j hmem => hwithin r j (List.mem_append_left _ hmem)
    have hs : s < l.afterWarmDrops.tiles.length :=
      hwithin .evict s (List.mem_append_right _ List.mem_cons_self)
    obtain ⟨e, hbefore, hafter⟩ := htrace.split
    obtain ⟨he, hlowe⟩ := hbefore.lowered hc₃ hwp
    have hlives : Live e s := by
      have hunvisited := hbefore.not_changed hc₃ hwp (not_visited_before l.attempts hsplit)
      unfold Live
      rw [(slot_of_not_changed hunvisited).1]
      exact (mem_evictionOrder hc₃).mp (l.attempts.policy.subset (by simp [hsplit]))
    obtain ⟨f, hevict⟩ :=
      evict_of_bestEffort he hlives (hlowe.evictionDurability ▸ hbest₃) (faults s)
    cases hafter with
    | @cons _ f' _ _ _ _ hover hstep hrest =>
        obtain rfl := Except.ok.inj (hstep.symm.trans (evictStep_eq hevict))
        refine ⟨e, f', hbefore, hevict, hrest, evictedInOrder_of_key he (hlowe.length ▸ hs) ?_⟩
        intro j hj
        have hjp : j ∉ p := fun hmem => not_live_of_attempted hbefore hc₃ hwp hbest₃ hmem hj
        rw [evictionKey_of_lowered hlowe, evictionKey_of_lowered hlowe]
        exact key_le_of_not_before l.attempts hc₃ (hlow.eviction.trans heviction) hsplit
          (hlowe.live j hj) hjp

end Runs

section Example
local instance : F32Arith := F32Arith.trivial

/-- A WARM tile at the fifth position. -/
def lateTile : SciRustSlhaTile := { warmTile with position := 5 }

/-- A sink and a later tile, with no budget. -/
def sinkPair : ElasticKvCache :=
  { ElasticKvCache.new 0 .oldestFirst with
    eviction := .importance 1
    tiles := [warmTile, lateTile]
    state := [.warm, .warm]
    seq := [0, 1]
    importance := [F32.zero, F32.zero]
    liveBytesCounter := 192
    nextSeq := 2 }

theorem sinkPair_reached : Reaches Permitted
    { ElasticKvCache.new 0 .oldestFirst with eviction := .importance 1 }
    [.insert warmTile, .insert lateTile] sinkPair := by
  have hone : Reaches Permitted
      { ElasticKvCache.new 0 .oldestFirst with eviction := .importance 1 }
      ([] ++ [.insert warmTile]) _ := Reaches.snoc Reaches.nil trivial rfl
  exact Reaches.snoc hone trivial rfl

theorem enforceBudget_evicts_in_order_sinkPair : ∃ b d,
    enforceBudget { sinkPair with importance := [F32.zero, F32.zero] } (fun _ => Faults.none) =
      .ok (b, d) ∧
    ∃ l : Ladder (fun _ => Faults.none) { sinkPair with importance := [F32.zero, F32.zero] } d,
      ∀ i, Live sinkPair i → (d.state[i]? = some .cold ↔ i ∈ l.attempted) := by
  obtain ⟨b, d, heq, l, hcold, -⟩ := enforceBudget_evicts_in_order 0 .oldestFirst 1
    sinkPair_reached [F32.zero, F32.zero] rfl (by decide) (fun _ => Faults.none)
  exact ⟨b, d, heq, l, hcold⟩

end Example

end SlhaV2.SinkEviction
