import Mathlib.Data.List.Nodup
import SlhaV2.CcosRuns
import SlhaV2.EventLogRuns

/-!
# Eviction behind a durable log

With one durable log attached, the log is the records it had and one record for
each eviction since. Their sequence numbers differ from each other and from
those of the live slots, so the last record of a number is the only one of
this cache, and an evicted tile stays fetchable for good. A host that cuts the
file back after a failed append leaves no half-evicted tile.
-/
namespace SlhaV2.DurableEviction
open MachineWord ByteBuffer FloatingPoint TileCodec HostFile SlhaTile EventLog CcosCache CcosSteps
open EventLogRuns CcosRuns ElasticKvCache

/-- The log is the records it had and those of the evictions since. -/
structure Durable (old appended : List LogRecord) (c : ElasticKvCache) : Prop where
  valid : Valid c
  durability : c.evictionDurability = .requireDurable
  log : ∃ log, c.eventLog = some log ∧ Represents log (old ++ appended)
  distinct : (appended.map LogRecord.seq).Nodup
  below : ∀ r ∈ appended, r.seq.toNat < c.nextSeq
  apart : ∀ r ∈ appended, ∀ i, Live c i → c.seq[i]? ≠ some r.seq.toNat
  counter : c.nextSeq < 2 ^ 64

/-- The record of an eviction. -/
def recordOf (n i : ℕ) (t : SciRustSlhaTile) : LogRecord := ⟨UInt64.ofNat n, UInt32.ofNat i, t⟩

theorem recordOf_seq {n : ℕ} (h : n < 2 ^ 64) (i : ℕ) (t : SciRustSlhaTile) :
    (recordOf n i t).seq.toNat = n := by
  rw [recordOf, UInt64.toNat_ofNat', Nat.mod_eq_of_lt h]

/-- What a live slot stores. -/
structure Stores (c : ElasticKvCache) (i n : ℕ) (t : SciRustSlhaTile) (s : TileState) : Prop where
  state : c.state[i]? = some s
  live : s ≠ .cold
  tile : c.tiles[i]? = some t
  seq : c.seq[i]? = some n

theorem Stores.isLive {c : ElasticKvCache} {i n : ℕ} {t : SciRustSlhaTile} {s : TileState}
    (h : Stores c i n t s) : Live c i := live_of_ne_cold h.state h.live

/-- Any live slot stores something. -/
theorem exists_stores {c : ElasticKvCache} (h : Valid c) {i : ℕ} {s : TileState}
    (hs : c.state[i]? = some s) (hlive : s ≠ .cold) : ∃ n t, Stores c i n t s := by
  obtain ⟨t, ht⟩ := h.tile_of_state hs
  have hlt : i < c.seq.length := by
    rw [h.seqLength]
    exact h.lt_of_state hs
  exact ⟨_, t, hs, hlive, ht, List.getElem?_eq_getElem hlt⟩

/-- Same slots, and a log of the same records: the same guarantees. -/
theorem Durable.congr {old appended : List LogRecord} {c d : ElasticKvCache}
    (h : Durable old appended c) (k : SameSlots c d) {log : Log} (hlog : d.eventLog = some log)
    (hrep : Represents log (old ++ appended)) : Durable old appended d := by
  refine ⟨k.valid h.valid, k.evictionDurability.trans h.durability, ⟨log, hlog, hrep⟩,
    h.distinct, ?_, ?_, ?_⟩
  · rw [k.nextSeq]
    exact h.below
  · unfold Live
    rw [k.state, k.seq]
    exact h.apart
  · rw [k.nextSeq]
    exact h.counter

/-- Persisting writes the slot's record, or counts the failure and keeps the records. -/
theorem persist_durable {old appended : List LogRecord} {c : ElasticKvCache}
    (h : Durable old appended c) {i n : ℕ} {t : SciRustSlhaTile} {s : TileState}
    (hi : Stores c i n t s) {faults : Faults} (ht : faults.truncate = true) :
    (∃ log, c.persist i faults = .ok (true, { c with eventLog := some log }) ∧
      Represents log (old ++ (appended ++ [recordOf n i t]))) ∨
    ∃ log, c.persist i faults = .ok (false, { c with
        eventLog := some log
        logErrors := c.logErrors + 1
        blockedEvictions := c.blockedEvictions + 1 }) ∧
      Represents log (old ++ appended) := by
  obtain ⟨log, hlog, hrep⟩ := h.log
  have hwrite : writeRecord c.evictionDurability log ⟨UInt64.ofNat n, UInt32.ofNat i, t⟩ faults =
      log.appendDurable (recordOf n i t) faults := by
    rw [h.durability]
    rfl
  unfold persist
  simp only [hlog, getAt_some hi.seq, getAt_some hi.tile, bind, Except.bind, pure, Except.pure]
  rcases appendDurable_cases log (recordOf n i t) ht with happ | ⟨e, f, happ, hbytes⟩
  · rw [happ] at hwrite
    simp only [hwrite]
    refine Or.inl ⟨_, rfl, ?_⟩
    rw [← List.append_assoc]
    exact hrep.extended _
  · rw [happ] at hwrite
    simp only [hwrite, if_pos h.durability]
    exact Or.inr ⟨_, rfl, hrep.moved hbytes⟩

/-- The slot goes COLD and its record joins the log: both, or neither. -/
theorem Durable.chilled {old appended : List LogRecord} {c : ElasticKvCache}
    (h : Durable old appended c) {i n : ℕ} {t : SciRustSlhaTile} {s : TileState}
    (hi : Stores c i n t s) {log : Log}
    (hlog : Represents log (old ++ (appended ++ [recordOf n i t]))) :
    Durable old (appended ++ [recordOf n i t])
      (CcosSteps.chilled { c with eventLog := some log } i
        (c.liveBytesCounter - footprint s t)) := by
  have hbelow : n < c.nextSeq := h.valid.seqBelow i n hi.isLive hi.seq
  have hseq : (recordOf n i t).seq.toNat = n := recordOf_seq (hbelow.trans h.counter) i t
  have hlt : i < c.state.length := (List.getElem?_eq_some_iff.mp hi.state).1
  have hlive : ∀ j, Live (CcosSteps.chilled { c with eventLog := some log } i
      (c.liveBytesCounter - footprint s t)) j → Live c j ∧ j ≠ i := fun j => live_of_chilled hlt
  constructor
  · have hvalid : Valid { c with eventLog := some log } := h.valid.congr rfl rfl rfl rfl rfl rfl rfl
    exact hvalid.chilled hi.state hi.tile hi.live
  · exact h.durability
  · exact ⟨log, rfl, hlog⟩
  · rw [List.map_append, List.nodup_append]
    refine ⟨h.distinct, by simp, fun a ha b hb hab => ?_⟩
    obtain ⟨r, hr, rfl⟩ := List.mem_map.mp ha
    obtain rfl : b = (recordOf n i t).seq := by simpa using hb
    exact h.apart r hr i hi.isLive (by rw [hab, hseq]; exact hi.seq)
  · intro r hr
    rcases List.mem_append.mp hr with hr | hr
    · exact h.below r hr
    · obtain rfl := List.mem_singleton.mp hr
      exact hseq.trans_lt hbelow
  · intro r hr j hj
    obtain ⟨hj, hji⟩ := hlive j hj
    rcases List.mem_append.mp hr with hr | hr
    · exact h.apart r hr j hj
    · obtain rfl := List.mem_singleton.mp hr
      rw [hseq]
      exact fun hcon => hji (h.valid.seqInjective j i n hj hi.isLive hcon hi.seq)
  · exact h.counter

/-- An eviction refused leaves everything but the log handle and the two counts. -/
structure Refused (c d : ElasticKvCache) : Prop where
  unchanged : ∃ log errors blocked, d = { c with
    eventLog := log
    logErrors := errors
    blockedEvictions := blocked }
  errors : c.logErrors ≤ d.logErrors
  blocked : c.blockedEvictions ≤ d.blockedEvictions

theorem evict_durable {old appended : List LogRecord} {c : ElasticKvCache}
    (h : Durable old appended c) (i : ℕ) {faults : Faults} (ht : faults.truncate = true) :
    (∃ d, c.evict i faults = .ok (false, d) ∧ Refused c d ∧ Durable old appended d) ∨
    ∃ n t s d, Stores c i n t s ∧ c.evict i faults = .ok (true, d) ∧
      Durable old (appended ++ [recordOf n i t]) d := by
  unfold evict
  by_cases hdead : c.state[i]? ≠ some .hot ∧ c.state[i]? ≠ some .warm
  · exact Or.inl ⟨c, if_pos hdead, ⟨⟨_, _, _, rfl⟩, le_rfl, le_rfl⟩, h⟩
  rw [if_neg hdead]
  obtain ⟨s, hs, hlive⟩ : ∃ s, c.state[i]? = some s ∧ s ≠ .cold := by
    by_cases hhot : c.state[i]? = some .hot
    · exact ⟨.hot, hhot, by decide⟩
    · exact ⟨.warm, not_not.mp fun hw => hdead ⟨hhot, hw⟩, by decide⟩
  obtain ⟨n, t, hi⟩ := exists_stores h.valid hs hlive
  rcases persist_durable h hi ht with ⟨log, heq, hrep⟩ | ⟨log, heq, hrep⟩
  · refine Or.inr ⟨n, t, s, _, hi, ?_, h.chilled hi hrep⟩
    have hbytes : slotLiveBytes { c with eventLog := some log } i = .ok (footprint s t) :=
      slotLiveBytes_eq hi.state hi.tile
    simp only [heq, bind, Except.bind, pure, Except.pure, if_true, hbytes,
      wordSub_of_le (h.valid.footprint_le hi.state hi.tile)]
    rfl
  · refine Or.inl ⟨_, by simp only [heq, bind, Except.bind, pure, Except.pure]; rfl,
      ⟨⟨_, _, _, rfl⟩, Nat.le_succ _, Nat.le_succ _⟩, ?_⟩
    exact h.congr ⟨rfl, rfl, rfl, rfl, rfl, rfl, rfl, rfl, rfl, rfl, rfl⟩ rfl hrep

/-- Rewriting a live slot moves no sequence number. -/
theorem Durable.rewritten {old appended : List LogRecord} {c : ElasticKvCache}
    (h : Durable old appended c) {i counter : ℕ} {s new : TileState} {u : SciRustSlhaTile}
    (hs : c.state[i]? = some s) (hlive : s ≠ .cold)
    (hvalid : Valid (CcosSteps.rewritten c i new u counter)) :
    Durable old appended (CcosSteps.rewritten c i new u counter) := by
  refine ⟨hvalid, h.durability, h.log, h.distinct, h.below, fun r hr j hj => ?_, h.counter⟩
  exact h.apart r hr j (live_of_rewritten hs hlive hj)

theorem Durable.pageOut {old appended : List LogRecord} {c : ElasticKvCache}
    (h : Durable old appended c) {i : ℕ} (hi : i < c.tiles.length) :
    ∃ d, c.pageOut i = .ok d ∧ Durable old appended d ∧ d.tiles.length = c.tiles.length := by
  obtain ⟨d, heq, hvalid, hlen⟩ := h.valid.pageOut hi
  refine ⟨d, heq, ?_, hlen⟩
  rcases pageOut_cases h.valid hi with ⟨t, hs, -, hd⟩ | ⟨-, hd⟩
  · obtain rfl := Except.ok.inj (heq.symm.trans hd)
    exact h.rewritten hs (by decide) hvalid
  · obtain rfl := Except.ok.inj (heq.symm.trans hd)
    exact h

theorem Durable.dropCorrection {old appended : List LogRecord} {c : ElasticKvCache}
    (h : Durable old appended c) {i : ℕ} (hi : i < c.tiles.length) :
    ∃ b d, c.dropCorrection i = .ok (b, d) ∧ Durable old appended d ∧
      d.tiles.length = c.tiles.length := by
  obtain ⟨b, d, heq, hvalid, hlen⟩ := h.valid.dropCorrection hi
  refine ⟨b, d, heq, ?_, hlen⟩
  rcases dropCorrection_cases h.valid hi with ⟨s, t, hs, -, hlive, -, hd⟩ | hd
  · obtain ⟨-, rfl⟩ := Prod.mk.inj (Except.ok.inj (heq.symm.trans hd))
    exact h.rewritten hs hlive hvalid
  · obtain ⟨-, rfl⟩ := Prod.mk.inj (Except.ok.inj (heq.symm.trans hd))
    exact h

/-- The next number is above every number in the log. -/
theorem Durable.numbered {old appended : List LogRecord} {c d : ElasticKvCache} {i : ℕ}
    (h : Durable old appended c) (hvalid : Valid d) (k : NumbersSlot c d i)
    (hdur : d.evictionDurability = c.evictionDurability) (hlog : d.eventLog = c.eventLog)
    (hnext : d.nextSeq = c.nextSeq + 1) (hcount : d.nextSeq < 2 ^ 64) :
    Durable old appended d := by
  refine ⟨hvalid, hdur.trans h.durability, hlog ▸ h.log, h.distinct, fun r hr => ?_,
    fun r hr j hj hseq => ?_, hcount⟩
  · rw [hnext]
    exact (h.below r hr).trans (Nat.lt_succ_self _)
  · have hbelow := h.below r hr
    rcases k j _ hj hseq with ⟨-, hnew⟩ | ⟨hj, hseq⟩
    · omega
    · exact h.apart r hr j hj hseq

theorem Durable.insertWithState {old appended : List LogRecord} {c : ElasticKvCache}
    (h : Durable old appended c) (t : SciRustSlhaTile) :
    ∃ i d, c.insertWithState t (stateOf t) = .ok (i, d) ∧ d.tiles[i]? = some t ∧
      d.state[i]? = some (stateOf t) ∧
      (d.nextSeq < 2 ^ 64 → Durable old appended d) := by
  obtain ⟨i, d, heq, hvalid, hcases⟩ := h.valid.insertWithState t
  refine ⟨i, d, heq, ?_⟩
  rcases hcases with ⟨free, hfree, rfl⟩ | ⟨-, rfl, rfl⟩
  · have hcold : c.state[i]? = some .cold := (h.valid.freeCold i).mp (by rw [hfree]; simp)
    have hlt : i < c.state.length := (List.getElem?_eq_some_iff.mp hcold).1
    have htlt : i < c.tiles.length := h.valid.lt_of_state hcold
    have hqlt : i < c.seq.length := by
      rw [h.valid.seqLength]
      exact htlt
    exact ⟨List.getElem?_set_self htlt, List.getElem?_set_self hlt,
      h.numbered hvalid (numbersSlot_reused hlt hqlt) rfl rfl rfl⟩
  · have hstate : (CcosSteps.grown c (stateOf t) t).state[c.tiles.length]? =
        some (stateOf t) := by
      rw [← h.valid.stateLength]
      exact List.getElem?_concat_length
    exact ⟨List.getElem?_concat_length, hstate,
      h.numbered hvalid (numbersSlot_grown h.valid _ t) rfl rfl rfl⟩

/-- The moved cursor of a read is nobody's business. -/
theorem Durable.rehydrate {old appended : List LogRecord} {c : ElasticKvCache}
    (h : Durable old appended c) (seq : UInt64) :
    ∃ result d, c.rehydrate seq = .ok (result, d) ∧
      (d.nextSeq < 2 ^ 64 → Durable old appended d) ∧
      ∀ r, (old ++ appended).reverse.find? (fun r => r.seq = seq) = some r →
        ∃ slot, result = .ok (some slot) ∧ d.tiles[slot]? = some r.tile ∧
          d.state[slot]? = some (stateOf r.tile) := by
  obtain ⟨log, hlog, hrep⟩ := h.log
  have hfetch := fetchBySeq_represents hrep seq
  have hmoved : Durable old appended
      { c with eventLog := some { log with file := log.file.seekEnd } } :=
    h.congr ⟨rfl, rfl, rfl, rfl, rfl, rfl, rfl, rfl, rfl, rfl, rfl⟩ rfl (hrep.moved rfl)
  unfold ElasticKvCache.rehydrate
  simp only [hlog, hfetch]
  cases (old ++ appended).reverse.find? (fun r => r.seq = seq) with
  | none => exact ⟨_, _, rfl, fun _ => hmoved, fun r hr => nomatch hr⟩
  | some found =>
      obtain ⟨slot, d, heq, htile, hstate, hdur⟩ := hmoved.insertWithState found.tile
      have hst : (if found.tile.isWarm then TileState.warm else .hot) = stateOf found.tile := rfl
      simp only [hst, heq, bind, Except.bind, pure, Except.pure]
      refine ⟨_, d, rfl, hdur, fun r hr => ?_⟩
      obtain rfl := Option.some_inj.mp hr
      exact ⟨slot, rfl, htile, hstate⟩

/-- A record appended since is the last one with its number. -/
theorem find_appended {old appended : List LogRecord}
    (hdistinct : (appended.map LogRecord.seq).Nodup) {r : LogRecord} (hr : r ∈ appended) :
    (old ++ appended).reverse.find? (fun x => x.seq = r.seq) = some r := by
  have hfind : appended.reverse.find? (fun x => x.seq = r.seq) = some r := by
    cases hf : appended.reverse.find? (fun x => x.seq = r.seq) with
    | none =>
        exact (List.find?_eq_none.mp hf r (List.mem_reverse.mpr hr) (by simp)).elim
    | some x =>
        have hseq : x.seq = r.seq := by simpa using List.find?_some hf
        have hx : x ∈ appended := List.mem_reverse.mp (List.mem_of_find?_eq_some hf)
        rw [List.inj_on_of_nodup_map hdistinct hx hr hseq]
  rw [List.reverse_append, List.find?_append, hfind]
  rfl

/-- The log's records begin with these. -/
def Beyond (old appended : List LogRecord) (c : ElasticKvCache) : Prop :=
  ∃ more, Durable old (appended ++ more) c

theorem Durable.beyond {old appended : List LogRecord} {c : ElasticKvCache}
    (h : Durable old appended c) : Beyond old appended c := ⟨[], by rwa [List.append_nil]⟩

theorem beyond_evict {old appended : List LogRecord} {c : ElasticKvCache}
    (h : Beyond old appended c) (i : ℕ) {faults : Faults} (ht : faults.truncate = true) :
    ∃ b d, c.evict i faults = .ok (b, d) ∧ Beyond old appended d ∧ d.tiles = c.tiles := by
  obtain ⟨more, h⟩ := h
  obtain ⟨b, d, heq, -, htiles⟩ := h.valid.evict i faults
  refine ⟨b, d, heq, ?_, htiles⟩
  rcases evict_durable h i ht with ⟨e, he, -, hdur⟩ | ⟨n, t, s, e, -, he, hdur⟩
  · obtain ⟨-, rfl⟩ := Prod.mk.inj (Except.ok.inj (heq.symm.trans he))
    exact ⟨more, hdur⟩
  · obtain ⟨-, rfl⟩ := Prod.mk.inj (Except.ok.inj (heq.symm.trans he))
    exact ⟨more ++ [recordOf n i t], by rwa [← List.append_assoc]⟩

theorem beyond_kept (old appended : List LogRecord) (n : ℕ) {faults : ℕ → Faults}
    (ht : ∀ s, (faults s).truncate = true) :
    Kept n faults fun c => Beyond old appended c ∧ c.tiles.length = n := by
  constructor
  · exact fun c hc => hc.2
  · rintro c i ⟨⟨more, hdur⟩, hlen⟩ hi
    obtain ⟨b, d, heq, hnext, hsame⟩ := hdur.dropCorrection (hlen ▸ hi)
    exact ⟨b, d, heq, ⟨more, hnext⟩, hsame.trans hlen⟩
  · rintro c i ⟨⟨more, hdur⟩, hlen⟩ hi
    obtain ⟨d, heq, hnext, hsame⟩ := hdur.pageOut (hlen ▸ hi)
    exact ⟨d, heq, ⟨more, hnext⟩, hsame.trans hlen⟩
  · rintro c i ⟨hbeyond, hlen⟩ -
    obtain ⟨b, d, heq, hnext, htiles⟩ := beyond_evict hbeyond i (ht i)
    exact ⟨b, d, heq, hnext, by rw [htiles]; exact hlen⟩

/-- The calls a sweep makes, each with the cache it is made in. -/
def sweepCalls (degrade : ElasticKvCache → ℕ → Outcome ElasticKvCache) :
    List ℕ → ElasticKvCache → List (ElasticKvCache × ℕ)
  | [], _ => []
  | s :: rest, c =>
      if c.liveBytesCounter ≤ c.budgetBytes then [] else
      (c, s) :: match degrade c s with
        | .ok d => sweepCalls degrade rest d
        | .error _ => []

/-- The evictions budget enforcement attempts: those of its last phase, when it gets there. -/
def enforceCalls (c : ElasticKvCache) (faults : ℕ → Faults) : List (ElasticKvCache × ℕ) :=
  if c.liveBytesCounter ≤ c.budgetBytes then [] else
  match c.dropPhase .hot with
  | .ok (false, c) =>
      match c.pagePhase with
      | .ok (false, c) =>
          match c.dropPhase .warm with
          | .ok (false, c) => sweepCalls (evictStep faults) c.evictionOrder c
          | _ => []
      | _ => []
  | _ => []

/-- A call of a sweep is made in a cache with what the steps keep, and the sweep
ends where the rest of it does from the call's result. -/
theorem mem_sweepCalls {P : ElasticKvCache → Prop}
    {degrade : ElasticKvCache → ℕ → Outcome ElasticKvCache} {slots : List ℕ}
    (step : ∀ c s, s ∈ slots → P c → ∃ d, degrade c s = .ok d ∧ P d) {c e : ElasticKvCache}
    {s : ℕ} (h : P c) (hmem : (e, s) ∈ sweepCalls degrade slots c) :
    s ∈ slots ∧ P e ∧ ∃ d rest, degrade e s = .ok d ∧ (∀ x ∈ rest, x ∈ slots) ∧
      sweep degrade rest d = sweep degrade slots c := by
  induction slots generalizing c with
  | nil => simp [sweepCalls] at hmem
  | cons x rest ih =>
      unfold sweepCalls at hmem
      by_cases hmet : c.liveBytesCounter ≤ c.budgetBytes
      · simp [hmet] at hmem
      obtain ⟨d, hd, hp⟩ := step c x (by simp) h
      have hfirst : sweep degrade (x :: rest) c = sweep degrade rest d := by
        rw [sweep, if_neg hmet, hd]
        rfl
      simp only [hmet, if_false, hd] at hmem
      rw [hfirst]
      rcases List.mem_cons.mp hmem with heq | hmem
      · obtain ⟨rfl, rfl⟩ := Prod.mk.inj heq
        exact ⟨by simp, h, d, rest, hd, fun y hy => List.mem_cons_of_mem _ hy, rfl⟩
      · obtain ⟨hs, he, f, tail, hf, htail, hsweep⟩ :=
          ih (fun c y hy => step c y (List.mem_cons_of_mem x hy)) hp hmem
        exact ⟨List.mem_cons_of_mem x hs, he, f, tail, hf,
          fun y hy => List.mem_cons_of_mem x (htail y hy), hsweep⟩

/-- An eviction attempted by budget enforcement starts from what the calls keep,
and what its result has and the calls keep, the whole enforcement ends with. -/
theorem mem_enforceCalls {n : ℕ} {faults : ℕ → Faults} {P : ElasticKvCache → Prop}
    (k : Kept n faults P) {c e : ElasticKvCache} {s : ℕ} (h : P c)
    (hmem : (e, s) ∈ enforceCalls c faults) : P e ∧ ∃ d, e.evictStep faults s = .ok d ∧
      ∀ Q, Kept n faults Q → Q d → ∃ b f, c.enforceBudget faults = .ok (b, f) ∧ Q f := by
  unfold enforceCalls at hmem
  by_cases hmet : c.liveBytesCounter ≤ c.budgetBytes
  · simp [hmet] at hmem
  rw [if_neg hmet] at hmem
  obtain ⟨b₁, c₁, h₁, hp₁⟩ := k.dropPhase h .hot
  obtain ⟨b₂, c₂, h₂, hp₂⟩ := k.pagePhase hp₁
  obtain ⟨b₃, c₃, h₃, hp₃⟩ := k.dropPhase hp₂ .warm
  cases b₁
  · cases b₂
    · cases b₃
      · simp only [h₁, h₂, h₃] at hmem
        have hin : ∀ x ∈ c₃.evictionOrder, x < n :=
          fun x hx => k.length c₃ hp₃ ▸ lt_of_mem_evictionOrder hx
        obtain ⟨-, he, d, rest, hd, hrest, hsweep⟩ :=
          mem_sweepCalls (fun _ x hx hp => k.evictStep hp (hin x hx)) hp₃ hmem
        refine ⟨he, d, hd, fun Q q hq => ?_⟩
        obtain ⟨b₄, c₄, h₄, hq₄⟩ :=
          sweep_ok (fun _ x hx hp => q.evictStep hp (hin x (hrest x hx))) hq
        have hphase : c₃.evictPhase faults = .ok (b₄, c₄) := hsweep.symm.trans h₄
        unfold ElasticKvCache.enforceBudget
        rw [if_neg hmet]
        simp only [h₁, h₂, h₃, hphase, bind, Except.bind, pure, Except.pure]
        cases b₄
        · exact ⟨_, c₄, rfl, hq₄⟩
        · exact ⟨true, c₄, rfl, hq₄⟩
      · simp [h₁, h₂, h₃] at hmem
    · simp [h₁, h₂] at hmem
  · simp [h₁] at hmem

/-- A log as the program hands it out: created, or opened in some mode. -/
def Opened (log : Log) : Prop :=
  log = Log.create ∨ ∃ bytes recoverTail writable after,
    Log.openImpl bytes recoverTail writable = (.ok log, after)

theorem opened_represents {log : Log} (h : Opened log) : ∃ rs, Represents log rs := by
  rcases h with rfl | ⟨bytes, recoverTail, writable, after, hopen⟩
  · exact ⟨[], create_represents⟩
  · exact (represents_of_openImpl hopen).1

theorem attach_durable {c : ElasticKvCache} {log : Log} {old : List LogRecord} (h : Valid c)
    (hlog : Represents log old) (hcount : c.nextSeq < 2 ^ 64) :
    Durable old [] (c.attachDurableEventLog log) where
  valid := h.congr rfl rfl rfl rfl rfl rfl rfl
  durability := rfl
  log := ⟨log, rfl, by rwa [List.append_nil]⟩
  distinct := List.nodup_nil
  below := fun r hr => absurd hr List.not_mem_nil
  apart := fun r hr => absurd hr List.not_mem_nil
  counter := hcount

/-- The tile and the number of a slot are dropped from a cache, but not lost: no live
slot has the number, and rehydrating it inserts the tile in the form it had. -/
def Recoverable (w : ElasticKvCache) (n : ℕ) (t : SciRustSlhaTile) (s : TileState) : Prop :=
  (∀ j, Live w j → w.seq[j]? ≠ some n) ∧
    ∃ slot x, w.rehydrate (UInt64.ofNat n) = .ok (.ok (some slot), x) ∧
      x.tiles[slot]? = some t ∧ x.state[slot]? = some s

theorem recoverable_of_beyond {old appended : List LogRecord} {w : ElasticKvCache} {n i : ℕ}
    {t : SciRustSlhaTile} (h : Beyond old (appended ++ [recordOf n i t]) w) (hn : n < 2 ^ 64) :
    Recoverable w n t (stateOf t) := by
  obtain ⟨more, hdur⟩ := h
  have hmem : recordOf n i t ∈ appended ++ [recordOf n i t] ++ more := by simp
  refine ⟨fun j hj hseq => ?_, ?_⟩
  · exact hdur.apart _ hmem j hj (by rw [recordOf_seq hn]; exact hseq)
  · obtain ⟨result, x, heq, -, hfound⟩ := hdur.rehydrate (UInt64.ofNat n)
    obtain ⟨slot, rfl, htile, hstate⟩ := hfound _ (find_appended hdur.distinct hmem)
    exact ⟨slot, x, heq, htile, hstate⟩

/-- Reading the logs of the two caches gives the same records. -/
def SameRecords (c d : ElasticKvCache) : Prop :=
  ∃ l k rs, c.eventLog = some l ∧ d.eventLog = some k ∧ l.readAll.1 = .ok rs ∧ k.readAll.1 = .ok rs

theorem Durable.sameRecords {old appended : List LogRecord} {c d : ElasticKvCache}
    (h : Durable old appended c) (k : Durable old appended d) : SameRecords c d := by
  obtain ⟨l, hl, hlrep⟩ := h.log
  obtain ⟨m, hm, hmrep⟩ := k.log
  exact ⟨l, m, _, hl, hm, by rw [readAll_represents hlrep], by rw [readAll_represents hmrep]⟩

section Runs
variable [F32Arith]

/-- Executing keeps the log to itself: no other log is attached, and cutting back succeeds. -/
def KeepsLog : Op → Prop
  | .evict _ faults => faults.truncate = true
  | .enforceBudget faults => ∀ s, (faults s).truncate = true
  | .attachEventLog _ | .attachDurableEventLog _ => False
  | _ => True

/-- An operation of a cache with one log, whose counter does not wrap. -/
structure OneLog (c : ElasticKvCache) (op : Op) : Prop where
  permitted : Permitted c op
  keeps : KeepsLog op
  counts : ∀ d, exec c op = .ok d → d.nextSeq < 2 ^ 64

theorem Durable.observeScores {old appended : List LogRecord} {c : ElasticKvCache}
    (h : Durable old appended c) (scores : List (ℕ × F32)) (temperature : F32) :
    Durable old appended (c.observeScores scores temperature) := by
  have hvalid := h.valid.observeScores scores temperature
  obtain ⟨importance, -, heq⟩ := observeScores_eq c scores temperature
  rw [heq] at hvalid ⊢
  exact ⟨hvalid, h.durability, h.log, h.distinct, h.below, h.apart, h.counter⟩

/-- Records are only ever added. -/
theorem beyond_exec {old appended : List LogRecord} {c d : ElasticKvCache} {op : Op}
    (h : Beyond old appended c) (hop : OneLog c op) (heq : exec c op = .ok d) :
    Beyond old appended d := by
  have hcount := hop.counts d heq
  obtain ⟨more, hdur⟩ := id h
  cases op with
  | insert tile =>
      obtain ⟨i, e, he, -, -, hnext⟩ := hdur.insertWithState tile
      obtain rfl : e = d := Except.ok.inj ((congrArg (Except.map Prod.snd) he).symm.trans heq)
      exact ⟨more, hnext hcount⟩
  | pageOut slot =>
      obtain ⟨e, he, hnext, -⟩ := hdur.pageOut hop.permitted
      obtain rfl : e = d := Except.ok.inj (he.symm.trans heq)
      exact ⟨more, hnext⟩
  | dropCorrection slot =>
      obtain ⟨b, e, he, hnext, -⟩ := hdur.dropCorrection hop.permitted
      obtain rfl : e = d := Except.ok.inj ((congrArg (Except.map Prod.snd) he).symm.trans heq)
      exact ⟨more, hnext⟩
  | evict slot faults =>
      obtain ⟨b, e, he, hnext, -⟩ := beyond_evict h slot hop.keeps
      obtain rfl : e = d := Except.ok.inj ((congrArg (Except.map Prod.snd) he).symm.trans heq)
      exact hnext
  | rehydrate seq =>
      obtain ⟨result, e, he, hnext, -⟩ := hdur.rehydrate seq
      obtain rfl : e = d := Except.ok.inj ((congrArg (Except.map Prod.snd) he).symm.trans heq)
      exact ⟨more, hnext hcount⟩
  | enforceBudget faults =>
      obtain ⟨b, e, he, hnext, -⟩ :=
        (beyond_kept old appended c.tiles.length hop.keeps).enforceBudget ⟨h, rfl⟩
      obtain rfl : e = d := Except.ok.inj ((congrArg (Except.map Prod.snd) he).symm.trans heq)
      exact hnext
  | observeScores scores temperature =>
      obtain rfl : c.observeScores scores temperature = d := Except.ok.inj heq
      exact ⟨more, hdur.observeScores scores temperature⟩
  | attachEventLog log => exact hop.keeps.elim
  | attachDurableEventLog log => exact hop.keeps.elim

/-- The evictions an operation attempts, each with the cache it is attempted in. -/
def evictCalls (c : ElasticKvCache) : Op → List (ElasticKvCache × ℕ × Faults)
  | .evict slot faults => [(c, slot, faults)]
  | .enforceBudget faults => (enforceCalls c faults).map fun p => (p.1, p.2, faults p.2)
  | _ => []

/-- An attempt starts behind the same records, and what it adds the operation keeps. -/
theorem mem_evictCalls {old appended : List LogRecord} {c d e : ElasticKvCache} {op : Op} {i : ℕ}
    {faults : Faults} (h : Beyond old appended c) (hop : OneLog c op) (heq : exec c op = .ok d)
    (hcall : (e, i, faults) ∈ evictCalls c op) :
    Beyond old appended e ∧ faults.truncate = true ∧ ∃ b g, e.evict i faults = .ok (b, g) ∧
      ∀ since, Beyond old since g → Beyond old since d := by
  cases op with
  | evict slot given =>
      obtain ⟨rfl, rfl, rfl⟩ : e = c ∧ i = slot ∧ faults = given := by
        simpa [evictCalls] using hcall
      obtain ⟨b, g, hg, -, -⟩ := beyond_evict h i hop.keeps
      obtain rfl : g = d := Except.ok.inj ((congrArg (Except.map Prod.snd) hg).symm.trans heq)
      exact ⟨h, hop.keeps, b, g, hg, fun _ hs => hs⟩
  | enforceBudget given =>
      obtain ⟨⟨x, s⟩, hmem, hcall⟩ := List.mem_map.mp hcall
      obtain ⟨rfl, rfl, rfl⟩ : x = e ∧ s = i ∧ given s = faults := by simpa using hcall
      have hkept := fun since => beyond_kept old since c.tiles.length hop.keeps
      obtain ⟨⟨hx, hlen⟩, g, hstep, hrest⟩ := mem_enforceCalls (hkept appended) ⟨h, rfl⟩ hmem
      obtain ⟨b, g', hg, -, htiles⟩ := beyond_evict hx s (hop.keeps s)
      obtain rfl : g' = g := Except.ok.inj ((evictStep_eq hg).symm.trans hstep)
      refine ⟨hx, hop.keeps s, b, g', hg, fun since hs => ?_⟩
      obtain ⟨b', f, hf, hbeyond, -⟩ := hrest _ (hkept since) ⟨hs, by rw [htiles]; exact hlen⟩
      obtain rfl : f = d := Except.ok.inj ((congrArg (Except.map Prod.snd) hf).symm.trans heq)
      exact hbeyond
  | insert _ | pageOut _ | dropCorrection _ | rehydrate _ | observeScores _ _
  | attachEventLog _ | attachDurableEventLog _ => simp [evictCalls] at hcall

/-- In every run of a cache with one durable log, an eviction refused changes the
two counts only, and an eviction done is logged before and recoverable ever after. -/
theorem durable_eviction_contract {budgetBytes : ℕ} {policy : PageOutPolicy}
    {eviction : EvictionPolicy} {before : List Op} {c₀ : ElasticKvCache} {log : Log}
    (hbefore : Reaches Permitted
      { ElasticKvCache.new budgetBytes policy with eviction := eviction } before c₀)
    (hlog : Opened log) (hcount : c₀.nextSeq < 2 ^ 64) {ops : List Op} {c d e : ElasticKvCache}
    (hrun : Reaches OneLog (c₀.attachDurableEventLog log) ops c) {op : Op} (hop : OneLog c op)
    (heq : exec c op = .ok d) {i : ℕ} {faults : Faults}
    (hcall : (e, i, faults) ∈ evictCalls c op) :
    (∃ g, e.evict i faults = .ok (false, g) ∧ Refused e g ∧ SameRecords e g) ∨
    ∃ n t s g l rs, Stores e i n t s ∧ e.evict i faults = .ok (true, g) ∧
      g.eventLog = some l ∧ l.readAll.1 = .ok (rs ++ [recordOf n i t]) ∧
      ∀ later w, Reaches OneLog d later w → Recoverable w n t s := by
  obtain ⟨old, hold⟩ := opened_represents hlog
  have hstart := (attach_durable (reaches_valid hbefore (Valid.new _ _ _)) hold hcount).beyond
  have hc : Beyond old [] c := hrun.invariant (fun _ _ _ => beyond_exec) hstart
  obtain ⟨⟨since, hdur⟩, ht, b, g, hg, hkeep⟩ := mem_evictCalls hc hop heq hcall
  rcases evict_durable hdur i ht with ⟨g', hg', hrefused, hsame⟩ | ⟨n, t, s, g', hi, hg', hnext⟩
  · exact Or.inl ⟨g', hg', hrefused, hdur.sameRecords hsame⟩
  obtain ⟨-, rfl⟩ := Prod.mk.inj (Except.ok.inj (hg.symm.trans hg'))
  obtain ⟨l, hl, hrep⟩ := hnext.log
  have hread : l.readAll.1 = .ok (old ++ ([] ++ since) ++ [recordOf n i t]) := by
    rw [readAll_represents hrep]
    simp only [List.append_assoc]
  have hstate : stateOf t = s := by
    have hflag := hdur.valid.flag i t hi.isLive hi.tile
    have hlive := hi.live
    rw [hi.state, Option.some.injEq] at hflag
    unfold stateOf
    cases s <;> simp_all
  refine Or.inr ⟨n, t, s, g, l, _, hi, hg', hl, hread, fun later w hlater => ?_⟩
  have hn : n < 2 ^ 64 := (hdur.valid.seqBelow i n hi.isLive hi.seq).trans hdur.counter
  have hw := hlater.invariant (fun _ _ _ => beyond_exec) (hkeep _ hnext.beyond)
  exact hstate ▸ recoverable_of_beyond hw hn

end Runs

section Example
local instance : F32Arith := F32Arith.trivial

/-- A cache with a durable log and one tile. -/
def oneTile : ElasticKvCache :=
  grown ((ElasticKvCache.new 0 .oldestFirst).attachDurableEventLog Log.create) .hot planeTile

theorem durable_eviction_contract_slot :
    ∃ d, exec oneTile (.evict 0 Faults.none) = .ok d ∧ Recoverable d 0 planeTile .hot := by
  have hinsert : exec ((ElasticKvCache.new 0 .oldestFirst).attachDurableEventLog Log.create)
      (.insert planeTile) = .ok oneTile := rfl
  obtain ⟨d, hevict, hnext⟩ : ∃ d, exec oneTile (.evict 0 Faults.none) = .ok d ∧ d.nextSeq = 1 :=
    ⟨_, rfl, rfl⟩
  have hone : OneLog ((ElasticKvCache.new 0 .oldestFirst).attachDurableEventLog Log.create)
      (.insert planeTile) := by
    refine ⟨trivial, trivial, fun e he => ?_⟩
    obtain rfl := Except.ok.inj (hinsert.symm.trans he)
    decide
  have hop : OneLog oneTile (.evict 0 Faults.none) := by
    refine ⟨trivial, rfl, fun e he => ?_⟩
    obtain rfl := Except.ok.inj (hevict.symm.trans he)
    rw [hnext]
    decide
  have hrun : Reaches OneLog
      ((ElasticKvCache.new 0 .oldestFirst).attachDurableEventLog Log.create)
      ([] ++ [.insert planeTile]) oneTile := Reaches.snoc Reaches.nil hone hinsert
  have hbefore : Reaches Permitted
      { ElasticKvCache.new 0 .oldestFirst with eviction := .causal } []
      (ElasticKvCache.new 0 .oldestFirst) := Reaches.nil
  rcases durable_eviction_contract hbefore (Or.inl rfl) (by decide) hrun hop hevict
    (List.mem_singleton.mpr rfl) with ⟨g, hg, -⟩ | ⟨n, t, s, g, l, rs, hi, -, -, -, hrec⟩
  · cases hg
  · obtain rfl : 0 = n := Option.some_inj.mp hi.seq
    obtain rfl : planeTile = t := Option.some_inj.mp hi.tile
    obtain rfl : TileState.hot = s := Option.some_inj.mp hi.state
    exact ⟨d, hevict, hrec [] d Reaches.nil⟩

end Example

end SlhaV2.DurableEviction
