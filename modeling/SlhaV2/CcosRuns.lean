import SlhaV2.CcosSteps

/-!
# Runs of the elastic cache

Any operations in any order, with any log attached and any host failures. A run
names existing slots where the program indexes without a check. No operation of
a run panics, so no byte count is ever subtracted below zero.
-/
namespace SlhaV2.CcosRuns
open MachineWord ByteBuffer FloatingPoint TileCodec HostFile SlhaTile EventLog CcosCache CcosSteps
open ElasticKvCache

/-- The bookkeeping of the cache agrees with its slots. -/
structure Consistent (c : ElasticKvCache) : Prop where
  counted : ∃ bytes : List ℕ,
    (List.range c.tiles.length).map c.slotLiveBytes = bytes.map .ok ∧ c.liveBytes = bytes.sum
  recycledOnce : c.free.Nodup
  recycled : ∀ i, i ∈ c.free ↔ c.state[i]? = some .cold
  flagged : ∀ i t, c.tiles[i]? = some t → Live c i →
    (c.state[i]? = some .warm ↔ t.isWarm = true)
  distinct : ∀ i j n, Live c i → Live c j → c.seq[i]? = some n → c.seq[j]? = some n → i = j
  below : ∀ i n, Live c i → c.seq[i]? = some n → n < c.nextSeq
  lengths : c.state.length = c.tiles.length ∧ c.seq.length = c.tiles.length ∧
    c.importance.length = c.tiles.length

/-- The footprints in slot order are what the code computes slot by slot. -/
theorem slotLiveBytes_range {c : ElasticKvCache} (h : Valid c) :
    (List.range c.tiles.length).map c.slotLiveBytes =
      (List.zipWith footprint c.state c.tiles).map .ok := by
  apply List.ext_getElem?
  intro i
  rw [List.getElem?_map, List.getElem?_map, List.getElem?_zipWith]
  by_cases hi : i < c.tiles.length
  · obtain ⟨s, hs⟩ := h.state_of_lt hi
    obtain ⟨t, ht⟩ := h.tile_of_state hs
    rw [List.getElem?_range hi, hs, ht]
    exact congrArg some (slotLiveBytes_eq hs ht)
  · rw [List.getElem?_eq_none (by simpa using hi),
      List.getElem?_eq_none (by rw [h.stateLength]; omega)]
    rfl

theorem Valid.consistent {c : ElasticKvCache} (h : Valid c) : Consistent c where
  counted := ⟨_, slotLiveBytes_range h, h.counter⟩
  recycledOnce := h.freeNodup
  recycled := h.freeCold
  flagged := fun i t ht hl => h.flag i t hl ht
  distinct := h.seqInjective
  below := h.seqBelow
  lengths := ⟨h.stateLength, h.seqLength, h.importanceLength⟩

theorem not_live_of_cold {c : ElasticKvCache} {i : ℕ} (h : c.state[i]? = some .cold) :
    ¬ Live c i := by
  simp [Live, h]

theorem not_live_of_length {c : ElasticKvCache} (h : Valid c) : ¬ Live c c.tiles.length := by
  have hnone : c.state[c.tiles.length]? = none := List.getElem?_eq_none (by rw [h.stateLength])
  simp [Live, hnone]

section Runs
variable [F32Arith]

inductive Op where
  | insert (tile : SciRustSlhaTile)
  | pageOut (slot : ℕ)
  | dropCorrection (slot : ℕ)
  | evict (slot : ℕ) (faults : Faults)
  | rehydrate (seq : UInt64)
  | enforceBudget (faults : ℕ → Faults)
  | observeScores (scores : List (ℕ × F32)) (temperature : F32)
  | attachEventLog (log : Log)
  | attachDurableEventLog (log : Log)

def exec (c : ElasticKvCache) : Op → Outcome ElasticKvCache
  | .insert tile => (c.insert tile).map Prod.snd
  | .pageOut slot => c.pageOut slot
  | .dropCorrection slot => (c.dropCorrection slot).map Prod.snd
  | .evict slot faults => (c.evict slot faults).map Prod.snd
  | .rehydrate seq => (c.rehydrate seq).map Prod.snd
  | .enforceBudget faults => (c.enforceBudget faults).map Prod.snd
  | .observeScores scores temperature => .ok (c.observeScores scores temperature)
  | .attachEventLog log => .ok (c.attachEventLog log)
  | .attachDurableEventLog log => .ok (c.attachDurableEventLog log)

/-- Paging and dropping name a slot of the arena. -/
def Permitted (c : ElasticKvCache) : Op → Prop
  | .pageOut slot | .dropCorrection slot => slot < c.tiles.length
  | _ => True

/-- The operations, each admitted where it is executed, lead from one cache to another. -/
inductive Reaches (admitted : ElasticKvCache → Op → Prop) (c : ElasticKvCache) :
    List Op → ElasticKvCache → Prop
  | nil : Reaches admitted c [] c
  | snoc {ops : List Op} {op : Op} {d e : ElasticKvCache} : Reaches admitted c ops d →
      admitted d op → exec d op = .ok e → Reaches admitted c (ops ++ [op]) e

/-- What every admitted operation keeps holds at the end of a run. -/
theorem Reaches.invariant {admitted : ElasticKvCache → Op → Prop} {P : ElasticKvCache → Prop}
    (step : ∀ c op d, P c → admitted c op → exec c op = .ok d → P d) {c d : ElasticKvCache}
    {ops : List Op} (h : Reaches admitted c ops d) (hc : P c) : P d := by
  induction h with
  | nil => exact hc
  | snoc _ hop heq ih => exact step _ _ _ ih hop heq

theorem exec_valid {c : ElasticKvCache} (h : Valid c) {op : Op} (hop : Permitted c op) :
    ∃ d, exec c op = .ok d ∧ Valid d := by
  cases op with
  | insert tile =>
      obtain ⟨i, d, heq, hvalid, -⟩ := h.insertWithState tile
      exact ⟨d, congrArg (Except.map Prod.snd) heq, hvalid⟩
  | pageOut slot =>
      obtain ⟨d, heq, hvalid, -⟩ := h.pageOut hop
      exact ⟨d, heq, hvalid⟩
  | dropCorrection slot =>
      obtain ⟨b, d, heq, hvalid, -⟩ := h.dropCorrection hop
      exact ⟨d, congrArg (Except.map Prod.snd) heq, hvalid⟩
  | evict slot faults =>
      obtain ⟨b, d, heq, hvalid, -⟩ := h.evict slot faults
      exact ⟨d, congrArg (Except.map Prod.snd) heq, hvalid⟩
  | rehydrate seq =>
      rcases rehydrate_cases h seq with ⟨_, d, heq, hsame, -⟩ | ⟨_, _, _, d, -, -, -, heq, hvalid⟩
      · exact ⟨d, congrArg (Except.map Prod.snd) heq, hsame.valid h⟩
      · exact ⟨d, congrArg (Except.map Prod.snd) heq, hvalid⟩
  | enforceBudget faults =>
      obtain ⟨b, d, heq, hvalid⟩ := h.enforceBudget faults
      exact ⟨d, congrArg (Except.map Prod.snd) heq, hvalid⟩
  | observeScores scores temperature =>
      exact ⟨_, rfl, h.observeScores scores temperature⟩
  | attachEventLog log => exact ⟨_, rfl, h.congr rfl rfl rfl rfl rfl rfl rfl⟩
  | attachDurableEventLog log => exact ⟨_, rfl, h.congr rfl rfl rfl rfl rfl rfl rfl⟩

theorem reaches_valid {c d : ElasticKvCache} {ops : List Op} (h : Reaches Permitted c ops d)
    (hc : Valid c) : Valid d := by
  refine h.invariant (fun c op d hvalid hop heq => ?_) hc
  obtain ⟨e, he, hnext⟩ := exec_valid hvalid hop
  obtain rfl : e = d := Except.ok.inj (he.symm.trans heq)
  exact hnext

/-- After any operations the bookkeeping is consistent, no further operation
panics, and an insertion takes a COLD slot, or a fresh one when there is none. -/
theorem reachable_contract (budgetBytes : ℕ) (policy : PageOutPolicy) (eviction : EvictionPolicy)
    {ops : List Op} {c : ElasticKvCache}
    (h : Reaches Permitted
      { ElasticKvCache.new budgetBytes policy with eviction := eviction } ops c) :
    Consistent c ∧ (∀ op, Permitted c op → Succeeded (exec c op)) ∧
      ∀ tile, ∃ slot d, c.insert tile = .ok (slot, d) ∧ ¬ Live c slot ∧
        ((∃ i : ℕ, c.state[i]? = some .cold) → c.state[slot]? = some .cold) ∧
        ((∀ i : ℕ, c.state[i]? ≠ some .cold) → slot = c.tiles.length) := by
  have hvalid := reaches_valid h (Valid.new budgetBytes policy eviction)
  refine ⟨Valid.consistent hvalid, fun op hop => ?_, fun tile => ?_⟩
  · obtain ⟨d, heq, -⟩ := exec_valid hvalid hop
    exact ⟨d, heq⟩
  · obtain ⟨slot, d, heq, -, hslot⟩ := hvalid.insertWithState tile
    refine ⟨slot, d, heq, ?_⟩
    rcases hslot with ⟨free, hfree, -⟩ | ⟨hfree, hlen, -⟩
    · have hcold : c.state[slot]? = some .cold :=
        (hvalid.freeCold slot).mp (by rw [hfree]; simp)
      exact ⟨not_live_of_cold hcold, fun _ => hcold, fun hnone => (hnone slot hcold).elim⟩
    · refine ⟨hlen ▸ not_live_of_length hvalid, fun hex => ?_, fun _ => hlen⟩
      obtain ⟨i, hi⟩ := hex
      have hmem := (hvalid.freeCold i).mpr hi
      rw [hfree] at hmem
      exact absurd hmem List.not_mem_nil

end Runs

section Example
local instance : F32Arith := F32Arith.trivial

/-- A tile whose correction plane can be dropped. -/
def planeTile : SciRustSlhaTile := { tileFromBytes (zeros tileBytes) with flags := flagTq3 }

theorem reachable_contract_dropped :
    ∃ c, Reaches Permitted (ElasticKvCache.new 0 .oldestFirst)
        [.insert planeTile, .dropCorrection 0, .evict 0 Faults.none] c ∧ Consistent c := by
  have hinsert : Reaches Permitted (ElasticKvCache.new 0 .oldestFirst) ([] ++ [.insert planeTile]) _ :=
    Reaches.snoc Reaches.nil trivial rfl
  have hdrop : Reaches Permitted (ElasticKvCache.new 0 .oldestFirst)
      ([.insert planeTile] ++ [.dropCorrection 0]) _ :=
    Reaches.snoc hinsert Nat.one_pos rfl
  have hevict : Reaches Permitted (ElasticKvCache.new 0 .oldestFirst)
      ([.insert planeTile, .dropCorrection 0] ++ [.evict 0 Faults.none]) _ :=
    Reaches.snoc hdrop trivial rfl
  exact ⟨_, hevict, (reachable_contract 0 .oldestFirst .causal hevict).1⟩

end Example

end SlhaV2.CcosRuns
