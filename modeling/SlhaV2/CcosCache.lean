import SlhaV2.EventLog
import SlhaV2.MachineWord

/-!
# The elastic cache over one arena of tiles

Four vectors in parallel, a stack of recycled slots, and a running byte count.
A slot is HOT, WARM without its residual, or COLD. Indexing outside a vector
and subtracting below zero panic; counters do not wrap. What the host does to
the log is an argument of each call which may append to it.
-/
namespace SlhaV2.CcosCache
open MachineWord ByteBuffer FloatingPoint TileCodec HostFile SlhaTile EventLog

def hotBytes : ℕ := 128
def warmBytes : ℕ := hotBytes - residualWords * 8

inductive TileState where
  | hot | warm | cold
deriving DecidableEq, Repr

/-- Order in which HOT tiles are paged out. -/
inductive PageOutPolicy where
  | lowestImpactFirst | oldestFirst
deriving DecidableEq, Repr

/-- Order in which live tiles are evicted once paging is not enough. -/
inductive EvictionPolicy where
  | causal
  | importance (sinkWindow : ℕ)
deriving DecidableEq, Repr

inductive EvictionDurability where
  | bestEffort | requireDurable
deriving DecidableEq, Repr

structure ElasticKvCache where
  tiles : List SciRustSlhaTile
  state : List TileState
  /-- Insertion order. -/
  seq : List ℕ
  importance : List F32
  /-- Recycled slots, the last one pushed first. -/
  free : List ℕ
  budgetBytes : ℕ
  liveBytesCounter : ℕ
  policy : PageOutPolicy
  eviction : EvictionPolicy
  nextSeq : ℕ
  eventLog : Option Log
  evictionDurability : EvictionDurability
  logErrors : ℕ
  blockedEvictions : ℕ
deriving DecidableEq

/-- Vector indexing. -/
def getAt {α : Type} (xs : List α) (i : ℕ) : Outcome α :=
  match xs[i]? with
  | some a => .ok a
  | none => .error .panic

/-- Assignment to a vector element. -/
def setAt {α : Type} (xs : List α) (i : ℕ) (a : α) : Outcome (List α) :=
  if i < xs.length then .ok (xs.set i a) else .error .panic

namespace ElasticKvCache

def new (budgetBytes : ℕ) (policy : PageOutPolicy) : ElasticKvCache where
  tiles := []
  state := []
  seq := []
  importance := []
  free := []
  budgetBytes := budgetBytes
  liveBytesCounter := 0
  policy := policy
  eviction := .causal
  nextSeq := 0
  eventLog := none
  evictionDurability := .bestEffort
  logErrors := 0
  blockedEvictions := 0

def withEviction (budgetBytes : ℕ) (eviction : EvictionPolicy) : ElasticKvCache :=
  { new budgetBytes .lowestImpactFirst with eviction := eviction }

def attachEventLog (c : ElasticKvCache) (log : Log) : ElasticKvCache :=
  { c with eventLog := some log, evictionDurability := .bestEffort }

def attachDurableEventLog (c : ElasticKvCache) (log : Log) : ElasticKvCache :=
  { c with eventLog := some log, evictionDurability := .requireDurable }

/-- Bytes of one slot: its form, less the correction plane paged out. -/
def slotLiveBytes (c : ElasticKvCache) (slot : ℕ) : Outcome ℕ := do
  let base ← match ← getAt c.state slot with
    | .hot => pure hotBytes
    | .warm => pure warmBytes
    | .cold => return 0
  let t ← getAt c.tiles slot
  wordSub base (if t.isTq3Nocorr then t.separableCorrBytes else 0)

def liveBytes (c : ElasticKvCache) : ℕ := c.liveBytesCounter

/-- A recycled slot is overwritten in all four vectors; otherwise all four grow. -/
def insertWithState (c : ElasticKvCache) (tile : SciRustSlhaTile) (state : TileState) :
    Outcome (ℕ × ElasticKvCache) := do
  let (slot, c) ← match c.free with
    | s :: free => do
        let tiles ← setAt c.tiles s tile
        let states ← setAt c.state s state
        let seq ← setAt c.seq s c.nextSeq
        let importance ← setAt c.importance s F32.zero
        pure (s, { c with
          tiles := tiles
          state := states
          seq := seq
          importance := importance
          free := free })
    | [] =>
        pure (c.tiles.length, { c with
          tiles := c.tiles ++ [tile]
          state := c.state ++ [state]
          seq := c.seq ++ [c.nextSeq]
          importance := c.importance ++ [F32.zero] })
  let c := { c with nextSeq := c.nextSeq + 1 }
  let bytes ← c.slotLiveBytes slot
  return (slot, { c with liveBytesCounter := c.liveBytesCounter + bytes })

/-- The logical state is derived from the encoded flag. -/
def insert (c : ElasticKvCache) (tile : SciRustSlhaTile) : Outcome (ℕ × ElasticKvCache) :=
  c.insertWithState tile (if tile.isWarm then .warm else .hot)

/-- The tile without its residual. -/
def maskResidual (t : SciRustSlhaTile) : SciRustSlhaTile :=
  { t with
    residualBitmap := ⟨List.replicate residualWords 0, List.length_replicate⟩
    dynamicLambda := F32.zero
    flags := t.flags ||| flagWarm }

/-- HOT to WARM; nothing for a slot in another state. -/
def pageOut (c : ElasticKvCache) (slot : ℕ) : Outcome ElasticKvCache := do
  if (← getAt c.state slot) = .hot then
    let before ← c.slotLiveBytes slot
    let counter ← wordSub c.liveBytesCounter before
    let t ← getAt c.tiles slot
    let c := { c with
      liveBytesCounter := counter
      tiles := c.tiles.set slot (maskResidual t)
      state := c.state.set slot .warm }
    let after ← c.slotLiveBytes slot
    return { c with liveBytesCounter := c.liveBytesCounter + after }
  else return c

/-- The latent with its last `n` bytes zeroed. -/
def clearTail (latent : Bytes latentBytes) (n : ℕ) : Bytes latentBytes :=
  ⟨latent.1.take (latentBytes - n) ++ List.replicate (min n latentBytes) 0, by
    rw [List.length_append, List.length_take, List.length_replicate, latent.2]
    omega⟩

/-- Page the separable correction plane out; true when bytes were reclaimed. -/
def dropCorrection (c : ElasticKvCache) (slot : ℕ) : Outcome (Bool × ElasticKvCache) := do
  let t ← getAt c.tiles slot
  let n := t.separableCorrBytes
  if (← getAt c.state slot) = .cold ∨ n = 0 ∨ t.isTq3Nocorr then return (false, c)
  let t := { t with
    latentKv := clearTail t.latentKv n
    flags := t.flags ||| flagTq3Nocorr }
  let counter ← wordSub c.liveBytesCounter n
  return (true, { c with tiles := c.tiles.set slot t, liveBytesCounter := counter })

/-- The append the durability asks for. -/
def writeRecord (durability : EvictionDurability) (log : Log) (r : LogRecord) (faults : Faults) :
    IoResult Unit × Log :=
  match durability with
  | .bestEffort => log.append r faults
  | .requireDurable => log.appendDurable r faults

/-- The persistence a COLD transition needs: whether it may go on, and the cache after it. -/
def persist (c : ElasticKvCache) (slot : ℕ) (faults : Faults) :
    Outcome (Bool × ElasticKvCache) := do
  match c.eventLog with
  | some log =>
      let r : LogRecord := ⟨UInt64.ofNat (← getAt c.seq slot), UInt32.ofNat slot,
        ← getAt c.tiles slot⟩
      let (persisted, log) := writeRecord c.evictionDurability log r faults
      let c := { c with eventLog := some log }
      match persisted with
      | .ok _ => return (true, c)
      | .error _ =>
          let c := { c with logErrors := c.logErrors + 1 }
          if c.evictionDurability = .requireDurable then
            return (false, { c with blockedEvictions := c.blockedEvictions + 1 })
          else return (true, c)
  | none =>
      if c.evictionDurability = .requireDurable then
        return (false, { c with blockedEvictions := c.blockedEvictions + 1 })
      else return (true, c)

/-- Evict a live slot; true when it became COLD. -/
def evict (c : ElasticKvCache) (slot : ℕ) (faults : Faults) :
    Outcome (Bool × ElasticKvCache) := do
  if c.state[slot]? ≠ some .hot ∧ c.state[slot]? ≠ some .warm then return (false, c)
  let (persisted, c) ← c.persist slot faults
  if persisted then
    let bytes ← c.slotLiveBytes slot
    let counter ← wordSub c.liveBytesCounter bytes
    return (true, { c with
      liveBytesCounter := counter
      state := c.state.set slot .cold
      free := slot :: c.free })
  else return (false, c)

/-- Admit a logged tile again, as a fresh insertion. -/
def rehydrate (c : ElasticKvCache) (seq : UInt64) :
    Outcome (IoResult (Option ℕ) × ElasticKvCache) :=
  match c.eventLog with
  | none => pure (.ok none, c)
  | some log =>
      let (found, log) := log.fetchBySeq seq
      let c := { c with eventLog := some log }
      match found with
      | .error e => pure (.error e, c)
      | .ok none => pure (.ok none, c)
      | .ok (some r) => do
          let (slot, c) ← c.insertWithState r.tile (if r.tile.isWarm then .warm else .hot)
          return (.ok (some slot), c)

/-- Slots in a state. -/
def slotsIn (c : ElasticKvCache) (state : TileState) : List ℕ :=
  (List.range c.tiles.length).filter fun s => c.state[s]? = some state

def liveSlots (c : ElasticKvCache) : List ℕ :=
  (List.range c.tiles.length).filter fun s => c.state[s]? ≠ some .cold

/-- Sort keys of a slot; a slot to be sorted is inside every vector. -/
def sigmaKey (c : ElasticKvCache) (s : ℕ) : ℤ :=
  ((c.tiles[s]?).map fun t => t.residualSigma.orderKey).getD 0

def seqKey (c : ElasticKvCache) (s : ℕ) : ℕ := (c.seq[s]?).getD 0

def importanceKey (c : ElasticKvCache) (s : ℕ) : ℤ :=
  ((c.importance[s]?).map F32.orderKey).getD 0

def isSink (c : ElasticKvCache) (sw : UInt32) (s : ℕ) : Bool :=
  ((c.tiles[s]?).map fun t => decide (t.position < sw)).getD false

/-- Slots in a state, ordered by the paging policy; the sort is stable. -/
def slotsInPagingOrder (c : ElasticKvCache) (state : TileState) : List ℕ :=
  match c.policy with
  | .lowestImpactFirst => (c.slotsIn state).mergeSort fun a b =>
      (compare (c.sigmaKey a) (c.sigmaKey b)).isLE
  | .oldestFirst => (c.slotsIn state).mergeSort fun a b =>
      (compare (c.seqKey a) (c.seqKey b)).isLE

/-- Sinks last, then by importance, then by age. -/
def evictionOrder (c : ElasticKvCache) : List ℕ :=
  match c.eviction with
  | .causal => c.liveSlots.mergeSort fun a b => (compare (c.seqKey a) (c.seqKey b)).isLE
  | .importance sinkWindow =>
      let sw := UInt32.ofNat sinkWindow
      c.liveSlots.mergeSort fun a b =>
        ((compare (c.isSink sw a) (c.isSink sw b)).then
          ((compare (c.importanceKey a) (c.importanceKey b)).then
            (compare (c.seqKey a) (c.seqKey b)))).isLE

/-- Degrade slot after slot; true as soon as the budget is met before one of them. -/
def sweep (degrade : ElasticKvCache → ℕ → Outcome ElasticKvCache) :
    List ℕ → ElasticKvCache → Outcome (Bool × ElasticKvCache)
  | [], c => pure (false, c)
  | s :: rest, c =>
      if c.liveBytesCounter ≤ c.budgetBytes then pure (true, c) else do
        let c ← degrade c s
        sweep degrade rest c

def dropStep (c : ElasticKvCache) (s : ℕ) : Outcome ElasticKvCache := do
  let (_, c) ← c.dropCorrection s
  return c

def evictStep (faults : ℕ → Faults) (c : ElasticKvCache) (s : ℕ) : Outcome ElasticKvCache := do
  let (_, c) ← c.evict s (faults s)
  return c

def dropPhase (c : ElasticKvCache) (state : TileState) : Outcome (Bool × ElasticKvCache) :=
  sweep dropStep (c.slotsInPagingOrder state) c

def pagePhase (c : ElasticKvCache) : Outcome (Bool × ElasticKvCache) :=
  sweep pageOut (c.slotsInPagingOrder .hot) c

def evictPhase (c : ElasticKvCache) (faults : ℕ → Faults) : Outcome (Bool × ElasticKvCache) :=
  sweep (evictStep faults) c.evictionOrder c

/-- Bring the footprint under the budget in increasing harshness. -/
def enforceBudget (c : ElasticKvCache) (faults : ℕ → Faults) :
    Outcome (Bool × ElasticKvCache) := do
  if c.liveBytesCounter ≤ c.budgetBytes then return (true, c)
  let (met, c) ← c.dropPhase .hot
  if met then return (true, c)
  let (met, c) ← c.pagePhase
  if met then return (true, c)
  let (met, c) ← c.dropPhase .warm
  if met then return (true, c)
  let (met, c) ← c.evictPhase faults
  if met then return (true, c)
  return (c.liveBytesCounter ≤ c.budgetBytes, c)

section Importance
variable [F32Arith]

/-- One, the bit pattern. -/
def f32One : F32 := ⟨0x3F800000⟩

/-- The softmax weights of the live scores, not yet normalized. -/
def softmaxWeights (live : List (ℕ × F32)) (temperature : F32) : List F32 :=
  let m := live.foldl (fun m p => F32Arith.max m p.2) F32.negInfinity
  live.map fun p => F32Arith.exp (F32Arith.div (F32Arith.sub p.2 m) temperature)

/-- Add the attention mass of the scores to the slots they name. -/
def observeScores (c : ElasticKvCache) (scores : List (ℕ × F32)) (temperature : F32) :
    ElasticKvCache :=
  if scores.isEmpty || !temperature.isFinite || F32Arith.le temperature F32.zero then c else
  let live := scores.filter fun p =>
    decide (p.1 < c.state.length) && decide (c.state[p.1]? ≠ some .cold)
  if live.isEmpty || live.any (fun p => !p.2.isFinite) then c else
  let weights := softmaxWeights live temperature
  let sum := weights.foldl F32Arith.add F32.zero
  if !sum.isFinite || F32Arith.le sum F32.zero then c else
  let inv := F32Arith.div f32One sum
  let importance := (live.zip weights).foldl
    (fun acc p => acc.modify p.1.1 fun x => F32Arith.add x (F32Arith.mul p.2 inv)) c.importance
  { c with importance := importance }

end Importance

end ElasticKvCache

end SlhaV2.CcosCache
