import SlhaV2.PassThrough
import SlhaV2.TileStoreRuns

/-!
# The state of the llama.cpp shim

What the shim keeps between its calls: the modes, the layer states, the tile store and the
tables with one entry per layer. The tables have a fixed number of entries, the layers
come from the model; an access outside a table is undefined, and is `none` here. A
callback of one thread is one step: threads meet in locked sections and single atomic
accesses only.
-/
namespace SlhaV2.ShimState
open KTransform PassThrough TileStore

def slhaMaxLayers : ℕ := 128

def slhaTileSize : ℕ := 128

/-- One entry for each of the first layers. -/
abbrev Table := Fin slhaMaxLayers → ℕ

namespace Table

def zero : Table := fun _ => 0

/-- Accesses without a check of the index. -/
def load (t : Table) (i : ℕ) : Option ℕ := if h : i < slhaMaxLayers then some (t ⟨i, h⟩) else none

def storeMax (t : Table) (i v : ℕ) : Option Table :=
  if h : i < slhaMaxLayers then some (Function.update t ⟨i, h⟩ (max (t ⟨i, h⟩) v)) else none

/-- Accesses that check the index first. -/
def get (t : Table) (i : ℕ) : ℕ := if h : i < slhaMaxLayers then t ⟨i, h⟩ else 0

def inc (t : Table) (i : ℕ) : Table :=
  if h : i < slhaMaxLayers then Function.update t ⟨i, h⟩ (t ⟨i, h⟩ + 1) else t

end Table

structure Layer where
  nEmbdGqa : ℕ
  kvMode : KvMode
  scoreMode : ScoreMode
  hasModel : Bool
deriving DecidableEq

structure Shim where
  observed : ℕ
  initialized : Bool
  kvMode : KvMode
  scoreMode : ScoreMode
  numLayers : ℕ
  layers : List Layer
  store : Store
  tilesWritten : Table
  success : Table
  /-- A record: the layers of the vectors replaced since the counters were reset. -/
  replaced : List ℕ

def Shim.fresh : Shim where
  observed := 0
  initialized := false
  kvMode := .off
  scoreMode := .off
  numLayers := 0
  layers := []
  store := .empty
  tilesWritten := .zero
  success := .zero
  replaced := []

/-- The modes that need the tile store. -/
def NeedsStore (kvMode : KvMode) (scoreMode : ScoreMode) : Prop :=
  kvMode = .tilestore ∨ scoreMode ≠ .off

instance (kvMode : KvMode) (scoreMode : ScoreMode) : Decidable (NeedsStore kvMode scoreMode) :=
  inferInstanceAs (Decidable (_ ∨ _))

def newLayers (n : ℕ) (kvMode : KvMode) (scoreMode : ScoreMode) : List Layer :=
  List.replicate n ⟨0, kvMode, scoreMode, false⟩

structure InitArgs where
  /-- Whether `weights_dir` names a directory. -/
  weightsDir : Bool
  mode : KvMode
  /-- The score mode in the environment. -/
  scoreMode : ScoreMode
  modelNumLayers : ℕ
  alloc : Alloc

def int32Max : ℕ := 2 ^ 31 - 1

namespace Shim
variable (s : Shim)

def resetCounters : Shim := { s with success := .zero, replaced := [] }

def resetTables : Shim :=
  let s := { s with tilesWritten := .zero }
  if s.scoreMode = .replace then s.resetCounters else s

/-- The tile store for `n` layers and no positions yet. -/
def initStore (n : ℕ) (alloc : Alloc) : Bool × Shim :=
  match s.store.init n 0 slhaTileSize alloc with
  | (store, .accepted true) => (true, { s with store := store })
  | (store, _) => (false, { s with store := store })

def reinit (n : ℕ) (alloc : Alloc) : ℤ × Shim :=
  if s.numLayers ≠ n then
    let s := { s with numLayers := n, layers := newLayers n s.kvMode s.scoreMode }
    if NeedsStore s.kvMode s.scoreMode then
      match s.initStore n alloc with
      | (true, s) => (0, s.resetTables)
      | (false, s) => (-1, s)
    else (0, s.resetTables)
  else if s.store.nLayers > 0 then (0, { s with store := s.store.reset.1 }.resetTables)
  else (0, s.resetTables)

/-- The layers of a first start, the tables and the store for them. -/
def startLayers (x : InitArgs) : ℤ × Shim :=
  let s := { s with
    numLayers := x.modelNumLayers
    layers := newLayers x.modelNumLayers x.mode x.scoreMode }.resetTables
  if NeedsStore x.mode x.scoreMode then
    match s.initStore x.modelNumLayers x.alloc with
    | (true, s) => (0, { s with initialized := true })
    | (false, s) => (-1, s)
  else (0, { s with initialized := true })

def firstInit (x : InitArgs) : ℤ × Shim :=
  let s := { s with kvMode := x.mode, scoreMode := x.scoreMode }
  match x.mode with
  | .off => (0, if x.scoreMode = .off then { s with initialized := true } else s)
  | .passthrough => (0, { s with initialized := true })
  | .roundtrip | .collect | .tilestore => if !x.weightsDir then (-1, s) else s.startLayers x

def slhaGlobalInit (x : InitArgs) : ℤ × Shim :=
  if x.modelNumLayers = 0 ∨ x.modelNumLayers > int32Max then (-1, s)
  else
    -- the count is on record before anything that can fail
    let s := { s with observed := x.modelNumLayers }
    if s.initialized then s.reinit x.modelNumLayers x.alloc else s.firstInit x

/-- The replace summary resets the counters that it has printed. -/
def slhaPrintReplaceSummary : Shim := s.resetCounters

def slhaGlobalShutdown : Shim :=
  let s := if s.scoreMode = .replace then s.slhaPrintReplaceSummary else s
  { s with layers := [], initialized := false, store := s.store.reset.1 }

/-- A new sequence; `ccos` is whether the CCOS store is in use instead of the tile store. -/
def slhaKClearAll (ccos : Bool) : Shim :=
  let s := { s with tilesWritten := .zero }
  if !ccos && s.store.nLayers > 0 then { s with store := s.store.reset.1 } else s

/-- The layer state for a graph; the observed number of layers grows with the ids asked for. -/
def slhaGetLayerState (il : ℕ) : Shim :=
  if il < s.layers.length then { s with observed := max s.observed (il + 1) } else s

def slhaInterceptKCacheAllocation (nTokens : ℕ) (alloc : Alloc) : Shim :=
  if nTokens > 0 ∧ NeedsStore s.kvMode s.scoreMode then
    { s with
      store := (s.store.slhaResizeEmptyTileStore s.layers.length nTokens slhaTileSize alloc).1 }
  else s

/-- Sizing the store for external K; with CCOS, `created` is whether its cache could be made. -/
def slhaExternalKPrepareStore (capacity : ℕ) (ccos created : Bool) (alloc : Alloc) : Shim :=
  if capacity = 0 ∨ s.layers.length = 0 then s
  else if !ccos then
    { s with store := (s.store.init s.layers.length capacity slhaTileSize alloc).1 }
  else if created then
    { s with store := ⟨s.layers.length, capacity, slhaTileSize, [], [], 0⟩ }
  else s

end Shim

/-- Loading the model of a layer; `loads` is whether the file has one of the given dimension. -/
def slhaLoadLayerModel (loads : ℕ → Bool) (layer : Layer) : Layer :=
  if layer.hasModel then layer
  else if loads layer.nEmbdGqa then { layer with hasModel := true }
  else { layer with kvMode := .off }

/-- The first call sets the dimension. -/
def withDim (d : ℕ) (layer : Layer) : Layer :=
  if layer.nEmbdGqa = 0 then { layer with nEmbdGqa := d } else layer

/-- A token of a thread: its position, and its tile unless encoding fails. -/
structure Token where
  pos : ℤ
  tile : Option (ℕ → UInt8)

/-- What one thread of the K transform is given. -/
structure KThread where
  /-- Whether the thread has tokens at all. -/
  busy : Bool
  nEmbdGqa : ℕ
  isF32 : Bool
  /-- Whether the indices are there, as 64-bit integers and enough of them. -/
  hasIdxs : Bool
  loads : ℕ → Bool
  tokens : List Token
  /-- With CCOS in use, whether its store takes the tile of a position. -/
  ccos : Option (ℕ → Bool)

/-- What one thread of the score operation is given. -/
structure ScoreVector where
  prepared : Bool
  /-- Whether the tiles of all positions can be read. -/
  readable : Bool
  /-- Whether this many positions are scored, with finite results that the scale and the
  oracle keep. -/
  scored : ℕ → Bool

structure ScoreThread where
  /-- Whether the tensors pass the checks for a layer of this dimension. -/
  accepted : ℕ → Bool
  /-- What `slha_layer_selected` says of the layer. -/
  selected : Bool
  nStream : ℕ
  nKv : ℕ
  loads : ℕ → Bool
  scaleFit : Bool
  vectors : List ScoreVector

/-- Whether the store takes the tile, and the store afterwards. -/
def slhaExternalKWriteTile (ccos : Option (ℕ → Bool)) (il pos : ℕ) (bytes : ℕ → UInt8)
    (store : Store) : Bool × Store :=
  match ccos with
  | some takes => (takes pos, store)
  | none =>
    match store.write il pos (some bytes) with
    | (store, .accepted true) => (true, store)
    | (store, _) => (false, store)

/-- One token of a thread that stores tiles; the number is the largest position plus one. -/
def storeToken (ccos : Option (ℕ → Bool)) (il : ℕ) (acc : Store × ℕ) (t : Token) : Store × ℕ :=
  if t.pos < 0 then acc
  else
    match t.tile with
    | none => acc
    | some bytes =>
      match slhaExternalKWriteTile ccos il t.pos.toNat bytes acc.1 with
      | (true, store) => (store, max acc.2 (t.pos.toNat + 1))
      | (false, store) => (store, acc.2)

namespace Shim
variable (s : Shim)

def setLayer (il : ℕ) (layer : Layer) : Shim := { s with layers := s.layers.set il layer }

/-- The tokens of a thread whose layer has its model, then the table. -/
def storeTiles (il : ℕ) (x : KThread) : Option Shim :=
  let stored := x.tokens.foldl (storeToken x.ccos il) (s.store, 0)
  let s := { s with store := stored.1 }
  if stored.2 > 0 then
    (s.tilesWritten.storeMax il stored.2).map fun t => { s with tilesWritten := t }
  else some s

/-- One thread of `slha_k_transform_with_idxs`, as far as the state of the shim goes. -/
def kThread (il : ℕ) (x : KThread) : Option Shim :=
  match s.layers[il]? with
  | none => some s
  | some layer =>
    if layer.kvMode = .off ∨ !x.busy then some s
    else
      match layer.kvMode with
      | .off | .passthrough => some s
      | .collect => some (s.setLayer il (withDim x.nEmbdGqa layer))
      | .roundtrip =>
        some (s.setLayer il (slhaLoadLayerModel x.loads (withDim x.nEmbdGqa layer)))
      | .tilestore =>
        if !x.isF32 ∨ !x.hasIdxs then some s
        else
          let layer := slhaLoadLayerModel x.loads (withDim x.nEmbdGqa layer)
          let s := s.setLayer il layer
          if layer.kvMode = .off ∨ !layer.hasModel then some s else s.storeTiles il x

/-- A vector of the replace mode; `nWritten` is the entry of the layer. -/
def replaceVector (il nKv nWritten : ℕ) (s : Shim) (v : ScoreVector) : Shim :=
  if !v.prepared then s
  else if min nWritten nKv = 0 then s
  else if !v.scored (min nWritten nKv) then s
  else { s with success := s.success.inc il, replaced := il :: s.replaced }

/-- A vector of the shadow mode reads the entry of its layer, for the fit and for the audit. -/
def shadowVector (il nKv : ℕ) (scaleFit : Bool) (v : ScoreVector) : Option Unit := do
  if v.prepared && v.readable && v.scored nKv then
    if scaleFit then
      let _ ← s.tilesWritten.load il
    let _ ← s.tilesWritten.load il

/-- One thread of `slha_shadow_score`. -/
def scoreThread (il : ℕ) (x : ScoreThread) : Option Shim :=
  match s.layers[il]? with
  | none => some s
  | some layer =>
    if layer.nEmbdGqa = 0 ∨ !x.accepted layer.nEmbdGqa then some s
    else
      match layer.scoreMode with
      | .off => some s
      | .shadow =>
        let layer := slhaLoadLayerModel x.loads layer
        let s := s.setLayer il layer
        if !layer.hasModel then some s
        else (x.vectors.forM (s.shadowVector il x.nKv x.scaleFit)).map fun _ => s
      | .replace =>
        if !x.selected ∨ x.nStream ≠ 1 then some s
        else
          let layer := slhaLoadLayerModel x.loads layer
          let s := s.setLayer il layer
          if !layer.hasModel then some s
          else
            (s.tilesWritten.load il).map fun nWritten =>
              x.vectors.foldl (replaceVector il x.nKv nWritten) s

end Shim

inductive Event where
  | init (x : InitArgs)
  | shutdown
  | clearAll (ccos : Bool)
  | printReplaceSummary
  | getLayerState (il : ℕ)
  | allocateK (nTokens : ℕ) (alloc : Alloc)
  | prepareStore (capacity : ℕ) (ccos created : Bool) (alloc : Alloc)
  | kThread (il : ℕ) (x : KThread)
  | scoreThread (il : ℕ) (x : ScoreThread)

/-- The next state, unless a table is accessed outside. -/
def step (s : Shim) : Event → Option Shim
  | .init x => some (s.slhaGlobalInit x).2
  | .shutdown => some s.slhaGlobalShutdown
  | .clearAll ccos => some (s.slhaKClearAll ccos)
  | .printReplaceSummary => some s.slhaPrintReplaceSummary
  | .getLayerState il => some (s.slhaGetLayerState il)
  | .allocateK nTokens alloc => some (s.slhaInterceptKCacheAllocation nTokens alloc)
  | .prepareStore capacity ccos created alloc =>
    some (s.slhaExternalKPrepareStore capacity ccos created alloc)
  | .kThread il x => s.kThread il x
  | .scoreThread il x => s.scoreThread il x

def run (s : Shim) : List Event → Option Shim
  | [] => some s
  | e :: events => (step s e).bind fun s => run s events

end SlhaV2.ShimState
