import SlhaV2.ExternalK
import SlhaV2.OutputContract
import SlhaV2.PageTransition
import SlhaV2.TileStore
import SlhaV2.VectorKernels

/-!
# The two backends of external K

The shim keeps the keys in the plain tile store or in the elastic cache. Both backends take the
same calls: tiles as the encoder returns them, resets, and scores of ranges. A plain score call
goes through the model interface, with a snapshot of the range; the cache scores its own slots and
does not look at the model. Values are exact, and a score is put in a float by `toF32`.
-/
namespace SlhaV2.StoreBackends
open MachineWord ByteBuffer TileCodec FloatingPoint PhysicalCache SlhaTile ElasticFfi ExternalK
open OutputContract TileStore LatentCodecs
open HandleRegistries (Process)
open Learned (LearnedModel)
open PageTransition (validateCodec)
open VectorKernels (Host)

variable {F : Type}

def latentOf (val : F32 → ℚ) (qCoarse : List F32) : Latent ℚ :=
  fun d => val (qCoarse.getD d F32.zero)

def wordsOf (qSign : List UInt64) : Words residualWords :=
  ⟨(List.range residualWords).map fun w => qSign.getD w 0, by
    rw [List.length_map, List.length_range]⟩

/-- The score of a tile by the kernel that the machine selects. -/
def kernelScore (host : Host) (val : F32 → ℚ) (toF32 : ℚ → F32) (tile : SciRustSlhaTile)
    (qCoarse : List F32) (qSign : List UInt64) : Option F32 :=
  (VectorKernels.computeScore host val tile (latentOf val qCoarse) (wordsOf qSign)).map toF32

/-- Both crates call the kernel, the one of the cache behind a check of the codec; a kernel that
leaves its arrays panics. -/
def exactKernel (host : Host) (val : F32 → ℚ) (toF32 : ℚ → F32) : Kernel where
  computeScore tile qCoarse qSign :=
    (kernelScore host val toF32 tile qCoarse qSign).elim (.error .panic) .ok
  tryScore tile qCoarse qSign :=
    match validateCodec (readFlags tile) with
    | .ok _ => kernelScore host val toF32 (tileFromBytes tile) qCoarse qSign
    | .error _ => none

/-- A tile that the encoder returns. -/
structure EncodedTile where
  tile : Tile
  valid : validateTile (tileFromBytes tile) = .ok ()
  notWarm : hasFlag (readFlags tile) flagWarm = false

/-- A call in either mode. The memory and the caller's buffer of a score call are those of the
plain mode; the cache scores into a buffer of its own first. -/
inductive Call where
  | writeTile (layerId : ℤ) (position : ℕ) (tile : EncodedTile)
  | resetStore
  | scoreTiles (model : ℕ) (layerId : ℤ) (startPosition count : ℕ)
      (hcount : 1 ≤ count ∧ count ≤ maxTiles) (q : Query) (scoresOut : Bool) (memory : Alloc)
      (b : Buffers)

/-- What a call answers; a failed score call has no scores. -/
inductive Answer where
  | wrote (ok : Bool)
  | reset
  | scored (scores : Option (List F32))
  | thrown
deriving DecidableEq

def answers {σ : Type} (step : σ → Call → σ × Answer) : σ → List Call → List Answer
  | _, [] => []
  | s, call :: calls => (step s call).2 :: answers step (step s call).1 calls

namespace Plain

def prepareStore (s : Store) (numLayers : ℤ) (runtimeCapacity : ℕ) (alloc : Alloc) :
    Bool × Store :=
  if runtimeCapacity = 0 ∨ numLayers ≤ 0 then (false, s)
  else
    let r := s.init numLayers.toNat runtimeCapacity tileBytes alloc
    (r.2 = .accepted true, r.1)

def writeTile (s : Store) (layerId : ℤ) (position : ℕ) (tile : Option Tile) : Bool × Store :=
  let r := s.write layerId position (tile.map fun t k => t.1.getD k 0)
  (r.2 = .accepted true, r.1)

def resetStore (s : Store) : Store := if s.nLayers > 0 then s.reset.1 else s

/-- The tile that is read at an index of a snapshot. -/
def tileAt (snapshot : List UInt8) (i : ℕ) : SciRustSlhaTile :=
  tileFromBytes ⟨(List.range tileBytes).map fun k => snapshot.getD (i * tileBytes + k) 0,
    by rw [List.length_map, List.length_range]⟩

/-- `none` if the storage of the snapshot cannot grow. -/
def scoreTiles (kernel : Kernel) (p : Process (ElasticKvCache F) LearnedModel) (s : Store)
    (model : ℕ) (layerId : ℤ) (startPosition count : ℕ) (q : Query) (scoresOut : Bool)
    (memory : Alloc) (b : Buffers) : Option (ℤ × Buffers) :=
  if count > 0 then
    match s.readRange layerId startPosition count memory with
    | .snapshot (some bytes) =>
        some (ffiStatus (slhaScoreTiles kernel p model (some (tileAt bytes)) count q.coarse q.sign
          scoresOut) b)
    | .snapshot none => some (slhaErrNotResident, b)
    | _ => none
  else
    some (ffiStatus (slhaScoreTiles kernel p model none count q.coarse q.sign scoresOut) b)

/-- The scores that the caller finds behind its pointer. -/
def scoresBehind (count : ℕ) (r : ℤ × Buffers) : Option (List F32) :=
  if r.1 = slhaOk then some ((List.range count).map r.2.floats) else none

def step (kernel : Kernel) (p : Process (ElasticKvCache F) LearnedModel) (s : Store) :
    Call → Store × Answer
  | .writeTile layerId position t =>
      let r := writeTile s layerId position (some t.tile)
      (r.2, .wrote r.1)
  | .resetStore => (resetStore s, .reset)
  | .scoreTiles model layerId startPosition count _ q scoresOut memory b =>
      match scoreTiles kernel p s model layerId startPosition count q scoresOut memory b with
      | none => (s, .thrown)
      | some r => (s, .scored (scoresBehind count r))

end Plain

namespace Elastic

/-- The allocations of the cache succeed. -/
def step [F32Arith] (kernel : Kernel) (s : Ccos F) : Call → Ccos F × Answer
  | .writeTile layerId position t =>
      let r := s.writeTile layerId position (some t.tile) true
      (r.2, .wrote r.1)
  | .resetStore => (s.resetStore, .reset)
  | .scoreTiles _ layerId startPosition count _ q scoresOut _ _ =>
      let r := Ccos.scoreTiles kernel.tryScore s layerId startPosition count q scoresOut true
      (r.2, .scored (if r.1.rc = slhaOk then some r.1.written else none))

end Elastic

end SlhaV2.StoreBackends
