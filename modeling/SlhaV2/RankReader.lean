import SlhaV2.ByteReader
import SlhaV2.CalibrationFiles

/-!
# The reader of a ranking dataset

A layer file holds a header, the number of key rows of each chunk, the columns
of the recorded rows, and then the queries, the two score lists and the key
block of each chunk. The reader checks every count, every chunk number and
every scalar.
-/
namespace SlhaV2.RankReader
open MachineWord ByteBuffer CheckedSteps ByteReader FloatingPoint Calibration CalibrationFiles

def magic : ℕ := 0x534C4841
def version : ℕ := 2
def header : ℕ := 40
def maxDatasetFileBytes : ℕ := 512 * 1024 * 1024

structure LayerRows where
  layer : ℕ
  qDim : ℕ
  keyDim : ℕ
  rows : ℕ
  heads : List Int32
  gqaGroups : List Int32
  tokens : List Int64
  nVisible : List ℕ
  chunks : List ℕ
  q : List F32
  baseline : List F32
  controlScores : List F32
  keys : List (List F32)
  starts : List ℕ
deriving DecidableEq

structure RowRef where
  head : Int32
  gqaGroup : Int32
  token : Int64
  chunk : ℕ
  q : List F32
  baseline : List F32
  controlScores : List F32
  keys : List F32
  nVisible : ℕ
  keyDim : ℕ
deriving DecidableEq

/-- The recorded row with this index. -/
def LayerRows.row (L : LayerRows) (i : ℕ) : Outcome RowRef :=
  if i ≥ L.rows then .error (.err s!"rank dataset: row index {i} outside 0..{L.rows}")
  else do
    let chunk ← index L.chunks i
    let nVisible ← index L.nVisible i
    let scoreStart ← index L.starts i
    let scoreEnd ← index L.starts (i + 1)
    let keyEnd ← orErr (checkedMul nVisible L.keyDim) "rank dataset: key slice size overflow"
    let qStart ← orErr (checkedMul i L.qDim) "rank dataset: query slice offset overflow"
    let qEnd ← orErr (checkedAdd qStart L.qDim) "rank dataset: query slice end overflow"
    let head ← index L.heads i
    let gqaGroup ← index L.gqaGroups i
    let token ← index L.tokens i
    let q ← indexBetween L.q qStart qEnd
    let baseline ← indexBetween L.baseline scoreStart scoreEnd
    let controlScores ← indexBetween L.controlScores scoreStart scoreEnd
    let block ← index L.keys chunk
    let keys ← indexBetween block 0 keyEnd
    pure ⟨head, gqaGroup, token, chunk, q, baseline, controlScores, keys, nVisible, L.keyDim⟩

def take (n : ℕ) (what : String) : Reader (List UInt8) :=
  takeBytes n s!"rank dataset: {what} offset overflow" fun c =>
    s!"rank dataset: truncated {what} at byte {c.offset} (need {n} bytes, file has " ++
      s!"{c.bytes.length})"

def u64 (what : String) : Reader ℕ := do
  let b ← take 8 what
  pure (leNat b)

def i32At (b : List UInt8) : Int32 := Int32.ofBitVec (BitVec.ofNat 32 (leNat b))
def i64At (b : List UInt8) : Int64 := Int64.ofBitVec (BitVec.ofNat 64 (leNat b))

def i32 (what : String) : Reader Int32 := do
  let b ← take 4 what
  pure (i32At b)

def i64 (what : String) : Reader Int64 := do
  let b ← take 8 what
  pure (i64At b)

/-- The scalars, or a message about the first which is not finite. -/
def finiteValues (what : String) : ℕ → List F32 → Outcome (List F32)
  | _, [] => .ok []
  | i, x :: rest =>
      if !x.isFinite then
        .error (.err s!"rank dataset: non-finite {what} value at element {i}")
      else do
        let out ← finiteValues what (i + 1) rest
        pure (x :: out)

def finiteF32Vec (count : ℕ) (what : String) : Reader (List F32) := do
  let bytes ← still (orErr (checkedMul count 4) s!"rank dataset: {what} byte count overflow")
  let raw ← take bytes what
  still (finiteValues what 0 ((List.range count).map (scalarAt raw)))

def usizeFromU64 (value : ℕ) (what : String) : Outcome ℕ :=
  if value ≤ maxWord then .ok value
  else .error (.err s!"rank dataset: {what} does not fit usize")

def keyRowCount (i : ℕ) : Reader ℕ := do
  let value ← u64 s!"key row count for chunk {i}"
  still (usizeFromU64 value "key row count")

def visibleCount (source : String) (i : ℕ) : Reader ℕ := do
  let value ← i32 "visible counts"
  still (require (0 < value.toInt)
    s!"rank dataset: {source}: row {i} has non-positive visible count {value}")
  pure value.toInt.toNat

def chunkId (source : String) (nChunks : ℕ) (keyRows nVisible : List ℕ) (i : ℕ) : Reader ℕ := do
  let value ← i32 "chunk ids"
  still (require (0 ≤ value.toInt) s!"rank dataset: {source}: row {i} has negative chunk {value}")
  let chunk := value.toInt.toNat
  still (require (chunk < nChunks)
    s!"rank dataset: {source}: row {i} chunk {chunk} outside 0..{nChunks}")
  let visible ← still (index nVisible i)
  let present ← still (index keyRows chunk)
  still (require (visible ≤ present)
    (s!"rank dataset: {source}: row {i} needs {visible} visible keys but chunk {chunk} " ++
      s!"contains {present}"))
  pure chunk

/-- The offsets of the score lists, and their total. -/
def scoreStarts (source : String) : List ℕ → ℕ → Outcome (List ℕ × ℕ)
  | [], totalScores => .ok ([totalScores], totalScores)
  | count :: rest, totalScores => do
      let next ← orErr (checkedAdd totalScores count)
        s!"rank dataset: {source}: score count overflow"
      let (starts, total) ← scoreStarts source rest next
      pure (totalScores :: starts, total)

def keyBlock (source : String) (keyRows : List ℕ) (keyDim chunk : ℕ) : Reader (List F32) := do
  let count ← still (index keyRows chunk)
  let elements ← still (orErr (checkedMul count keyDim)
    s!"rank dataset: {source}: key element count overflow")
  finiteF32Vec elements s!"keys for chunk {chunk}"

/-- The counts and the columns of the rows. -/
structure Columns where
  keyRows : List ℕ
  heads : List Int32
  gqaGroups : List Int32
  tokens : List Int64
  nVisible : List ℕ
  chunks : List ℕ

/-- The scalars, and where the scores of each row start. -/
structure Payload where
  q : List F32
  starts : List ℕ
  baseline : List F32
  controlScores : List F32
  keys : List (List F32)

def readColumns (source : String) (rows nChunks : ℕ) : Reader Columns := do
  let keyRows ← collect keyRowCount nChunks 0
  let heads ← collect (fun _ => i32 "head ids") rows 0
  let gqaGroups ← collect (fun _ => i32 "gqa group ids") rows 0
  let tokens ← collect (fun _ => i64 "token positions") rows 0
  let nVisible ← collect (visibleCount source) rows 0
  let chunks ← collect (chunkId source nChunks keyRows nVisible) rows 0
  pure ⟨keyRows, heads, gqaGroups, tokens, nVisible, chunks⟩

def readPayload (source : String) (rows qDim keyDim : ℕ) (keyRows nVisible : List ℕ) :
    Reader Payload := do
  let qCount ← still (orErr (checkedMul rows qDim)
    s!"rank dataset: {source}: query element count overflow")
  let q ← finiteF32Vec qCount "queries"
  let scores ← still (scoreStarts source nVisible 0)
  let baseline ← finiteF32Vec scores.2 "baseline logits"
  let controlScores ← finiteF32Vec scores.2 "recorded control scores"
  let keys ← collect (keyBlock source keyRows keyDim) keyRows.length 0
  pure ⟨q, scores.1, baseline, controlScores, keys⟩

/-- What follows the header. -/
def readBody (source : String) (layer qDim rows nChunks keyDim : ℕ) : Reader LayerRows := do
  let c ← readColumns source rows nChunks
  let p ← readPayload source rows qDim keyDim c.keyRows c.nVisible
  pure ⟨layer, qDim, keyDim, rows, c.heads, c.gqaGroups, c.tokens, c.nVisible, c.chunks, p.q,
    p.baseline, p.controlScores, p.keys, p.starts⟩

def u32At (raw : List UInt8) (offset : ℕ) : ℕ := leNat (slice raw offset 4)
def u64At (raw : List UInt8) (offset : ℕ) : ℕ := leNat (slice raw offset 8)

def parseLayer (raw : List UInt8) (source : String) : Outcome LayerRows :=
  if h : raw.length < header then .error (.err s!"rank dataset: {source}: truncated header")
  else do
    require (u32At raw 0 = magic) s!"rank dataset: {source}: bad magic"
    require (u32At raw 4 = version)
      (s!"rank dataset: {source}: unsupported version {u32At raw 4} (expected " ++
        s!"{version})")
    let layer := u32At raw 8
    let qDim := u32At raw 12
    let rows ← usizeFromU64 (u64At raw 16) "row count"
    let nChunks ← usizeFromU64 (u64At raw 24) "chunk count"
    let keyDim := u32At raw 32
    require (¬ (qDim = 0 ∨ keyDim = 0))
      s!"rank dataset: {source}: q_dim and key_dim must be positive"
    require (nChunks ≠ 0) s!"rank dataset: {source}: no chunks"
    let (out, c) ← readBody source layer qDim rows nChunks keyDim ⟨raw, header, not_lt.mp h⟩
    require (c.offset = raw.length)
      s!"rank dataset: {source}: trailing bytes (parsed {c.offset}, file {raw.length})"
    pure out

end SlhaV2.RankReader
