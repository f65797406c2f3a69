import SlhaV2.OrderedMap
import SlhaV2.RankFormat

/-!
# The collector of a ranking dataset

Rows and key blocks are gathered layer by layer. Rows belong to the chunk that
is current when they are added, and so does a key block; a second block for a
chunk replaces the first. A flush writes one file for each layer that has rows.
The tie statistics and the manifest are left out.
-/
namespace SlhaV2.RankCollector
open ByteBuffer OrderedMap FloatingPoint Calibration RankFormat

def kMagic : ℕ := 0x534C4841

structure LayerData where
  head : List Int32 := []
  gqaGroup : List Int32 := []
  token : List Int64 := []
  nVisible : List Int32 := []
  chunk : List Int32 := []
  q : List F32 := []
  b : List F32 := []
  s : List F32 := []
  qDim : ℕ := 0
  keys : List (List F32) := []
  keyRows : List ℕ := []
  keyDim : ℕ := 0
  rows : ℕ := 0
  rejectedNonfinite : ℕ := 0
deriving DecidableEq

structure State where
  on : Bool := false
  dir : String := ""
  chunk : ℕ := 0
  layers : Table ℤ LayerData := Table.empty

/-- The scalars a pointer and a length give. -/
def view (p : ℕ → F32) (n : ℕ) : List F32 := (List.range n).map p

/-- The entry of the map, which a lookup creates. -/
def State.layer (s : State) (layer : ℤ) : LayerData := (s.layers.find layer).getD {}

def State.put (s : State) (layer : ℤ) (L : LayerData) : State :=
  { s with layers := s.layers.insert layer L }

def enable (s : State) : Option String → State
  | none => { s with on := false }
  | some dir => if dir = "" then { s with on := false } else { s with dir := dir, on := true }

def beginChunk (s : State) : State := if s.on then { s with chunk := s.chunk + 1 } else s

def reject (s : State) (layer : ℤ) : State :=
  s.put layer { s.layer layer with rejectedNonfinite := (s.layer layer).rejectedNonfinite + 1 }

def addRow (st : State) (layer : ℤ) (head gqaGroup : Int32) (t : Int64) (qExtended : ℕ → F32)
    (qDim : ℕ) (b sScores : ℕ → F32) (nVisible : ℕ) : State :=
  if st.on = false ∨ nVisible = 0 ∨ qDim = 0 then st
  else if (view qExtended qDim).any fun x => !x.isFinite then reject st layer
  else if (List.range nVisible).any fun i => !(b i).isFinite || !(sScores i).isFinite then
    reject st layer
  else
    let L := st.layer layer
    let L := if L.qDim = 0 then { L with qDim := qDim } else L
    if L.qDim ≠ qDim then st.put layer L
    else
      st.put layer { L with
        head := L.head ++ [head]
        gqaGroup := L.gqaGroup ++ [gqaGroup]
        token := L.token ++ [t]
        nVisible := L.nVisible ++ [Int32.ofNat nVisible]
        chunk := L.chunk ++ [Int32.ofNat st.chunk]
        q := L.q ++ view qExtended qDim
        b := L.b ++ view b nVisible
        s := L.s ++ view sScores nVisible
        rows := L.rows + 1 }

/-- `std::vector::resize`. -/
def resize {α : Type} (xs : List α) (n : ℕ) (x : α) : List α :=
  xs.take n ++ List.replicate (n - xs.length) x

def addKeys (s : State) (layer : ℤ) (rows : Option (ℕ → F32)) (nRows dim : ℕ) : State :=
  match rows with
  | none => s
  | some rows =>
      if s.on = false ∨ nRows = 0 ∨ dim = 0 then s
      else
        let L := s.layer layer
        let c := s.chunk
        let L := if L.keys.length ≤ c then
            { L with keys := resize L.keys (c + 1) [], keyRows := resize L.keyRows (c + 1) 0 }
          else L
        s.put layer { L with
          keys := L.keys.set c (view rows (nRows * dim))
          keyRows := L.keyRows.set c nRows
          keyDim := dim }

structure LayerFile where
  layer : ℤ
  path : String
  bytes : List UInt8
deriving DecidableEq

/-- Whether the directory can be made, a file opened, and all of it written. -/
structure Disk where
  mkdir : Bool
  opens : String → Bool
  writes : String → Bool

structure Flushed where
  ok : Bool
  error : Option String
  files : List LayerFile
deriving DecidableEq

def padded (width n : ℕ) : String := "".pushn '0' (width - (toString n).length) ++ toString n

/-- `%03d`. -/
def decimal3 (n : ℤ) : String :=
  if n < 0 then "-" ++ padded 2 n.natAbs else padded 3 n.natAbs

def fileBytes (layer : ℤ) (L : LayerData) : List UInt8 :=
  leBytes 4 kMagic ++ leBytes 4 2 ++ leBytes 4 (layer % 2 ^ 32).toNat ++
    leBytes 4 (L.qDim % 2 ^ 32) ++ leBytes 8 L.rows ++ leBytes 8 L.keys.length ++
    leBytes 4 (L.keyDim % 2 ^ 32) ++ leBytes 4 0 ++
    L.keyRows.flatMap (leBytes 8) ++ L.head.flatMap i32Bytes ++ L.gqaGroup.flatMap i32Bytes ++
    L.token.flatMap i64Bytes ++ L.nVisible.flatMap i32Bytes ++ L.chunk.flatMap i32Bytes ++
    L.q.flatMap scalarBytes ++ L.b.flatMap scalarBytes ++ L.s.flatMap scalarBytes ++
    L.keys.flatMap fun ck => ck.flatMap scalarBytes

/-- The files of the layers that have rows, up to the first that fails. -/
def writeLayers (disk : Disk) (dir : String) :
    List (ℤ × LayerData) → Option String × List LayerFile
  | [] => (none, [])
  | (layer, L) :: rest =>
      if L.rows = 0 then writeLayers disk dir rest
      else
        let path := dir ++ "/" ++ s!"rank-layer-{decimal3 layer}.bin"
        if disk.opens path = false then (some s!"cannot write {path}", [])
        else if disk.writes path = false then (some s!"short write on {path}", [])
        else
          let later := writeLayers disk dir rest
          (later.1, ⟨layer, path, fileBytes layer L⟩ :: later.2)

def flush (disk : Disk) (s : State) : Flushed :=
  if s.on = false then ⟨true, none, []⟩
  else if disk.mkdir = false then ⟨false, some s!"cannot create {s.dir}", []⟩
  else
    let written := writeLayers disk s.dir s.layers.entries
    let mpath := s.dir ++ "/rank_dataset_manifest.json"
    if disk.opens mpath = false then ⟨false, some s!"cannot write {mpath}", written.2⟩
    else if disk.writes mpath = false then ⟨false, some s!"short write on {mpath}", written.2⟩
    else ⟨written.1.isNone, written.1, written.2⟩

inductive Call where
  | enable (dir : Option String)
  | beginChunk
  | addRow (layer : ℤ) (head gqaGroup : Int32) (t : Int64) (qExtended : ℕ → F32) (qDim : ℕ)
      (b sScores : ℕ → F32) (nVisible : ℕ)
  | addKeys (layer : ℤ) (rows : Option (ℕ → F32)) (nRows dim : ℕ)

def step (s : State) : Call → State
  | .enable dir => enable s dir
  | .beginChunk => beginChunk s
  | .addRow layer head gqaGroup t qExtended qDim b sScores nVisible =>
      addRow s layer head gqaGroup t qExtended qDim b sScores nVisible
  | .addKeys layer rows nRows dim => addKeys s layer rows nRows dim

def run (calls : List Call) : State := calls.foldl step {}

end SlhaV2.RankCollector
