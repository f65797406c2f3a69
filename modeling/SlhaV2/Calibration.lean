import SlhaV2.ByteBuffer
import SlhaV2.FlatRows
import SlhaV2.FloatingPoint
import SlhaV2.MachineWord
import SlhaV2.OrderedMap
import Mathlib.Data.String.Basic

/-!
# Validation of calibration directories

A directory is its files by name; the order in which it lists them is an
argument. File operations succeed. Scalars are read and written as their bit
patterns, little-endian. The hashes the report also carries are left out.
-/
namespace SlhaV2.Calibration
open MachineWord ByteBuffer OrderedMap FlatRows FloatingPoint

def kCalibMagic : ℕ := 0x534C4841

inductive NonFinitePolicy where
  | reject
  | dropRow
deriving DecidableEq, Repr

def policyName : NonFinitePolicy → String
  | .dropRow => "drop-row"
  | .reject => "reject"

inductive FileStatus where
  | ok
  | notFound
  | truncatedHeader
  | badMagic
  | zeroCols
  | emptyData
  | sizeMismatch
  | dimMismatch
deriving DecidableEq, Repr

def fileStatusName : FileStatus → String
  | .ok => "ok"
  | .notFound => "not-found"
  | .truncatedHeader => "truncated-header"
  | .badMagic => "bad-magic"
  | .zeroCols => "zero-cols"
  | .emptyData => "empty-data"
  | .sizeMismatch => "size-mismatch"
  | .dimMismatch => "dim-mismatch"

def isnan (x : F32) : Bool := x.bits.toNat / 2 ^ 23 % 256 = 255 ∧ x.bits.toNat % 2 ^ 23 ≠ 0

def isinf (x : F32) : Bool := x.bits.toNat / 2 ^ 23 % 256 = 255 ∧ x.bits.toNat % 2 ^ 23 = 0

/-- The test `v > 0` of an infinity. -/
def signClear (x : F32) : Bool := x.bits.toNat < 2 ^ 31

/-- The `i`-th scalar of a payload. -/
def scalarAt (payload : List UInt8) (i : ℕ) : F32 :=
  ⟨UInt32.ofNat (leNat (slice payload (4 * i) 4))⟩

def scalarBytes (x : F32) : List UInt8 := leBytes 4 x.bits.toNat

structure Matrix where
  rows : ℕ
  cols : ℕ
  data : List F32
deriving DecidableEq, Repr

/-- The status, the out-parameters, and the bytes that `resize` asks for. -/
structure ReadOut where
  status : FileStatus
  magic : ℕ
  rows : ℕ
  cols : ℕ
  data : List F32
  err : String
  allocated : ℕ

/-- The matrix, or the status with its reason. -/
def ReadOut.matrix (r : ReadOut) : Except (FileStatus × String) Matrix :=
  if r.status = .ok then .ok ⟨r.rows, r.cols, r.data⟩ else .error (r.status, r.err)

/-- `max_size` of a vector of four-byte scalars. -/
def maxSize : ℕ := 2 ^ 61 - 1

/-- `none` is the exception of a `resize` above `max_size`. -/
def readCalibFile (file : Option (List UInt8)) (expectedCols : ℕ) : Option ReadOut :=
  match file with
  | none => some ⟨.notFound, 0, 0, 0, [], "cannot open file", 0⟩
  | some bytes =>
    let size := bytes.length
    if size < 12 then
      some ⟨.truncatedHeader, 0, 0, 0, [], "fewer than 12 header bytes", 0⟩
    else
      let magic := leNat (slice bytes 0 4)
      let rows := leNat (slice bytes 4 4)
      let cols := leNat (slice bytes 8 4)
      let refuse status err := some ⟨status, magic, rows, cols, [], err, 0⟩
      let expect := (12 + rows * cols * 4) % 2 ^ 64
      if magic ≠ kCalibMagic then refuse .badMagic "bad magic"
      else if cols = 0 then refuse .zeroCols "zero columns"
      else if size ≠ expect then
        refuse .sizeMismatch ("size mismatch: file=" ++ toString size ++ " expected=" ++
          toString expect ++ " (rows=" ++ toString rows ++ " cols=" ++ toString cols ++ ")")
      else if rows = 0 then refuse .emptyData "zero rows"
      else if expectedCols ≠ 0 ∧ cols ≠ expectedCols then
        refuse .dimMismatch ("dimension mismatch: cols=" ++ toString cols ++
          " expected=" ++ toString expectedCols)
      else
        let n := rows * cols
        if n > maxSize then none
        else if (bytes.drop 12).length < n * 4 then
          some ⟨.sizeMismatch, magic, rows, cols, [], "short read of payload", n * 4⟩
        else
          some ⟨.ok, magic, rows, cols, (List.range n).map (scalarAt (bytes.drop 12)), "", n * 4⟩

structure RowScan where
  rows : ℕ
  cols : ℕ
  finiteRows : ℕ
  nanRows : ℕ
  posinfRows : ℕ
  neginfRows : ℕ
  nonfiniteRows : ℕ
  nonfiniteScalars : ℕ
  nonfiniteRowIndices : List ℕ
deriving DecidableEq, Repr

/-- What the inner loop knows of a row. -/
structure RowFlags where
  hasNan : Bool
  hasPinf : Bool
  hasNinf : Bool
  hasNonfinite : Bool
  scalars : ℕ
deriving DecidableEq, Repr

def scanScalar (f : RowFlags) (v : F32) : RowFlags :=
  if isnan v then { f with hasNan := true, hasNonfinite := true, scalars := f.scalars + 1 }
  else if isinf v then
    if signClear v then
      { f with hasPinf := true, hasNonfinite := true, scalars := f.scalars + 1 }
    else { f with hasNinf := true, hasNonfinite := true, scalars := f.scalars + 1 }
  else f

def scanRow (row : List F32) : RowFlags := row.foldl scanScalar ⟨false, false, false, false, 0⟩

def scanStep (data : List F32) (s : RowScan) (r : ℕ) : RowScan :=
  let f := scanRow (rowAt data s.cols r)
  if f.hasNonfinite then
    { s with
      nonfiniteScalars := s.nonfiniteScalars + f.scalars
      nonfiniteRows := s.nonfiniteRows + 1
      nonfiniteRowIndices := s.nonfiniteRowIndices ++ [r]
      nanRows := if f.hasNan then s.nanRows + 1 else s.nanRows
      posinfRows := if f.hasPinf then s.posinfRows + 1 else s.posinfRows
      neginfRows := if f.hasNinf then s.neginfRows + 1 else s.neginfRows }
  else { s with
    nonfiniteScalars := s.nonfiniteScalars + f.scalars
    finiteRows := s.finiteRows + 1 }

def scanMatrix (data : List F32) (rows cols : ℕ) : RowScan :=
  (List.range rows).foldl (scanStep data) ⟨rows, cols, 0, 0, 0, 0, 0, 0, []⟩

def dropNonfiniteRows (data : List F32) (rows cols : ℕ) (scan : RowScan) : List F32 :=
  if scan.nonfiniteRows = 0 then data else copyLoop data cols rows scan.nonfiniteRowIndices

/-- The bytes that the temporary file gets and the rename puts in place. -/
def writeCalibFile (magic cols : ℕ) (data : List F32) : Except String (List UInt8) :=
  if cols = 0 ∨ data.length % cols ≠ 0 then .error "payload not a multiple of cols"
  else .ok (leBytes 4 magic ++ leBytes 4 (data.length / cols) ++ leBytes 4 cols ++
    data.flatMap scalarBytes)

abbrev Dir := Table String (List UInt8)

/-- The names in the order in which the directory is read. -/
abbrev Listing (d : Dir) :=
  { names : List String // names.Nodup ∧ ∀ n, n ∈ names ↔ ∃ b, (n, b) ∈ d }

structure LayerFile where
  layerId : ℕ
  name : String
deriving DecidableEq, Repr

def namePrefix : List Char := "layer-".toList
def nameSuffix : List Char := "-k.bin".toList

def digitsValue (mid : List Char) : ℕ := mid.foldl (fun n c => 10 * n + (c.toNat - 48)) 0

/-- The id in a name `layer-<id>-k.bin`, as far as an `int` can hold it. -/
def layerIdOf (name : String) : Option ℕ :=
  let cs := name.toList
  if cs.length ≤ namePrefix.length + nameSuffix.length then none
  else if cs.take namePrefix.length ≠ namePrefix then none
  else if cs.drop (cs.length - nameSuffix.length) ≠ nameSuffix then none
  else
    let mid := (cs.drop namePrefix.length).take
      (cs.length - namePrefix.length - nameSuffix.length)
    if mid.isEmpty then none
    else if ¬ mid.all (fun c => '0' ≤ c ∧ c ≤ '9') then none
    else if digitsValue mid > 2147483647 then none
    else some (digitsValue mid)

structure Found where
  found : List LayerFile
  seen : List ℕ
  duplicates : List ℕ

def discoverStep (f : Found) (name : String) : Found :=
  match layerIdOf name with
  | none => f
  | some id =>
    { found := f.found ++ [⟨id, name⟩]
      seen := f.seen ++ [id]
      duplicates := if id ∈ f.seen then f.duplicates ++ [id] else f.duplicates }

/-- A sort by layer id; files of one id may end up in either order. -/
structure SortById where
  sort : List LayerFile → List LayerFile
  perm : ∀ l, (sort l).Perm l
  sorted : ∀ l, (sort l).Pairwise fun a b => a.layerId ≤ b.layerId

def discoverLayerFiles (sorting : SortById) (names : List String) : List LayerFile × List ℕ :=
  let f := names.foldl discoverStep ⟨[], [], []⟩
  (sorting.sort f.found, (f.duplicates.mergeSort fun a b => decide (a ≤ b)).dedup)

structure FileReport where
  layerId : ℕ
  name : String
  status : FileStatus
  magic : ℕ
  scan : RowScan
  rowsObserved : ℕ
  rowsAccepted : ℕ
  rowsRejected : ℕ
  rewritten : Bool
deriving DecidableEq, Repr

structure DirReport where
  policy : String
  files : List FileReport
  expectedDim : ℕ
  observedDim : ℕ
  expectedLayers : ℤ
  missingLayers : List ℕ
  duplicateLayers : List ℕ
  totalRowsObserved : ℕ
  totalRowsAccepted : ℕ
  totalRowsRejected : ℕ
  totalNanRows : ℕ
  totalPosinfRows : ℕ
  totalNeginfRows : ℕ
  totalNonfiniteScalars : ℕ
  dimConsistent : Bool
  sanitized : Bool
  valid : Bool
  error : String
deriving DecidableEq, Repr

/-- The temporary file takes the place of the file. -/
def replaceFile (d : Dir) (name : String) (bytes : List UInt8) : Dir :=
  (d.erase (name ++ ".tmp")).insert name bytes

def RowScan.zero : RowScan := ⟨0, 0, 0, 0, 0, 0, 0, 0, []⟩

structure State where
  dir : Dir
  rep : DirReport
  structuralOk : Bool

/-- The first error is kept. -/
def DirReport.withError (rep : DirReport) (text : String) : DirReport :=
  if rep.error.isEmpty then { rep with error := text } else rep

def FileReport.start (lf : LayerFile) (magic : ℕ) : FileReport :=
  { layerId := lf.layerId
    name := lf.name
    status := .ok
    magic := magic
    scan := .zero
    rowsObserved := 0
    rowsAccepted := 0
    rowsRejected := 0
    rewritten := false }

/-- The report counts a file that was read and has this scan. -/
def DirReport.observe (rep : DirReport) (m : Matrix) (scan : RowScan) : DirReport :=
  { rep with
    observedDim := if rep.observedDim = 0 then m.cols else rep.observedDim
    dimConsistent := if rep.observedDim ≠ 0 ∧ rep.observedDim ≠ m.cols then false
      else rep.dimConsistent
    totalRowsObserved := rep.totalRowsObserved + m.rows
    totalNanRows := rep.totalNanRows + scan.nanRows
    totalPosinfRows := rep.totalPosinfRows + scan.posinfRows
    totalNeginfRows := rep.totalNeginfRows + scan.neginfRows
    totalNonfiniteScalars := rep.totalNonfiniteScalars + scan.nonfiniteScalars }

/-- The report takes in the rows of a file as accepted and rejected. -/
def DirReport.settle (rep : DirReport) (fr : FileReport) : DirReport :=
  { rep with
    totalRowsAccepted := rep.totalRowsAccepted + fr.rowsAccepted
    totalRowsRejected := rep.totalRowsRejected + fr.rowsRejected
    files := rep.files ++ [fr] }

/-- One turn of the loop over the layer files, for a file that has been read. -/
def visitRead (policy : NonFinitePolicy) (s : State) (lf : LayerFile) (magic : ℕ) :
    Except (FileStatus × String) Matrix → State
  | .error (status, err) =>
    { s with
      structuralOk := false
      rep := { s.rep.withError ("layer " ++ toString lf.layerId ++ ": " ++
          fileStatusName status ++ " (" ++ err ++ ")") with
        files := s.rep.files ++ [{ FileReport.start lf magic with status := status }] } }
  | .ok m =>
    let scan := scanMatrix m.data m.rows m.cols
    let rep := s.rep.observe m scan
    let fr := { FileReport.start lf magic with scan := scan, rowsObserved := m.rows }
    if policy = .dropRow ∧ scan.nonfiniteRows > 0 then
      match writeCalibFile magic m.cols (dropNonfiniteRows m.data m.rows m.cols scan) with
      | .error werr =>
        { s with
          structuralOk := false
          rep := { rep.withError ("layer " ++ toString lf.layerId ++ ": rewrite failed (" ++
              werr ++ ")") with files := rep.files ++ [fr] } }
      | .ok bytes =>
        { s with
          dir := replaceFile s.dir lf.name bytes
          rep := { rep with sanitized := true }.settle
            { fr with
              rewritten := true
              rowsAccepted := m.rows - scan.nonfiniteRows
              rowsRejected := scan.nonfiniteRows } }
    else
      { s with
        rep := rep.settle
          { fr with rowsAccepted := scan.finiteRows, rowsRejected := scan.nonfiniteRows } }

def visit (policy : NonFinitePolicy) (expectedDim : ℕ) (s : State) (lf : LayerFile) :
    Outcome State :=
  match readCalibFile (s.dir.find lf.name) expectedDim with
  | none => .error .panic
  | some r => .ok (visitRead policy s lf r.magic r.matrix)

/-- The layers `0 .. N - 1` that no file has. -/
def missingOf (expectedLayers : ℤ) (files : List LayerFile) : List ℕ :=
  (List.range expectedLayers.toNat).filter fun i => !files.any fun f => f.layerId = i

/-- Every file that could be read keeps this many rows. -/
def enoughRows (minRows : ℕ) (files : List FileReport) : Bool :=
  files.all fun fr => fr.status ≠ .ok ∨ ¬ fr.rowsObserved - fr.rowsRejected < minRows

def DirReport.start (policy : NonFinitePolicy) (expectedLayers : ℤ) (expectedDim : ℕ)
    (missing duplicates : List ℕ) : DirReport :=
  { policy := policyName policy
    files := []
    expectedDim := expectedDim
    observedDim := 0
    expectedLayers := expectedLayers
    missingLayers := missing
    duplicateLayers := duplicates
    totalRowsObserved := 0
    totalRowsAccepted := 0
    totalRowsRejected := 0
    totalNanRows := 0
    totalPosinfRows := 0
    totalNeginfRows := 0
    totalNonfiniteScalars := 0
    dimConsistent := true
    sanitized := false
    valid := false
    error := "" }

/-- The final gate. -/
def finish (policy : NonFinitePolicy) (minRows : ℕ) (s : State) : DirReport :=
  let rep := if ¬ s.rep.dimConsistent then
    s.rep.withError "inconsistent dimensions across layers" else s.rep
  let ok := s.structuralOk && rep.dimConsistent && rep.missingLayers.isEmpty &&
    rep.duplicateLayers.isEmpty
  { rep with
    valid := match policy with
      | .reject => ok && rep.totalRowsRejected = 0
      | .dropRow => ok && enoughRows minRows rep.files }

/-- The report, and the directory as it is left. -/
def validateDir (sorting : SortById) (d : Dir) (names : Listing d) (policy : NonFinitePolicy)
    (expectedLayers : ℤ) (expectedDim minRows : ℕ) : Outcome (DirReport × Dir) :=
  match discoverLayerFiles sorting names.1 with
  | ([], duplicates) =>
    .ok ({ DirReport.start policy expectedLayers expectedDim [] duplicates with
      error := "no layer-<id>-k.bin files found" }, d)
  | (files, duplicates) => do
    let rep := DirReport.start policy expectedLayers expectedDim
      (missingOf expectedLayers files) duplicates
    let s ← files.foldlM (visit policy expectedDim) ⟨d, rep, true⟩
    return (finish policy minRows s, s.dir)

end SlhaV2.Calibration
