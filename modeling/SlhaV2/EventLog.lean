import SlhaV2.FoldHash
import SlhaV2.HostFile
import SlhaV2.SlhaTile

/-!
# The log of evicted tiles

An append-only file: a header, then records of one size. Each call is the one
of the program with its seeks; the host's failures are arguments. A failed
append takes its bytes back when the host lets it.
-/
namespace SlhaV2.EventLog
open ByteBuffer TileCodec HostFile SlhaTile

abbrev headerBytes : ℕ := 16
abbrev recordBytes : ℕ := 8 + 4 + 4 + tileBytes

/-- Magic bytes at the start of the file: "SLLG". -/
def magic : ℕ := 0x534C4C47

/-- Legacy format without checksums. -/
def versionV1 : ℕ := 1

/-- Current format with a checksum in every record. -/
def version2 : ℕ := 2

structure LogRecord where
  seq : UInt64
  slot : UInt32
  tile : SciRustSlhaTile
deriving DecidableEq

def fnvOffset : UInt32 := 0x811C9DC5
def fnvPrime : UInt32 := 0x01000193

def fnvStep (hash : UInt32) (byte : UInt8) : UInt32 := (hash ^^^ byte.toUInt32) * fnvPrime

/-- The prime is odd, so it has an inverse among the words. -/
theorem fnvPrime_cancel (s : UInt32) : s * fnvPrime * 0x359c449b = s := by
  rw [UInt32.mul_assoc]
  exact UInt32.mul_one s

theorem fnvStep_lossless : FoldHash.Lossless fnvStep := by
  have hcancel : Function.Injective fun s => s * fnvPrime :=
    Function.LeftInverse.injective (g := fun s => s * 0x359c449b) fnvPrime_cancel
  constructor
  · intro b s t heq
    exact (UInt32.xor_left_inj _).mp (hcancel heq)
  · intro s a b heq
    have hword := (UInt32.xor_right_inj _).mp (hcancel heq)
    exact UInt8.toNat_inj.mp (by simpa using congrArg UInt32.toNat hword)

/-- FNV-1a over the sequence number, the slot and the tile. -/
def recordChecksum (seq : UInt64) (slot : UInt32) (tile : Bytes tileBytes) : UInt32 :=
  let hash := (leBytes 8 seq.toNat).foldl fnvStep fnvOffset
  let hash := (leBytes 4 slot.toNat).foldl fnvStep hash
  tile.1.foldl fnvStep hash

structure Log where
  file : File
  records : ℕ
  version : ℕ
  writable : Bool
deriving DecidableEq

/-- What the host does during one append. -/
structure Faults where
  /-- The write stops after so many bytes. -/
  write : Option ℕ
  /-- Cutting the file back succeeds. -/
  truncate : Bool
  flush : Bool
  sync : Bool
deriving DecidableEq, Repr

def Faults.none : Faults := ⟨.none, true, true, true⟩

def invalid (msg : String) : IoError := .invalidData msg

/-- The header of a new log; its last four bytes are reserved. -/
def header : List UInt8 :=
  splice (splice (splice (zeros headerBytes).1 0 (leBytes 4 magic)) 4 (leBytes 4 version2)) 8
    (leBytes 4 tileBytes)

namespace Log

/-- A fresh log on a truncated or new file. -/
def create : Log where
  file := (⟨[], 0⟩ : File).put header
  records := 0
  version := version2
  writable := true

/-- The bytes of one record; the legacy format leaves the checksum zero. -/
def encodeRecord (version : ℕ) (r : LogRecord) : List UInt8 :=
  let tile := tileToBytes r.tile
  let rec0 := splice (zeros recordBytes).1 0 (leBytes 8 r.seq.toNat)
  let rec1 := splice rec0 8 (leBytes 4 r.slot.toNat)
  let rec2 := if version = version2 then
      splice rec1 12 (leBytes 4 (recordChecksum r.seq r.slot tile).toNat)
    else rec1
  splice rec2 16 tile.1

def decodeRecord (version : ℕ) (bytes : Bytes recordBytes) : IoResult LogRecord :=
  let seq := UInt64.ofNat (leNat (slice bytes.1 0 8))
  let slot := UInt32.ofNat (leNat (slice bytes.1 8 4))
  let tile : Bytes tileBytes := field bytes 16 tileBytes (by decide)
  let stored := UInt32.ofNat (leNat (slice bytes.1 12 4))
  if version = version2 ∧ stored ≠ recordChecksum seq slot tile then
    .error (invalid "EventLog: record checksum mismatch")
  else .ok ⟨seq, slot, tileFromBytes tile⟩

/-- Read and decode so many records from the cursor on. -/
def readRecords (version : ℕ) : ℕ → File → IoResult (List LogRecord) × File
  | 0, f => (.ok [], f)
  | n + 1, f =>
      match f.readExact recordBytes with
      | (.error e, f) => (.error e, f)
      | (.ok bytes, f) =>
          match decodeRecord version bytes with
          | .error e => (.error e, f)
          | .ok r =>
              match readRecords version n f with
              | (.error e, f) => (.error e, f)
              | (.ok rs, f) => (.ok (r :: rs), f)

/-- Every record in append order; the cursor returns to the end. -/
def readAll (log : Log) : IoResult (List LogRecord) × Log :=
  match readRecords log.version log.records (log.file.seekStart headerBytes) with
  | (.error e, f) => (.error e, { log with file := f })
  | (.ok rs, f) => (.ok rs, { log with file := f.seekEnd })

/-- The same pass over the records as `readAll`, for its errors only. -/
def validateRecords (log : Log) : IoResult Unit × Log :=
  let (result, log) := log.readAll
  (result.map fun _ => (), log)

def fetchBySeq (log : Log) (seq : UInt64) : IoResult (Option LogRecord) × Log :=
  let (result, log) := log.readAll
  (result.map fun rs => rs.reverse.find? fun r => r.seq = seq, log)

def fetchLastForSlot (log : Log) (slot : UInt32) : IoResult (Option LogRecord) × Log :=
  let (result, log) := log.readAll
  (result.map fun rs => rs.reverse.find? fun r => r.slot = slot, log)

/-- Append one record at the end. After a failed write the file is cut back. -/
def append (log : Log) (r : LogRecord) (faults : Faults) : IoResult Unit × Log :=
  if !log.writable then
    (.error (.permissionDenied "EventLog: log opened read-only"), log)
  else
    let start := log.file.bytes.length
    let file := log.file.seekEnd
    match file.writeAll (encodeRecord log.version r) faults.write with
    | (.error e, file) =>
        let file := if faults.truncate then file.setLen start else file
        (.error e, { log with file := file.seekEnd })
    | (.ok _, file) => (.ok (), { log with file := file, records := log.records + 1 })

/-- Flush and synchronize; the contents do not change. -/
def sync (faults : Faults) : IoResult Unit :=
  if !faults.flush then .error .device
  else if !faults.sync then .error .device
  else .ok ()

/-- Append a record and synchronize it. After a failed synchronization the record is cut off. -/
def appendDurable (log : Log) (r : LogRecord) (faults : Faults) : IoResult Unit × Log :=
  let start := log.file.bytes.length
  let previousRecords := log.records
  let log := { log with file := log.file.seekEnd }
  match log.append r faults with
  | (.error e, log) => (.error e, log)
  | (.ok _, log) =>
      match sync faults with
      | .ok _ => (.ok (), log)
      | .error e =>
          if faults.truncate then
            let file := (log.file.setLen start).seekEnd
            (.error e, { log with file := file, records := previousRecords })
          else (.error e, log)

/-- Open existing bytes: the result, and the bytes the file holds afterwards. -/
def openImpl (bytes : List UInt8) (recoverTail writable : Bool) :
    IoResult Log × List UInt8 :=
  let file : File := ⟨bytes, bytes.length⟩
  if bytes.length < headerBytes then
    (.error (invalid "EventLog: file shorter than header"), bytes)
  else
    match (file.seekStart 0).readExact headerBytes with
    | (.error e, _) => (.error e, bytes)
    | (.ok head, file) =>
        let u32 := fun o => leNat (slice head.1 o 4)
        if u32 0 ≠ magic then (.error (invalid "EventLog: bad magic"), bytes)
        else if u32 4 ≠ versionV1 ∧ u32 4 ≠ version2 then
          (.error (invalid "EventLog: unsupported version"), bytes)
        else if u32 8 ≠ tileBytes then
          (.error (invalid "EventLog: tile-size mismatch"), bytes)
        else
          let remainder := (bytes.length - headerBytes) % recordBytes
          if remainder ≠ 0 ∧ !recoverTail then
            (.error (invalid "EventLog: truncated record"), bytes)
          else
            let len := bytes.length - remainder
            let file := if remainder ≠ 0 then file.setLen len else file
            let log : Log := ⟨file, (len - headerBytes) / recordBytes, u32 4, writable⟩
            match log.validateRecords with
            | (.error e, log) => (.error e, log.file.bytes)
            | (.ok _, log) =>
                (.ok { log with file := log.file.seekEnd }, log.file.bytes)

def openStrict (bytes : List UInt8) : IoResult Log × List UInt8 := openImpl bytes false true

def openRecover (bytes : List UInt8) : IoResult Log × List UInt8 := openImpl bytes true true

def openReadOnly (bytes : List UInt8) : IoResult Log × List UInt8 := openImpl bytes false false

end Log

end SlhaV2.EventLog
