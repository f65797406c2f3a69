import SlhaV2.ByteBuffer

/-!
# A host file behind one handle

The file is its bytes and a cursor. What the host does to a call is an argument
of the call: a write may stop after some bytes, a truncation may be refused.
Reads from a file nobody else writes do not fail except at the end.
-/
namespace SlhaV2.HostFile
open ByteBuffer

inductive IoError where
  | permissionDenied (msg : String)
  | invalidData (msg : String)
  | unexpectedEof
  | device
deriving DecidableEq, Repr

abbrev IoResult (α : Type) := Except IoError α

structure File where
  bytes : List UInt8
  pos : ℕ
deriving DecidableEq, Repr

namespace File

def seekEnd (f : File) : File := { f with pos := f.bytes.length }

def seekStart (n : ℕ) (f : File) : File := { f with pos := n }

/-- All the bytes asked for, or an error with the cursor at the end. -/
def readExact (n : ℕ) (f : File) : IoResult (Bytes n) × File :=
  if h : f.pos + n ≤ f.bytes.length then
    (.ok ⟨slice f.bytes f.pos n, length_slice h⟩, { f with pos := f.pos + n })
  else (.error .unexpectedEof, { f with pos := max f.pos f.bytes.length })

/-- The first `n` bytes, with zeros where the file was shorter. -/
def prefixBytes (f : File) (n : ℕ) : List UInt8 :=
  f.bytes.take n ++ List.replicate (n - f.bytes.length) 0

/-- Overwrite from the cursor on; the file grows as needed. -/
def put (data : List UInt8) (f : File) : File where
  bytes := f.prefixBytes f.pos ++ data ++ f.bytes.drop (f.pos + data.length)
  pos := f.pos + data.length

/-- With a number the device fails after that many bytes. -/
def writeAll (data : List UInt8) (fate : Option ℕ) (f : File) : IoResult Unit × File :=
  match fate with
  | none => (.ok (), f.put data)
  | some k => (.error .device, f.put (data.take k))

def setLen (n : ℕ) (f : File) : File := { f with bytes := f.prefixBytes n }

@[simp] theorem seekEnd_bytes (f : File) : f.seekEnd.bytes = f.bytes := rfl
@[simp] theorem seekStart_bytes (f : File) (n : ℕ) : (f.seekStart n).bytes = f.bytes := rfl
@[simp] theorem seekStart_pos (f : File) (n : ℕ) : (f.seekStart n).pos = n := rfl

theorem readExact_ok {f : File} {n : ℕ} (h : f.pos + n ≤ f.bytes.length) :
    f.readExact n = (.ok ⟨slice f.bytes f.pos n, length_slice h⟩,
      { f with pos := f.pos + n }) := dif_pos h

/-- A write at the end appends. -/
theorem put_seekEnd_bytes (f : File) (data : List UInt8) :
    (f.seekEnd.put data).bytes = f.bytes ++ data := by
  simp [put, prefixBytes, seekEnd]

/-- Truncating to the old length takes an append back. -/
theorem setLen_append {f : File} {l data : List UInt8} (h : f.bytes = l ++ data) :
    (f.setLen l.length).bytes = l := by
  simp [setLen, prefixBytes, h]

end File

end SlhaV2.HostFile
