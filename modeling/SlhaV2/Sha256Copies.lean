import SlhaV2.SecureHash

/-!
# The two copies of SHA-256

The calibration validator and the score scale hash with the same construction, each over its
own tables. A hash takes bytes into a buffer of one block and compresses it when it is full.
-/
namespace SlhaV2.Sha256Copies

abbrev Bytes := List UInt8

/-- The constant tables of one copy. -/
structure Tables where
  iv : List UInt32
  k : List UInt32

namespace Calib

def tables : Tables where
  iv := [0x6a09e667, 0xbb67ae85, 0x3c6ef372, 0xa54ff53a, 0x510e527f, 0x9b05688c, 0x1f83d9ab,
    0x5be0cd19]
  k := [
    0x428a2f98, 0x71374491, 0xb5c0fbcf, 0xe9b5dba5, 0x3956c25b, 0x59f111f1, 0x923f82a4, 0xab1c5ed5,
    0xd807aa98, 0x12835b01, 0x243185be, 0x550c7dc3, 0x72be5d74, 0x80deb1fe, 0x9bdc06a7, 0xc19bf174,
    0xe49b69c1, 0xefbe4786, 0x0fc19dc6, 0x240ca1cc, 0x2de92c6f, 0x4a7484aa, 0x5cb0a9dc, 0x76f988da,
    0x983e5152, 0xa831c66d, 0xb00327c8, 0xbf597fc7, 0xc6e00bf3, 0xd5a79147, 0x06ca6351, 0x14292967,
    0x27b70a85, 0x2e1b2138, 0x4d2c6dfc, 0x53380d13, 0x650a7354, 0x766a0abb, 0x81c2c92e, 0x92722c85,
    0xa2bfe8a1, 0xa81a664b, 0xc24b8b70, 0xc76c51a3, 0xd192e819, 0xd6990624, 0xf40e3585, 0x106aa070,
    0x19a4c116, 0x1e376c08, 0x2748774c, 0x34b0bcb5, 0x391c0cb3, 0x4ed8aa4a, 0x5b9cca4f, 0x682e6ff3,
    0x748f82ee, 0x78a5636f, 0x84c87814, 0x8cc70208, 0x90befffa, 0xa4506ceb, 0xbef9a3f7, 0xc67178f2]

end Calib

namespace Scale

def tables : Tables where
  iv := [0x6a09e667, 0xbb67ae85, 0x3c6ef372, 0xa54ff53a, 0x510e527f, 0x9b05688c, 0x1f83d9ab,
    0x5be0cd19]
  k := [
    0x428a2f98, 0x71374491, 0xb5c0fbcf, 0xe9b5dba5, 0x3956c25b, 0x59f111f1, 0x923f82a4, 0xab1c5ed5,
    0xd807aa98, 0x12835b01, 0x243185be, 0x550c7dc3, 0x72be5d74, 0x80deb1fe, 0x9bdc06a7, 0xc19bf174,
    0xe49b69c1, 0xefbe4786, 0x0fc19dc6, 0x240ca1cc, 0x2de92c6f, 0x4a7484aa, 0x5cb0a9dc, 0x76f988da,
    0x983e5152, 0xa831c66d, 0xb00327c8, 0xbf597fc7, 0xc6e00bf3, 0xd5a79147, 0x06ca6351, 0x14292967,
    0x27b70a85, 0x2e1b2138, 0x4d2c6dfc, 0x53380d13, 0x650a7354, 0x766a0abb, 0x81c2c92e, 0x92722c85,
    0xa2bfe8a1, 0xa81a664b, 0xc24b8b70, 0xc76c51a3, 0xd192e819, 0xd6990624, 0xf40e3585, 0x106aa070,
    0x19a4c116, 0x1e376c08, 0x2748774c, 0x34b0bcb5, 0x391c0cb3, 0x4ed8aa4a, 0x5b9cca4f, 0x682e6ff3,
    0x748f82ee, 0x78a5636f, 0x84c87814, 0x8cc70208, 0x90befffa, 0xa4506ceb, 0xbef9a3f7, 0xc67178f2]

end Scale

/-- The hash value, the message length in bytes and the filled part of the buffer. -/
structure Sha256 where
  h : List UInt32
  len : UInt64
  buf : Bytes
deriving DecidableEq

def rotr (x n : UInt32) : UInt32 := (x >>> n) ||| (x <<< (32 - n))

/-- The first sixteen words of the message schedule. -/
def loadWords (p : Bytes) : List UInt32 :=
  (List.range 16).map fun i =>
    ((p.getD (i * 4) 0).toUInt32 <<< 24) ||| ((p.getD (i * 4 + 1) 0).toUInt32 <<< 16) |||
      ((p.getD (i * 4 + 2) 0).toUInt32 <<< 8) ||| (p.getD (i * 4 + 3) 0).toUInt32

def extendWords (w : List UInt32) (i : ℕ) : List UInt32 :=
  let w15 := w.getD (i - 15) 0
  let w2 := w.getD (i - 2) 0
  let s0 := rotr w15 7 ^^^ rotr w15 18 ^^^ (w15 >>> 3)
  let s1 := rotr w2 17 ^^^ rotr w2 19 ^^^ (w2 >>> 10)
  w ++ [w.getD (i - 16) 0 + s0 + w.getD (i - 7) 0 + s1]

def messageWords (p : Bytes) : List UInt32 :=
  ((List.range 48).map (16 + ·)).foldl extendWords (loadWords p)

/-- The working variables of a block. -/
structure Working where
  a : UInt32
  b : UInt32
  c : UInt32
  d : UInt32
  e : UInt32
  f : UInt32
  g : UInt32
  hh : UInt32

def Working.round (v : Working) (k w : UInt32) : Working :=
  let s1 := rotr v.e 6 ^^^ rotr v.e 11 ^^^ rotr v.e 25
  let ch := (v.e &&& v.f) ^^^ (~~~v.e &&& v.g)
  let t1 := v.hh + s1 + ch + k + w
  let s0 := rotr v.a 2 ^^^ rotr v.a 13 ^^^ rotr v.a 22
  let maj := (v.a &&& v.b) ^^^ (v.a &&& v.c) ^^^ (v.b &&& v.c)
  let t2 := s0 + maj
  { hh := v.g, g := v.f, f := v.e, e := v.d + t1, d := v.c, c := v.b, b := v.a, a := t1 + t2 }

section Copy
variable (T : Tables)

def Sha256.new : Sha256 := ⟨T.iv, 0, []⟩

def rounds (v : Working) (p : Bytes) : Working :=
  (List.range 64).foldl (fun v i => v.round (T.k.getD i 0) ((messageWords p).getD i 0)) v

/-- One block of 64 bytes. -/
def Sha256.block (s : Sha256) (p : Bytes) : Sha256 :=
  let h := fun i => s.h.getD i 0
  let v := rounds T ⟨h 0, h 1, h 2, h 3, h 4, h 5, h 6, h 7⟩ p
  { s with h := [h 0 + v.a, h 1 + v.b, h 2 + v.c, h 3 + v.d, h 4 + v.e, h 5 + v.f, h 6 + v.g,
      h 7 + v.hh] }

/-- One pass of the loop of `update`, with the rest of the data. -/
def Sha256.take (s : Sha256) (data : Bytes) : Sha256 × Bytes :=
  let n := min data.length (64 - s.buf.length)
  let s := { s with buf := s.buf ++ data.take n }
  (if s.buf.length = 64 then { s.block T s.buf with buf := [] } else s, data.drop n)

/-- The loop takes a byte at least with each pass. -/
def Sha256.feed : ℕ → Sha256 → Bytes → Sha256
  | 0, s, _ => s
  | fuel + 1, s, data =>
      if data = [] then s
      else Sha256.feed fuel (s.take T data).1 (s.take T data).2

def Sha256.update (s : Sha256) (data : Bytes) : Sha256 :=
  Sha256.feed T data.length { s with len := s.len + UInt64.ofNat data.length } data

/-- Zeros until the length fits into the block: at most 64. -/
def Sha256.zeros : ℕ → Sha256 → Sha256
  | 0, s => s
  | fuel + 1, s =>
      if s.buf.length = 56 then s else Sha256.zeros fuel (s.update T [0])

def lenbuf (bitLen : UInt64) : Bytes :=
  (List.range 8).map fun i => (bitLen >>> (56 - UInt64.ofNat i * 8)).toUInt8

def hexChars (x : UInt32) : List Char :=
  ([28, 24, 20, 16, 12, 8, 4, 0] : List UInt32).map fun s =>
    "0123456789abcdef".toList.getD ((x >>> s) &&& 0xF).toNat '0'

def Sha256.hex (s : Sha256) : List Char :=
  let bitLen := s.len * 8
  let s := Sha256.zeros T 64 (s.update T [0x80])
  (s.update T (lenbuf bitLen)).h.flatMap hexChars

/-- A message in pieces. -/
def Sha256.updates (s : Sha256) (pieces : List Bytes) : Sha256 :=
  pieces.foldl (fun s data => s.update T data) s

def hexOf (pieces : List Bytes) : List Char := ((Sha256.new T).updates T pieces).hex T

end Copy

def Calib.sha256Hex (data : Bytes) : List Char := hexOf Calib.tables [data]

def Scale.sha256Hex (data : Bytes) : List Char := hexOf Scale.tables [data]

/-- Reading a file by pieces of the buffer's size until a read comes back short. -/
def readPieces : ℕ → Bytes → List Bytes
  | 0, _ => []
  | fuel + 1, content =>
      if content.length < 2 ^ 16 then (if content = [] then [] else [content])
      else content.take (2 ^ 16) :: readPieces fuel (content.drop (2 ^ 16))

/-- Nothing is returned for a file that cannot be opened. -/
def Calib.sha256File (file : Option Bytes) : Option (List Char) :=
  file.map fun content => hexOf Calib.tables (readPieces (content.length + 1) content)

end SlhaV2.Sha256Copies
