import Mathlib.Data.Nat.NthRoot.Defs
import Mathlib.Data.List.Basic
import Mathlib.Tactic.Ring

/-!
# The secure hash of FIPS 180-4

SHA-256 over messages of whole bytes. The constants are the fractional parts of the square
and cube roots of the first primes.
-/
namespace SlhaV2.SecureHash

abbrev Word := BitVec 32

def ch (x y z : Word) : Word := (x &&& y) ^^^ (~~~x &&& z)

def maj (x y z : Word) : Word := (x &&& y) ^^^ (x &&& z) ^^^ (y &&& z)

def bigSigma0 (x : Word) : Word := x.rotateRight 2 ^^^ x.rotateRight 13 ^^^ x.rotateRight 22

def bigSigma1 (x : Word) : Word := x.rotateRight 6 ^^^ x.rotateRight 11 ^^^ x.rotateRight 25

def sigma0 (x : Word) : Word := x.rotateRight 7 ^^^ x.rotateRight 18 ^^^ x >>> 3

def sigma1 (x : Word) : Word := x.rotateRight 17 ^^^ x.rotateRight 19 ^^^ x >>> 10

def primes : List ℕ :=
  [2, 3, 5, 7, 11, 13, 17, 19, 23, 29, 31, 37, 41, 43, 47, 53, 59, 61, 67, 71, 73, 79, 83, 89,
    97, 101, 103, 107, 109, 113, 127, 131, 137, 139, 149, 151, 157, 163, 167, 173, 179, 181,
    191, 193, 197, 199, 211, 223, 227, 229, 233, 239, 241, 251, 257, 263, 269, 271, 277, 281,
    283, 293, 307, 311]

/-- The first 32 bits of the fractional part of a root. -/
def rootBits (degree p : ℕ) : Word := BitVec.ofNat 32 (Nat.nthRoot degree (p * 2 ^ (32 * degree)))

def constant (t : ℕ) : Word := rootBits 3 (primes.getD t 0)

/-- The eight working variables, and the eight words of a hash value. -/
structure Vars where
  a : Word
  b : Word
  c : Word
  d : Word
  e : Word
  f : Word
  g : Word
  h : Word
deriving DecidableEq

def initial : Vars :=
  ⟨rootBits 2 2, rootBits 2 3, rootBits 2 5, rootBits 2 7, rootBits 2 11, rootBits 2 13,
    rootBits 2 17, rootBits 2 19⟩

/-- The big-endian word at an index of a block. -/
def word (block : List UInt8) (i : ℕ) : Word :=
  BitVec.ofNat 32 ((block.getD (4 * i) 0).toNat * 2 ^ 24 +
    (block.getD (4 * i + 1) 0).toNat * 2 ^ 16 + (block.getD (4 * i + 2) 0).toNat * 2 ^ 8 +
    (block.getD (4 * i + 3) 0).toNat)

/-- The message schedule. -/
def schedule (block : List UInt8) (t : ℕ) : Word :=
  if t < 16 then word block t
  else sigma1 (schedule block (t - 2)) + schedule block (t - 7) +
    sigma0 (schedule block (t - 15)) + schedule block (t - 16)
termination_by t

def round (v : Vars) (k w : Word) : Vars :=
  let t1 := v.h + bigSigma1 v.e + ch v.e v.f v.g + k + w
  let t2 := bigSigma0 v.a + maj v.a v.b v.c
  ⟨t1 + t2, v.a, v.b, v.c, v.d + t1, v.e, v.f, v.g⟩

def Vars.add (v w : Vars) : Vars :=
  ⟨v.a + w.a, v.b + w.b, v.c + w.c, v.d + w.d, v.e + w.e, v.f + w.f, v.g + w.g, v.h + w.h⟩

def rounds (v : Vars) (block : List UInt8) : Vars :=
  (List.range 64).foldl (fun v t => round v (constant t) (schedule block t)) v

def compress (v : Vars) (block : List UInt8) : Vars := (rounds v block).add v

/-- The 64 bits of a length. -/
def lengthBytes (bits : ℕ) : List UInt8 :=
  (List.range 8).map fun i => UInt8.ofNat (bits / 2 ^ (56 - 8 * i))

/-- A one bit, the fewest zeros that leave room for the length in the last block, and the
length. -/
def pad (m : List UInt8) (bits : ℕ) : List UInt8 :=
  m ++ 0x80 :: (List.replicate ((119 - m.length % 64) % 64) 0 ++ lengthBytes bits)

/-- Block `i` of a padded message. -/
def block (p : List UInt8) (i : ℕ) : List UInt8 := (p.drop (64 * i)).take 64

def hashBlocks (v : Vars) (p : List UInt8) : Vars :=
  (List.range (p.length / 64)).foldl (fun v i => compress v (block p i)) v

def hexDigit (n : ℕ) : Char := "0123456789abcdef".toList.getD n '0'

def hexWord (w : Word) : List Char :=
  (List.range 8).map fun i => hexDigit (w.toNat / 16 ^ (7 - i) % 16)

def Vars.hex (v : Vars) : List Char :=
  hexWord v.a ++ hexWord v.b ++ hexWord v.c ++ hexWord v.d ++ hexWord v.e ++ hexWord v.f ++
    hexWord v.g ++ hexWord v.h

/-- The digest of a message whose length is given in bits. -/
def digest (m : List UInt8) (bits : ℕ) : List Char := (hashBlocks initial (pad m bits)).hex

end SlhaV2.SecureHash
