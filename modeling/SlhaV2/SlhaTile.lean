import SlhaV2.FloatingPoint
import SlhaV2.TileCodec

/-!
# The tile and its canonical bytes

A tile is ten fields of fixed widths, 128 bytes together. Floats are their bit
patterns, so equality of tiles is equality bit by bit. The byte image lists the
fields in order, little-endian and without padding; it is a bijection.
-/
namespace SlhaV2.SlhaTile
open ByteBuffer FloatingPoint TileCodec

abbrev dC : ℕ := 128
abbrev nGroups : ℕ := 8
abbrev mixedHiDims : ℕ := 8
abbrev mixedLoDims : ℕ := 2 * (latentBytes - mixedHiDims)
abbrev tq3CorrBytes : ℕ := dC / 8
abbrev mix3CorrBytes : ℕ := mixedLoDims / 8

/-- A residual bitmap of four words. -/
abbrev Words (n : ℕ) := { l : List UInt64 // l.length = n }

structure SciRustSlhaTile where
  latentKv : Bytes latentBytes
  residualBitmap : Words residualWords
  scale : F32
  dynamicLambda : F32
  residualSigma : F32
  tokenId : UInt32
  position : UInt32
  headId : UInt16
  flags : Flags
  groupScales : Bytes nGroups
deriving DecidableEq

namespace SciRustSlhaTile

def isWarm (t : SciRustSlhaTile) : Bool := t.flags &&& flagWarm ≠ 0
def isTq3 (t : SciRustSlhaTile) : Bool := t.flags &&& flagTq3 ≠ 0
def isTq3Nocorr (t : SciRustSlhaTile) : Bool := t.flags &&& flagTq3Nocorr ≠ 0
def isMix3 (t : SciRustSlhaTile) : Bool := t.flags &&& flagMix3 ≠ 0

/-- Bytes of the separable correction plane; none for the other codecs. -/
def separableCorrBytes (t : SciRustSlhaTile) : ℕ :=
  if t.isTq3 then tq3CorrBytes else if t.isMix3 then mix3CorrBytes else 0

end SciRustSlhaTile

/-- The words of a bitmap, each little-endian. -/
def wordBytes (ws : List UInt64) : List UInt8 := ws.flatMap fun w => leBytes 8 w.toNat

def readWords : ℕ → List UInt8 → List UInt64
  | 0, _ => []
  | n + 1, l => UInt64.ofNat (leNat (l.take 8)) :: readWords n (l.drop 8)

@[simp] theorem length_readWords (n : ℕ) (l : List UInt8) : (readWords n l).length = n := by
  induction n generalizing l with
  | zero => rfl
  | succ n ih => simp [readWords, ih]

theorem length_wordBytes (ws : List UInt64) : (wordBytes ws).length = 8 * ws.length := by
  induction ws with
  | nil => rfl
  | cons w ws ih =>
      simp only [wordBytes, List.flatMap_cons, List.length_append, length_leBytes,
        List.length_cons] at ih ⊢
      omega

theorem readWords_wordBytes (ws : List UInt64) : readWords ws.length (wordBytes ws) = ws := by
  induction ws with
  | nil => rfl
  | cons w ws ih =>
      have hlen : (leBytes 8 w.toNat).length = 8 := length_leBytes 8 _
      have hlt : w.toNat < 256 ^ 8 := w.toNat_lt
      unfold wordBytes at ih ⊢
      rw [List.flatMap_cons, List.length_cons, readWords, List.take_left' hlen,
        List.drop_left' hlen, ih, leNat_leBytes_of_lt hlt, UInt64.ofNat_toNat]

theorem wordBytes_readWords {n : ℕ} {l : List UInt8} (h : l.length = 8 * n) :
    wordBytes (readWords n l) = l := by
  induction n generalizing l with
  | zero =>
      rw [List.eq_nil_of_length_eq_zero (by omega : l.length = 0)]
      rfl
  | succ n ih =>
      have htake : (l.take 8).length = 8 := by
        rw [List.length_take]
        omega
      have hdrop : (l.drop 8).length = 8 * n := by
        rw [List.length_drop]
        omega
      have hlt : leNat (l.take 8) < 2 ^ 64 := by
        have hle := leNat_lt (l.take 8)
        rw [htake] at hle
        exact hle
      have htail := ih hdrop
      unfold wordBytes at htail ⊢
      rw [readWords, List.flatMap_cons, htail, UInt64.toNat_ofNat', Nat.mod_eq_of_lt hlt,
        leBytes_leNat_of_length htake, List.take_append_drop]

/-- A fixed-width field of a buffer. -/
def field {w : ℕ} (b : Bytes w) (off n : ℕ) (h : off + n ≤ w) : Bytes n :=
  ⟨slice b.1 off n, length_slice (by rw [b.2]; exact h)⟩

def u32At (b : Bytes tileBytes) (off : ℕ) : UInt32 := UInt32.ofNat (leNat (slice b.1 off 4))
def f32At (b : Bytes tileBytes) (off : ℕ) : F32 := ⟨u32At b off⟩
def u16At (b : Bytes tileBytes) (off : ℕ) : UInt16 := UInt16.ofNat (leNat (slice b.1 off 2))

/-- The fields in order, each little-endian. -/
def putFields (t : SciRustSlhaTile) : List UInt8 :=
  t.latentKv.1 ++ (wordBytes t.residualBitmap.1 ++ (leBytes 4 t.scale.bits.toNat ++
    (leBytes 4 t.dynamicLambda.bits.toNat ++ (leBytes 4 t.residualSigma.bits.toNat ++
      (leBytes 4 t.tokenId.toNat ++ (leBytes 4 t.position.toNat ++
        (leBytes 2 t.headId.toNat ++ (leBytes 2 t.flags.toNat ++ t.groupScales.1))))))))

theorem length_putFields (t : SciRustSlhaTile) : (putFields t).length = tileBytes := by
  simp only [putFields, List.length_append, length_wordBytes, length_leBytes, t.latentKv.2,
    t.residualBitmap.2, t.groupScales.2]
  rfl

def tileToBytes (t : SciRustSlhaTile) : Bytes tileBytes := ⟨putFields t, length_putFields t⟩

def tileFromBytes (b : Bytes tileBytes) : SciRustSlhaTile where
  latentKv := field b 0 latentBytes (by decide)
  residualBitmap := ⟨readWords residualWords (slice b.1 64 residualBytes), length_readWords _ _⟩
  scale := f32At b 96
  dynamicLambda := f32At b 100
  residualSigma := f32At b 104
  tokenId := u32At b 108
  position := u32At b 112
  headId := u16At b 116
  flags := readFlags b
  groupScales := field b 120 nGroups (by decide)

theorem u32_roundtrip (x : UInt32) : UInt32.ofNat (leNat (leBytes 4 x.toNat)) = x := by
  have hlt : x.toNat < 256 ^ 4 := x.toNat_lt
  rw [leNat_leBytes_of_lt hlt, UInt32.ofNat_toNat]

theorem u16_roundtrip (x : UInt16) : UInt16.ofNat (leNat (leBytes 2 x.toNat)) = x := by
  have hlt : x.toNat < 256 ^ 2 := x.toNat_lt
  rw [leNat_leBytes_of_lt hlt, UInt16.ofNat_toNat]

theorem flags_roundtrip (x : Flags) : BitVec.ofNat 16 (leNat (leBytes 2 x.toNat)) = x := by
  have hlt : x.toNat < 256 ^ 2 := x.isLt
  rw [leNat_leBytes_of_lt hlt, BitVec.ofNat_toNat, BitVec.setWidth_eq]

theorem leBytes_u32At (b : Bytes tileBytes) {off : ℕ} (h : off + 4 ≤ tileBytes) :
    leBytes 4 (u32At b off).toNat = slice b.1 off 4 := by
  have hlen : (slice b.1 off 4).length = 4 := length_slice (by rw [b.2]; exact h)
  have hlt : leNat (slice b.1 off 4) < 2 ^ 32 := (leNat_lt _).trans_eq (by rw [hlen]; rfl)
  rw [u32At, UInt32.toNat_ofNat', Nat.mod_eq_of_lt hlt, leBytes_leNat_of_length hlen]

theorem leBytes_u16At (b : Bytes tileBytes) {off : ℕ} (h : off + 2 ≤ tileBytes) :
    leBytes 2 (u16At b off).toNat = slice b.1 off 2 := by
  have hlen : (slice b.1 off 2).length = 2 := length_slice (by rw [b.2]; exact h)
  have hlt : leNat (slice b.1 off 2) < 2 ^ 16 := (leNat_lt _).trans_eq (by rw [hlen]; rfl)
  rw [u16At, UInt16.toNat_ofNat', Nat.mod_eq_of_lt hlt, leBytes_leNat_of_length hlen]

theorem leBytes_readFlags (b : Bytes tileBytes) :
    leBytes 2 (readFlags b).toNat = slice b.1 118 2 := by
  have hlen : (slice b.1 118 2).length = 2 := length_slice (by rw [b.2]; decide)
  have hlt : leNat (slice b.1 118 2) < 2 ^ 16 := (leNat_lt _).trans_eq (by rw [hlen]; rfl)
  rw [readFlags, BitVec.toNat_ofNat, flagsOffset, Nat.mod_eq_of_lt hlt,
    leBytes_leNat_of_length hlen]

/-- Writing the fields read from a buffer gives the buffer back. -/
theorem tileToBytes_tileFromBytes (b : Bytes tileBytes) : tileToBytes (tileFromBytes b) = b := by
  have hlen : (slice b.1 64 residualBytes).length = 8 * residualWords :=
    length_slice (by rw [b.2]; decide)
  apply Subtype.ext
  simp only [tileToBytes, putFields, tileFromBytes, field, f32At]
  rw [wordBytes_readWords hlen, leBytes_u32At b (by decide), leBytes_u32At b (by decide),
    leBytes_u32At b (by decide), leBytes_u32At b (by decide), leBytes_u32At b (by decide),
    leBytes_u16At b (by decide), leBytes_readFlags]
  -- the ranges follow each other, so they join from the last one on
  simp (disch := decide) only [slice_append_slice]
  exact slice_zero_length b.2

/-- Reading the fields of a tile's image gives the tile back. -/
theorem tileFromBytes_tileToBytes (t : SciRustSlhaTile) : tileFromBytes (tileToBytes t) = t := by
  have hlatent : t.latentKv.1.length = 64 := t.latentKv.2
  have hwords : (wordBytes t.residualBitmap.1).length = 32 := by
    rw [length_wordBytes, t.residualBitmap.2]
    rfl
  have h64 : slice (putFields t) 64 32 = wordBytes t.residualBitmap.1 := by
    simp [putFields, slice_append_right, slice_append_left, hlatent, hwords]
  have h96 : slice (putFields t) 96 4 = leBytes 4 t.scale.bits.toNat := by
    simp [putFields, slice_append_right, slice_append_left, hlatent, hwords]
  have h100 : slice (putFields t) 100 4 = leBytes 4 t.dynamicLambda.bits.toNat := by
    simp [putFields, slice_append_right, slice_append_left, hlatent, hwords]
  have h104 : slice (putFields t) 104 4 = leBytes 4 t.residualSigma.bits.toNat := by
    simp [putFields, slice_append_right, slice_append_left, hlatent, hwords]
  have h108 : slice (putFields t) 108 4 = leBytes 4 t.tokenId.toNat := by
    simp [putFields, slice_append_right, slice_append_left, hlatent, hwords]
  have h112 : slice (putFields t) 112 4 = leBytes 4 t.position.toNat := by
    simp [putFields, slice_append_right, slice_append_left, hlatent, hwords]
  have h116 : slice (putFields t) 116 2 = leBytes 2 t.headId.toNat := by
    simp [putFields, slice_append_right, slice_append_left, hlatent, hwords]
  have h118 : slice (putFields t) 118 2 = leBytes 2 t.flags.toNat := by
    simp [putFields, slice_append_right, slice_append_left, hlatent, hwords]
  have h120 : slice (putFields t) 120 8 = t.groupScales.1 := by
    simp [putFields, slice_append_right, hlatent, hwords, slice_zero_length, t.groupScales.2]
  have hbitmap : readWords residualWords (wordBytes t.residualBitmap.1) = t.residualBitmap.1 := by
    have hread := readWords_wordBytes t.residualBitmap.1
    rwa [t.residualBitmap.2] at hread
  have himage : (tileToBytes t).1 = putFields t := rfl
  unfold tileFromBytes f32At u32At u16At readFlags field
  simp only [himage, flagsOffset, residualBytes, residualWords, latentBytes, nGroups]
  obtain ⟨latent, bitmap, scale, lambda, sigma, token, position, head, flags, groups⟩ := t
  simp only [SciRustSlhaTile.mk.injEq]
  refine ⟨Subtype.ext (slice_append_left hlatent), Subtype.ext ?_, ?_, ?_, ?_, ?_, ?_, ?_, ?_,
    Subtype.ext h120⟩
  · exact (congrArg (readWords 4) h64).trans hbitmap
  · rw [h96, u32_roundtrip]
  · rw [h100, u32_roundtrip]
  · rw [h104, u32_roundtrip]
  · rw [h108, u32_roundtrip]
  · rw [h112, u32_roundtrip]
  · rw [h116, u16_roundtrip]
  · rw [h118, flags_roundtrip]

end SlhaV2.SlhaTile
