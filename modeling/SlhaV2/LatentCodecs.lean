import SlhaV2.SingleFloat
import SlhaV2.SlhaTile

/-!
# The latent codecs

Six ways to store 128 numbers in 64 bytes, a scale and eight group bytes. The
quantisers and the decoder are those of the program, over any type with its
operations. A stored float is read through `val`.
-/
namespace SlhaV2.LatentCodecs
open ByteBuffer FloatingPoint SingleFloat TileCodec SlhaTile Single

abbrev dS : ℕ := 256
abbrev groupDim : ℕ := dC / nGroups
abbrev mixedDims : ℕ := mixedHiDims + mixedLoDims
abbrev mixedLoGroups : ℕ := nGroups - 1
abbrev tq3CodeBytes : ℕ := dC * 3 / 8
abbrev mix3CodesOff : ℕ := mixedHiDims
abbrev mix3CodeBytes : ℕ := mixedLoDims * 3 / 8
abbrev mix3CorrOff : ℕ := mix3CodesOff + mix3CodeBytes

inductive LatentCodec where
  | int4Single
  | int4Grouped
  | nf4
  | mixed
  | tq3
  | mix3
deriving DecidableEq, Repr

variable {F : Type} [Single F]

def tq3HalfRange : F := lit (7 / 2)
def tq3Correction : F := lit (1 / 4)

/-- The sixteen levels −1, −0.7075, −0.5421, −0.4165, −0.3108, −0.2158, −0.1272, −0.0421 and their
opposites in reverse, as `f32`. -/
def nf4Codebook : List F32 :=
  [⟨0xbf800000⟩, ⟨0xbf351eb8⟩, ⟨0xbf0ac711⟩, ⟨0xbed53f7d⟩, ⟨0xbe9f212d⟩, ⟨0xbe5cfaad⟩,
    ⟨0xbe0240b8⟩, ⟨0xbd2c710d⟩, ⟨0x3d2c710d⟩, ⟨0x3e0240b8⟩, ⟨0x3e5cfaad⟩, ⟨0x3e9f212d⟩,
    ⟨0x3ed53f7d⟩, ⟨0x3f0ac711⟩, ⟨0x3f351eb8⟩, ⟨0x3f800000⟩]

/-- An array of 128 numbers. -/
abbrev Latent (F : Type) := Fin dC → F

/-- The number at an index which the program keeps in range. -/
def at128 (v : Latent F) (d : ℕ) : F := if h : d < dC then v ⟨d, h⟩ else lit 0

def byteAt {n : ℕ} (b : Bytes n) (i : ℕ) : UInt8 := b.1.getD i 0

section Decoder
variable (val : F32 → F) (t : SciRustSlhaTile)

def isNf4 : Bool := t.flags &&& flagNf4 ≠ 0
def isMixed : Bool := t.flags &&& flagMixed ≠ 0

/-- The scale of a dimension: the global one times its group byte. -/
def groupScale (d : ℕ) : F :=
  val t.scale * (ofNat (byteAt t.groupScales (d / groupDim)).toNat / lit 255)

/-- The same product, divided at the end. -/
def sectionScale (g : ℕ) : F :=
  val t.scale * ofNat (byteAt t.groupScales g).toNat / lit 255

/-- The nibble of an even dimension is the low one. -/
def nibble (byte : UInt8) (d : ℕ) : ℕ := (if d &&& 1 = 0 then byte &&& 0x0F else byte >>> 4).toNat

/-- The three bits from `shift` on, across at most two bytes. -/
def tq3Code (lo hi : ℕ) (shift : ℕ) : ℕ := ((lo ||| hi) >>> shift) &&& 7

def signOf (corr : ℕ) : F := if corr = 1 then lit 1 else lit (-1)

def dequantAtMixed (d : ℕ) : F :=
  if d < mixedHiDims then
    lit ((byteAt t.latentKv d).toNat - 128 : ℤ) * sectionScale val t 0
  else if d < mixedDims then
    let ld := d - mixedHiDims
    let nib := nibble (byteAt t.latentKv (mixedHiDims + (ld >>> 1))) ld
    lit (nib - 8 : ℤ) * sectionScale val t (1 + ld / groupDim)
  else lit 0

/-- The level of a three-bit code, with its correction when the plane is there. -/
def tq3Level (code corr : ℕ) : F :=
  let level := ofNat code - tq3HalfRange
  if !t.isTq3Nocorr then level + signOf corr * tq3Correction else level

def dequantAtTq3 (d : ℕ) : F :=
  let bit := 3 * d
  let byte := bit >>> 3
  let shift := bit &&& 7
  let lo := (byteAt t.latentKv byte).toNat
  -- the last code ends on the plane's boundary, so its second byte is not read
  let hi := if byte + 1 < tq3CodeBytes then (byteAt t.latentKv (byte + 1)).toNat <<< 8 else 0
  let corr := ((byteAt t.latentKv (tq3CodeBytes + (d >>> 3))).toNat >>> (d &&& 7)) &&& 1
  tq3Level t (tq3Code lo hi shift) corr * groupScale val t d

def dequantAtMix3 (d : ℕ) : F :=
  if d < mixedHiDims then
    lit ((byteAt t.latentKv d).toNat - 128 : ℤ) * sectionScale val t 0
  else if mixedDims ≤ d then lit 0
  else
    let ld := d - mixedHiDims
    let bit := 3 * ld
    let byte := mix3CodesOff + (bit >>> 3)
    let shift := bit &&& 7
    let lo := (byteAt t.latentKv byte).toNat
    let hi := if byte + 1 < mix3CorrOff then (byteAt t.latentKv (byte + 1)).toNat <<< 8 else 0
    let corr := ((byteAt t.latentKv (mix3CorrOff + (ld >>> 3))).toNat >>> (ld &&& 7)) &&& 1
    tq3Level t (tq3Code lo hi shift) corr * sectionScale val t (1 + ld / groupDim)

/-- One dimension of the latent, decoded by the codec which the flags select. -/
def dequantAt (d : ℕ) : F :=
  if isMixed t then dequantAtMixed val t d
  else if t.isTq3 then dequantAtTq3 val t d
  else if t.isMix3 then dequantAtMix3 val t d
  else
    let nib := nibble (byteAt t.latentKv (d >>> 1)) d
    let level := if isNf4 t then val (nf4Codebook.getD nib F32.zero) else lit (nib - 8 : ℤ)
    level * groupScale val t d

def dequantLatent : Latent F := fun d => dequantAt val t d

/-- Set bits of the difference, over the words of the residual. -/
def hammingScalar (a b : List UInt64) : ℕ :=
  ((List.zipWith (fun x y => (x ^^^ y).toBitVec.cpop.toNat) a b)).sum

def residualTerm (qSign : Words residualWords) : F :=
  val t.dynamicLambda *
    (ofNat dS - lit 2 * ofNat (hammingScalar qSign.1 t.residualBitmap.1))

/-- The portable reference score. -/
def computeScoreScalar (qCoarse : Latent F) (qSign : Words residualWords) : F :=
  let k := dequantLatent val t
  let coarse := (List.finRange dC).foldl (fun coarse d => coarse + qCoarse d * k d) (lit 0)
  if t.isWarm then coarse else coarse + residualTerm val t qSign

end Decoder

end SlhaV2.LatentCodecs
