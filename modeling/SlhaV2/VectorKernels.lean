import SlhaV2.LatentCodecs
import SlhaV2.VectorRegisters

/-!
# The vector kernels of the score

Each instruction set decodes each codec in its own way: nibbles are interleaved,
three-bit codes are cut out of windows of four bytes, the levels of a codebook are
permuted or looked up. The kernels follow the program instruction by instruction.
A pointer that leaves its array has no score.
-/
namespace SlhaV2.VectorKernels
open FloatingPoint SingleFloat Single TileCodec SlhaTile VectorRegisters
open LatentCodecs hiding residualTerm

inductive Arch where
  | x86_64 | aarch64 | other
deriving DecidableEq, Repr

/-- What the program detects of the machine it runs on. -/
structure Host where
  arch : Arch
  avx512f : Bool
  avx2 : Bool
  avx512vpopcntdq : Bool
  avx512vl : Bool
deriving DecidableEq, Repr

/-- Population counts of four lanes, which are then added. -/
def hammingVpopcntdq (a b : Words residualWords) : ℕ :=
  let lane := fun w => UInt64.ofNat (a.1.getD w 0 ^^^ b.1.getD w 0).toBitVec.cpop.toNat
  (lane 0 + lane 1 + lane 2 + lane 3).toNat % 2 ^ 32

def hammingDistance (host : Host) (a b : Words residualWords) : ℕ :=
  if host.arch = .x86_64 ∧ host.avx512vpopcntdq ∧ host.avx512vl then hammingVpopcntdq a b
  else hammingScalar a.1 b.1

variable {F : Type} [Fused F] (host : Host) (val : F32 → F) (t : SciRustSlhaTile)
variable (qCoarse : Latent F)

def residualTerm (qSign : Words residualWords) : F :=
  val t.dynamicLambda *
    (ofNat dS - lit 2 * ofNat (hammingDistance host qSign t.residualBitmap))

/-- The end that all kernels share. -/
def withResidual (qSign : Words residualWords) (coarse : F) : F :=
  if t.isWarm then coarse else coarse + residualTerm host val t qSign

def latent : Vec latentBytes UInt8 := fun i => byteAt t.latentKv i

/-- `global * (group_scales[g] as f32 * inv255)`. -/
def laneScale (g : ℕ) : Option F := do
  let byte ← get (fun i : Fin nGroups => byteAt t.groupScales i) g
  return val t.scale * (ofNat byte.toNat * (lit 1 / lit 255))

/-- Four bytes of the latent as a little-endian word. -/
def window (o : ℕ) : Option (BitVec 32) := do
  let b0 ← get (latent t) o
  let b1 ← get (latent t) (o + 1)
  let b2 ← get (latent t) (o + 2)
  let b3 ← get (latent t) (o + 3)
  return BitVec.ofNat 32 (b0.toNat + 256 * (b1.toNat + 256 * (b2.toNat + 256 * b3.toNat)))

/-- The offset of the three-bit grid, with the negative correction folded in. -/
def bias : F := if t.isTq3Nocorr then tq3HalfRange else tq3HalfRange + tq3Correction

def corrStep : F := lit 2 * tq3Correction

def codebook (lanes off : ℕ) : Vec lanes F := fun i => val (nf4Codebook.getD (off + i) F32.zero)

/-- The nibbles of eight bytes in the order of their dimensions. -/
def denibble (off : ℕ) : Option (Vec 16 UInt8) := do
  let packed ← loadlEpi64 (latent t) off
  let lo := andSi packed (set1 0x0F)
  let hi := andSi (srliEpi16 packed 4) (set1 0x0F)
  return unpackloEpi8 lo hi

namespace Avx2

def codeShifts : Vec 8 ℕ := fun l => 3 * l
def corrShifts : Vec 8 ℕ := fun l => l

/-- The products of eight dimensions are added to the lanes. -/
def accumulate (v : Vec 8 F) (off : ℕ) (acc : Vec 8 F) : Option (Vec 8 F) := do
  let qv ← loadu qCoarse off 8
  return addPs acc (mulPs v qv)

def int4Half (bytes : Vec 16 UInt8) (gs : Vec 8 F) : Vec 8 F :=
  mulPs gs (subPs (cvtepi32Ps (cvtepu8Epi32 8 (by decide) bytes)) (set1 (lit 8)))

def nf4Half (bytes : Vec 16 UInt8) (gs : Vec 8 F) : Vec 8 F :=
  let nib := cvtepu8Epi32 8 (by decide) bytes
  let loV := permutevar8x32Ps (codebook val 8 0) nib
  let hiV := permutevar8x32Ps (codebook val 8 8) nib
  let pickHi := cmpgtEpi32 nib (set1 7)
  mulPs gs (blendvPs loV hiV pickHi)

/-- One group of nibbles, in two halves. -/
def nibbleGroup (half : Vec 16 UInt8 → Vec 8 F → Vec 8 F) (bytes base scale : ℕ)
    (acc : Vec 8 F) : Option (Vec 8 F) := do
  let gs ← laneScale val t scale
  let d16 ← denibble t bytes
  let acc ← accumulate qCoarse (half d16 (set1 gs)) base acc
  accumulate qCoarse (half (srliSi128 d16 8) (set1 gs)) (base + 8) acc

/-- One block of eight three-bit codes. -/
def threeBitBlock (codes corrections base scale : ℕ) (acc : Vec 8 F) : Option (Vec 8 F) := do
  let gs ← laneScale val t scale
  let w ← window t codes
  let code := andEpi32 (srlvEpi32 (set1 w) codeShifts) (set1 7)
  let level := subPs (cvtepi32Ps code) (set1 (bias t))
  if t.isTq3Nocorr then accumulate qCoarse (mulPs level (set1 gs)) base acc
  else do
    let cbyte ← get (latent t) corrections
    let corr := andEpi32 (srlvEpi32 (set1 (cbyte.toBitVec.setWidth 32)) corrShifts) (set1 1)
    let level := addPs level (mulPs (cvtepi32Ps corr) (set1 corrStep))
    accumulate qCoarse (mulPs level (set1 gs)) base acc

/-- The dimensions of eight bits. -/
def head : Option (Vec 8 F) := do
  let hs ← laneScale val t 0
  let bytes ← loadlEpi64 (latent t) 0
  let hv := mulPs (set1 hs)
    (subPs (cvtepi32Ps (cvtepu8Epi32 8 (by decide) bytes)) (set1 (lit 128)))
  let qv ← loadu qCoarse 0 8
  return mulPs hv qv

def computeScore (qSign : Words residualWords) : Option F := do
  let acc ← loop nGroups (fun g => nibbleGroup val t qCoarse int4Half (g * 8) (g * groupDim) g)
    (set1 (lit 0))
  return withResidual host val t qSign (sumLanes acc)

def computeScoreNf4 (qSign : Words residualWords) : Option F := do
  let acc ← loop nGroups
    (fun g => nibbleGroup val t qCoarse (nf4Half val) (g * 8) (g * groupDim) g) (set1 (lit 0))
  return withResidual host val t qSign (sumLanes acc)

def computeScoreMixed (qSign : Words residualWords) : Option F := do
  let acc ← head val t qCoarse
  let acc ← loop mixedLoGroups (fun g => nibbleGroup val t qCoarse int4Half
    (mixedHiDims + g * 8) (mixedHiDims + g * groupDim) (1 + g)) acc
  return withResidual host val t qSign (sumLanes acc)

def computeScoreTq3 (qSign : Words residualWords) : Option F := do
  let acc ← loop (dC / 8)
    (fun b => threeBitBlock val t qCoarse (3 * b) (tq3CodeBytes + b) (8 * b) (b / 2))
    (set1 (lit 0))
  return withResidual host val t qSign (sumLanes acc)

def computeScoreMix3 (qSign : Words residualWords) : Option F := do
  let acc ← head val t qCoarse
  let acc ← loop (mixedLoDims / 8) (fun b => threeBitBlock val t qCoarse (mix3CodesOff + 3 * b)
    (mix3CorrOff + b) (mixedHiDims + 8 * b) (1 + b / 2)) acc
  return withResidual host val t qSign (sumLanes acc)

end Avx2

namespace Avx512

def codeShifts : Vec 16 ℕ := fun l => 3 * (l % 8)
def corrShifts : Vec 16 ℕ := fun l => l

def accumulate (v : Vec 16 F) (off : ℕ) (acc : Vec 16 F) : Option (Vec 16 F) := do
  let qv ← loadu qCoarse off 16
  return fmaddPs v qv acc

def int4Lanes (d16 : Vec 16 UInt8) (gs : Vec 16 F) : Vec 16 F :=
  mulPs gs (subPs (cvtepi32Ps (cvtepu8Epi32 16 (by decide) d16)) (set1 (lit 8)))

def nf4Lanes (d16 : Vec 16 UInt8) (gs : Vec 16 F) : Vec 16 F :=
  mulPs gs (permutexvarPs (cvtepu8Epi32 16 (by decide) d16) (codebook val 16 0))

def nibbleGroup (lanes : Vec 16 UInt8 → Vec 16 F → Vec 16 F) (bytes base scale : ℕ)
    (acc : Vec 16 F) : Option (Vec 16 F) := do
  let gs ← laneScale val t scale
  let d16 ← denibble t bytes
  accumulate qCoarse (lanes d16 (set1 gs)) base acc

/-- One group of sixteen three-bit codes: two windows, and one word of correction bits. -/
def threeBitGroup (codes corrections base scale : ℕ) (acc : Vec 16 F) :
    Option (Vec 16 F) := do
  let gs ← laneScale val t scale
  let w0 ← window t codes
  let w1 ← window t (codes + 3)
  let windows := inserti64x4 (castsi256Si512 (set1 w0)) (set1 w1) 1
  let code := andEpi32 (srlvEpi32 windows codeShifts) (set1 7)
  let level := subPs (cvtepi32Ps code) (set1 (bias t))
  if t.isTq3Nocorr then accumulate qCoarse (mulPs level (set1 gs)) base acc
  else do
    let c0 ← get (latent t) corrections
    let c1 ← get (latent t) (corrections + 1)
    let c16 := c0.toBitVec.setWidth 32 ||| c1.toBitVec.setWidth 32 <<< 8
    let corr := andEpi32 (srlvEpi32 (set1 c16) corrShifts) (set1 1)
    let level := fmaddPs (cvtepi32Ps corr) (set1 corrStep) level
    accumulate qCoarse (mulPs level (set1 gs)) base acc

def head : Option (Vec 16 F) := (Avx2.head val t qCoarse).map zextps256Ps512

def computeScore (qSign : Words residualWords) : Option F := do
  let acc ← loop nGroups (fun g => nibbleGroup val t qCoarse int4Lanes (g * 8) (g * groupDim) g)
    (set1 (lit 0))
  return withResidual host val t qSign (reduceAddPs acc)

def computeScoreNf4 (qSign : Words residualWords) : Option F := do
  let acc ← loop nGroups
    (fun g => nibbleGroup val t qCoarse (nf4Lanes val) (g * 8) (g * groupDim) g) (set1 (lit 0))
  return withResidual host val t qSign (reduceAddPs acc)

def computeScoreMixed (qSign : Words residualWords) : Option F := do
  let acc ← head val t qCoarse
  let acc ← loop mixedLoGroups (fun g => nibbleGroup val t qCoarse int4Lanes
    (mixedHiDims + g * 8) (mixedHiDims + g * groupDim) (1 + g)) acc
  return withResidual host val t qSign (reduceAddPs acc)

def computeScoreTq3 (qSign : Words residualWords) : Option F := do
  let acc ← loop nGroups (fun g => threeBitGroup val t qCoarse (6 * g) (tq3CodeBytes + 2 * g)
    (g * groupDim) g) (set1 (lit 0))
  return withResidual host val t qSign (reduceAddPs acc)

def computeScoreMix3 (qSign : Words residualWords) : Option F := do
  let acc ← head val t qCoarse
  let acc ← loop mixedLoGroups (fun g => threeBitGroup val t qCoarse (mix3CodesOff + 6 * g)
    (mix3CorrOff + 2 * g) (mixedHiDims + g * groupDim) (1 + g)) acc
  return withResidual host val t qSign (reduceAddPs acc)

end Avx512

namespace Neon

def codeShLo : Vec 4 ℤ := fun l => -(3 * l.val : ℤ)
def codeShHi : Vec 4 ℤ := fun l => -(12 + 3 * l.val : ℤ)
def corrShLo : Vec 4 ℤ := fun l => -(l.val : ℤ)
def corrShHi : Vec 4 ℤ := fun l => -(4 + l.val : ℤ)

/-- The codebook as a table of bytes. -/
def table : Vec 64 UInt8 := fun i =>
  UInt8.ofNat ((nf4Codebook.getD (i / 4) F32.zero).bits.toNat / 256 ^ (i.val % 4))

def accumulate (v : Vec 4 F) (off : ℕ) (acc : Vec 4 F) : Option (Vec 4 F) := do
  let qv ← loadu qCoarse off 4
  return vfmaqF32 acc v qv

def int4Quad (n4 : Vec 4 (BitVec 32)) (gs : Vec 4 F) : Vec 4 F :=
  mulPs (subPs (vcvtqF32U32 n4) (set1 (lit 8))) gs

/-- Each index becomes the four places of its level in the table. -/
def nf4Quad (n4 : Vec 4 (BitVec 32)) (gs : Vec 4 F) : Vec 4 F :=
  let idx := vaddqU32 (vmulqNU32 n4 0x04040404) (set1 0x03020100)
  let level := fun i => val ⟨word (vqtbl4qU8 table (vreinterpretqU8U32 idx)) i⟩
  mulPs level gs

/-- One group of nibbles, in four quads. -/
def nibbleGroup (quad : Vec 4 (BitVec 32) → Vec 4 F → Vec 4 F) (bytes base scale : ℕ)
    (acc : Vec 4 F) : Option (Vec 4 F) := do
  let gs ← laneScale val t scale
  let packed ← loadu (latent t) bytes 8
  let lo := andSi packed (set1 0x0F)
  let hi := vshrNU8 packed 4
  let wLo := vmovlU8 (vzip1U8 lo hi)
  let acc ← accumulate qCoarse (quad (vmovlU16 (vgetLowU16 wLo)) (set1 gs)) base acc
  let acc ← accumulate qCoarse (quad (vmovlU16 (vgetHighU16 wLo)) (set1 gs)) (base + 4) acc
  let wHi := vmovlU8 (vzip2U8 lo hi)
  let acc ← accumulate qCoarse (quad (vmovlU16 (vgetLowU16 wHi)) (set1 gs)) (base + 8) acc
  accumulate qCoarse (quad (vmovlU16 (vgetHighU16 wHi)) (set1 gs)) (base + 12) acc

def threeBitQuad (w cbyte : BitVec 32) (codeSh corrSh : Vec 4 ℤ) (gs : Vec 4 F) : Vec 4 F :=
  let code := andEpi32 (vshlqU32 (set1 w) codeSh) (set1 7)
  let level := subPs (vcvtqF32U32 code) (set1 (bias t))
  if t.isTq3Nocorr then mulPs level gs
  else
    let corr := andEpi32 (vshlqU32 (set1 cbyte) corrSh) (set1 1)
    mulPs (vfmaqF32 level (vcvtqF32U32 corr) (set1 corrStep)) gs

/-- One block of eight three-bit codes, in two quads. -/
def threeBitBlock (codes corrections base scale : ℕ) (acc : Vec 4 F) : Option (Vec 4 F) := do
  let gs ← laneScale val t scale
  let w ← window t codes
  let cbyte ← get (latent t) corrections
  let corr := cbyte.toBitVec.setWidth 32
  let acc ← accumulate qCoarse (threeBitQuad t w corr codeShLo corrShLo (set1 gs)) base acc
  accumulate qCoarse (threeBitQuad t w corr codeShHi corrShHi (set1 gs)) (base + 4) acc

/-- The dimensions of eight bits, in two quads. -/
def head (acc : Vec 4 F) : Option (Vec 4 F) := do
  let hs ← laneScale val t 0
  let bytes ← loadu (latent t) 0 8
  let w := vmovlU8 bytes
  let nLo := vcvtqF32U32 (vmovlU16 (vgetLowU16 w))
  let nHi := vcvtqF32U32 (vmovlU16 (vgetHighU16 w))
  let acc ← accumulate qCoarse (mulPs (subPs nLo (set1 (lit 128))) (set1 hs)) 0 acc
  accumulate qCoarse (mulPs (subPs nHi (set1 (lit 128))) (set1 hs)) 4 acc

def computeScore (qSign : Words residualWords) : Option F := do
  let acc ← loop nGroups (fun g => nibbleGroup val t qCoarse int4Quad (g * 8) (g * groupDim) g)
    (set1 (lit 0))
  return withResidual host val t qSign (vaddvqF32 acc)

def computeScoreNf4 (qSign : Words residualWords) : Option F := do
  let acc ← loop nGroups
    (fun g => nibbleGroup val t qCoarse (nf4Quad val) (g * 8) (g * groupDim) g) (set1 (lit 0))
  return withResidual host val t qSign (vaddvqF32 acc)

def computeScoreMixed (qSign : Words residualWords) : Option F := do
  let acc ← head val t qCoarse (set1 (lit 0))
  let acc ← loop mixedLoGroups (fun g => nibbleGroup val t qCoarse int4Quad
    (mixedHiDims + g * 8) (mixedHiDims + g * groupDim) (1 + g)) acc
  return withResidual host val t qSign (vaddvqF32 acc)

def computeScoreTq3 (qSign : Words residualWords) : Option F := do
  let acc ← loop (dC / 8)
    (fun b => threeBitBlock val t qCoarse (3 * b) (tq3CodeBytes + b) (8 * b) (b / 2))
    (set1 (lit 0))
  return withResidual host val t qSign (vaddvqF32 acc)

def computeScoreMix3 (qSign : Words residualWords) : Option F := do
  let acc ← head val t qCoarse (set1 (lit 0))
  let acc ← loop (mixedLoDims / 8) (fun b => threeBitBlock val t qCoarse (mix3CodesOff + 3 * b)
    (mix3CorrOff + b) (mixedHiDims + 8 * b) (1 + b / 2)) acc
  return withResidual host val t qSign (vaddvqF32 acc)

end Neon

/-- The portable path, with the distance of the machine. -/
def computeScoreScalar (qSign : Words residualWords) : F :=
  let k := dequantLatent val t
  withResidual host val t qSign
    ((List.finRange dC).foldl (fun coarse d => coarse + qCoarse d * k d) (lit 0))

def computeScore (qSign : Words residualWords) : Option F :=
  match host.arch with
  | .x86_64 =>
      if host.avx512f then
        if isMixed t then Avx512.computeScoreMixed host val t qCoarse qSign
        else if t.isTq3 then Avx512.computeScoreTq3 host val t qCoarse qSign
        else if t.isMix3 then Avx512.computeScoreMix3 host val t qCoarse qSign
        else if isNf4 t then Avx512.computeScoreNf4 host val t qCoarse qSign
        else Avx512.computeScore host val t qCoarse qSign
      else if host.avx2 then
        if isMixed t then Avx2.computeScoreMixed host val t qCoarse qSign
        else if t.isTq3 then Avx2.computeScoreTq3 host val t qCoarse qSign
        else if t.isMix3 then Avx2.computeScoreMix3 host val t qCoarse qSign
        else if isNf4 t then Avx2.computeScoreNf4 host val t qCoarse qSign
        else Avx2.computeScore host val t qCoarse qSign
      else some (computeScoreScalar host val t qCoarse qSign)
  | .aarch64 =>
      if isMixed t then Neon.computeScoreMixed host val t qCoarse qSign
      else if t.isTq3 then Neon.computeScoreTq3 host val t qCoarse qSign
      else if t.isMix3 then Neon.computeScoreMix3 host val t qCoarse qSign
      else if isNf4 t then Neon.computeScoreNf4 host val t qCoarse qSign
      else Neon.computeScore host val t qCoarse qSign
  | .other => some (computeScoreScalar host val t qCoarse qSign)

end SlhaV2.VectorKernels
