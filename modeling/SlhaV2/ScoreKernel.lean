import SlhaV2.CodecLevels
import SlhaV2.GpuPipeline

/-!
# Scores on the device

The device scores serialised tiles, one thread for each, with the group scales computed ahead of
the loop. Its decoder, the one of the host's codec module and the decoder of the tile are three
renderings of the same codecs.
-/
namespace SlhaV2.ScoreKernel
open ByteBuffer MachineWord FloatingPoint SingleFloat TileCodec SlhaTile LatentCodecs Single
open GpuPipeline PageTransition

variable {F : Type} [Single F]

/-- The parts of a tile that the host's functions are given. -/
structure Parts where
  latent : List UInt8
  scale : F32
  groupScales : List UInt8
  flags : Flags

def byteOf (l : List UInt8) (i : ℕ) : ℕ := (l.getD i 0).toNat

def extNibble (byte : ℕ) (hi : Bool) : ℕ := if hi then byte >>> 4 else byte &&& 0x0F

section Host
variable (val : F32 → F) (p : Parts)

/-- The quotient is a constant of its own here. -/
def effectiveScale (g : ℕ) : F :=
  val p.scale * ofNat (byteOf p.groupScales g) * (lit 1 / lit 255)

def sectionScale (g : ℕ) : F := val p.scale * ofNat (byteOf p.groupScales g) / lit 255

def dequantInt4 (d : ℕ) : F :=
  let nib := extNibble (byteOf p.latent (d >>> 1)) (d &&& 1 ≠ 0)
  lit (nib - 8 : ℤ) * effectiveScale val p (d / groupDim)

def dequantNf4 (d : ℕ) : F :=
  let nib := extNibble (byteOf p.latent (d >>> 1)) (d &&& 1 ≠ 0)
  val (nf4Codebook.getD nib F32.zero) * effectiveScale val p (d / groupDim)

def dequantMixed (d : ℕ) : F :=
  if d < mixedHiDims then lit (byteOf p.latent d - 128 : ℤ) * sectionScale val p 0
  else if d < mixedDims then
    let ld := d - mixedHiDims
    let nib := extNibble (byteOf p.latent (mixedHiDims + (ld >>> 1))) (ld &&& 1 ≠ 0)
    lit (nib - 8 : ℤ) * sectionScale val p (1 + ld / groupDim)
  else lit 0

/-- The level of the `ld`-th three-bit code of a plane and of its correction bit. -/
def threeBitLevel (codes corrections ld : ℕ) : F :=
  let bit := 3 * ld
  let byte := codes + (bit >>> 3)
  let hi := if byte + 1 < corrections then byteOf p.latent (byte + 1) <<< 8 else 0
  let code := ((byteOf p.latent byte ||| hi) >>> (bit &&& 7)) &&& 7
  let level := ofNat code - tq3HalfRange
  if !hasFlag p.flags flagTq3Nocorr then
    let corr := (byteOf p.latent (corrections + (ld >>> 3)) >>> (ld &&& 7)) &&& 1
    level + (if corr = 1 then lit 1 else lit (-1)) * tq3Correction
  else level

def dequantTq3 (d : ℕ) : F :=
  threeBitLevel p 0 tq3CodeBytes d * effectiveScale val p (d / groupDim)

def dequantMix3 (d : ℕ) : F :=
  if d < mixedHiDims then lit (byteOf p.latent d - 128 : ℤ) * sectionScale val p 0
  else if mixedDims ≤ d then lit 0
  else
    let ld := d - mixedHiDims
    threeBitLevel p mix3CodesOff mix3CorrOff ld * sectionScale val p (1 + ld / groupDim)

def dequantAt (d : ℕ) : F :=
  if hasFlag p.flags flagMixed then dequantMixed val p d
  else if hasFlag p.flags flagTq3 then dequantTq3 val p d
  else if hasFlag p.flags flagMix3 then dequantMix3 val p d
  else if hasFlag p.flags flagNf4 then dequantNf4 val p d
  else dequantInt4 val p d

def dotCoarse (qCoarse : Latent F) : F :=
  (List.finRange dC).foldl (fun sum d => sum + qCoarse d * dequantAt val p d) (lit 0)

def scoreWarm (qCoarse : Latent F) : F := dotCoarse val p qCoarse

def scoreHot (qCoarse : Latent F) (qSign residual : List UInt64) (dynamicLambda : F32) : F :=
  let ham := hammingScalar qSign residual
  dotCoarse val p qCoarse + val dynamicLambda * (ofNat dS - lit 2 * ofNat ham)

end Host

section Kernel
variable (val : F32 → F) (tile : List UInt8) (gs : ℕ → F)

/-- `flags` as the kernel reads it, from the bytes at its offset. -/
def kernelFlags : Flags := BitVec.ofNat 16 (leNat (slice tile 118 2))

def kernelFloat (offset : ℕ) : F32 := ⟨UInt32.ofNat (leNat (slice tile offset 4))⟩

def kernelResidual (w : ℕ) : UInt64 :=
  UInt64.ofNat (leNat (slice tile (latentBytes + 8 * w) 8))

/-- The effective scales, one for each group, computed before the loop. -/
def hoistedScale (g : ℕ) : F :=
  val (kernelFloat tile 96) * ofNat (byteOf tile (120 + g)) * (lit 1 / lit 255)

def dequantInt4At (d : ℕ) : F :=
  let nib := extNibble (byteOf tile (d >>> 1)) (d &&& 1 ≠ 0)
  lit (nib - 8 : ℤ) * gs (d / groupDim)

def dequantNf4At (d : ℕ) : F :=
  let nib := extNibble (byteOf tile (d >>> 1)) (d &&& 1 ≠ 0)
  val (nf4Codebook.getD nib F32.zero) * gs (d / groupDim)

def dequantMixedAt (d : ℕ) : F :=
  if d < mixedHiDims then lit (byteOf tile d - 128 : ℤ) * gs 0
  else if d < mixedDims then
    let ld := d - mixedHiDims
    let nib := extNibble (byteOf tile (mixedHiDims + (ld >>> 1))) (ld &&& 1 ≠ 0)
    lit (nib - 8 : ℤ) * gs (1 + ld / groupDim)
  else lit 0

/-- The correction is a constant of either sign here. -/
def threeBitLevelAt (flags : Flags) (codes corrections ld : ℕ) : F :=
  let bit := 3 * ld
  let byte := codes + (bit >>> 3)
  let hi := if byte + 1 < corrections then byteOf tile (byte + 1) <<< 8 else 0
  let code := ((byteOf tile byte ||| hi) >>> (bit &&& 7)) &&& 7
  let level := ofNat code - tq3HalfRange
  if !hasFlag flags flagTq3Nocorr then
    let corr := (byteOf tile (corrections + (ld >>> 3)) >>> (ld &&& 7)) &&& 1
    level + if corr = 1 then tq3Correction else lit (-(1 / 4))
  else level

def dequantTq3At (flags : Flags) (d : ℕ) : F :=
  threeBitLevelAt tile flags 0 tq3CodeBytes d * gs (d / groupDim)

def dequantMix3At (flags : Flags) (d : ℕ) : F :=
  if d < mixedHiDims then lit (byteOf tile d - 128 : ℤ) * gs 0
  else if mixedDims ≤ d then lit 0
  else
    let ld := d - mixedHiDims
    threeBitLevelAt tile flags mix3CodesOff mix3CorrOff ld * gs (1 + ld / groupDim)

/-- The loop over the dimensions with one of the decoders. -/
def coarseLoop (qCoarse : Latent F) (dequant : ℕ → F) : F :=
  (List.finRange dC).foldl (fun coarse d => coarse + qCoarse d * dequant d) (lit 0)

/-- The codec is chosen outside the loop. -/
def coarse (qCoarse : Latent F) : F :=
  let flags := kernelFlags tile
  let gs := hoistedScale val tile
  if hasFlag flags flagMixed then coarseLoop qCoarse (dequantMixedAt tile gs)
  else if hasFlag flags flagTq3 then coarseLoop qCoarse (dequantTq3At tile gs flags)
  else if hasFlag flags flagMix3 then coarseLoop qCoarse (dequantMix3At tile gs flags)
  else if hasFlag flags flagNf4 then coarseLoop qCoarse (dequantNf4At val tile gs)
  else coarseLoop qCoarse (dequantInt4At tile gs)

/-- What the thread of a tile stores. -/
def tileScore (qCoarse : Latent F) (qSign : ℕ → UInt64) : F :=
  if hasFlag (kernelFlags tile) flagWarm then coarse val tile qCoarse
  else
    let ham := (List.range residualWords).foldl
      (fun ham w => ham + (qSign w ^^^ kernelResidual tile w).toBitVec.cpop.toNat) 0
    coarse val tile qCoarse +
      val (kernelFloat tile 100) * (ofNat dS - lit 2 * ofNat ham)

end Kernel

/-- One thread; a thread beyond the tiles does nothing. -/
def slhaScoreKernel (val : F32 → F) (qCoarse : Latent F) (qSign : ℕ → UInt64)
    (tilesSerialized : List UInt8) (numTiles : ℕ) (scoresOut : ℕ → F) (tid : ℕ) : ℕ → F :=
  if numTiles ≤ tid then scoresOut
  else Function.update scoresOut tid
    (tileScore val (slice tilesSerialized (tid * tileBytes) tileBytes) qCoarse qSign)

theorem hasFlag_twoPow {flags mask : Flags} {k : ℕ} (hk : k < 16)
    (hmask : mask = BitVec.twoPow 16 k) : hasFlag flags mask = decide (flags &&& mask ≠ 0) := by
  have hne : BitVec.twoPow 16 k ≠ 0#16 := by
    intro h
    have hbit := congrArg (fun b => b.getLsbD k) h
    simp [hk] at hbit
  unfold hasFlag
  rw [hmask, BitVec.and_twoPow]
  cases flags.getLsbD k with
  | false => simp [Ne.symm hne]
  | true => simp [hne]

theorem extNibble_eq (l : List UInt8) (i d : ℕ) :
    extNibble (byteOf l i) (d &&& 1 ≠ 0) = nibble (l.getD i 0) d := by
  unfold extNibble nibble byteOf
  by_cases h : d &&& 1 = 0
  · have hlow : ¬decide (d &&& 1 ≠ 0) = true := by
      rw [decide_eq_true_eq]
      exact not_not.mpr h
    rw [if_neg hlow, if_pos h, UInt8.toNat_and]
    rfl
  · rw [if_pos (decide_eq_true h), if_neg h, UInt8.toNat_shiftRight]
    rfl

/-- The parts of a tile which the host's scoring functions are called with. -/
def partsOf (t : SciRustSlhaTile) : Parts := ⟨t.latentKv.1, t.scale, t.groupScales.1, t.flags⟩

variable (val : F32 → ℚ) (t : SciRustSlhaTile)

theorem effectiveScale_eq (d : ℕ) :
    effectiveScale val (partsOf t) (d / groupDim) = groupScale val t d := by
  show val t.scale * ((byteOf t.groupScales.1 (d / groupDim) : ℕ) : ℚ) * (1 / 255) =
    val t.scale * (((byteAt t.groupScales (d / groupDim)).toNat : ℕ) / 255)
  unfold byteOf byteAt
  ring

theorem threeBitLevel_eq (codes corrections ld : ℕ) :
    threeBitLevel (partsOf t) codes corrections ld =
      (tq3Level t (tq3Code (byteAt t.latentKv (codes + (3 * ld) >>> 3)).toNat
        (if codes + (3 * ld) >>> 3 + 1 < corrections then
          (byteAt t.latentKv (codes + (3 * ld) >>> 3 + 1)).toNat <<< 8 else 0) (3 * ld &&& 7))
        ((byteAt t.latentKv (corrections + ld >>> 3)).toNat >>> (ld &&& 7) &&& 1) : ℚ) := by
  have hflag : hasFlag t.flags flagTq3Nocorr = t.isTq3Nocorr :=
    hasFlag_twoPow (show 4 < 16 by decide) (by decide)
  unfold threeBitLevel tq3Level partsOf
  dsimp only
  rw [hflag]
  rfl

theorem dequantAt_partsOf (d : ℕ) :
    dequantAt val (partsOf t) d = LatentCodecs.dequantAt val t d := by
  have hmixed : hasFlag t.flags flagMixed = isMixed t :=
    hasFlag_twoPow (show 2 < 16 by decide) (by decide)
  have htq3 : hasFlag t.flags flagTq3 = t.isTq3 :=
    hasFlag_twoPow (show 3 < 16 by decide) (by decide)
  have hmix3 : hasFlag t.flags flagMix3 = t.isMix3 :=
    hasFlag_twoPow (show 5 < 16 by decide) (by decide)
  have hnf4 : hasFlag t.flags flagNf4 = isNf4 t :=
    hasFlag_twoPow (show 1 < 16 by decide) (by decide)
  unfold dequantAt LatentCodecs.dequantAt
  show (if hasFlag t.flags flagMixed then _ else if hasFlag t.flags flagTq3 then _ else
    if hasFlag t.flags flagMix3 then _ else if hasFlag t.flags flagNf4 then _ else _) = _
  rw [hmixed, htq3, hmix3, hnf4]
  by_cases h₁ : isMixed t = true
  · rw [if_pos h₁, if_pos h₁]
    unfold dequantMixed dequantAtMixed
    simp only [extNibble_eq]
    rfl
  · rw [if_neg h₁, if_neg h₁]
    by_cases h₂ : t.isTq3 = true
    · rw [if_pos h₂, if_pos h₂]
      unfold dequantTq3 dequantAtTq3
      rw [effectiveScale_eq, threeBitLevel_eq]
      simp only [Nat.zero_add]
    · rw [if_neg h₂, if_neg h₂]
      by_cases h₃ : t.isMix3 = true
      · rw [if_pos h₃, if_pos h₃]
        unfold dequantMix3 dequantAtMix3
        simp only [threeBitLevel_eq]
        rfl
      · rw [if_neg h₃, if_neg h₃]
        by_cases h₄ : isNf4 t = true
        · rw [if_pos h₄]
          unfold dequantNf4
          dsimp only
          rw [effectiveScale_eq, extNibble_eq, if_pos h₄]
          rfl
        · rw [if_neg h₄]
          unfold dequantInt4
          dsimp only
          rw [effectiveScale_eq, extNibble_eq, if_neg h₄]
          rfl

theorem dotCoarse_partsOf (qCoarse : Latent ℚ) : dotCoarse val (partsOf t) qCoarse =
    (List.finRange dC).foldl (fun coarse d => coarse + qCoarse d * dequantLatent val t d)
      (lit 0) := by
  unfold dotCoarse dequantLatent
  simp only [dequantAt_partsOf]

/-- The host's functions score a tile as the tile scores itself, in the one state or the other. -/
theorem host_scores_exact (qCoarse : Latent ℚ) (qSign : Words residualWords) :
    computeScoreScalar val t qCoarse qSign =
      if hasFlag t.flags flagWarm then scoreWarm val (partsOf t) qCoarse
      else scoreHot val (partsOf t) qCoarse qSign.1 t.residualBitmap.1 t.dynamicLambda := by
  have hwarm : hasFlag t.flags flagWarm = t.isWarm :=
    hasFlag_twoPow (show 0 < 16 by decide) (by decide)
  unfold computeScoreScalar scoreWarm scoreHot
  rw [hwarm, dotCoarse_partsOf]
  rfl

section Fields
variable {val : F32 → ℚ} (b : Tile)

theorem byteOf_latent {i : ℕ} (h : i < latentBytes) :
    byteOf (partsOf (tileFromBytes b)).latent i = byteOf b.1 i := by
  show ((slice b.1 0 latentBytes).getD i 0).toNat = (b.1.getD i 0).toNat
  rw [List.getD_eq_getElem?_getD, List.getD_eq_getElem?_getD, getElem?_slice, if_pos h,
    Nat.zero_add]

theorem byteOf_groupScales {g : ℕ} (h : g < nGroups) :
    byteOf (partsOf (tileFromBytes b)).groupScales g = byteOf b.1 (120 + g) := by
  show ((slice b.1 120 nGroups).getD g 0).toNat = (b.1.getD (120 + g) 0).toNat
  rw [List.getD_eq_getElem?_getD, List.getD_eq_getElem?_getD, getElem?_slice, if_pos h]

theorem hoistedScale_eq {g : ℕ} (h : g < nGroups) :
    hoistedScale val b.1 g = effectiveScale val (partsOf (tileFromBytes b)) g := by
  unfold effectiveScale
  rw [byteOf_groupScales b h]
  rfl

theorem hoistedScale_section {g : ℕ} (h : g < nGroups) :
    hoistedScale val b.1 g = sectionScale val (partsOf (tileFromBytes b)) g := by
  unfold sectionScale
  rw [byteOf_groupScales b h]
  show val (kernelFloat b.1 96) * ((byteOf b.1 (120 + g) : ℕ) : ℚ) * (1 / 255) =
    val (kernelFloat b.1 96) * ((byteOf b.1 (120 + g) : ℕ) : ℚ) / 255
  ring

/-- Within the planes the kernel's three-bit level is the host's. -/
theorem threeBitLevelAt_eq {codes corrections ld : ℕ} (hcode : codes + (3 * ld) >>> 3 < 64)
    (hlimit : corrections ≤ 64) (hcorr : corrections + ld >>> 3 < 64) :
    (threeBitLevelAt b.1 (kernelFlags b.1) codes corrections ld : ℚ) =
      threeBitLevel (partsOf (tileFromBytes b)) codes corrections ld := by
  have hhi : (if codes + (3 * ld) >>> 3 + 1 < corrections then
      byteOf b.1 (codes + (3 * ld) >>> 3 + 1) <<< 8 else 0) =
      if codes + (3 * ld) >>> 3 + 1 < corrections then
        byteOf (partsOf (tileFromBytes b)).latent (codes + (3 * ld) >>> 3 + 1) <<< 8 else 0 := by
    by_cases h : codes + (3 * ld) >>> 3 + 1 < corrections
    · rw [if_pos h, if_pos h, byteOf_latent b (show _ < 64 by omega)]
    · rw [if_neg h, if_neg h]
  have hsign : ∀ corr : ℕ, (if corr = 1 then (tq3Correction : ℚ) else lit (-(1 / 4))) =
      (if corr = 1 then lit 1 else lit (-1)) * tq3Correction := by
    intro corr
    have hquarter : (tq3Correction : ℚ) = 1 / 4 := rfl
    by_cases h : corr = 1
    · rw [if_pos h, if_pos h, hquarter]
      show (1 / 4 : ℚ) = 1 * (1 / 4)
      ring
    · rw [if_neg h, if_neg h, hquarter]
      show (-(1 / 4) : ℚ) = -1 * (1 / 4)
      ring
  unfold threeBitLevelAt threeBitLevel
  dsimp only
  rw [hhi, byteOf_latent b hcode, byteOf_latent b hcorr, hsign]
  rfl

theorem nibble_index {d : ℕ} (hd : d < dC) : d >>> 1 < latentBytes := by
  have hd' : d < 128 := hd
  show d >>> 1 < 64
  rw [Nat.shiftRight_eq_div_pow]
  omega

theorem group_index {d : ℕ} (hd : d < dC) : d / groupDim < nGroups := by
  have hd' : d < 128 := hd
  show d / 16 < 8
  omega

theorem head_index {d : ℕ} (hd : d < mixedHiDims) : d < latentBytes := by
  have hd' : d < 8 := hd
  show d < 64
  omega

theorem body_index {d : ℕ} (hd : d < mixedDims) :
    mixedHiDims + (d - mixedHiDims) >>> 1 < latentBytes := by
  have hd' : d < 120 := hd
  show 8 + (d - 8) >>> 1 < 64
  rw [Nat.shiftRight_eq_div_pow]
  omega

theorem section_index {d : ℕ} (hd : d < mixedDims) :
    1 + (d - mixedHiDims) / groupDim < nGroups := by
  have hd' : d < 120 := hd
  show 1 + (d - 8) / 16 < 8
  omega

theorem tq3_index {d : ℕ} (hd : d < dC) :
    0 + (3 * d) >>> 3 < 64 ∧ tq3CodeBytes + d >>> 3 < 64 := by
  have hd' : d < 128 := hd
  show 0 + (3 * d) >>> 3 < 64 ∧ 48 + d >>> 3 < 64
  rw [Nat.shiftRight_eq_div_pow, Nat.shiftRight_eq_div_pow]
  omega

theorem mix3_index {d : ℕ} (hd : d < mixedDims) :
    mix3CodesOff + (3 * (d - mixedHiDims)) >>> 3 < 64 ∧
      mix3CorrOff + (d - mixedHiDims) >>> 3 < 64 := by
  have hd' : d < 120 := hd
  show 8 + (3 * (d - 8)) >>> 3 < 64 ∧ 50 + (d - 8) >>> 3 < 64
  rw [Nat.shiftRight_eq_div_pow, Nat.shiftRight_eq_div_pow]
  omega

theorem dequantInt4At_eq {d : ℕ} (hd : d < dC) :
    dequantInt4At b.1 (hoistedScale val b.1) d =
      dequantInt4 val (partsOf (tileFromBytes b)) d := by
  unfold dequantInt4At dequantInt4
  rw [byteOf_latent b (nibble_index hd), hoistedScale_eq b (group_index hd)]

theorem dequantNf4At_eq {d : ℕ} (hd : d < dC) :
    dequantNf4At val b.1 (hoistedScale val b.1) d =
      dequantNf4 val (partsOf (tileFromBytes b)) d := by
  unfold dequantNf4At dequantNf4
  rw [byteOf_latent b (nibble_index hd), hoistedScale_eq b (group_index hd)]

theorem dequantMixedAt_eq (d : ℕ) :
    dequantMixedAt b.1 (hoistedScale val b.1) d =
      dequantMixed val (partsOf (tileFromBytes b)) d := by
  unfold dequantMixedAt dequantMixed
  by_cases hhead : d < mixedHiDims
  · rw [if_pos hhead, if_pos hhead, byteOf_latent b (head_index hhead),
      hoistedScale_section b (by decide)]
  · rw [if_neg hhead, if_neg hhead]
    by_cases hbody : d < mixedDims
    · rw [if_pos hbody, if_pos hbody]
      dsimp only
      rw [byteOf_latent b (body_index hbody), hoistedScale_section b (section_index hbody)]
    · rw [if_neg hbody, if_neg hbody]

theorem dequantTq3At_eq {d : ℕ} (hd : d < dC) :
    dequantTq3At b.1 (hoistedScale val b.1) (kernelFlags b.1) d =
      dequantTq3 val (partsOf (tileFromBytes b)) d := by
  unfold dequantTq3At dequantTq3
  rw [threeBitLevelAt_eq b (tq3_index hd).1 (by decide) (tq3_index hd).2,
    hoistedScale_eq b (group_index hd)]

theorem dequantMix3At_eq (d : ℕ) :
    dequantMix3At b.1 (hoistedScale val b.1) (kernelFlags b.1) d =
      dequantMix3 val (partsOf (tileFromBytes b)) d := by
  unfold dequantMix3At dequantMix3
  by_cases hhead : d < mixedHiDims
  · rw [if_pos hhead, if_pos hhead, byteOf_latent b (head_index hhead),
      hoistedScale_section b (by decide)]
  · rw [if_neg hhead, if_neg hhead]
    by_cases htail : mixedDims ≤ d
    · rw [if_pos htail, if_pos htail]
    · have hbody := Nat.lt_of_not_le htail
      rw [if_neg htail, if_neg htail]
      dsimp only
      rw [threeBitLevelAt_eq b (mix3_index hbody).1 (by decide) (mix3_index hbody).2,
        hoistedScale_section b (section_index hbody)]

theorem coarseLoop_congr {qCoarse : Latent ℚ} {f g : ℕ → ℚ} (h : ∀ d < dC, f d = g d) :
    coarseLoop qCoarse f = coarseLoop qCoarse g := by
  unfold coarseLoop
  apply List.foldl_ext
  intro c d _
  rw [h d d.isLt]

/-- Whichever codec the flags choose, the loop adds up the host's dimensions. -/
theorem coarse_eq (qCoarse : Latent ℚ) :
    coarse val b.1 qCoarse = dotCoarse val (partsOf (tileFromBytes b)) qCoarse := by
  show _ = coarseLoop qCoarse (dequantAt val (partsOf (tileFromBytes b)))
  have hflags : (partsOf (tileFromBytes b)).flags = kernelFlags b.1 := rfl
  unfold coarse dequantAt
  rw [hflags]
  dsimp only
  split_ifs
  · exact coarseLoop_congr fun d _ => dequantMixedAt_eq b d
  · exact coarseLoop_congr fun d hd => dequantTq3At_eq b hd
  · exact coarseLoop_congr fun d _ => dequantMix3At_eq b d
  · exact coarseLoop_congr fun d hd => dequantNf4At_eq b hd
  · exact coarseLoop_congr fun d hd => dequantInt4At_eq b hd

theorem getD_readWords {n : ℕ} (l : List UInt8) {w : ℕ} (h : w < n) :
    (readWords n l).getD w 0 = UInt64.ofNat (leNat (slice l (8 * w) 8)) := by
  induction n generalizing l w with
  | zero => omega
  | succ n ih =>
      cases w with
      | zero => rfl
      | succ w =>
          unfold readWords
          rw [List.getD_cons_succ, ih (l.drop 8) (Nat.lt_of_succ_lt_succ h)]
          unfold slice
          rw [List.drop_drop, show 8 * (w + 1) = 8 + 8 * w by ring]

theorem kernelResidual_eq {w : ℕ} (h : w < residualWords) :
    kernelResidual b.1 w = (tileFromBytes b).residualBitmap.1.getD w 0 := by
  show _ = (readWords residualWords (slice b.1 64 residualBytes)).getD w 0
  have hw : 8 * w + 8 ≤ residualBytes := by
    show 8 * w + 8 ≤ 32
    have hlt : w < 4 := h
    omega
  rw [getD_readWords _ h]
  unfold kernelResidual slice
  rw [List.drop_take, List.drop_drop, List.take_take, Nat.min_eq_left (by omega)]

theorem hamming_eq (qSign : Words residualWords) :
    (List.range residualWords).foldl (fun ham w =>
      ham + (qSign.1.getD w 0 ^^^ kernelResidual b.1 w).toBitVec.cpop.toNat) 0 =
      hammingScalar qSign.1 (tileFromBytes b).residualBitmap.1 := by
  have hword : ∀ w < residualWords,
      kernelResidual b.1 w = (tileFromBytes b).residualBitmap.1.getD w 0 :=
    fun w hw => kernelResidual_eq b hw
  obtain ⟨q, hq⟩ := qSign
  generalize (tileFromBytes b).residualBitmap = r at hword ⊢
  obtain ⟨r, hr⟩ := r
  match q, hq, r, hr with
  | [q₀, q₁, q₂, q₃], _, [r₀, r₁, r₂, r₃], _ =>
    show 0 + _ + _ + _ + _ = _ + (_ + (_ + (_ + 0)))
    rw [hword 0 (by decide), hword 1 (by decide), hword 2 (by decide), hword 3 (by decide)]
    show 0 + _ + _ + _ + _ = _ + (_ + (_ + (_ + 0)))
    rw [Nat.zero_add, Nat.add_zero, Nat.add_assoc, Nat.add_assoc]
    rfl

/-- The thread of a tile stores the score of the portable reference. -/
theorem tileScore_eq (qCoarse : Latent ℚ) (qSign : Words residualWords) :
    tileScore val b.1 qCoarse (fun w => qSign.1.getD w 0) =
      computeScoreScalar val (tileFromBytes b) qCoarse qSign := by
  rw [host_scores_exact]
  have hflags : (tileFromBytes b).flags = kernelFlags b.1 := rfl
  unfold tileScore scoreWarm scoreHot
  rw [hflags, coarse_eq, hamming_eq]
  rfl

end Fields

/-- Blocks of 256 threads, as many as the tiles need. -/
def threads (numTiles : ℕ) : ℕ := divCeil numTiles 256 * 256

/-- The threads of a launch take effect in some order. -/
def launch (val : F32 → F) (qCoarse : Latent F) (qSign : ℕ → UInt64) (tiles : List UInt8)
    (numTiles : ℕ) (order : List ℕ) (scores : ℕ → F) : ℕ → F :=
  order.foldl (slhaScoreKernel val qCoarse qSign tiles numTiles) scores

/-- Each thread stores to its own cell, so what a cell holds does not depend on the order. -/
theorem launch_eq (val : F32 → F) (qCoarse : Latent F) (qSign : ℕ → UInt64)
    (tiles : List UInt8) (numTiles : ℕ) (order : List ℕ) (scores : ℕ → F) (i : ℕ) :
    launch val qCoarse qSign tiles numTiles order scores i =
      if i ∈ order ∧ i < numTiles then
        tileScore val (slice tiles (i * tileBytes) tileBytes) qCoarse qSign
      else scores i := by
  unfold launch
  induction order generalizing scores with
  | nil => simp
  | cons tid order ih =>
      rw [List.foldl_cons, ih]
      by_cases hin : i ∈ order ∧ i < numTiles
      · rw [if_pos hin, if_pos ⟨List.mem_cons_of_mem tid hin.1, hin.2⟩]
      · rw [if_neg hin]
        unfold slhaScoreKernel
        by_cases hi : i = tid
        · subst hi
          by_cases hlt : i < numTiles
          · rw [if_neg (Nat.not_le.mpr hlt), Function.update_self,
              if_pos ⟨List.mem_cons_self, hlt⟩]
          · rw [if_pos (Nat.le_of_not_lt hlt), if_neg fun h => hlt h.2]
        · have hcell : ∀ v : F, Function.update scores tid v i = scores i :=
            fun v => Function.update_of_ne hi v scores
          have hout : ¬(i ∈ tid :: order ∧ i < numTiles) := by
            intro h
            exact hin ⟨(List.mem_cons.mp h.1).resolve_left hi, h.2⟩
          rw [if_neg hout]
          split_ifs
          · rfl
          · exact hcell _

theorem le_threads (numTiles : ℕ) : numTiles ≤ threads numTiles := by
  unfold threads divCeil
  split_ifs with h
  · omega
  · omega

/-- The answers of the driver to one call, the order of the threads, and what the memory for
the scores held. -/
structure Driver (F : Type) where
  copyCoarse : Link
  copySign : Link
  launched : Link
  synchronized : Link
  copyBack : Link
  order : List ℕ
  memory : ℕ → F

/-- `as i32`. -/
def asI32 (n : ℕ) : ℤ := (BitVec.ofNat 32 n).toInt

/-- The lengths of the device's other allocations hold one score for each tile of capacity and
one query. Without tiles nothing is launched. -/
def scoreTilesOnStream (val : F32 → F) (p : Pipeline) (qCoarse : Latent F)
    (qSign : ℕ → UInt64) (numTiles : ℤ) (d : Driver F) : Except String (ℕ → F) :=
  let n := numTiles.toNat
  if numTiles ≤ 0 then .ok d.memory
  else if p.device.length < n * tileBytes then
    .error ("score_tiles_on_stream: " ++ toString n ++ " tiles need " ++
      toString (n * tileBytes) ++ " bytes but the tile allocation has " ++
      toString p.device.length)
  else if p.capacityTiles * 4 < n * 4 then
    .error ("score_tiles_on_stream: " ++ toString n ++ " scores need " ++
      toString (n * 4) ++ " bytes but the score allocation has " ++
      toString (p.capacityTiles * 4))
  else match d.launched with
    | .error e => .error e
    | .ok _ => .ok (launch val qCoarse qSign p.device n d.order d.memory)

/-- The scores of the resident tiles replace the front of the caller's. -/
def scoreInto (val : F32 → F) (p : Pipeline) (qCoarse : List F) (qSign : List UInt64)
    (scores : List F) (d : Driver F) : Except String (List F) :=
  if qCoarse.length ≠ dC then
    .error ("GpuScoringPipeline: q_coarse must be exactly " ++ toString dC ++
      " f32 values, got " ++ toString qCoarse.length)
  else if qSign.length ≠ residualWords then
    .error ("GpuScoringPipeline: q_sign must be exactly " ++ toString residualWords ++
      " u64 values, got " ++ toString qSign.length)
  else if scores.length < p.resident then
    .error ("GpuScoringPipeline: scores buffer has " ++ toString scores.length ++
      " entries, need " ++ toString p.resident)
  else if p.resident = 0 then .ok scores
  else do
    d.copyCoarse
    d.copySign
    let stored ← scoreTilesOnStream val p (fun i => qCoarse.getD i (lit 0))
      (fun w => qSign.getD w 0) (asI32 p.resident) d
    d.synchronized
    d.copyBack
    .ok ((List.range p.resident).map stored ++ scores.drop p.resident)

theorem asI32_of_lt {n : ℕ} (h : n < 2 ^ 31) : asI32 n = n := by
  have hnat : (BitVec.ofNat 32 n).toNat = n := by
    rw [BitVec.toNat_ofNat]
    omega
  unfold asI32
  rw [BitVec.toInt_eq_toNat_of_lt (by omega), hnat]

/-- A sequence of calls returns what its last call returns, and each of them has returned. -/
theorem bind_eq_ok {α β : Type} {x : Except String α} {f : α → Except String β} {b : β} :
    (x >>= f) = .ok b ↔ ∃ a, x = .ok a ∧ f a = .ok b := by
  cases x <;> simp [bind, Except.bind]

theorem scoreTilesOnStream_eq_ok {val : F32 → F} {p : Pipeline} {qCoarse : Latent F}
    {qSign : ℕ → UInt64} {n : ℕ} {d : Driver F} {stored : ℕ → F} (hn : n ≠ 0)
    (h : scoreTilesOnStream val p qCoarse qSign n d = .ok stored) :
    stored = launch val qCoarse qSign p.device n d.order d.memory := by
  unfold scoreTilesOnStream at h
  dsimp only at h
  rw [if_neg (by omega), Int.toNat_natCast] at h
  split_ifs at h
  cases hl : d.launched with
  | error e =>
      rw [hl] at h
      cases h
  | ok _ =>
      rw [hl] at h
      cases h
      rfl

/-- A call that returns has replaced the front of the scores by what the launch stored. -/
theorem scoreInto_eq_ok {val : F32 → F} {p : Pipeline} {qCoarse : List F}
    {qSign : List UInt64} {scores out : List F} {d : Driver F} (hsmall : p.resident < 2 ^ 31)
    (h : scoreInto val p qCoarse qSign scores d = .ok out) : p.resident ≤ scores.length ∧
      out = (List.range p.resident).map (launch val (fun i => qCoarse.getD i (lit 0))
        (fun w => qSign.getD w 0) p.device p.resident d.order d.memory) ++
        scores.drop p.resident := by
  unfold scoreInto at h
  split_ifs at h with hcoarse hsign hlen hzero
  · cases h
    rw [hzero]
    exact ⟨Nat.zero_le _, rfl⟩
  · obtain ⟨_, _, h⟩ := bind_eq_ok.mp h
    obtain ⟨_, _, h⟩ := bind_eq_ok.mp h
    obtain ⟨stored, hstored, h⟩ := bind_eq_ok.mp h
    obtain ⟨_, _, h⟩ := bind_eq_ok.mp h
    obtain ⟨_, _, h⟩ := bind_eq_ok.mp h
    rw [asI32_of_lt hsmall] at hstored
    rw [scoreTilesOnStream_eq_ok hzero hstored] at h
    cases h
    exact ⟨Nat.le_of_not_lt hlen, rfl⟩

/-- From arbitrary device memory: after a run in which every zero tile written is covered, a
call that returns has put the reference score of the tile each slot was last given into its
place, in whatever order the threads ran, and nothing behind the resident slots. -/
theorem pipeline_scores_exact (val : F32 → ℚ) (capacityBytes : ℕ) (memory : ℕ → UInt8)
    (p : Pipeline) (hp : new capacityBytes (.ok memory) = .ok p) (cs : List Call)
    (hc : ZeroCoveredAlong (.start p) cs) (qCoarse : Latent ℚ) (qSign : Words residualWords)
    (scores out : List ℚ) (d : Driver ℚ)
    (hsmall : ((Observed.start p).run cs).pipeline.resident < 2 ^ 31)
    (horder : d.order.Perm
      (List.range (threads ((Observed.start p).run cs).pipeline.resident)))
    (h : scoreInto val ((Observed.start p).run cs).pipeline (List.ofFn qCoarse) qSign.1
      scores d = .ok out) :
    (∀ i < ((Observed.start p).run cs).pipeline.resident, ∃ tile,
      ((Observed.start p).run cs).written i = some tile ∧
        out[i]? = some (computeScoreScalar val (tileFromBytes tile) qCoarse qSign)) ∧
      out.length = scores.length ∧
      ∀ i, ((Observed.start p).run cs).pipeline.resident ≤ i → out[i]? = scores[i]? := by
  obtain ⟨hk, hr⟩ := new_kept hp
  have hstart : (Observed.start p).Faithful := by
    intro i hi
    rw [show (Observed.start p).pipeline.resident = 0 from hr] at hi
    omega
  have hfaithful := Observed.run_faithful (o := .start p) hk hstart hc
  generalize (Observed.start p).run cs = o at hsmall horder h hfaithful ⊢
  obtain ⟨hlen, hout⟩ := scoreInto_eq_ok hsmall h
  subst hout
  have hquery : (fun i : Fin dC => (List.ofFn qCoarse).getD i (lit 0)) = qCoarse := by
    funext i
    rw [List.getD_eq_getElem _ _ (by rw [List.length_ofFn]; exact i.isLt), List.getElem_ofFn]
  rw [hquery]
  refine ⟨?_, ?_, ?_⟩
  · intro i hi
    obtain ⟨tile, hwritten, hbytes⟩ := hfaithful i hi
    have hin : i ∈ d.order := by
      rw [horder.mem_iff, List.mem_range]
      exact hi.trans_le (le_threads _)
    refine ⟨tile, hwritten, ?_⟩
    rw [List.getElem?_append_left (by simpa using hi), List.getElem?_map,
      List.getElem?_range hi, Option.map_some, launch_eq, if_pos ⟨hin, hi⟩]
    unfold slotBytes at hbytes
    rw [hbytes, tileScore_eq]
  · rw [List.length_append, List.length_map, List.length_range, List.length_drop]
    omega
  · intro i hi
    rw [List.getElem?_append_right (by simpa using hi), List.getElem?_drop, List.length_map,
      List.length_range, Nat.add_sub_cancel' hi]

/-- With room for the scores and a driver that does not fail, a call returns. -/
theorem scoreInto_ok {val : F32 → F} {p : Pipeline} {qCoarse : List F} {qSign : List UInt64}
    {scores : List F} {d : Driver F} (hcoarse : qCoarse.length = dC)
    (hsign : qSign.length = residualWords) (hroom : p.resident ≤ scores.length)
    (hsmall : p.resident < 2 ^ 31) (hdevice : p.resident * tileBytes ≤ p.device.length)
    (hcapacity : p.resident ≤ p.capacityTiles)
    (hdriver : d.copyCoarse = .ok () ∧ d.copySign = .ok () ∧ d.launched = .ok () ∧
      d.synchronized = .ok () ∧ d.copyBack = .ok ()) :
    ∃ out, scoreInto val p qCoarse qSign scores d = .ok out := by
  obtain ⟨hc, hs, hl, hy, hb⟩ := hdriver
  unfold scoreInto
  rw [if_neg (not_not.mpr hcoarse), if_neg (not_not.mpr hsign), if_neg (Nat.not_lt.mpr hroom)]
  by_cases hzero : p.resident = 0
  · rw [if_pos hzero]
    exact ⟨_, rfl⟩
  · unfold scoreTilesOnStream
    rw [if_neg hzero, hc, hs, asI32_of_lt hsmall, hl, hy, hb]
    dsimp only
    rw [if_neg (by omega), Int.toNat_natCast, if_neg (Nat.not_lt.mpr hdevice),
      if_neg (by omega)]
    exact ⟨_, rfl⟩

/-- A driver that does not fail; the last thread runs first. -/
def backwards (numTiles : ℕ) : Driver ℚ :=
  ⟨.ok (), .ok (), .ok (), .ok (), .ok (), (List.range (threads numTiles)).reverse, fun _ => 7⟩

theorem backwards_order (n : ℕ) : (backwards n).order.Perm (List.range (threads n)) :=
  (List.range (threads n)).reverse_perm

theorem pipeline_scores_exact_marked :
    ∃ out, scoreInto (fun _ => 1) ((Observed.start onesPipeline).run markedRun).pipeline
        (List.ofFn fun _ : Fin dC => (1 : ℚ)) [0, 0, 0, 0] [5, 6] (backwards 1) = .ok out ∧
      out.length = 2 ∧ out[1]? = some 6 := by
  have hcover : ZeroCoveredAlong (.start onesPipeline) markedRun := by
    refine ⟨fun _ => ?_, fun _ => ?_, trivial⟩
    · apply Call.zeroCovered_of_ne
      intro i tile hw
      have hm := List.mem_of_getElem? (show [markedTile][i]? = some tile from hw)
      rw [List.mem_singleton.mp hm]
      exact markedTile_ne
    · apply Call.zeroCovered_of_ne
      intro i tile hw
      unfold Call.writes at hw
      dsimp only at hw
      split_ifs at hw
      rw [← Option.some.inj hw]
      exact markedTile_ne
  have hresident : ((Observed.start onesPipeline).run markedRun).pipeline.resident = 1 := by
    decide +kernel
  have hdevice : ((Observed.start onesPipeline).run markedRun).pipeline.device.length = 128 := by
    decide +kernel
  have hcapacity : ((Observed.start onesPipeline).run markedRun).pipeline.capacityTiles = 1 := by
    decide +kernel
  obtain ⟨out, hout⟩ := @scoreInto_ok ℚ _ (fun _ => 1)
    ((Observed.start onesPipeline).run markedRun).pipeline
    (List.ofFn fun _ : Fin dC => (1 : ℚ)) [0, 0, 0, 0] [5, 6] (backwards 1) List.length_ofFn rfl
    (by rw [hresident]; decide) (by rw [hresident]; decide)
    (by rw [hresident, hdevice]; decide) (by rw [hresident, hcapacity])
    ⟨rfl, rfl, rfl, rfl, rfl⟩
  have hexact := pipeline_scores_exact (fun _ => 1) 128 (fun _ => 255) onesPipeline
    (by decide +kernel) markedRun hcover (fun _ => 1) ⟨[0, 0, 0, 0], rfl⟩ [5, 6] out (backwards 1)
    (by rw [hresident]; decide)
    (by rw [hresident]; exact backwards_order 1) hout
  exact ⟨out, hout, hexact.2.1, hexact.2.2 1 (by rw [hresident])⟩

end SlhaV2.ScoreKernel
