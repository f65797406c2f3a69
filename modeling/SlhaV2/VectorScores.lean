import SlhaV2.VectorGroups

/-!
# Every vector kernel computes the portable score

The groups of a kernel cover every dimension of its codec once, so the lanes add up
to the portable dot product. Together with the residual this is the portable score,
on every machine and for every codec.
-/
namespace SlhaV2.VectorScores
open Finset
open FloatingPoint SingleFloat TileCodec SlhaTile VectorRegisters VectorKernels VectorGroups
open LatentCodecs hiding residualTerm computeScoreScalar

variable {val : F32 → ℚ} {t : SciRustSlhaTile} {qCoarse : Latent ℚ}

/-- Groups that follow each other are one stretch of dimensions. -/
theorem dotPart_loop (qCoarse : Latent ℚ) (off width n : ℕ) (f : ℕ → ℚ) :
    ∑ g ∈ range n, dotPart qCoarse (off + g * width) width (fun i => f (off + g * width + i)) =
      dotPart qCoarse off (n * width) fun i => f (off + i) := by
  induction n with
  | zero =>
      rw [range_zero, sum_empty, Nat.zero_mul]
      rfl
  | succ n ih =>
      rw [sum_range_succ, ih, Nat.succ_mul, ← dotPart_add qCoarse off (n * width) width]
      simp only [Nat.add_assoc]

/-- The level of a nibble codec at a dimension. -/
def dequantNibble (val : F32 → ℚ) (t : SciRustSlhaTile) (level : ℕ → ℚ) (d : ℕ) : ℚ :=
  level (nibble (byteAt t.latentKv (d >>> 1)) d) * groupScale val t d

theorem nibble_parity (b : UInt8) {i j : ℕ} (h : i % 2 = j % 2) : nibble b i = nibble b j := by
  unfold nibble
  rw [Nat.and_one_is_mod, Nat.and_one_is_mod, h]

theorem dotPart_congr {off lanes : ℕ} {v u : ℕ → ℚ} (h : ∀ l < lanes, v l = u l) :
    dotPart qCoarse off lanes v = dotPart qCoarse off lanes u := by
  unfold dotPart
  apply sum_congr rfl
  intro l hl
  rw [h l (mem_range.mp hl)]

theorem dequantNibble_group (level : ℕ → ℚ) {g i : ℕ} (hi : i < 16) :
    dequantNibble val t level (g * 16 + i) =
      level (nibbleAt t (g * 8) i) * sectionScale val t g := by
  have hbyte : (g * 16 + i) / 2 = g * 8 + i / 2 := by omega
  have hgroup : (g * 16 + i) / groupDim = g := by
    show (g * 16 + i) / 16 = g
    omega
  unfold dequantNibble nibbleAt
  rw [groupScale_eq, Nat.shiftRight_one, hbyte, hgroup,
    nibble_parity _ (by omega : (g * 16 + i) % 2 = i % 2)]

theorem int4_lit (n : ℕ) : (Single.lit ((n : ℤ) - 8 : ℤ) : ℚ) = int4Level n := by
  show (((n : ℤ) - 8 : ℤ) : ℚ) = (n : ℚ) - 8
  push_cast
  rfl

theorem dequantAtMixed_body {g i : ℕ} (hg : g < mixedLoGroups) (hi : i < 16) :
    dequantAtMixed val t (8 + g * 16 + i) =
      int4Level (nibbleAt t (8 + g * 8) i) * sectionScale val t (1 + g) := by
  have hg' : g < 7 := hg
  have hbody : 8 + g * 16 + i - mixedHiDims = g * 16 + i := by
    show 8 + g * 16 + i - 8 = _
    omega
  have hbyte : (g * 16 + i) / 2 = g * 8 + i / 2 := by omega
  have hgroup : (g * 16 + i) / groupDim = g := by
    show (g * 16 + i) / 16 = g
    omega
  unfold dequantAtMixed nibbleAt
  rw [if_neg (by show ¬ 8 + g * 16 + i < 8; omega),
    if_pos (by show 8 + g * 16 + i < 120; omega), hbody]
  dsimp only
  rw [Nat.shiftRight_one, hbyte, hgroup,
    nibble_parity _ (by omega : (g * 16 + i) % 2 = i % 2), Nat.add_assoc]
  exact congrArg (· * _) (int4_lit _)

theorem tq3Code_or {lo hi shift : ℕ} (h : lo < 256) :
    tq3Code lo (hi <<< 8) shift = (lo + 256 * hi) / 2 ^ shift % 8 := by
  unfold tq3Code
  rw [Nat.shiftLeft_eq, Nat.or_comm, Nat.mul_comm hi,
    ← Nat.two_pow_add_eq_or_of_lt (by omega : lo < 2 ^ 8), Nat.add_comm (2 ^ 8 * hi)]
  rw [show 7 = 2 ^ 3 - 1 from rfl, Nat.and_two_pow_sub_one_eq_mod, Nat.shiftRight_eq_div_pow]

/-- The three-bit code of the portable decoder, which reads two bytes, is the one in the
window. -/
theorem tq3Code_eq (t : SciRustSlhaTile) (codes bound b : ℕ) {l : ℕ} (hl : l < 8)
    (hbound : codes + 3 * b + 3 ≤ bound) :
    tq3Code (byteNat t (codes + (3 * (8 * b + l)) >>> 3))
      (if codes + (3 * (8 * b + l)) >>> 3 + 1 < bound then
        byteNat t (codes + (3 * (8 * b + l)) >>> 3 + 1) <<< 8 else 0)
      ((3 * (8 * b + l)) &&& 7) = codeAt t (codes + 3 * b) l := by
  have hbyte : codes + (3 * (8 * b + l)) >>> 3 = codes + 3 * b + 3 * l / 8 := by
    rw [Nat.shiftRight_eq_div_pow]
    omega
  have hshift : (3 * (8 * b + l)) &&& 7 = 3 * l % 8 := by
    rw [show 7 = 2 ^ 3 - 1 from rfl, Nat.and_two_pow_sub_one_eq_mod]
    omega
  rw [hbyte, hshift]
  generalize codes + 3 * b = o at hbound
  have h0 := byteNat_lt t o
  have h1 := byteNat_lt t (o + 1)
  have h2 := byteNat_lt t (o + 2)
  have hhi : (if o + 3 * l / 8 + 1 < bound then byteNat t (o + 3 * l / 8 + 1) <<< 8 else 0) =
      (if o + 3 * l / 8 + 1 < bound then byteNat t (o + 3 * l / 8 + 1) else 0) <<< 8 := by
    split
    · rfl
    · rfl
  rw [hhi, tq3Code_or (byteNat_lt _ _)]
  unfold codeAt
  -- the next byte is missing only behind the last two codes, which end in their own byte
  by_cases hnext : o + 3 * l / 8 + 1 < bound
  · rw [if_pos hnext, Nat.add_assoc]
    interval_cases l <;> norm_num <;> omega
  · rw [if_neg hnext]
    interval_cases l <;> norm_num <;> omega

theorem corr_eq (t : SciRustSlhaTile) (corrections b : ℕ) {l : ℕ} (hl : l < 8) :
    (byteNat t (corrections + (8 * b + l) >>> 3) >>> ((8 * b + l) &&& 7)) &&& 1 =
      corrAt t (corrections + b) l := by
  have hbyte : (8 * b + l) >>> 3 = b := by
    rw [Nat.shiftRight_eq_div_pow]
    omega
  have hbit : (8 * b + l) &&& 7 = l := by
    rw [show 7 = 2 ^ 3 - 1 from rfl, Nat.and_two_pow_sub_one_eq_mod]
    omega
  rw [hbyte, hbit, Nat.and_one_is_mod, Nat.shiftRight_eq_div_pow]
  rfl

theorem dequantAtTq3_block {b l : ℕ} (hb : b < dC / 8) (hl : l < 8) :
    dequantAtTq3 val t (8 * b + l) = tq3Level t (codeAt t (3 * b) l)
      (corrAt t (tq3CodeBytes + b) l) * sectionScale val t (b / 2) := by
  have hb' : b < 16 := hb
  have hcode := tq3Code_eq t 0 48 b hl (by omega)
  have hcorr := corr_eq t 48 b hl
  have hgroup : (8 * b + l) / groupDim = b / 2 := by
    show (8 * b + l) / 16 = _
    omega
  simp only [Nat.zero_add] at hcode
  unfold dequantAtTq3
  dsimp only
  rw [groupScale_eq, hgroup]
  exact congrArg₂ (fun c r => tq3Level t c r * _) hcode hcorr

theorem dequantAtMix3_block {b l : ℕ} (hb : b < mixedLoDims / 8) (hl : l < 8) :
    dequantAtMix3 val t (8 + 8 * b + l) = tq3Level t (codeAt t (mix3CodesOff + 3 * b) l)
      (corrAt t (mix3CorrOff + b) l) * sectionScale val t (1 + b / 2) := by
  have hb' : b < 14 := hb
  have hcode := tq3Code_eq t 8 50 b hl (by omega)
  have hcorr := corr_eq t 50 b hl
  have hbody : 8 + 8 * b + l - mixedHiDims = 8 * b + l := by
    show 8 + 8 * b + l - 8 = _
    omega
  have hgroup : (8 * b + l) / groupDim = b / 2 := by
    show (8 * b + l) / 16 = _
    omega
  unfold dequantAtMix3
  rw [if_neg (by show ¬ 8 + 8 * b + l < 8; omega),
    if_neg (by show ¬ 120 ≤ 8 + 8 * b + l; omega), hbody]
  dsimp only
  rw [hgroup]
  exact congrArg₂ (fun c r => tq3Level t c r * _) hcode hcorr

/-- The level of a dimension that has a byte of its own. -/
def dequantHead (val : F32 → ℚ) (t : SciRustSlhaTile) (d : ℕ) : ℚ :=
  ((byteNat t d : ℚ) - 128) * sectionScale val t 0

theorem head_lit (n : ℕ) : (Single.lit ((n : ℤ) - 128 : ℤ) : ℚ) = (n : ℚ) - 128 := by
  show (((n : ℤ) - 128 : ℤ) : ℚ) = (n : ℚ) - 128
  push_cast
  rfl

theorem dequantAtMixed_head {d : ℕ} (hd : d < mixedHiDims) :
    dequantAtMixed val t d = dequantHead val t d := by
  unfold dequantAtMixed
  rw [if_pos hd]
  exact congrArg (· * _) (head_lit _)

theorem dequantAtMix3_head {d : ℕ} (hd : d < mixedHiDims) :
    dequantAtMix3 val t d = dequantHead val t d := by
  unfold dequantAtMix3
  rw [if_pos hd]
  exact congrArg (· * _) (head_lit _)

theorem Avx2.head_eq (val : F32 → ℚ) (t : SciRustSlhaTile) (qCoarse : Latent ℚ) :
    ∃ acc, Avx2.head val t qCoarse = some acc ∧
      total acc = dotPart qCoarse 0 8 (dequantHead val t) := by
  obtain ⟨bytes, hload, hbytes⟩ := loadlEpi64_eq (latent t) (by decide : 0 + 8 ≤ latentBytes)
  have hq : 0 + 8 ≤ dC := by decide
  have hlane : ∀ l : Fin 8, mulPs (set1 (sectionScale val t 0))
      (subPs (cvtepi32Ps (cvtepu8Epi32 8 (by decide) bytes)) (set1 (Single.lit 128))) l =
      dequantHead val t l := by
    intro l
    have hbyte : (bytes ⟨l, by omega⟩).toNat = byteNat t l := by
      rw [hbytes l l.isLt]
      show byteNat t (0 + l) = _
      rw [Nat.zero_add]
    unfold mulPs subPs
    rw [cvtepi32Ps_widened, hbyte]
    exact mul_comm _ _
  unfold Avx2.head
  rw [laneScale_eq (by decide), hload, loadu_eq hq]
  exact ⟨_, rfl, total_products hq _ _ hlane⟩

theorem Avx512.head_eq (val : F32 → ℚ) (t : SciRustSlhaTile) (qCoarse : Latent ℚ) :
    ∃ acc, Avx512.head val t qCoarse = some acc ∧
      total acc = dotPart qCoarse 0 8 (dequantHead val t) := by
  obtain ⟨acc, hhead, htotal⟩ := Avx2.head_eq val t qCoarse
  unfold Avx512.head
  rw [hhead]
  exact ⟨_, rfl, (total_zext acc).trans htotal⟩

theorem Neon.head_adds (val : F32 → ℚ) (t : SciRustSlhaTile) (qCoarse : Latent ℚ) :
    Adds (Neon.head val t qCoarse) (dotPart qCoarse 0 8 (dequantHead val t)) := by
  obtain ⟨bytes, hload, hbytes⟩ : ∃ bytes : Vec 8 UInt8,
      loadu (latent t) 0 8 = some bytes ∧ ∀ i, (bytes i).toNat = byteNat t i := by
    refine ⟨_, loadu_eq (by decide), ?_⟩
    intro i
    show byteNat t (0 + i) = _
    rw [Nat.zero_add]
  have hlow : ∀ l : Fin 4, mulPs (subPs (vcvtqF32U32 (vmovlU16 (vgetLowU16 (vmovlU8 bytes))))
      (set1 (Single.lit 128))) (set1 (sectionScale val t 0)) l = dequantHead val t l := by
    intro l
    unfold mulPs subPs vcvtqF32U32
    rw [toNat_low, hbytes]
    rfl
  have hhigh : ∀ l : Fin 4, mulPs (subPs (vcvtqF32U32 (vmovlU16 (vgetHighU16 (vmovlU8 bytes))))
      (set1 (Single.lit 128))) (set1 (sectionScale val t 0)) l = dequantHead val t (4 + l) := by
    intro l
    unfold mulPs subPs vcvtqF32U32
    rw [toNat_high, hbytes]
    rfl
  have hadds := (Neon.accumulate_adds qCoarse (by decide : 0 + 4 ≤ dC) _ hlow).bind
    (Neon.accumulate_adds qCoarse (by decide : 4 + 4 ≤ dC)
      (fun l => dequantHead val t (4 + l)) hhigh)
  intro acc
  obtain ⟨acc', hacc, htotal⟩ := hadds acc
  refine ⟨acc', ?_, ?_⟩
  · unfold Neon.head
    rw [laneScale_eq (by decide), hload]
    exact hacc
  · rw [htotal]
    congr 1
    exact dotPart_add qCoarse 0 4 4 (dequantHead val t)

theorem sum_nibbles (qCoarse : Latent ℚ) (level : ℕ → ℚ) :
    ∑ g ∈ range nGroups, nibbleDot val t qCoarse level (g * 8) (g * groupDim) g =
      dotPart qCoarse 0 dC (dequantNibble val t level) := by
  have hloop := dotPart_loop qCoarse 0 16 8 (dequantNibble val t level)
  simp only [Nat.zero_add] at hloop
  rw [← hloop]
  apply sum_congr rfl
  intro g _
  exact (dotPart_congr fun i hi => (dequantNibble_group level hi)).symm

/-- The dimensions behind the last group decode to nothing. -/
theorem dotPart_tail {v : ℕ → ℚ} (hv : ∀ d, mixedDims ≤ d → v d = 0) :
    dotPart qCoarse 0 8 v + dotPart qCoarse 8 112 (fun i => v (8 + i)) =
      dotPart qCoarse 0 dC v := by
  have hzero : dotPart qCoarse 120 8 (fun i => v (120 + i)) = 0 := by
    apply sum_eq_zero
    intro l _
    have hdim := hv (120 + l) (Nat.le_add_right 120 l)
    dsimp only
    rw [hdim, mul_zero]
  have hbody := dotPart_add qCoarse 0 8 112 v
  have hall := dotPart_add qCoarse 0 120 8 v
  rw [hzero, add_zero] at hall
  exact hbody.trans hall

theorem sum_mixed (qCoarse : Latent ℚ) : dotPart qCoarse 0 8 (dequantHead val t) +
    ∑ g ∈ range mixedLoGroups, nibbleDot val t qCoarse int4Level (mixedHiDims + g * 8)
      (mixedHiDims + g * groupDim) (1 + g) = dotPart qCoarse 0 dC (dequantAtMixed val t) := by
  have hloop := dotPart_loop qCoarse 8 16 7 (dequantAtMixed val t)
  have htail : ∀ d, mixedDims ≤ d → dequantAtMixed val t d = 0 := by
    intro d hd
    unfold dequantAtMixed
    rw [if_neg (by have : mixedHiDims ≤ mixedDims := by decide
                   omega), if_neg (by omega)]
    rfl
  rw [← dotPart_tail htail, ← hloop]
  apply congrArg₂ (· + ·)
  · exact (dotPart_congr fun d hd => dequantAtMixed_head hd).symm
  · apply sum_congr rfl
    intro g hg
    exact (dotPart_congr fun i hi => dequantAtMixed_body (mem_range.mp hg) hi).symm

theorem threeBitDot_tq3 (val : F32 → ℚ) (t : SciRustSlhaTile) (qCoarse : Latent ℚ) {b : ℕ}
    (hb : b < dC / 8) :
    threeBitDot val t qCoarse (3 * b) (tq3CodeBytes + b) (8 * b) (b / 2) =
      dotPart qCoarse (8 * b) 8 fun l => dequantAtTq3 val t (8 * b + l) :=
  (dotPart_congr fun _ hl => dequantAtTq3_block hb hl).symm

theorem threeBitDot_mix3 (val : F32 → ℚ) (t : SciRustSlhaTile) (qCoarse : Latent ℚ) {b : ℕ}
    (hb : b < mixedLoDims / 8) :
    threeBitDot val t qCoarse (mix3CodesOff + 3 * b) (mix3CorrOff + b) (8 + 8 * b) (1 + b / 2) =
      dotPart qCoarse (8 + 8 * b) 8 fun l => dequantAtMix3 val t (8 + 8 * b + l) :=
  (dotPart_congr fun _ hl => dequantAtMix3_block hb hl).symm

theorem sum_tq3 (qCoarse : Latent ℚ) :
    ∑ b ∈ range (dC / 8), threeBitDot val t qCoarse (3 * b) (tq3CodeBytes + b) (8 * b) (b / 2) =
      dotPart qCoarse 0 dC (dequantAtTq3 val t) := by
  have hloop := dotPart_loop qCoarse 0 8 16 (dequantAtTq3 val t)
  simp only [Nat.zero_add] at hloop
  rw [← hloop]
  apply sum_congr rfl
  intro b hb
  rw [threeBitDot_tq3 val t qCoarse (mem_range.mp hb), Nat.mul_comm 8 b]

theorem mix3_tail (d : ℕ) (hd : mixedDims ≤ d) : dequantAtMix3 val t d = 0 := by
  have hle : mixedHiDims ≤ mixedDims := by decide
  unfold dequantAtMix3
  rw [if_neg (by omega), if_pos hd]
  rfl

theorem sum_mix3 (qCoarse : Latent ℚ) : dotPart qCoarse 0 8 (dequantHead val t) +
    ∑ b ∈ range (mixedLoDims / 8), threeBitDot val t qCoarse (mix3CodesOff + 3 * b)
      (mix3CorrOff + b) (mixedHiDims + 8 * b) (1 + b / 2) =
      dotPart qCoarse 0 dC (dequantAtMix3 val t) := by
  have hloop := dotPart_loop qCoarse 8 8 14 (dequantAtMix3 val t)
  rw [← dotPart_tail mix3_tail, ← hloop]
  apply congrArg₂ (· + ·)
  · exact (dotPart_congr fun d hd => dequantAtMix3_head hd).symm
  · apply sum_congr rfl
    intro b hb
    rw [Nat.mul_comm b 8]
    exact threeBitDot_mix3 val t qCoarse (mem_range.mp hb)

/-- Two neighbouring blocks are one group of sixteen. -/
theorem sum_tq3_pairs (qCoarse : Latent ℚ) :
    ∑ g ∈ range nGroups, (threeBitDot val t qCoarse (6 * g) (tq3CodeBytes + 2 * g)
        (g * groupDim) g +
      threeBitDot val t qCoarse (6 * g + 3) (tq3CodeBytes + 2 * g + 1) (g * groupDim + 8) g) =
      dotPart qCoarse 0 dC (dequantAtTq3 val t) := by
  have hloop := dotPart_loop qCoarse 0 16 8 (dequantAtTq3 val t)
  simp only [Nat.zero_add] at hloop
  rw [← hloop]
  apply sum_congr rfl
  intro g hg
  have hg' : g < 8 := mem_range.mp hg
  have hfirst := threeBitDot_tq3 val t qCoarse
    (by show 2 * g < 16; omega : 2 * g < dC / 8)
  have hsecond := threeBitDot_tq3 val t qCoarse
    (by show 2 * g + 1 < 16; omega : 2 * g + 1 < dC / 8)
  have hadd := dotPart_add qCoarse (g * 16) 8 8
    fun i => dequantAtTq3 val t (g * 16 + i)
  rw [show 3 * (2 * g) = 6 * g by omega, show 8 * (2 * g) = g * 16 by omega,
    show 2 * g / 2 = g by omega] at hfirst
  rw [show 3 * (2 * g + 1) = 6 * g + 3 by omega, show 8 * (2 * g + 1) = g * 16 + 8 by omega,
    show (2 * g + 1) / 2 = g by omega, ← Nat.add_assoc] at hsecond
  simp only [← Nat.add_assoc] at hadd
  rw [← hadd, ← hfirst, ← hsecond]
  rfl

theorem sum_mix3_pairs (qCoarse : Latent ℚ) : dotPart qCoarse 0 8 (dequantHead val t) +
    ∑ g ∈ range mixedLoGroups, (threeBitDot val t qCoarse (mix3CodesOff + 6 * g)
        (mix3CorrOff + 2 * g) (mixedHiDims + g * groupDim) (1 + g) +
      threeBitDot val t qCoarse (mix3CodesOff + 6 * g + 3) (mix3CorrOff + 2 * g + 1)
        (mixedHiDims + g * groupDim + 8) (1 + g)) =
      dotPart qCoarse 0 dC (dequantAtMix3 val t) := by
  have hloop := dotPart_loop qCoarse 8 16 7 (dequantAtMix3 val t)
  rw [← dotPart_tail mix3_tail, ← hloop]
  apply congrArg₂ (· + ·)
  · exact (dotPart_congr fun d hd => dequantAtMix3_head hd).symm
  · apply sum_congr rfl
    intro g hg
    have hg' : g < 7 := mem_range.mp hg
    have hfirst := threeBitDot_mix3 val t qCoarse
      (by show 2 * g < 14; omega : 2 * g < mixedLoDims / 8)
    have hsecond := threeBitDot_mix3 val t qCoarse
      (by show 2 * g + 1 < 14; omega : 2 * g + 1 < mixedLoDims / 8)
    have hadd := dotPart_add qCoarse (8 + g * 16) 8 8
      fun i => dequantAtMix3 val t (8 + g * 16 + i)
    rw [show 3 * (2 * g) = 6 * g by omega, show 8 * (2 * g) = g * 16 by omega,
      show 2 * g / 2 = g by omega] at hfirst
    rw [show 3 * (2 * g + 1) = 6 * g + 3 by omega, show 8 * (2 * g + 1) = g * 16 + 8 by omega,
      show (2 * g + 1) / 2 = g by omega, ← Nat.add_assoc, ← Nat.add_assoc, ← Nat.add_assoc]
      at hsecond
    simp only [← Nat.add_assoc] at hadd
    rw [← hadd, ← hfirst, ← hsecond]
    rfl

theorem coarse_eq (qCoarse : Latent ℚ) : (List.finRange dC).foldl
    (fun coarse d => coarse + qCoarse d * dequantLatent val t d) (Single.lit 0) =
      dotPart qCoarse 0 dC (dequantAt val t) := by
  have hsum := sumLanes_eq fun d : Fin dC => qCoarse d * dequantLatent val t d
  apply hsum.trans
  unfold total dotPart
  rw [sum_range]
  apply sum_congr rfl
  intro d _
  unfold at128
  rw [Nat.zero_add, dif_pos d.isLt]
  rfl

section Kernels
variable {host : Host} {qSign : Words residualWords}

theorem scalar_eq : VectorKernels.computeScoreScalar host val t qCoarse qSign =
    withResidual host val t qSign (dotPart qCoarse 0 dC (dequantAt val t)) := by
  unfold VectorKernels.computeScoreScalar
  exact congrArg (withResidual host val t qSign) (coarse_eq qCoarse)

/-- A kernel is its loop, the sum of the lanes and the residual. -/
theorem score_of_loop {n k : ℕ} {body : ℕ → Vec n ℚ → Option (Vec n ℚ)} (f : ℕ → ℚ)
    {acc : Vec n ℚ} {reduce : Vec n ℚ → ℚ} (hreduce : ∀ v, reduce v = total v)
    (hbody : ∀ g < k, Adds (body g) (f g))
    (hcoarse : total acc + ∑ g ∈ range k, f g = dotPart qCoarse 0 dC (dequantAt val t)) :
    (do let acc ← VectorRegisters.loop k body acc
        return withResidual host val t qSign (reduce acc)) =
      some (VectorKernels.computeScoreScalar host val t qCoarse qSign) := by
  obtain ⟨acc', hacc, htotal⟩ := Adds.loop hbody acc
  rw [hacc, scalar_eq, ← hcoarse, ← htotal, ← hreduce]
  rfl

theorem total_zero (n : ℕ) : total (set1 (Single.lit 0) : Vec n ℚ) = 0 := by
  unfold total
  exact sum_eq_zero fun _ _ => rfl

theorem dequantAt_nibble {level : ℕ → ℚ} (hmixed : isMixed t = false) (htq3 : t.isTq3 = false)
    (hmix3 : t.isMix3 = false)
    (hlevel : ∀ n, (if isNf4 t then val (nf4Codebook.getD n F32.zero)
      else Single.lit ((n : ℤ) - 8 : ℤ)) = level n) :
    dequantAt val t = dequantNibble val t level := by
  funext d
  unfold dequantAt dequantNibble
  rw [hmixed, htq3, hmix3, ← hlevel]
  rfl

theorem nibble_bounds {g : ℕ} (hg : g < nGroups) :
    g * 8 + 8 ≤ latentBytes ∧ g * groupDim + 16 ≤ dC := by
  have hg' : g < 8 := hg
  constructor
  · show g * 8 + 8 ≤ 64
    omega
  · show g * 16 + 16 ≤ 128
    omega

theorem body_bounds {g : ℕ} (hg : g < mixedLoGroups) :
    mixedHiDims + g * 8 + 8 ≤ latentBytes ∧ mixedHiDims + g * groupDim + 16 ≤ dC ∧
      1 + g < nGroups := by
  have hg' : g < 7 := hg
  refine ⟨?_, ?_, ?_⟩
  · show 8 + g * 8 + 8 ≤ 64
    omega
  · show 8 + g * 16 + 16 ≤ 128
    omega
  · show 1 + g < 8
    omega

section Nibbles
variable {level : ℕ → ℚ} (hdequant : dequantAt val t = dequantNibble val t level)
include hdequant

theorem nibbles_coarse (n : ℕ) : total (set1 (Single.lit 0) : Vec n ℚ) +
    ∑ g ∈ range nGroups, nibbleDot val t qCoarse level (g * 8) (g * groupDim) g =
      dotPart qCoarse 0 dC (dequantAt val t) := by
  rw [total_zero, zero_add, hdequant, sum_nibbles]

theorem Avx2.nibbles_eq {half : Vec 16 UInt8 → Vec 8 ℚ → Vec 8 ℚ}
    (hhalf : ∀ b gs (l : Fin 8), (b ⟨l, by omega⟩ : UInt8).toNat < 16 →
      half b (set1 gs) l = level (b ⟨l, by omega⟩).toNat * gs) :
    (do let acc ← VectorRegisters.loop nGroups
          (fun g => Avx2.nibbleGroup val t qCoarse half (g * 8) (g * groupDim) g)
          (set1 (Single.lit 0))
        return withResidual host val t qSign (sumLanes acc)) =
      some (VectorKernels.computeScoreScalar host val t qCoarse qSign) := by
  apply score_of_loop _ sumLanes_eq _ (nibbles_coarse hdequant 8)
  intro g hg
  exact Avx2.nibbleGroup_adds hhalf (nibble_bounds hg).1 (nibble_bounds hg).2 hg

theorem Avx512.nibbles_eq {lanes : Vec 16 UInt8 → Vec 16 ℚ → Vec 16 ℚ}
    (hlanes : ∀ b gs (l : Fin 16), (b l : UInt8).toNat < 16 →
      lanes b (set1 gs) l = level (b l).toNat * gs) :
    (do let acc ← VectorRegisters.loop nGroups
          (fun g => Avx512.nibbleGroup val t qCoarse lanes (g * 8) (g * groupDim) g)
          (set1 (Single.lit 0))
        return withResidual host val t qSign (reduceAddPs acc)) =
      some (VectorKernels.computeScoreScalar host val t qCoarse qSign) := by
  apply score_of_loop _ reduceAddPs_eq _ (nibbles_coarse hdequant 16)
  intro g hg
  exact Avx512.nibbleGroup_adds hlanes (nibble_bounds hg).1 (nibble_bounds hg).2 hg

theorem Neon.nibbles_eq {quad : Vec 4 (BitVec 32) → Vec 4 ℚ → Vec 4 ℚ}
    (hquad : ∀ n4 gs (l : Fin 4), (n4 l : BitVec 32).toNat < 16 →
      quad n4 (set1 gs) l = level (n4 l).toNat * gs) :
    (do let acc ← VectorRegisters.loop nGroups
          (fun g => Neon.nibbleGroup val t qCoarse quad (g * 8) (g * groupDim) g)
          (set1 (Single.lit 0))
        return withResidual host val t qSign (vaddvqF32 acc)) =
      some (VectorKernels.computeScoreScalar host val t qCoarse qSign) := by
  apply score_of_loop _ vaddvqF32_eq _ (nibbles_coarse hdequant 4)
  intro g hg
  exact Neon.nibbleGroup_adds hquad (nibble_bounds hg).1 (nibble_bounds hg).2 hg

end Nibbles

section Mixed
variable (hdequant : dequantAt val t = dequantAtMixed val t)
include hdequant

theorem Avx2.mixed_eq : Avx2.computeScoreMixed host val t qCoarse qSign =
    some (VectorKernels.computeScoreScalar host val t qCoarse qSign) := by
  obtain ⟨acc, hhead, htotal⟩ := Avx2.head_eq val t qCoarse
  unfold Avx2.computeScoreMixed
  rw [hhead, Option.bind_eq_bind, Option.bind_some]
  apply score_of_loop (fun g => nibbleDot val t qCoarse int4Level (mixedHiDims + g * 8)
    (mixedHiDims + g * groupDim) (1 + g)) sumLanes_eq
  · intro g hg
    obtain ⟨hbytes, hbase, hscale⟩ := body_bounds hg
    exact Avx2.nibbleGroup_adds (fun b gs l _ => Avx2.int4Half_eq b gs l) hbytes hbase hscale
  · rw [htotal, hdequant, sum_mixed]

theorem Avx512.mixed_eq : Avx512.computeScoreMixed host val t qCoarse qSign =
    some (VectorKernels.computeScoreScalar host val t qCoarse qSign) := by
  obtain ⟨acc, hhead, htotal⟩ := Avx512.head_eq val t qCoarse
  unfold Avx512.computeScoreMixed
  rw [hhead, Option.bind_eq_bind, Option.bind_some]
  apply score_of_loop (fun g => nibbleDot val t qCoarse int4Level (mixedHiDims + g * 8)
    (mixedHiDims + g * groupDim) (1 + g)) reduceAddPs_eq
  · intro g hg
    obtain ⟨hbytes, hbase, hscale⟩ := body_bounds hg
    exact Avx512.nibbleGroup_adds (fun b gs l _ => Avx512.int4Lanes_eq b gs l) hbytes hbase hscale
  · rw [htotal, hdequant, sum_mixed]

theorem Neon.mixed_eq : Neon.computeScoreMixed host val t qCoarse qSign =
    some (VectorKernels.computeScoreScalar host val t qCoarse qSign) := by
  obtain ⟨acc, hhead, htotal⟩ := Neon.head_adds val t qCoarse (set1 (Single.lit 0))
  unfold Neon.computeScoreMixed
  rw [hhead, Option.bind_eq_bind, Option.bind_some]
  apply score_of_loop (fun g => nibbleDot val t qCoarse int4Level (mixedHiDims + g * 8)
    (mixedHiDims + g * groupDim) (1 + g)) vaddvqF32_eq
  · intro g hg
    obtain ⟨hbytes, hbase, hscale⟩ := body_bounds hg
    exact Neon.nibbleGroup_adds (fun n4 gs l _ => Neon.int4Quad_eq n4 gs l) hbytes hbase hscale
  · rw [htotal, total_zero, zero_add, hdequant, sum_mixed]

end Mixed

theorem tq3_bounds {b : ℕ} (hb : b < dC / 8) : 3 * b + 4 ≤ latentBytes ∧
    tq3CodeBytes + b < latentBytes ∧ 8 * b + 8 ≤ dC ∧ b / 2 < nGroups := by
  have hb' : b < 16 := hb
  refine ⟨?_, ?_, ?_, ?_⟩
  · show 3 * b + 4 ≤ 64
    omega
  · show 48 + b < 64
    omega
  · show 8 * b + 8 ≤ 128
    omega
  · show b / 2 < 8
    omega

section Tq3
variable (hdequant : dequantAt val t = dequantAtTq3 val t)
include hdequant

theorem Avx2.tq3_eq : Avx2.computeScoreTq3 host val t qCoarse qSign =
    some (VectorKernels.computeScoreScalar host val t qCoarse qSign) := by
  apply score_of_loop (fun b => threeBitDot val t qCoarse (3 * b) (tq3CodeBytes + b) (8 * b)
    (b / 2)) sumLanes_eq
  · intro b hb
    obtain ⟨hcodes, hcorr, hbase, hscale⟩ := tq3_bounds hb
    exact Avx2.threeBitBlock_adds hcodes hcorr hbase hscale
  · rw [total_zero, zero_add, hdequant, sum_tq3]

theorem Avx512.tq3_eq : Avx512.computeScoreTq3 host val t qCoarse qSign =
    some (VectorKernels.computeScoreScalar host val t qCoarse qSign) := by
  apply score_of_loop (fun g => threeBitDot val t qCoarse (6 * g) (tq3CodeBytes + 2 * g)
      (g * groupDim) g +
    threeBitDot val t qCoarse (6 * g + 3) (tq3CodeBytes + 2 * g + 1) (g * groupDim + 8) g)
    reduceAddPs_eq
  · intro g hg
    have hg' : g < 8 := hg
    apply Avx512.threeBitGroup_adds _ _ (nibble_bounds hg).2 hg
    · show 6 * g + 7 ≤ 64
      omega
    · show 48 + 2 * g + 2 ≤ 64
      omega
  · rw [total_zero, zero_add, hdequant, sum_tq3_pairs]

theorem Neon.tq3_eq : Neon.computeScoreTq3 host val t qCoarse qSign =
    some (VectorKernels.computeScoreScalar host val t qCoarse qSign) := by
  apply score_of_loop (fun b => threeBitDot val t qCoarse (3 * b) (tq3CodeBytes + b) (8 * b)
    (b / 2)) vaddvqF32_eq
  · intro b hb
    obtain ⟨hcodes, hcorr, hbase, hscale⟩ := tq3_bounds hb
    exact Neon.threeBitBlock_adds hcodes hcorr hbase hscale
  · rw [total_zero, zero_add, hdequant, sum_tq3]

end Tq3

theorem mix3_bounds {b : ℕ} (hb : b < mixedLoDims / 8) : mix3CodesOff + 3 * b + 4 ≤ latentBytes ∧
    mix3CorrOff + b < latentBytes ∧ mixedHiDims + 8 * b + 8 ≤ dC ∧ 1 + b / 2 < nGroups := by
  have hb' : b < 14 := hb
  refine ⟨?_, ?_, ?_, ?_⟩
  · show 8 + 3 * b + 4 ≤ 64
    omega
  · show 50 + b < 64
    omega
  · show 8 + 8 * b + 8 ≤ 128
    omega
  · show 1 + b / 2 < 8
    omega

section Mix3
variable (hdequant : dequantAt val t = dequantAtMix3 val t)
include hdequant

theorem Avx2.mix3_eq : Avx2.computeScoreMix3 host val t qCoarse qSign =
    some (VectorKernels.computeScoreScalar host val t qCoarse qSign) := by
  obtain ⟨acc, hhead, htotal⟩ := Avx2.head_eq val t qCoarse
  unfold Avx2.computeScoreMix3
  rw [hhead, Option.bind_eq_bind, Option.bind_some]
  apply score_of_loop (fun b => threeBitDot val t qCoarse (mix3CodesOff + 3 * b) (mix3CorrOff + b)
    (mixedHiDims + 8 * b) (1 + b / 2)) sumLanes_eq
  · intro b hb
    obtain ⟨hcodes, hcorr, hbase, hscale⟩ := mix3_bounds hb
    exact Avx2.threeBitBlock_adds hcodes hcorr hbase hscale
  · rw [htotal, hdequant, sum_mix3]

theorem Avx512.mix3_eq : Avx512.computeScoreMix3 host val t qCoarse qSign =
    some (VectorKernels.computeScoreScalar host val t qCoarse qSign) := by
  obtain ⟨acc, hhead, htotal⟩ := Avx512.head_eq val t qCoarse
  unfold Avx512.computeScoreMix3
  rw [hhead, Option.bind_eq_bind, Option.bind_some]
  apply score_of_loop (fun g => threeBitDot val t qCoarse (mix3CodesOff + 6 * g)
      (mix3CorrOff + 2 * g) (mixedHiDims + g * groupDim) (1 + g) +
    threeBitDot val t qCoarse (mix3CodesOff + 6 * g + 3) (mix3CorrOff + 2 * g + 1)
      (mixedHiDims + g * groupDim + 8) (1 + g)) reduceAddPs_eq
  · intro g hg
    have hg' : g < 7 := hg
    obtain ⟨_, hbase, hscale⟩ := body_bounds hg
    apply Avx512.threeBitGroup_adds _ _ hbase hscale
    · show 8 + 6 * g + 7 ≤ 64
      omega
    · show 50 + 2 * g + 2 ≤ 64
      omega
  · rw [htotal, hdequant, sum_mix3_pairs]

theorem Neon.mix3_eq : Neon.computeScoreMix3 host val t qCoarse qSign =
    some (VectorKernels.computeScoreScalar host val t qCoarse qSign) := by
  obtain ⟨acc, hhead, htotal⟩ := Neon.head_adds val t qCoarse (set1 (Single.lit 0))
  unfold Neon.computeScoreMix3
  rw [hhead, Option.bind_eq_bind, Option.bind_some]
  apply score_of_loop (fun b => threeBitDot val t qCoarse (mix3CodesOff + 3 * b) (mix3CorrOff + b)
    (mixedHiDims + 8 * b) (1 + b / 2)) vaddvqF32_eq
  · intro b hb
    obtain ⟨hcodes, hcorr, hbase, hscale⟩ := mix3_bounds hb
    exact Neon.threeBitBlock_adds hcodes hcorr hbase hscale
  · rw [htotal, total_zero, zero_add, hdequant, sum_mix3]

end Mix3

theorem dequantAt_of_mixed (val : F32 → ℚ) (h : isMixed t = true) :
    dequantAt val t = dequantAtMixed val t := by
  funext d
  unfold dequantAt
  rw [if_pos h]

theorem dequantAt_of_tq3 (val : F32 → ℚ) (hmixed : isMixed t = false) (h : t.isTq3 = true) :
    dequantAt val t = dequantAtTq3 val t := by
  funext d
  unfold dequantAt
  rw [hmixed, if_neg (by decide), if_pos h]

theorem dequantAt_of_mix3 (val : F32 → ℚ) (hmixed : isMixed t = false) (htq3 : t.isTq3 = false)
    (h : t.isMix3 = true) : dequantAt val t = dequantAtMix3 val t := by
  funext d
  unfold dequantAt
  rw [hmixed, htq3, if_neg (by decide), if_neg (by decide), if_pos h]

theorem dequantAt_of_nf4 (val : F32 → ℚ) (hmixed : isMixed t = false) (htq3 : t.isTq3 = false)
    (hmix3 : t.isMix3 = false) (h : isNf4 t = true) :
    dequantAt val t = dequantNibble val t (nf4Level val) := by
  apply dequantAt_nibble hmixed htq3 hmix3
  intro n
  rw [if_pos h]
  rfl

theorem dequantAt_of_int4 (val : F32 → ℚ) (hmixed : isMixed t = false) (htq3 : t.isTq3 = false)
    (hmix3 : t.isMix3 = false) (h : isNf4 t = false) :
    dequantAt val t = dequantNibble val t int4Level := by
  apply dequantAt_nibble hmixed htq3 hmix3
  intro n
  rw [h, if_neg (by decide)]
  exact int4_lit n

theorem cpop_le (x : UInt64) : x.toBitVec.cpop.toNat ≤ 64 := by
  have hle := @BitVec.cpopNatRec_le 64 0 x.toBitVec 64
  unfold BitVec.cpop
  rw [BitVec.toNat_ofNat]
  exact (Nat.mod_le _ _).trans (hle.trans_eq (Nat.zero_add _))

theorem words_eq (a : Words residualWords) :
    a.1 = [a.1.getD 0 0, a.1.getD 1 0, a.1.getD 2 0, a.1.getD 3 0] := by
  obtain ⟨l, hl⟩ := a
  match l, hl with
  | [_, _, _, _], _ => rfl

/-- The population counts of the lanes add up without overflow. -/
theorem hammingVpopcntdq_eq (a b : Words residualWords) :
    hammingVpopcntdq a b = hammingScalar a.1 b.1 := by
  have hcount : ∀ w, (a.1.getD w 0 ^^^ b.1.getD w 0).toBitVec.cpop.toNat ≤ 64 :=
    fun w => cpop_le _
  have h0 := hcount 0
  have h1 := hcount 1
  have h2 := hcount 2
  have h3 := hcount 3
  have hscalar : hammingScalar a.1 b.1 =
      (a.1.getD 0 0 ^^^ b.1.getD 0 0).toBitVec.cpop.toNat +
        ((a.1.getD 1 0 ^^^ b.1.getD 1 0).toBitVec.cpop.toNat +
          ((a.1.getD 2 0 ^^^ b.1.getD 2 0).toBitVec.cpop.toNat +
            ((a.1.getD 3 0 ^^^ b.1.getD 3 0).toBitVec.cpop.toNat + 0))) := by
    conv_lhs => rw [words_eq a, words_eq b]
    rfl
  rw [hscalar]
  unfold hammingVpopcntdq
  simp only [UInt64.toNat_add, UInt64.toNat_ofNat']
  omega

theorem hammingDistance_eq (host : Host) (a b : Words residualWords) :
    hammingDistance host a b = hammingScalar a.1 b.1 := by
  unfold hammingDistance
  split
  · exact hammingVpopcntdq_eq a b
  · rfl

theorem residualTerm_eq : residualTerm host val t qSign =
    LatentCodecs.residualTerm val t qSign := by
  unfold residualTerm LatentCodecs.residualTerm
  rw [hammingDistance_eq]

theorem scalar_residual : VectorKernels.computeScoreScalar host val t qCoarse qSign =
    LatentCodecs.computeScoreScalar val t qCoarse qSign := by
  unfold VectorKernels.computeScoreScalar LatentCodecs.computeScoreScalar
    VectorKernels.withResidual
  rw [residualTerm_eq]

end Kernels

/-- A dispatcher whose paths agree gives the same score on every machine. -/
theorem dispatch_eq (host : Host) {avx512 avx2 neon : Option ℚ} {s : ℚ} (h512 : avx512 = some s)
    (h2 : avx2 = some s) (hneon : neon = some s) :
    (match host.arch with
      | .x86_64 => if host.avx512f then avx512 else if host.avx2 then avx2 else some s
      | .aarch64 => neon
      | .other => some s) = some s := by
  rw [h512, h2, hneon]
  cases host.arch with
  | x86_64 => simp only [ite_self]
  | aarch64 => rfl
  | other => rfl

/-- The kernels of a codec score the tiles that are dispatched to them as the portable path does,
and read nothing outside the tile and the query. -/
structure KernelsExact (host : Host) (val : F32 → ℚ) (t : SciRustSlhaTile) (qCoarse : Latent ℚ)
    (qSign : Words residualWords) (s : Option ℚ) : Prop where
  mixed : isMixed t = true → Avx512.computeScoreMixed host val t qCoarse qSign = s ∧
    Avx2.computeScoreMixed host val t qCoarse qSign = s ∧
    Neon.computeScoreMixed host val t qCoarse qSign = s
  tq3 : isMixed t = false → t.isTq3 = true →
    Avx512.computeScoreTq3 host val t qCoarse qSign = s ∧
    Avx2.computeScoreTq3 host val t qCoarse qSign = s ∧
    Neon.computeScoreTq3 host val t qCoarse qSign = s
  mix3 : isMixed t = false → t.isTq3 = false → t.isMix3 = true →
    Avx512.computeScoreMix3 host val t qCoarse qSign = s ∧
    Avx2.computeScoreMix3 host val t qCoarse qSign = s ∧
    Neon.computeScoreMix3 host val t qCoarse qSign = s
  nf4 : isMixed t = false → t.isTq3 = false → t.isMix3 = false → isNf4 t = true →
    Avx512.computeScoreNf4 host val t qCoarse qSign = s ∧
    Avx2.computeScoreNf4 host val t qCoarse qSign = s ∧
    Neon.computeScoreNf4 host val t qCoarse qSign = s
  int4 : isMixed t = false → t.isTq3 = false → t.isMix3 = false → isNf4 t = false →
    Avx512.computeScore host val t qCoarse qSign = s ∧
    Avx2.computeScore host val t qCoarse qSign = s ∧
    Neon.computeScore host val t qCoarse qSign = s

theorem kernelsExact (host : Host) (val : F32 → ℚ) (t : SciRustSlhaTile) (qCoarse : Latent ℚ)
    (qSign : Words residualWords) : KernelsExact host val t qCoarse qSign
      (some (LatentCodecs.computeScoreScalar val t qCoarse qSign)) := by
  rw [← scalar_residual]
  constructor
  · intro hmixed
    have hdequant := dequantAt_of_mixed val hmixed
    exact ⟨Avx512.mixed_eq hdequant, Avx2.mixed_eq hdequant, Neon.mixed_eq hdequant⟩
  · intro hmixed htq3
    have hdequant := dequantAt_of_tq3 val hmixed htq3
    exact ⟨Avx512.tq3_eq hdequant, Avx2.tq3_eq hdequant, Neon.tq3_eq hdequant⟩
  · intro hmixed htq3 hmix3
    have hdequant := dequantAt_of_mix3 val hmixed htq3 hmix3
    exact ⟨Avx512.mix3_eq hdequant, Avx2.mix3_eq hdequant, Neon.mix3_eq hdequant⟩
  · intro hmixed htq3 hmix3 hnf4
    have hdequant := dequantAt_of_nf4 val hmixed htq3 hmix3 hnf4
    exact ⟨Avx512.nibbles_eq hdequant Avx512.nf4Lanes_eq,
      Avx2.nibbles_eq hdequant Avx2.nf4Half_eq, Neon.nibbles_eq hdequant Neon.nf4Quad_eq⟩
  · intro hmixed htq3 hmix3 hnf4
    have hdequant := dequantAt_of_int4 val hmixed htq3 hmix3 hnf4
    exact ⟨Avx512.nibbles_eq hdequant fun b gs l _ => Avx512.int4Lanes_eq b gs l,
      Avx2.nibbles_eq hdequant fun b gs l _ => Avx2.int4Half_eq b gs l,
      Neon.nibbles_eq hdequant fun n4 gs l _ => Neon.int4Quad_eq n4 gs l⟩

theorem KernelsExact.dispatched {host : Host} {val : F32 → ℚ} {t : SciRustSlhaTile}
    {qCoarse : Latent ℚ} {qSign : Words residualWords} (h : KernelsExact host val t qCoarse qSign
      (some (LatentCodecs.computeScoreScalar val t qCoarse qSign))) :
    computeScore host val t qCoarse qSign =
      some (LatentCodecs.computeScoreScalar val t qCoarse qSign) := by
  unfold computeScore
  rw [scalar_residual]
  cases hmixed : isMixed t with
  | true =>
      obtain ⟨h512, h2, hneon⟩ := h.mixed hmixed
      exact dispatch_eq host h512 h2 hneon
  | false =>
      cases htq3 : t.isTq3 with
      | true =>
          obtain ⟨h512, h2, hneon⟩ := h.tq3 hmixed htq3
          exact dispatch_eq host h512 h2 hneon
      | false =>
          cases hmix3 : t.isMix3 with
          | true =>
              obtain ⟨h512, h2, hneon⟩ := h.mix3 hmixed htq3 hmix3
              exact dispatch_eq host h512 h2 hneon
          | false =>
              cases hnf4 : isNf4 t with
              | true =>
                  obtain ⟨h512, h2, hneon⟩ := h.nf4 hmixed htq3 hmix3 hnf4
                  exact dispatch_eq host h512 h2 hneon
              | false =>
                  obtain ⟨h512, h2, hneon⟩ := h.int4 hmixed htq3 hmix3 hnf4
                  exact dispatch_eq host h512 h2 hneon

/-- Every machine computes the portable score, whatever the codec of the tile, and no kernel reads
outside the tile or the query. -/
theorem computeScore_eq (host : Host) (val : F32 → ℚ) (t : SciRustSlhaTile) (qCoarse : Latent ℚ)
    (qSign : Words residualWords) :
    computeScore host val t qCoarse qSign =
      some (LatentCodecs.computeScoreScalar val t qCoarse qSign) :=
  (kernelsExact host val t qCoarse qSign).dispatched

end SlhaV2.VectorScores
