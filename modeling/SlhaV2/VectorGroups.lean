import SlhaV2.VectorKernels

/-!
# One group of a vector kernel

Over exact numbers the order of additions does not matter, so each kernel is
followed by what it adds to the sum of its lanes. Three instruction sets bring the
nibbles and the three-bit codes of a group into their lanes in different ways; the
lanes hold the same levels, and no load leaves its array.
-/
namespace SlhaV2.VectorGroups
open Finset
open FloatingPoint SingleFloat TileCodec SlhaTile VectorRegisters VectorKernels
open LatentCodecs hiding residualTerm computeScoreScalar

variable {val : F32 → ℚ} {t : SciRustSlhaTile} {qCoarse : Latent ℚ}

theorem laneScale_eq {g : ℕ} (h : g < nGroups) :
    laneScale val t g = some (sectionScale val t g) := by
  unfold laneScale
  rw [get_eq h]
  apply congrArg some
  unfold sectionScale
  have hone : (Single.lit 1 : ℚ) = 1 := rfl
  rw [hone, mul_one_div, mul_div_assoc]

theorem groupScale_eq (d : ℕ) : groupScale val t d = sectionScale val t (d / groupDim) := by
  unfold groupScale sectionScale
  rw [mul_div_assoc]

/-- What consecutive dimensions add, if their levels are the given ones. -/
def dotPart (qCoarse : Latent ℚ) (off lanes : ℕ) (v : ℕ → ℚ) : ℚ :=
  ∑ l ∈ range lanes, at128 qCoarse (off + l) * v l

theorem dotPart_add (qCoarse : Latent ℚ) (off i j : ℕ) (v : ℕ → ℚ) :
    dotPart qCoarse off i v + dotPart qCoarse (off + i) j (fun l => v (i + l)) =
      dotPart qCoarse off (i + j) v := by
  unfold dotPart
  rw [sum_range_add]
  simp only [add_assoc]

theorem dotPart_quads (qCoarse : Latent ℚ) (off : ℕ) (v : ℕ → ℚ) :
    dotPart qCoarse off 4 v + (dotPart qCoarse (off + 4) 4 (fun l => v (4 + l)) +
      (dotPart qCoarse (off + 8) 4 (fun l => v (8 + l)) +
        dotPart qCoarse (off + 12) 4 fun l => v (12 + l))) = dotPart qCoarse off 16 v := by
  calc _ = dotPart qCoarse off 4 v + dotPart qCoarse (off + 4) 4 (fun l => v (4 + l)) +
        dotPart qCoarse (off + 8) 4 (fun l => v (8 + l)) +
        dotPart qCoarse (off + 12) 4 (fun l => v (12 + l)) := by ring
    _ = dotPart qCoarse off 16 v := by
      rw [dotPart_add qCoarse off 4 4, dotPart_add qCoarse off 8 4, dotPart_add qCoarse off 12 4]

theorem total_products {lanes off : ℕ} (h : off + lanes ≤ dC) (v : Vec lanes ℚ) (u : ℕ → ℚ)
    (hv : ∀ l : Fin lanes, v l = u l) :
    ∑ l, v l * qCoarse ⟨off + l, by omega⟩ = dotPart qCoarse off lanes u := by
  unfold dotPart
  rw [sum_range]
  apply sum_congr rfl
  intro l _
  have hd : off + l < dC := by omega
  unfold at128
  rw [hv, dif_pos hd, mul_comm]

theorem Avx2.accumulate_adds (qCoarse : Latent ℚ) {off : ℕ} (h : off + 8 ≤ dC)
    {v : Vec 8 ℚ} (u : ℕ → ℚ) (hv : ∀ l : Fin 8, v l = u l) :
    Adds (Avx2.accumulate qCoarse v off) (dotPart qCoarse off 8 u) := by
  intro acc
  unfold Avx2.accumulate
  rw [loadu_eq h]
  refine ⟨_, rfl, ?_⟩
  rw [← total_products h v u hv]
  exact sum_add_distrib

theorem Avx512.accumulate_adds (qCoarse : Latent ℚ) {off : ℕ} (h : off + 16 ≤ dC)
    {v : Vec 16 ℚ} (u : ℕ → ℚ) (hv : ∀ l : Fin 16, v l = u l) :
    Adds (Avx512.accumulate qCoarse v off) (dotPart qCoarse off 16 u) := by
  intro acc
  unfold Avx512.accumulate
  rw [loadu_eq h]
  refine ⟨_, rfl, ?_⟩
  rw [← total_products h v u hv, add_comm]
  exact sum_add_distrib

theorem Neon.accumulate_adds (qCoarse : Latent ℚ) {off : ℕ} (h : off + 4 ≤ dC)
    {v : Vec 4 ℚ} (u : ℕ → ℚ) (hv : ∀ l : Fin 4, v l = u l) :
    Adds (Neon.accumulate qCoarse v off) (dotPart qCoarse off 4 u) := by
  intro acc
  unfold Neon.accumulate
  rw [loadu_eq h]
  refine ⟨_, rfl, ?_⟩
  rw [← total_products h v u hv, add_comm]
  exact sum_add_distrib

/-- The nibble of a dimension, counted from the byte at which its group starts. -/
def nibbleAt (t : SciRustSlhaTile) (bytes i : ℕ) : ℕ :=
  nibble (byteAt t.latentKv (bytes + i / 2)) i

theorem nibble_even (b : UInt8) {i : ℕ} (h : i % 2 = 0) : nibble b i = b.toNat % 16 := by
  unfold nibble
  rw [if_pos (by rw [Nat.and_one_is_mod, h])]
  rw [UInt8.toNat_and]
  exact Nat.and_two_pow_sub_one_eq_mod _ 4

theorem nibble_odd (b : UInt8) {i : ℕ} (h : i % 2 = 1) : nibble b i = b.toNat / 16 := by
  unfold nibble
  rw [if_neg (by rw [Nat.and_one_is_mod, h]; decide)]
  rw [UInt8.toNat_shiftRight]
  exact Nat.shiftRight_eq_div_pow _ 4

theorem nibbleAt_lt (t : SciRustSlhaTile) (bytes i : ℕ) : nibbleAt t bytes i < 16 := by
  unfold nibbleAt
  rcases Nat.mod_two_eq_zero_or_one i with h | h
  · rw [nibble_even _ h]
    exact Nat.mod_lt _ (by decide)
  · rw [nibble_odd _ h]
    have hlt := (byteAt t.latentKv (bytes + i / 2)).toNat_lt
    omega

theorem denibble_eq (t : SciRustSlhaTile) {bytes : ℕ} (h : bytes + 8 ≤ latentBytes) :
    ∃ d16, denibble t bytes = some d16 ∧ ∀ i, (d16 i).toNat = nibbleAt t bytes i := by
  obtain ⟨packed, hload, hpacked⟩ := loadlEpi64_eq (latent t) h
  unfold denibble
  rw [hload]
  refine ⟨_, rfl, ?_⟩
  intro i
  have hi := i.isLt
  have hbyte : packed ⟨i / 2, by omega⟩ = byteAt t.latentKv (bytes + i / 2) :=
    hpacked (i / 2) (by omega)
  unfold unpackloEpi8 nibbleAt
  rcases Nat.mod_two_eq_zero_or_one i with hpar | hpar
  · rw [if_pos hpar, nibble_even _ hpar]
    unfold andSi set1
    rw [UInt8.toNat_and, hbyte]
    exact Nat.and_two_pow_sub_one_eq_mod _ 4
  · rw [if_neg (by omega), nibble_odd _ hpar, ← hbyte, ← srliEpi16_mod]
    unfold andSi set1
    rw [UInt8.toNat_and]
    exact Nat.and_two_pow_sub_one_eq_mod _ 4

theorem Neon.halves_eq (packed : Vec 8 UInt8) (i : Fin 8) :
    (andSi packed (set1 0x0F) i).toNat = (packed i).toNat % 16 ∧
      (vshrNU8 packed 4 i).toNat = (packed i).toNat / 16 := by
  have hlt := (packed i).toNat_lt
  constructor
  · unfold andSi set1
    rw [UInt8.toNat_and]
    exact Nat.and_two_pow_sub_one_eq_mod _ 4
  · unfold vshrNU8
    rw [UInt8.toNat_ofNat', Nat.shiftRight_eq_div_pow]
    omega

theorem Neon.zip_eq (t : SciRustSlhaTile) {bytes : ℕ} (h : bytes + 8 ≤ latentBytes) :
    ∃ packed, loadu (latent t) bytes 8 = some packed ∧ ∀ i : Fin 8,
      (vzip1U8 (andSi packed (set1 0x0F)) (vshrNU8 packed 4) i).toNat = nibbleAt t bytes i ∧
      (vzip2U8 (andSi packed (set1 0x0F)) (vshrNU8 packed 4) i).toNat =
        nibbleAt t bytes (8 + i) := by
  refine ⟨_, loadu_eq h, ?_⟩
  intro i
  have hhigh : (8 + i.val) / 2 = 4 + i / 2 := by omega
  unfold vzip1U8 vzip2U8 nibbleAt
  rw [hhigh]
  rcases Nat.mod_two_eq_zero_or_one i with hpar | hpar
  · rw [if_pos hpar, if_pos hpar, nibble_even _ hpar, nibble_even _ (by omega),
      (Neon.halves_eq _ _).1, (Neon.halves_eq _ _).1]
    exact ⟨rfl, rfl⟩
  · rw [if_neg (by omega), if_neg (by omega), nibble_odd _ hpar, nibble_odd _ (by omega),
      (Neon.halves_eq _ _).2, (Neon.halves_eq _ _).2]
    exact ⟨rfl, rfl⟩

def int4Level (n : ℕ) : ℚ := (n : ℚ) - 8

def nf4Level (val : F32 → ℚ) (n : ℕ) : ℚ := val (nf4Codebook.getD n F32.zero)

theorem Avx2.int4Half_eq (bytes : Vec 16 UInt8) (gs : ℚ) (l : Fin 8) :
    Avx2.int4Half bytes (set1 gs) l = int4Level (bytes ⟨l, by omega⟩).toNat * gs := by
  unfold Avx2.int4Half mulPs subPs
  rw [cvtepi32Ps_widened]
  exact mul_comm _ _

theorem Avx512.int4Lanes_eq (bytes : Vec 16 UInt8) (gs : ℚ) (l : Fin 16) :
    Avx512.int4Lanes bytes (set1 gs) l = int4Level (bytes l).toNat * gs := by
  unfold Avx512.int4Lanes mulPs subPs
  rw [cvtepi32Ps_widened]
  exact mul_comm _ _

theorem Neon.int4Quad_eq (n4 : Vec 4 (BitVec 32)) (gs : ℚ) (l : Fin 4) :
    Neon.int4Quad n4 (set1 gs) l = int4Level (n4 l).toNat * gs := rfl

theorem toNat_nibble (b : UInt8) : (b.toBitVec.setWidth 32).toNat = b.toNat := by
  have hlt := b.toNat_lt
  rw [BitVec.toNat_setWidth]
  exact Nat.mod_eq_of_lt (by show b.toNat < _; omega)

theorem Avx2.nf4Half_eq (bytes : Vec 16 UInt8) (gs : ℚ) (l : Fin 8)
    (hlt : (bytes ⟨l, by omega⟩).toNat < 16) :
    Avx2.nf4Half val bytes (set1 gs) l = nf4Level val (bytes ⟨l, by omega⟩).toNat * gs := by
  unfold Avx2.nf4Half mulPs blendvPs cmpgtEpi32 permutevar8x32Ps cvtepu8Epi32 codebook set1
  dsimp only
  rw [toInt_widened, toNat_nibble, mul_comm]
  congr 1
  have hseven : (7 : BitVec 32).toInt = 7 := rfl
  rw [hseven]
  unfold nf4Level
  by_cases hhigh : (7 : ℤ) < ((bytes ⟨l, by omega⟩).toNat : ℤ)
  · rw [if_pos hhigh, if_pos (by decide)]
    congr 2
    omega
  · rw [if_neg hhigh, if_neg (by decide)]
    congr 2
    omega

theorem Avx512.nf4Lanes_eq (bytes : Vec 16 UInt8) (gs : ℚ) (l : Fin 16)
    (hlt : (bytes l).toNat < 16) :
    Avx512.nf4Lanes val bytes (set1 gs) l = nf4Level val (bytes l).toNat * gs := by
  unfold Avx512.nf4Lanes mulPs permutexvarPs cvtepu8Epi32 codebook set1 nf4Level
  dsimp only
  rw [toNat_nibble, mul_comm, Nat.zero_add, Nat.mod_eq_of_lt hlt]

/-- Each index reads the four bytes of its level. -/
theorem Neon.table_word : ∀ n : Fin 16, word (vqtbl4qU8 Neon.table (vreinterpretqU8U32
    fun _ => BitVec.ofNat 32 n.val * 0x04040404 + 0x03020100)) 0 =
      (nf4Codebook.getD n F32.zero).bits := by
  decide

theorem Neon.nf4Quad_eq (n4 : Vec 4 (BitVec 32)) (gs : ℚ) (l : Fin 4) (hlt : (n4 l).toNat < 16) :
    Neon.nf4Quad val n4 (set1 gs) l = nf4Level val (n4 l).toNat * gs := by
  have hword := Neon.table_word ⟨(n4 l).toNat, hlt⟩
  rw [BitVec.ofNat_toNat, BitVec.setWidth_eq] at hword
  unfold Neon.nf4Quad mulPs nf4Level
  dsimp only
  rw [word_lane]
  unfold vaddqU32 vmulqNU32 set1
  rw [hword]

/-- What a group of nibbles adds to the score. -/
def nibbleDot (val : F32 → ℚ) (t : SciRustSlhaTile) (qCoarse : Latent ℚ) (level : ℕ → ℚ)
    (bytes base scale : ℕ) : ℚ :=
  dotPart qCoarse base 16 fun i => level (nibbleAt t bytes i) * sectionScale val t scale

section Nibbles
variable {level : ℕ → ℚ} {bytes base scale : ℕ}

theorem Avx2.nibbleGroup_adds {half : Vec 16 UInt8 → Vec 8 ℚ → Vec 8 ℚ}
    (hhalf : ∀ b gs (l : Fin 8), (b ⟨l, by omega⟩ : UInt8).toNat < 16 →
      half b (set1 gs) l = level (b ⟨l, by omega⟩).toNat * gs)
    (hbytes : bytes + 8 ≤ latentBytes) (hbase : base + 16 ≤ dC) (hscale : scale < nGroups) :
    Adds (Avx2.nibbleGroup val t qCoarse half bytes base scale)
      (nibbleDot val t qCoarse level bytes base scale) := by
  obtain ⟨d16, hd16, hnibble⟩ := denibble_eq t hbytes
  have hlow : ∀ l : Fin 8, half d16 (set1 (sectionScale val t scale)) l =
      level (nibbleAt t bytes l) * sectionScale val t scale := by
    intro l
    have hlt := nibbleAt_lt t bytes l
    rw [hhalf _ _ _ (by rw [hnibble]; exact hlt), hnibble]
  have hhigh : ∀ l : Fin 8, half (srliSi128 d16 8) (set1 (sectionScale val t scale)) l =
      level (nibbleAt t bytes (8 + l)) * sectionScale val t scale := by
    intro l
    have hlt := nibbleAt_lt t bytes (8 + l)
    have hshift : srliSi128 d16 8 ⟨l, by omega⟩ = d16 ⟨8 + l, by omega⟩ := by
      unfold srliSi128
      rw [dif_pos (by show l.val + 8 < 16; omega)]
      congr 1
      exact Fin.ext (Nat.add_comm _ _)
    rw [hhalf _ _ _ (by rw [hshift, hnibble]; exact hlt), hshift, hnibble]
  have hadds := (Avx2.accumulate_adds qCoarse (by omega : base + 8 ≤ dC)
    (fun i => level (nibbleAt t bytes i) * sectionScale val t scale) hlow).bind
    (Avx2.accumulate_adds qCoarse (by omega : base + 8 + 8 ≤ dC)
      (fun i => level (nibbleAt t bytes (8 + i)) * sectionScale val t scale) hhigh)
  intro acc
  obtain ⟨acc', hacc, htotal⟩ := hadds acc
  refine ⟨acc', ?_, ?_⟩
  · unfold Avx2.nibbleGroup
    rw [laneScale_eq hscale, hd16]
    exact hacc
  · rw [htotal]
    congr 1
    exact dotPart_add qCoarse base 8 8 fun i =>
      level (nibbleAt t bytes i) * sectionScale val t scale

theorem Avx512.nibbleGroup_adds {lanes : Vec 16 UInt8 → Vec 16 ℚ → Vec 16 ℚ}
    (hlanes : ∀ b gs (l : Fin 16), (b l : UInt8).toNat < 16 →
      lanes b (set1 gs) l = level (b l).toNat * gs)
    (hbytes : bytes + 8 ≤ latentBytes) (hbase : base + 16 ≤ dC) (hscale : scale < nGroups) :
    Adds (Avx512.nibbleGroup val t qCoarse lanes bytes base scale)
      (nibbleDot val t qCoarse level bytes base scale) := by
  obtain ⟨d16, hd16, hnibble⟩ := denibble_eq t hbytes
  have hall : ∀ l : Fin 16, lanes d16 (set1 (sectionScale val t scale)) l =
      level (nibbleAt t bytes l) * sectionScale val t scale := by
    intro l
    have hlt := nibbleAt_lt t bytes l
    rw [hlanes _ _ _ (by rw [hnibble]; exact hlt), hnibble]
  intro acc
  obtain ⟨acc', hacc, htotal⟩ := Avx512.accumulate_adds qCoarse hbase
    (fun i => level (nibbleAt t bytes i) * sectionScale val t scale) hall acc
  refine ⟨acc', ?_, htotal⟩
  unfold Avx512.nibbleGroup
  rw [laneScale_eq hscale, hd16]
  exact hacc

theorem Neon.nibbleGroup_adds {quad : Vec 4 (BitVec 32) → Vec 4 ℚ → Vec 4 ℚ}
    (hquad : ∀ n4 gs (l : Fin 4), (n4 l : BitVec 32).toNat < 16 →
      quad n4 (set1 gs) l = level (n4 l).toNat * gs)
    (hbytes : bytes + 8 ≤ latentBytes) (hbase : base + 16 ≤ dC) (hscale : scale < nGroups) :
    Adds (Neon.nibbleGroup val t qCoarse quad bytes base scale)
      (nibbleDot val t qCoarse level bytes base scale) := by
  obtain ⟨packed, hload, hzip⟩ := Neon.zip_eq t hbytes
  have hadds : ∀ (n4 : Vec 4 (BitVec 32)) (place : ℕ → ℕ) (off : ℕ), off + 4 ≤ 16 →
      (∀ l : Fin 4, (n4 l).toNat = nibbleAt t bytes (place l)) →
      Adds (Neon.accumulate qCoarse (quad n4 (set1 (sectionScale val t scale))) (base + off))
        (dotPart qCoarse (base + off) 4 fun i =>
          level (nibbleAt t bytes (place i)) * sectionScale val t scale) := by
    intro n4 place off hoff hn4
    apply Neon.accumulate_adds qCoarse (by omega)
    intro l
    have hlt := nibbleAt_lt t bytes (place l)
    rw [hquad _ _ _ (by rw [hn4]; exact hlt), hn4]
  -- the four quads in turn, each from where the one before it ends
  have h0 := hadds _ (fun l => l) 0 (by decide) fun l =>
    (toNat_low _ l).trans (hzip ⟨l, by omega⟩).1
  have h4 := hadds _ (fun l => 4 + l) 4 (by decide) fun l =>
    (toNat_high _ l).trans (hzip ⟨4 + l, by omega⟩).1
  have h8 := hadds _ (fun l => 8 + l) 8 (by decide) fun l =>
    (toNat_low _ l).trans (hzip ⟨l, by omega⟩).2
  have h12 := hadds _ (fun l => 12 + l) 12 (by decide) fun l => by
    rw [show 12 + l.val = 8 + (4 + l.val) by omega]
    exact (toNat_high _ l).trans (hzip ⟨4 + l, by omega⟩).2
  intro acc
  obtain ⟨acc', hacc, htotal⟩ := (h0.bind (h4.bind (h8.bind h12))) acc
  refine ⟨acc', ?_, ?_⟩
  · unfold Neon.nibbleGroup
    rw [laneScale_eq hscale, hload]
    exact hacc
  · rw [htotal]
    congr 1
    exact dotPart_quads qCoarse base fun i =>
      level (nibbleAt t bytes i) * sectionScale val t scale

end Nibbles

def byteNat (t : SciRustSlhaTile) (i : ℕ) : ℕ := (byteAt t.latentKv i).toNat

/-- The three-bit code of a dimension, counted from the byte at which its block starts. -/
def codeAt (t : SciRustSlhaTile) (codes l : ℕ) : ℕ :=
  (byteNat t codes + 256 * byteNat t (codes + 1) + 65536 * byteNat t (codes + 2)) / 8 ^ l % 8

def corrAt (t : SciRustSlhaTile) (corrections l : ℕ) : ℕ := byteNat t corrections / 2 ^ l % 2

theorem byteNat_lt (t : SciRustSlhaTile) (i : ℕ) : byteNat t i < 256 := UInt8.toNat_lt _

theorem window_eq (t : SciRustSlhaTile) {o : ℕ} (h : o + 4 ≤ latentBytes) :
    ∃ w, window t o = some w ∧ w.toNat = byteNat t o + 256 * (byteNat t (o + 1) +
      256 * (byteNat t (o + 2) + 256 * byteNat t (o + 3))) := by
  have h0 := byteNat_lt t o
  have h1 := byteNat_lt t (o + 1)
  have h2 := byteNat_lt t (o + 2)
  have h3 := byteNat_lt t (o + 3)
  unfold window
  rw [get_eq (by omega : o < latentBytes), get_eq (by omega : o + 1 < latentBytes),
    get_eq (by omega : o + 2 < latentBytes), get_eq (by omega : o + 3 < latentBytes)]
  refine ⟨_, rfl, ?_⟩
  rw [BitVec.toNat_ofNat]
  apply Nat.mod_eq_of_lt
  show byteNat t o + 256 * (byteNat t (o + 1) +
    256 * (byteNat t (o + 2) + 256 * byteNat t (o + 3))) < _
  omega

/-- The fourth byte of a window reaches none of its eight codes. -/
theorem window_code {w : BitVec 32} {codes l : ℕ} (hl : l < 8)
    (hw : w.toNat = byteNat t codes + 256 * (byteNat t (codes + 1) +
      256 * (byteNat t (codes + 2) + 256 * byteNat t (codes + 3)))) :
    ((w >>> (3 * l)) &&& 7).toNat = codeAt t codes l := by
  have hfield := toNat_field w (3 * l) 3 (by decide)
  rw [pow_mul] at hfield
  apply hfield.trans
  rw [hw]
  unfold codeAt
  interval_cases l <;> omega

theorem corr_bit {c : BitVec 32} {corrections l : ℕ} (hc : c.toNat = byteNat t corrections) :
    ((c >>> l) &&& 1).toNat = corrAt t corrections l := by
  have hfield := toNat_field c l 1 (by decide)
  apply hfield.trans
  rw [hc]
  rfl

theorem corrAt_lt (t : SciRustSlhaTile) (corrections l : ℕ) : corrAt t corrections l < 2 :=
  Nat.mod_lt _ (by decide)

theorem toInt_small {x : BitVec 32} {n : ℕ} (h : x.toNat = n) (hn : n < 8) : x.toInt = n := by
  rw [BitVec.toInt_eq_toNat_of_lt (by omega), h]

/-- The folded offset and the step of the correction give the level of the portable decoder. -/
theorem level_nocorr (h : t.isTq3Nocorr = true) (code corr : ℕ) :
    (code : ℚ) - bias t = tq3Level t code corr := by
  unfold bias tq3Level
  rw [h]
  rfl

theorem level_corr (h : t.isTq3Nocorr = false) (code : ℕ) {corr : ℕ} (hcorr : corr < 2) :
    (code : ℚ) - bias t + corr * corrStep = tq3Level t code corr := by
  have hhalf : (tq3HalfRange : ℚ) = 7 / 2 := rfl
  have hquarter : (tq3Correction : ℚ) = 1 / 4 := rfl
  have htwo : (Single.lit 2 : ℚ) = 2 := rfl
  have hcode : (Single.ofNat code : ℚ) = code := rfl
  unfold bias tq3Level corrStep signOf
  rw [h, hhalf, hquarter, htwo, hcode]
  have hone : (Single.lit 1 : ℚ) = 1 := rfl
  have hneg : (Single.lit (-1) : ℚ) = -1 := rfl
  interval_cases corr
  · simp [hneg]
    ring
  · simp [hone]
    ring

/-- What a block of eight three-bit codes adds to the score. -/
def threeBitDot (val : F32 → ℚ) (t : SciRustSlhaTile) (qCoarse : Latent ℚ)
    (codes corrections base scale : ℕ) : ℚ :=
  dotPart qCoarse base 8 fun l =>
    tq3Level t (codeAt t codes l) (corrAt t corrections l) * sectionScale val t scale

section ThreeBits
variable {codes corrections base scale : ℕ}

theorem codeAt_lt (t : SciRustSlhaTile) (codes l : ℕ) : codeAt t codes l < 8 :=
  Nat.mod_lt _ (by decide)

theorem toNat_widened {c : UInt8} {corrections : ℕ} (hc : c = byteAt t.latentKv corrections) :
    (c.toBitVec.setWidth 32).toNat = byteNat t corrections := by
  rw [toNat_nibble, hc]
  rfl

theorem Avx2.threeBitBlock_adds (hcodes : codes + 4 ≤ latentBytes)
    (hcorr : corrections < latentBytes) (hbase : base + 8 ≤ dC) (hscale : scale < nGroups) :
    Adds (Avx2.threeBitBlock val t qCoarse codes corrections base scale)
      (threeBitDot val t qCoarse codes corrections base scale) := by
  obtain ⟨w, hwindow, hw⟩ := window_eq t hcodes
  have hcode : ∀ l : Fin 8, (cvtepi32Ps (andEpi32 (srlvEpi32 (set1 w) Avx2.codeShifts) (set1 7)) l
      : ℚ) = codeAt t codes l := by
    intro l
    exact congrArg (fun x : ℤ => (x : ℚ)) (toInt_small (window_code l.isLt hw) (codeAt_lt _ _ _))
  have hbit : ∀ l : Fin 8, (cvtepi32Ps (andEpi32 (srlvEpi32
      (set1 ((latent t ⟨corrections, hcorr⟩).toBitVec.setWidth 32)) Avx2.corrShifts) (set1 1)) l
      : ℚ) = corrAt t corrections l := by
    intro l
    exact congrArg (fun x : ℤ => (x : ℚ)) (toInt_small (corr_bit (toNat_widened rfl))
      (Nat.lt_trans (corrAt_lt _ _ _) (by decide)))
  intro acc
  unfold Avx2.threeBitBlock
  rw [laneScale_eq hscale, Option.bind_eq_bind, Option.bind_some, hwindow, Option.bind_eq_bind,
    Option.bind_some]
  cases hno : t.isTq3Nocorr with
  | true =>
      apply Avx2.accumulate_adds qCoarse hbase
      intro l
      have hlevel := level_nocorr hno (codeAt t codes l) (corrAt t corrections l)
      unfold mulPs subPs
      rw [hcode]
      exact congrArg (· * _) hlevel
  | false =>
      rw [get_eq hcorr]
      apply Avx2.accumulate_adds qCoarse hbase
      intro l
      have hlevel := level_corr hno (codeAt t codes l) (corrAt_lt t corrections l)
      unfold mulPs addPs subPs
      dsimp only
      rw [hcode, hbit]
      exact congrArg (· * _) hlevel

/-- The sixteen lanes hold the codes of two blocks. -/
theorem Avx512.windows_code {w0 w1 : BitVec 32} (l : Fin 16) :
    inserti64x4 (castsi256Si512 (set1 w0)) (set1 w1) 1 l = if l.val < 8 then w0 else w1 := by
  unfold inserti64x4 castsi256Si512 set1
  by_cases hl : l.val < 8
  · rw [if_neg (by omega), dif_pos hl, if_pos hl]
  · rw [if_pos (by omega), if_neg hl]

theorem Avx512.c16_eq (c0 c1 : UInt8) :
    (c0.toBitVec.setWidth 32 ||| c1.toBitVec.setWidth 32 <<< 8).toNat =
      c0.toNat + 256 * c1.toNat := by
  have h0 := c0.toNat_lt
  have h1 := c1.toNat_lt
  rw [BitVec.toNat_or, BitVec.toNat_shiftLeft, toNat_nibble, toNat_nibble, Nat.shiftLeft_eq,
    Nat.mod_eq_of_lt (by omega), Nat.or_comm, Nat.mul_comm,
    ← Nat.two_pow_add_eq_or_of_lt (by omega : c0.toNat < 2 ^ 8), Nat.add_comm]

/-- The codes of two blocks, one behind the other. -/
def codeAt2 (t : SciRustSlhaTile) (codes l : ℕ) : ℕ :=
  if l < 8 then codeAt t codes l else codeAt t (codes + 3) (l - 8)

def corrAt2 (t : SciRustSlhaTile) (corrections l : ℕ) : ℕ :=
  if l < 8 then corrAt t corrections l else corrAt t (corrections + 1) (l - 8)

theorem corrAt2_lt (t : SciRustSlhaTile) (corrections l : ℕ) : corrAt2 t corrections l < 2 := by
  unfold corrAt2
  split
  · exact corrAt_lt _ _ _
  · exact corrAt_lt _ _ _

theorem dotPart_twoBlocks : dotPart qCoarse base 16 (fun l =>
      tq3Level t (codeAt2 t codes l) (corrAt2 t corrections l) * sectionScale val t scale) =
    threeBitDot val t qCoarse codes corrections base scale +
      threeBitDot val t qCoarse (codes + 3) (corrections + 1) (base + 8) scale := by
  rw [← dotPart_add qCoarse base 8 8]
  unfold threeBitDot dotPart codeAt2 corrAt2
  apply congrArg₂ (· + ·)
  · apply sum_congr rfl
    intro l hl
    dsimp only
    rw [if_pos (mem_range.mp hl), if_pos (mem_range.mp hl)]
  · apply sum_congr rfl
    intro l _
    dsimp only
    rw [if_neg (by omega), if_neg (by omega), Nat.add_sub_cancel_left]

theorem Avx512.code_lane {w0 w1 : BitVec 32}
    (hw0 : w0.toNat = byteNat t codes + 256 * (byteNat t (codes + 1) +
      256 * (byteNat t (codes + 2) + 256 * byteNat t (codes + 3))))
    (hw1 : w1.toNat = byteNat t (codes + 3) + 256 * (byteNat t (codes + 4) +
      256 * (byteNat t (codes + 5) + 256 * byteNat t (codes + 6)))) (l : Fin 16) :
    (cvtepi32Ps (andEpi32 (srlvEpi32 (inserti64x4 (castsi256Si512 (set1 w0)) (set1 w1) 1)
      Avx512.codeShifts) (set1 7)) l : ℚ) = codeAt2 t codes l := by
  have hl := l.isLt
  unfold cvtepi32Ps andEpi32 srlvEpi32 Avx512.codeShifts codeAt2
  rw [Avx512.windows_code l]
  by_cases hlow : l.val < 8
  · rw [if_pos hlow, if_pos hlow, Nat.mod_eq_of_lt hlow]
    exact congrArg (fun x : ℤ => (x : ℚ)) (toInt_small (window_code hlow hw0) (codeAt_lt _ _ _))
  · rw [if_neg hlow, if_neg hlow, show l.val % 8 = l.val - 8 by omega]
    exact congrArg (fun x : ℤ => (x : ℚ))
      (toInt_small (window_code (by omega) hw1) (codeAt_lt _ _ _))

theorem Avx512.corr_lane {c0 c1 : UInt8} (h0 : c0.toNat = byteNat t corrections)
    (h1 : c1.toNat = byteNat t (corrections + 1)) (l : Fin 16) :
    (cvtepi32Ps (andEpi32 (srlvEpi32 (set1 (c0.toBitVec.setWidth 32 |||
      c1.toBitVec.setWidth 32 <<< 8)) Avx512.corrShifts) (set1 1)) l : ℚ) =
      corrAt2 t corrections l := by
  have hl := l.isLt
  have hlt0 := byteNat_lt t corrections
  have hfield := toNat_field (c0.toBitVec.setWidth 32 ||| c1.toBitVec.setWidth 32 <<< 8) l 1
    (by decide)
  have hsmall : (byteNat t corrections + 256 * byteNat t (corrections + 1)) / 2 ^ l.val % 2 =
      corrAt2 t corrections l := by
    unfold corrAt2 corrAt
    fin_cases l <;> simp <;> omega
  rw [Avx512.c16_eq, h0, h1, pow_one, hsmall] at hfield
  exact congrArg (fun x : ℤ => (x : ℚ))
    (toInt_small hfield ((corrAt2_lt _ _ _).trans (by decide)))

theorem Avx512.threeBitGroup_adds (hcodes : codes + 7 ≤ latentBytes)
    (hcorr : corrections + 2 ≤ latentBytes) (hbase : base + 16 ≤ dC) (hscale : scale < nGroups) :
    Adds (Avx512.threeBitGroup val t qCoarse codes corrections base scale)
      (threeBitDot val t qCoarse codes corrections base scale +
        threeBitDot val t qCoarse (codes + 3) (corrections + 1) (base + 8) scale) := by
  obtain ⟨w0, hwindow0, hw0⟩ := window_eq t (by omega : codes + 4 ≤ latentBytes)
  obtain ⟨w1, hwindow1, hw1⟩ := window_eq t (by omega : codes + 3 + 4 ≤ latentBytes)
  intro acc
  rw [← dotPart_twoBlocks]
  unfold Avx512.threeBitGroup
  rw [laneScale_eq hscale, Option.bind_eq_bind, Option.bind_some, hwindow0, Option.bind_eq_bind,
    Option.bind_some, hwindow1, Option.bind_eq_bind, Option.bind_some]
  cases hno : t.isTq3Nocorr with
  | true =>
      apply Avx512.accumulate_adds qCoarse hbase
      intro l
      have hlevel := level_nocorr hno (codeAt2 t codes l) (corrAt2 t corrections l)
      unfold mulPs subPs
      rw [Avx512.code_lane hw0 hw1]
      exact congrArg (· * _) hlevel
  | false =>
      rw [get_eq (by omega : corrections < latentBytes),
        get_eq (by omega : corrections + 1 < latentBytes)]
      apply Avx512.accumulate_adds qCoarse hbase
      intro l
      have hlevel := level_corr hno (codeAt2 t codes l) (corrAt2_lt t corrections l)
      have hc0 : (latent t ⟨corrections, by omega⟩).toNat = byteNat t corrections := rfl
      have hc1 : (latent t ⟨corrections + 1, by omega⟩).toNat = byteNat t (corrections + 1) := rfl
      unfold mulPs fmaddPs subPs
      rw [Avx512.code_lane hw0 hw1, Avx512.corr_lane hc0 hc1, ← hlevel]
      exact congrArg (· * _) (add_comm _ _)

theorem Neon.threeBitQuad_eq {w c : BitVec 32} {codeSh corrSh : Vec 4 ℤ} {off : ℕ}
    (hw : w.toNat = byteNat t codes + 256 * (byteNat t (codes + 1) +
      256 * (byteNat t (codes + 2) + 256 * byteNat t (codes + 3))))
    (hc : c.toNat = byteNat t corrections) (hoff : off + 4 ≤ 8)
    (hcodeSh : ∀ l : Fin 4, codeSh l = -((3 * (off + l) : ℕ) : ℤ))
    (hcorrSh : ∀ l : Fin 4, corrSh l = -((off + l : ℕ) : ℤ)) (gs : ℚ) (l : Fin 4) :
    Neon.threeBitQuad t w c codeSh corrSh (set1 gs) l =
      tq3Level t (codeAt t codes (off + l)) (corrAt t corrections (off + l)) * gs := by
  have hcode : (vcvtqF32U32 (andEpi32 (vshlqU32 (set1 w) codeSh) (set1 7)) l : ℚ) =
      codeAt t codes (off + l) := by
    unfold vcvtqF32U32 andEpi32
    rw [vshlqU32_neg w codeSh l (hcodeSh l)]
    exact congrArg (fun x : ℕ => (x : ℚ)) (window_code (by omega) hw)
  have hbit : (vcvtqF32U32 (andEpi32 (vshlqU32 (set1 c) corrSh) (set1 1)) l : ℚ) =
      corrAt t corrections (off + l) := by
    unfold vcvtqF32U32 andEpi32
    rw [vshlqU32_neg c corrSh l (hcorrSh l)]
    exact congrArg (fun x : ℕ => (x : ℚ)) (corr_bit hc)
  unfold Neon.threeBitQuad
  cases hno : t.isTq3Nocorr with
  | true =>
      have hlevel := level_nocorr hno (codeAt t codes (off + l)) (corrAt t corrections (off + l))
      rw [if_pos rfl]
      unfold mulPs subPs
      rw [hcode]
      exact congrArg (· * _) hlevel
  | false =>
      have hlevel := level_corr hno (codeAt t codes (off + l))
        (corrAt_lt t corrections (off + l))
      rw [if_neg (by decide)]
      unfold mulPs vfmaqF32 subPs
      rw [hcode, hbit, ← hlevel]
      exact congrArg (· * _) (add_comm _ _)

theorem Neon.threeBitBlock_adds (hcodes : codes + 4 ≤ latentBytes)
    (hcorr : corrections < latentBytes) (hbase : base + 8 ≤ dC) (hscale : scale < nGroups) :
    Adds (Neon.threeBitBlock val t qCoarse codes corrections base scale)
      (threeBitDot val t qCoarse codes corrections base scale) := by
  obtain ⟨w, hwindow, hw⟩ := window_eq t hcodes
  have hc : ((latent t ⟨corrections, hcorr⟩).toBitVec.setWidth 32).toNat =
      byteNat t corrections := toNat_widened rfl
  have hcodeLo : ∀ l : Fin 4, Neon.codeShLo l = -((3 * (0 + l.val) : ℕ) : ℤ) := by decide
  have hcodeHi : ∀ l : Fin 4, Neon.codeShHi l = -((3 * (4 + l.val) : ℕ) : ℤ) := by decide
  have hcorrLo : ∀ l : Fin 4, Neon.corrShLo l = -((0 + l.val : ℕ) : ℤ) := by decide
  have hcorrHi : ∀ l : Fin 4, Neon.corrShHi l = -((4 + l.val : ℕ) : ℤ) := by decide
  have hlow := Neon.accumulate_adds qCoarse (by omega : base + 4 ≤ dC)
    (fun l => tq3Level t (codeAt t codes (0 + l)) (corrAt t corrections (0 + l)) *
      sectionScale val t scale) (Neon.threeBitQuad_eq hw hc (by decide) hcodeLo hcorrLo _)
  have hhigh := Neon.accumulate_adds qCoarse (by omega : base + 4 + 4 ≤ dC)
    (fun l => tq3Level t (codeAt t codes (4 + l)) (corrAt t corrections (4 + l)) *
      sectionScale val t scale) (Neon.threeBitQuad_eq hw hc (by decide) hcodeHi hcorrHi _)
  simp only [Nat.zero_add] at hlow
  intro acc
  obtain ⟨acc', hacc, htotal⟩ := (hlow.bind hhigh) acc
  refine ⟨acc', ?_, ?_⟩
  · unfold Neon.threeBitBlock
    rw [laneScale_eq hscale, hwindow, get_eq hcorr]
    exact hacc
  · rw [htotal]
    congr 1
    exact dotPart_add qCoarse base 4 4 fun l =>
      tq3Level t (codeAt t codes l) (corrAt t corrections l) * sectionScale val t scale

end ThreeBits

end SlhaV2.VectorGroups
