import SlhaV2.CodecLevels

/-!
# Quantisers pick nearest levels

What a quantiser has packed decodes to the level it picked, and no other latent
under the same scale and group bytes decodes closer to the value.
-/
namespace SlhaV2.NearestCodes
open ByteBuffer FloatingPoint SingleFloat TileCodec SlhaTile LatentCodecs LatentQuantisers
open ExactValues PackedLatent CodecLevels

section Steps

theorem lt_iff (a b : ℚ) : Single.lt a b = true ↔ a < b := decide_eq_true_iff

theorem globalScale_pos (steps : List ℚ) : 0 < globalScale steps := by
  unfold globalScale
  dsimp only
  split_ifs with h
  · exact (lt_iff _ _).mp h
  · exact one_pos

theorem scale_pos (v : Latent ℚ) : 0 < (quantizeLatent v).2 := by
  unfold quantizeLatent
  dsimp only
  split_ifs with h
  · exact div_pos ((lt_iff _ _).mp h) (by norm_num : (0 : ℚ) < 7)
  · exact one_pos

/-- A group byte is the rounded ratio in units of one in 255, kept between 1 and 255. -/
theorem groupByte_toNat (global step : ℚ) {r : ℤ}
    (hr : Single.round (step / global * 255) = (r : ℚ)) :
    ((groupByte global step).toNat : ℤ) = clampInt 1 255 r := by
  have hrange := clampInt_le 1 255 r (by decide)
  have hclamp : (Single.clamp (r : ℚ) 1 255 : ℚ) = (clampInt 1 255 r : ℤ) := by
    unfold Single.clamp
    dsimp only
    change (if decide (255 < if decide ((r : ℚ) < 1) then 1 else (r : ℚ)) then (255 : ℚ)
      else if decide ((r : ℚ) < 1) then 1 else (r : ℚ)) = _
    simp only [decide_eq_true_eq]
    rcases lt_or_ge r 1 with hlow | hlow
    · have hcast : (r : ℚ) < 1 := by exact_mod_cast hlow
      have hone : clampInt 1 255 r = 1 := by
        unfold clampInt
        omega
      rw [if_pos hcast, if_neg (by norm_num), hone]
      norm_num
    · have hcast : ¬ (r : ℚ) < 1 := by
        rw [not_lt]
        exact_mod_cast hlow
      rw [if_neg hcast]
      rcases lt_or_ge 255 r with hhigh | hhigh
      · have hover : (255 : ℚ) < r := by exact_mod_cast hhigh
        have htop : clampInt 1 255 r = 255 := by
          unfold clampInt
          omega
        rw [if_pos hover, htop]
        norm_num
      · have hunder : ¬ (255 : ℚ) < r := by
          rw [not_lt]
          exact_mod_cast hhigh
        have hmid : clampInt 1 255 r = r := by
          unfold clampInt
          omega
        rw [if_neg hunder, hmid]
  have hbyte : groupByte global step = asU8 (max 0 (min 255 (trunc (clampInt 1 255 r : ℤ)))) := by
    rw [← hclamp, ← hr]
    rfl
  rw [hbyte, trunc_intCast, asU8_toNat (by omega)]
  omega

theorem groupByte_pos (global step : ℚ) : 0 < (groupByte global step).toNat := by
  obtain ⟨r, hr, -⟩ := round_spec (step / global * 255)
  have hbyte := groupByte_toNat global step hr
  have hrange := clampInt_le 1 255 r (by decide)
  omega

theorem getD_groupBytes (global : ℚ) (steps : List ℚ) {g : ℕ} (hg : g < steps.length) :
    (groupBytes global steps).getD g 0 = groupByte global (steps.getD g 0) := by
  unfold groupBytes
  rw [List.getD_eq_getElem?_getD, List.getD_eq_getElem?_getD, List.getElem?_map,
    List.getElem?_eq_getElem hg]
  rfl

theorem effective_pos (global : ℚ) (steps : List ℚ) {g : ℕ} (hglobal : 0 < global)
    (hg : g < steps.length) : 0 < effective global (groupBytes global steps) g := by
  have hbyte : (0 : ℚ) < (groupByte global (steps.getD g 0)).toNat := by
    exact_mod_cast groupByte_pos global (steps.getD g 0)
  unfold effective
  rw [getD_groupBytes global steps hg]
  exact mul_pos hglobal (div_pos hbyte (by norm_num : (0 : ℚ) < 255))

/-- The step a quantiser divides by is the step of the decoder. -/
theorem effective_eq_stepOf (global : ℚ) (gs : List UInt8) (codec : LatentCodec) (d : ℕ) :
    effective global gs (groupOf codec d) = stepOf global gs codec d := by
  unfold stepOf
  rw [mul_div_assoc]
  rfl

end Steps

section Codes
variable (val : F32 → ℚ) (v : Latent ℚ)

theorem int4Nibble_lt (x : ℚ) : (int4Nibble x).toNat < 16 := by
  have hcode := int4Nibble_toNat x
  have hrange := clampedRound_mem (by decide : (-8 : ℤ) ≤ 7) x
  omega

theorem int4Nibble_level (x : ℚ) :
    (((int4Nibble x).toNat : ℤ) : ℚ) - 8 = clampedRound (-8) 7 x := by
  rw [int4Nibble_toNat]
  push_cast
  ring

theorem headByte_level (x : ℚ) :
    (((headByte x).toNat : ℤ) : ℚ) - 128 = clampedRound (-128) 127 x := by
  rw [headByte_toNat]
  push_cast
  ring

/-- Nibbles packed from the first byte on are read back. -/
theorem nibble_packed (nib : ℕ → UInt8) (hlt : ∀ d, (nib d).toNat < 16) {d : ℕ} (hd : d < dC) :
    nibble (((List.range dC).foldl (fun out d => putNibble out (d >>> 1) d (nib d))
      emptyLatent).getD (d / 2) 0) d = (nib d).toNat := by
  have hwrite : (fun (out : List UInt8) d => putNibble out (d >>> 1) d (nib d)) =
      fun out d => putNibble out (0 + d / 2) d (nib d) := by
    funext out d
    rw [Nat.zero_add, Nat.shiftRight_eq_div_pow, Nat.pow_one]
  have hread := @nibble_foldl 0 dC emptyLatent nib hlt (by rw [length_emptyLatent]; decide) d hd
  rw [Nat.zero_add] at hread
  rw [hwrite, hread]

theorem levelAt_int4Single {d : ℕ} (hd : d < dC) :
    levelAt val (quantised val .int4Single v).1 .int4Single d =
      levelOf val .int4Single d (at128 v d / (quantizeLatent v).2) := by
  have hout : (quantised val .int4Single v).1 = (List.range dC).foldl (fun out d =>
      putNibble out (d >>> 1) d (int4Nibble (at128 v d / (quantizeLatent v).2))) emptyLatent := by
    simp only [quantised, quantizeLatent]
  unfold levelAt levelOf
  dsimp only
  rw [hout, nibble_packed _ (fun d => int4Nibble_lt _) hd]
  exact int4Nibble_level _

theorem levelAt_int4Grouped {d : ℕ} (hd : d < dC) :
    levelAt val (quantised val .int4Grouped v).1 .int4Grouped d =
      levelOf val .int4Grouped d (at128 v d / effective (quantizeLatentGrouped v).2.1
        (quantizeLatentGrouped v).2.2 (d / groupDim)) := by
  have hout : (quantised val .int4Grouped v).1 = (List.range dC).foldl (fun out d =>
      putNibble out (d >>> 1) d (int4Nibble (at128 v d / effective (quantizeLatentGrouped v).2.1
        (quantizeLatentGrouped v).2.2 (d / groupDim)))) emptyLatent := by
    simp only [quantised, quantizeLatentGrouped]
  unfold levelAt levelOf
  dsimp only
  rw [hout, nibble_packed _ (fun d => int4Nibble_lt _) hd]
  exact int4Nibble_level _

/-- The group of a dimension has a step. -/
theorem group_lt {d : ℕ} (hd : d < dC) : d / groupDim < nGroups := by
  have hgroup : groupDim = 16 := rfl
  have hlt : d < 128 := hd
  rw [hgroup]
  change d / 16 < 8
  omega

theorem levelAt_nf4 {d : ℕ} (hd : d < dC) :
    levelAt val (quantised val .nf4 v).1 .nf4 d =
      levelOf val .nf4 d (at128 v d / effective (quantizeLatentNf4 val v).2.1
        (quantizeLatentNf4 val v).2.2 (d / groupDim)) := by
  have hpos : 0 < effective (quantizeLatentNf4 val v).2.1 (quantizeLatentNf4 val v).2.2
      (d / groupDim) := by
    apply effective_pos _ _ (globalScale_pos _)
    rw [length_groupSteps]
    exact group_lt hd
  have hout : (quantised val .nf4 v).1 = (List.range dC).foldl (fun out d =>
      putNibble out (d >>> 1) d (nf4Nearest val (if Single.lt (Single.lit 0) (effective
        (quantizeLatentNf4 val v).2.1 (quantizeLatentNf4 val v).2.2 (d / groupDim)) then
          nf4Clamp (at128 v d / effective (quantizeLatentNf4 val v).2.1
            (quantizeLatentNf4 val v).2.2 (d / groupDim)) else Single.lit 0))) emptyLatent := by
    simp only [quantised, quantizeLatentNf4]
    rfl
  unfold levelAt levelOf
  dsimp only
  have hstep : Single.lt (Single.lit 0) (effective (quantizeLatentNf4 val v).2.1
      (quantizeLatentNf4 val v).2.2 (d / groupDim)) = true := (lt_iff _ _).mpr hpos
  rw [hout, nibble_packed _ (fun d => (nf4Nearest_spec val _).1) hd, if_pos hstep]

/-- Codes and signs stored into blank planes are unpacked exactly. -/
theorem unpacked {codes corrections n : ℕ} {out : List UInt8} (x : ℕ → ℚ)
    (hplanes : 8 * codes + 3 * n ≤ 8 * corrections) (hwhole : 3 * n % 8 = 0)
    (hcode : codes + (3 * n + 7) / 8 ≤ out.length) (hcorr : corrections + (n + 7) / 8 ≤ out.length)
    (hblank : ∀ k, 8 * codes ≤ k → bitAt out k = false) {ld : ℕ} (hld : ld < n) :
    codeAt ((List.range n).foldl (fun out ld => putTq3 codes corrections out ld (x ld)) out) codes
        (codes + 3 * n / 8) ld = (tq3Pack (x ld)).toNat ∧
      signAt ((List.range n).foldl (fun out ld => putTq3 codes corrections out ld (x ld)) out)
        corrections ld = if above (x ld) then 1 else 0 := by
  obtain ⟨hbits, hsign⟩ := planes_read x hplanes hcode hcorr hblank hld
  constructor
  · exact tq3Code_of_bits (tq3Pack_lt _) hbits (by omega)
  · unfold signAt
    rw [corr_of_bit, hsign]

/-- The level of an unpacked code and sign. -/
theorem tq3Value_unpacked {code sign : ℕ} {x : ℚ} (hcode : code = (tq3Pack x).toNat)
    (hsign : sign = if above x then 1 else 0) :
    tq3Value code (decide (sign = 1)) =
      tq3Value (clampedRound 0 7 (x + 7 / 2)) (above x) := by
  rw [hcode, tq3Pack_toNat, hsign]
  cases above x <;> rfl

theorem planes_tq3 {d : ℕ} (hd : d < dC) :
    codeAt (quantised val .tq3 v).1 0 tq3CodeBytes d = (tq3Pack (at128 v d / effective
        (quantizeLatentTq3 v).2.1 (quantizeLatentTq3 v).2.2 (d / groupDim))).toNat ∧
      signAt (quantised val .tq3 v).1 tq3CodeBytes d = if above (at128 v d / effective
        (quantizeLatentTq3 v).2.1 (quantizeLatentTq3 v).2.2 (d / groupDim)) then 1 else 0 := by
  have hout : (quantised val .tq3 v).1 = (List.range dC).foldl (fun out d =>
      putTq3 0 tq3CodeBytes out d (at128 v d / effective (quantizeLatentTq3 v).2.1
        (quantizeLatentTq3 v).2.2 (d / groupDim))) emptyLatent := by
    simp only [quantised, quantizeLatentTq3]
  rw [hout]
  exact @unpacked 0 tq3CodeBytes dC emptyLatent
    (fun d => at128 v d / effective (quantizeLatentTq3 v).2.1 (quantizeLatentTq3 v).2.2
      (d / groupDim)) (by decide) (by decide) (by rw [length_emptyLatent]; decide)
    (by rw [length_emptyLatent]; decide) (fun k _ => bitAt_emptyLatent k) d hd

theorem levelAt_tq3 {d : ℕ} (hd : d < dC) :
    levelAt val (quantised val .tq3 v).1 .tq3 d =
      levelOf val .tq3 d (at128 v d / effective (quantizeLatentTq3 v).2.1
        (quantizeLatentTq3 v).2.2 (d / groupDim)) := by
  obtain ⟨hcode, hsign⟩ := planes_tq3 val v hd
  exact tq3Value_unpacked hcode hsign

/-- Writes past a byte leave it. -/
theorem getD_foldl_below {f : List UInt8 → ℕ → List UInt8} {i : ℕ}
    (hf : ∀ out ld, (f out ld).getD i 0 = out.getD i 0) (l : List ℕ) (out : List UInt8) :
    (l.foldl f out).getD i 0 = out.getD i 0 := by
  induction l generalizing out with
  | nil => rfl
  | cons ld l ih => exact (ih _).trans (hf out ld)

theorem getD_modify_ne (out : List UInt8) (f : UInt8 → UInt8) {i j : ℕ} (h : j ≠ i) :
    (out.modify j f).getD i 0 = out.getD i 0 := by
  rw [List.getD_eq_getElem?_getD, List.getD_eq_getElem?_getD, List.getElem?_modify_ne _ _ h]

theorem getD_putTq3_below {codes corrections i : ℕ} (hcodes : i < codes)
    (hcorrections : i < corrections) (out : List UInt8) (ld : ℕ) (x : ℚ) :
    (putTq3 codes corrections out ld x).getD i 0 = out.getD i 0 := by
  have hcode : (putCode codes out ld (tq3Pack x)).getD i 0 = out.getD i 0 := by
    unfold putCode
    dsimp only
    split_ifs
    · rw [getD_modify_ne _ _ (by omega), getD_modify_ne _ _ (by omega)]
    · exact getD_modify_ne _ _ (by omega)
  rw [putTq3_eq]
  split_ifs
  · rw [getD_modify_ne _ _ (by omega), hcode]
  · exact hcode

/-- The head bytes, with the blank rest behind them. -/
theorem getD_head (eff : ℚ) {d : ℕ} (hd : d < mixedHiDims) :
    (putHead v eff emptyLatent).getD d 0 = headByte (at128 v d / eff) := by
  rw [getD_putHead v eff (by rw [length_emptyLatent]; decide), if_pos hd]

theorem bitAt_head (eff : ℚ) {k : ℕ} (hk : 8 * mixedHiDims ≤ k) :
    bitAt (putHead v eff emptyLatent) k = false := by
  have hbyte : ¬ k / 8 < mixedHiDims := by omega
  have hblank := bitAt_emptyLatent k
  unfold bitAt at hblank ⊢
  rw [getD_putHead v eff (by rw [length_emptyLatent]; decide), if_neg hbyte]
  exact hblank

/-- The section of a body dimension. -/
theorem groupOf_body {codec : LatentCodec} (hcodec : codec = .mixed ∨ codec = .mix3) (ld : ℕ) :
    groupOf codec (mixedHiDims + ld) = 1 + ld / groupDim := by
  have hnot : ¬ mixedHiDims + ld < mixedHiDims := by omega
  rcases hcodec with rfl | rfl <;>
    (unfold groupOf; dsimp only; rw [if_neg hnot, Nat.add_sub_cancel_left])

theorem levelAt_mixed {d : ℕ} (hd : d < mixedDims) :
    levelAt val (quantised val .mixed v).1 .mixed d =
      levelOf val .mixed d (at128 v d / effective (quantizeLatentMixed v).2.1
        (quantizeLatentMixed v).2.2 (groupOf .mixed d)) := by
  have hout : (quantised val .mixed v).1 = (List.range mixedLoDims).foldl (fun out ld =>
      putNibble out (mixedHiDims + ld / 2) ld (int4Nibble (at128 v (mixedHiDims + ld) /
        effective (quantizeLatentMixed v).2.1 (quantizeLatentMixed v).2.2 (1 + ld / groupDim))))
      (putHead v (effective (quantizeLatentMixed v).2.1 (quantizeLatentMixed v).2.2 0)
        emptyLatent) := by
    simp only [quantised, quantizeLatentMixed, Nat.shiftRight_eq_div_pow, Nat.pow_one]
  unfold levelAt levelOf
  dsimp only
  by_cases hhead : d < mixedHiDims
  · have hgroup : groupOf .mixed d = 0 := if_pos hhead
    rw [if_pos hhead, if_pos hhead, hgroup, hout,
      getD_foldl_below (fun out ld => getD_putNibble_below (by omega)), getD_head v _ hhead]
    exact headByte_level _
  · obtain ⟨ld, rfl⟩ : ∃ ld, d = mixedHiDims + ld := ⟨d - mixedHiDims, by omega⟩
    have hld : ld < mixedLoDims := by
      unfold mixedDims at hd
      omega
    rw [if_neg hhead, if_neg hhead, groupOf_body (Or.inl rfl), Nat.add_sub_cancel_left, hout,
      nibble_foldl _ (fun d => int4Nibble_lt _)
        (by rw [length_putHead, length_emptyLatent]; decide) hld]
    exact int4Nibble_level _

/-- Latent bytes of the mixed codec with a three-bit body. -/
theorem quantised_mix3 : (quantised val .mix3 v).1 =
    (List.range mixedLoDims).foldl (fun out ld =>
      putTq3 mix3CodesOff mix3CorrOff out ld (at128 v (mixedHiDims + ld) /
        effective (quantizeLatentMix3 v).2.1 (quantizeLatentMix3 v).2.2 (1 + ld / groupDim)))
      (putHead v (effective (quantizeLatentMix3 v).2.1 (quantizeLatentMix3 v).2.2 0)
        emptyLatent) := by
  simp only [quantised, quantizeLatentMix3]

theorem planes_mix3 {ld : ℕ} (hld : ld < mixedLoDims) :
    codeAt (quantised val .mix3 v).1 mix3CodesOff mix3CorrOff ld =
        (tq3Pack (at128 v (mixedHiDims + ld) / effective (quantizeLatentMix3 v).2.1
          (quantizeLatentMix3 v).2.2 (1 + ld / groupDim))).toNat ∧
      signAt (quantised val .mix3 v).1 mix3CorrOff ld =
        if above (at128 v (mixedHiDims + ld) / effective (quantizeLatentMix3 v).2.1
          (quantizeLatentMix3 v).2.2 (1 + ld / groupDim)) then 1 else 0 := by
  rw [quantised_mix3]
  exact @unpacked mix3CodesOff mix3CorrOff mixedLoDims
    (putHead v (effective (quantizeLatentMix3 v).2.1 (quantizeLatentMix3 v).2.2 0) emptyLatent)
    (fun ld => at128 v (mixedHiDims + ld) / effective (quantizeLatentMix3 v).2.1
      (quantizeLatentMix3 v).2.2 (1 + ld / groupDim)) (by decide) (by decide)
    (by rw [length_putHead, length_emptyLatent]; decide)
    (by rw [length_putHead, length_emptyLatent]; decide) (fun k hk => bitAt_head v _ hk) ld hld

theorem levelAt_mix3 {d : ℕ} (hd : d < mixedDims) :
    levelAt val (quantised val .mix3 v).1 .mix3 d =
      levelOf val .mix3 d (at128 v d / effective (quantizeLatentMix3 v).2.1
        (quantizeLatentMix3 v).2.2 (groupOf .mix3 d)) := by
  unfold levelAt levelOf
  dsimp only
  by_cases hhead : d < mixedHiDims
  · have hgroup : groupOf .mix3 d = 0 := if_pos hhead
    have hbody : d < mix3CorrOff := hhead.trans (by decide)
    rw [if_pos hhead, if_pos hhead, hgroup, quantised_mix3,
      getD_foldl_below (fun out ld => getD_putTq3_below hhead hbody out ld _), getD_head v _ hhead]
    exact headByte_level _
  · obtain ⟨ld, rfl⟩ : ∃ ld, d = mixedHiDims + ld := ⟨d - mixedHiDims, by omega⟩
    have hld : ld < mixedLoDims := by
      unfold mixedDims at hd
      omega
    obtain ⟨hcode, hsign⟩ := planes_mix3 val v hld
    rw [if_neg hhead, if_neg hhead, groupOf_body (Or.inr rfl), Nat.add_sub_cancel_left]
    exact tq3Value_unpacked hcode hsign

end Codes

section Contract
variable (val : F32 → ℚ)

theorem stepOf_int4Single (v : Latent ℚ) {d : ℕ} (hd : d < dC) :
    stepOf (quantised val .int4Single v).2.1 (quantised val .int4Single v).2.2 .int4Single d =
      (quantizeLatent v).2 := by
  have hbyte : (List.replicate nGroups (255 : UInt8)).getD (d / groupDim) 0 = 255 := by
    rw [List.getD_eq_getElem?_getD, List.getElem?_replicate, if_pos (group_lt hd)]
    rfl
  unfold stepOf quantised groupOf
  dsimp only
  rw [hbyte]
  exact mul_div_cancel_right₀ _ (by norm_num : (255 : ℚ) ≠ 0)

/-- A kept dimension has a section, and its step is positive. -/
theorem stepOf_pos (codec : LatentCodec) (v : Latent ℚ) {d : ℕ} (hd : d < kept codec) :
    0 < stepOf (quantised val codec v).2.1 (quantised val codec v).2.2 codec d := by
  have hbody : d < mixedDims → ¬ d < mixedHiDims → 1 + (d - mixedHiDims) / groupDim < nGroups := by
    intro hlt hnot
    have hgroup : groupDim = 16 := rfl
    have hdims : d < 120 := hlt
    have hhead : ¬ d < 8 := hnot
    rw [hgroup]
    change 1 + (d - 8) / 16 < 8
    omega
  have hmixed : d < mixedDims →
      (if d < mixedHiDims then 0 else 1 + (d - mixedHiDims) / groupDim) < nGroups := by
    intro hlt
    split_ifs with hhead
    · decide
    · exact hbody hlt hhead
  cases codec with
  | int4Single =>
      rw [stepOf_int4Single val v hd]
      exact scale_pos v
  | int4Grouped =>
      rw [← effective_eq_stepOf]
      apply effective_pos _ _ (globalScale_pos _)
      rw [length_groupSteps]
      exact group_lt hd
  | nf4 =>
      rw [← effective_eq_stepOf]
      apply effective_pos _ _ (globalScale_pos _)
      rw [length_groupSteps]
      exact group_lt hd
  | mixed =>
      rw [← effective_eq_stepOf]
      apply effective_pos _ _ (globalScale_pos _)
      rw [length_mixedSteps]
      exact hmixed hd
  | tq3 =>
      rw [← effective_eq_stepOf]
      apply effective_pos _ _ (globalScale_pos _)
      rw [length_groupSteps]
      exact group_lt hd
  | mix3 =>
      rw [← effective_eq_stepOf]
      apply effective_pos _ _ (globalScale_pos _)
      rw [length_mixedSteps]
      exact hmixed hd

/-- The stored level is the one picked for the value in steps. -/
theorem levelAt_quantised (codec : LatentCodec) (v : Latent ℚ) {d : ℕ} (hd : d < kept codec) :
    levelAt val (quantised val codec v).1 codec d = levelOf val codec d (at128 v d /
      stepOf (quantised val codec v).2.1 (quantised val codec v).2.2 codec d) := by
  cases codec with
  | int4Single =>
      rw [stepOf_int4Single val v hd]
      exact levelAt_int4Single val v hd
  | int4Grouped =>
      rw [← effective_eq_stepOf]
      exact levelAt_int4Grouped val v hd
  | nf4 =>
      rw [← effective_eq_stepOf]
      exact levelAt_nf4 val v hd
  | mixed =>
      rw [← effective_eq_stepOf]
      exact levelAt_mixed val v hd
  | tq3 =>
      rw [← effective_eq_stepOf]
      exact levelAt_tq3 val v hd
  | mix3 =>
      rw [← effective_eq_stepOf]
      exact levelAt_mix3 val v hd

variable {val} {codec : LatentCodec} {v : Latent ℚ} {t : SciRustSlhaTile}

theorem stepAt_stored (h : Stores val codec v t) (d : ℕ) : stepAt val t codec d =
    stepOf (quantised val codec v).2.1 (quantised val codec v).2.2 codec d := by
  unfold stepAt
  rw [h.scale, h.groups]

theorem at128_val (v : Latent ℚ) (d : Fin dC) : at128 v d.val = v d := dif_pos d.isLt

/-- What a stored tile decodes to: the level picked, times the step. -/
theorem dequantAt_stored (h : Stores val codec v t) {d : Fin dC} (hd : d.val < kept codec) :
    0 < stepAt val t codec d.val ∧ (dequantAt val t d.val : ℚ) =
      levelOf val codec d.val (v d / stepAt val t codec d.val) * stepAt val t codec d.val := by
  rw [dequantAt_eq h.flags hd, h.latent, levelAt_quantised val codec v hd, at128_val,
    ← stepAt_stored h]
  refine ⟨?_, rfl⟩
  rw [stepAt_stored h]
  exact stepOf_pos val codec v hd

/-- Distances in steps are distances. -/
theorem scaled_dist {step : ℚ} (hstep : 0 < step) (l y : ℚ) :
    |l * step - y| = |l - y / step| * step := by
  have hy : l * step - y = (l - y / step) * step := by
    field_simp
  rw [hy, abs_mul, abs_of_pos hstep]

/-- Two tiles that decode alike but for their latent bytes. -/
structure SameScales (t u : SciRustSlhaTile) : Prop where
  scale : u.scale = t.scale
  groupScales : u.groupScales = t.groupScales
  flags : u.flags = t.flags

/-- The planes of three-bit codes and signs hold those of the values in steps. -/
def Unpacks (val : F32 → ℚ) (codec : LatentCodec) (v : Latent ℚ) (t : SciRustSlhaTile) : Prop :=
  match codec with
  | .tq3 => ∀ d < dC,
      codeAt t.latentKv.1 0 tq3CodeBytes d =
          (tq3Pack (at128 v d / stepAt val t .tq3 d)).toNat ∧
        signAt t.latentKv.1 tq3CodeBytes d =
          if above (at128 v d / stepAt val t .tq3 d) then 1 else 0
  | .mix3 => ∀ ld < mixedLoDims,
      codeAt t.latentKv.1 mix3CodesOff mix3CorrOff ld =
          (tq3Pack (at128 v (mixedHiDims + ld) / stepAt val t .mix3 (mixedHiDims + ld))).toNat ∧
        signAt t.latentKv.1 mix3CorrOff ld =
          if above (at128 v (mixedHiDims + ld) / stepAt val t .mix3 (mixedHiDims + ld)) then 1
          else 0
  | _ => True

theorem unpacks (h : Stores val codec v t) : Unpacks val codec v t := by
  cases codec with
  | int4Single => trivial
  | int4Grouped => trivial
  | nf4 => trivial
  | mixed => trivial
  | tq3 =>
      intro d hd
      have hplanes := planes_tq3 val v hd
      rw [← h.latent] at hplanes
      have hstep : effective (quantizeLatentTq3 v).2.1 (quantizeLatentTq3 v).2.2 (d / groupDim) =
          stepAt val t .tq3 d := by
        rw [stepAt_stored h, ← effective_eq_stepOf]
        rfl
      rw [hstep] at hplanes
      exact hplanes
  | mix3 =>
      intro ld hld
      have hplanes := planes_mix3 val v hld
      rw [← h.latent] at hplanes
      have hstep : effective (quantizeLatentMix3 v).2.1 (quantizeLatentMix3 v).2.2
          (1 + ld / groupDim) = stepAt val t .mix3 (mixedHiDims + ld) := by
        rw [stepAt_stored h, ← effective_eq_stepOf, groupOf_body (Or.inr rfl)]
        rfl
      rw [hstep] at hplanes
      exact hplanes

/-- Only the codebook words are read while quantising. -/
theorem quantised_congr {val' : F32 → ℚ} (h : ReadsCodebook val) (h' : ReadsCodebook val')
    (codec : LatentCodec) (v : Latent ℚ) : quantised val codec v = quantised val' codec v := by
  have hnearest : nf4Nearest val = nf4Nearest val' := by
    funext x
    unfold nf4Nearest
    dsimp only
    congr 2
    apply List.foldl_ext
    intro best entry hentry
    have hmem : entry.1 ∈ nf4Codebook :=
      List.mem_of_getElem? (List.mem_zipIdx_iff_getElem?.mp hentry)
    have hread : val entry.1 = val' entry.1 := (h entry.1 hmem).trans (h' entry.1 hmem).symm
    rw [hread]
  cases codec with
  | nf4 =>
      simp only [quantised, quantizeLatentNf4, hnearest]
  | _ => rfl

theorem length_quantised (val : F32 → ℚ) (codec : LatentCodec) (v : Latent ℚ) :
    (quantised val codec v).1.length = latentBytes ∧
      (quantised val codec v).2.2.length = nGroups := by
  cases codec with
  | int4Single =>
      dsimp only [quantised]
      exact ⟨length_quantizeLatent v, List.length_replicate⟩
  | int4Grouped =>
      exact ⟨length_quantizeLatentGrouped v, (length_groupBytes ..).trans (length_groupSteps ..)⟩
  | nf4 =>
      exact ⟨length_quantizeLatentNf4 v val, (length_groupBytes ..).trans (length_groupSteps ..)⟩
  | mixed =>
      exact ⟨length_quantizeLatentMixed v, (length_groupBytes ..).trans (length_mixedSteps ..)⟩
  | tq3 =>
      exact ⟨length_quantizeLatentTq3 v, (length_groupBytes ..).trans (length_groupSteps ..)⟩
  | mix3 =>
      exact ⟨length_quantizeLatentMix3 v, (length_groupBytes ..).trans (length_mixedSteps ..)⟩

/-- Every latent can be stored; a word outside the codebook stands for its scale. -/
theorem exists_stores (codec : LatentCodec) (v : Latent ℚ) :
    ∃ (val : F32 → ℚ) (t : SciRustSlhaTile), ReadsCodebook val ∧ Stores val codec v t := by
  have hexact : ReadsCodebook fun c => toRat (Float32.ofBits c.bits).toModel.unpack :=
    fun _ _ => rfl
  obtain ⟨exact', hexact⟩ : ∃ exact' : F32 → ℚ, ReadsCodebook exact' := ⟨_, hexact⟩
  have hval : ReadsCodebook fun c => if c = F32.zero then (quantised exact' codec v).2.1
      else exact' c := by
    intro c hc
    have hne : c ≠ F32.zero := by
      have hall : ∀ c ∈ nf4Codebook, c ≠ F32.zero := by decide
      exact hall c hc
    exact (if_neg hne).trans (hexact c hc)
  obtain ⟨hlatent, hgroups⟩ := length_quantised exact' codec v
  refine ⟨_, { tileFromBytes (zeros tileBytes) with
    latentKv := ⟨(quantised exact' codec v).1, hlatent⟩
    scale := F32.zero
    flags := codecFlag codec
    groupScales := ⟨(quantised exact' codec v).2.2, hgroups⟩ }, hval, ?_⟩
  have hsame := quantised_congr hval hexact codec v
  have hflag : ∀ codec, codecFlag codec &&& decoderFlags = codecFlag codec := by
    intro codec
    cases codec <;> decide
  constructor
  · rw [hsame]
  · rw [hsame]
    exact if_pos rfl
  · rw [hsame]
  · exact hflag codec

/-- A tile that stores a latent decodes every kept dimension to the nearest value that any
latent bytes could give it under the same scales, unpacks the codes and signs that were
packed, and decodes the dropped tail to zero. -/
theorem decode_nearest (hval : ReadsCodebook val) (h : Stores val codec v t) :
    (∀ d : Fin dC, d.val < kept codec → ∀ u, SameScales t u →
      |dequantAt val t d.val - v d| ≤ |dequantAt val u d.val - v d|) ∧
      Unpacks val codec v t ∧
      ∀ d : Fin dC, kept codec ≤ d.val → dequantAt val t d.val = 0 := by
  refine ⟨?_, unpacks h, fun d htail => dequantAt_tail h.flags d.isLt htail⟩
  intro d hd u hu
  obtain ⟨hpos, heq⟩ := dequantAt_stored h hd
  have hflags : u.flags &&& decoderFlags = codecFlag codec := by
    rw [hu.flags]
    exact h.flags
  have hstep : stepAt val u codec d.val = stepAt val t codec d.val := by
    unfold stepAt
    rw [hu.scale, hu.groupScales]
  rw [heq, dequantAt_eq hflags hd, hstep, scaled_dist hpos, scaled_dist hpos]
  apply mul_le_mul_of_nonneg_right _ hpos.le
  exact levelOf_nearest val hval codec d.val _ (levelAt_mem val _ codec d.val)

/-- A latent that grows from one dimension to the next. -/
def ramp : Latent ℚ := fun d => d.val

/-- Under the stored scales the ramp is read back no worse than from cleared latent bytes. -/
theorem decode_nearest_ramp : ∃ (val : F32 → ℚ) (t : SciRustSlhaTile), Stores val .tq3 ramp t ∧
    (∀ d : Fin dC, |dequantAt val t d.val - d.val| ≤
      |dequantAt val { t with latentKv := ByteBuffer.zeros latentBytes } d.val - d.val|) ∧
    Unpacks val .tq3 ramp t := by
  obtain ⟨val, t, hval, h⟩ := exists_stores .tq3 ramp
  obtain ⟨hnear, hunpacks, -⟩ := decode_nearest hval h
  refine ⟨val, t, h, ?_, hunpacks⟩
  intro d
  exact hnear d d.isLt _ ⟨rfl, rfl, rfl⟩

end Contract

end SlhaV2.NearestCodes
