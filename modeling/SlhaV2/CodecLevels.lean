import Mathlib.Tactic.Linarith
import SlhaV2.ExactValues
import SlhaV2.PackedLatent

/-!
# The levels a latent can take

Over exact rationals a decoded dimension is a level times a step: sixteen levels
for a nibble or a corrected three-bit code, 256 for a head byte. A quantiser
picks one of them from the value in steps.
-/
namespace SlhaV2.CodecLevels
open ByteBuffer FloatingPoint SingleFloat TileCodec SlhaTile LatentCodecs LatentQuantisers
open ExactValues PackedLatent Single

/-- The flag that selects a codec. -/
def codecFlag : LatentCodec → Flags
  | .int4Single => 0
  | .int4Grouped => 0
  | .nf4 => flagNf4
  | .mixed => flagMixed
  | .tq3 => flagTq3
  | .mix3 => flagMix3

/-- The flags that say how a latent is decoded. -/
def decoderFlags : Flags := flagNf4 ||| flagMixed ||| flagTq3 ||| flagTq3Nocorr ||| flagMix3

/-- What a codec stores of a latent: bytes, scale and group bytes. -/
def quantised (val : F32 → ℚ) (codec : LatentCodec) (v : Latent ℚ) : List UInt8 × ℚ × List UInt8 :=
  match codec with
  | .int4Single => ((quantizeLatent v).1, (quantizeLatent v).2, List.replicate nGroups 255)
  | .int4Grouped => quantizeLatentGrouped v
  | .nf4 => quantizeLatentNf4 val v
  | .mixed => quantizeLatentMixed v
  | .tq3 => quantizeLatentTq3 v
  | .mix3 => quantizeLatentMix3 v

/-- The tile holds what the codec makes of the latent, under the codec's flag. -/
structure Stores (val : F32 → ℚ) (codec : LatentCodec) (v : Latent ℚ) (t : SciRustSlhaTile) :
    Prop where
  latent : t.latentKv.1 = (quantised val codec v).1
  scale : val t.scale = (quantised val codec v).2.1
  groups : t.groupScales.1 = (quantised val codec v).2.2
  flags : t.flags &&& decoderFlags = codecFlag codec

/-- Dimensions a codec keeps. -/
def kept : LatentCodec → ℕ
  | .mixed => mixedDims
  | .mix3 => mixedDims
  | _ => dC

/-- The group byte of a dimension. -/
def groupOf (codec : LatentCodec) (d : ℕ) : ℕ :=
  match codec with
  | .mixed | .mix3 => if d < mixedHiDims then 0 else 1 + (d - mixedHiDims) / groupDim
  | _ => d / groupDim

/-- The step of a dimension under a scale and group bytes. -/
def stepOf (scale : ℚ) (groups : List UInt8) (codec : LatentCodec) (d : ℕ) : ℚ :=
  scale * (groups.getD (groupOf codec d) 0).toNat / 255

section Flags
variable {t : SciRustSlhaTile}

theorem flag_of_masked {flags mask flag value : Flags} (h : flags &&& mask = value)
    (hsub : mask &&& flag = flag) : flags &&& flag = value &&& flag := by
  rw [← h, BitVec.and_assoc, hsub]

/-- What the flags of a codec select. -/
theorem decoder_of_flags {codec : LatentCodec} (h : t.flags &&& decoderFlags = codecFlag codec) :
    isMixed t = decide (codec = .mixed) ∧ t.isTq3 = decide (codec = .tq3) ∧
      t.isMix3 = decide (codec = .mix3) ∧ isNf4 t = decide (codec = .nf4) ∧
      t.isTq3Nocorr = false := by
  unfold isMixed isNf4 SciRustSlhaTile.isTq3 SciRustSlhaTile.isMix3 SciRustSlhaTile.isTq3Nocorr
  rw [flag_of_masked h (by decide : decoderFlags &&& flagMixed = flagMixed),
    flag_of_masked h (by decide : decoderFlags &&& flagTq3 = flagTq3),
    flag_of_masked h (by decide : decoderFlags &&& flagMix3 = flagMix3),
    flag_of_masked h (by decide : decoderFlags &&& flagNf4 = flagNf4),
    flag_of_masked h (by decide : decoderFlags &&& flagTq3Nocorr = flagTq3Nocorr)]
  cases codec <;> decide

end Flags

section Rounding

/-- Rounding gives an integer at most half away. -/
theorem round_spec (x : ℚ) : ∃ r : ℤ, Single.round x = (r : ℚ) ∧ |x - r| ≤ 1 / 2 := by
  change ∃ r : ℤ, roundAway x = (r : ℚ) ∧ |x - r| ≤ 1 / 2
  unfold roundAway
  split_ifs with hneg
  · refine ⟨-⌊-x + 1 / 2⌋, by push_cast; rfl, ?_⟩
    have hle := Int.floor_le (-x + 1 / 2)
    have hlt := Int.lt_floor_add_one (-x + 1 / 2)
    push_cast
    rw [abs_le]
    constructor <;> linarith
  · refine ⟨⌊x + 1 / 2⌋, rfl, ?_⟩
    have hle := Int.floor_le (x + 1 / 2)
    have hlt := Int.lt_floor_add_one (x + 1 / 2)
    rw [abs_le]
    constructor <;> linarith

theorem trunc_intCast (r : ℤ) : trunc (r : ℚ) = r := by
  unfold trunc
  split_ifs
  · rw [← Int.cast_neg, Int.floor_intCast, neg_neg]
  · exact Int.floor_intCast r

/-- The range of the clamp lies inside the range of the conversion. -/
theorem clampInt_toI32 {lo hi : ℤ} (hlo : -2 ^ 31 ≤ lo) (hhi : hi ≤ 2 ^ 31 - 1) (h : lo ≤ hi)
    (r : ℤ) : clampInt lo hi (toI32 (r : ℚ)) = clampInt lo hi r := by
  have hcast : toI32 (r : ℚ) = max (-2 ^ 31) (min (2 ^ 31 - 1) r) := by
    change max (-2 ^ 31) (min (2 ^ 31 - 1) (trunc (r : ℚ))) = _
    rw [trunc_intCast]
  rw [hcast]
  unfold clampInt
  omega

/-- The clamped rounded value. -/
def clampedRound (lo hi : ℤ) (x : ℚ) : ℤ := clampInt lo hi (toI32 (Single.round x))

theorem clampedRound_mem {lo hi : ℤ} (h : lo ≤ hi) (x : ℚ) :
    lo ≤ clampedRound lo hi x ∧ clampedRound lo hi x ≤ hi := clampInt_le lo hi _ h

/-- Either the value is within half of its clamped rounding, or this is the end it exceeds. -/
theorem clampedRound_spec {lo hi : ℤ} (hlo : -2 ^ 31 ≤ lo) (hhi : hi ≤ 2 ^ 31 - 1) (h : lo ≤ hi)
    (x : ℚ) : |x - clampedRound lo hi x| ≤ 1 / 2 ∨
      (clampedRound lo hi x = hi ∧ (hi : ℚ) + 1 / 2 ≤ x) ∨
      (clampedRound lo hi x = lo ∧ x ≤ (lo : ℚ) - 1 / 2) := by
  obtain ⟨r, hr, hclose⟩ := round_spec x
  have hclamp : clampedRound lo hi x = clampInt lo hi r := by
    unfold clampedRound
    rw [hr, clampInt_toI32 hlo hhi h]
  rw [hclamp]
  obtain ⟨hleft, hright⟩ := abs_le.mp hclose
  rcases lt_or_ge r lo with hlow | hlow
  · have hend : clampInt lo hi r = lo := by
      unfold clampInt
      omega
    have hstep : (r : ℚ) + 1 ≤ lo := by exact_mod_cast hlow
    exact Or.inr (Or.inr ⟨hend, by linarith⟩)
  · rcases lt_or_ge hi r with hhigh | hhigh
    · have hend : clampInt lo hi r = hi := by
        unfold clampInt
        omega
      have hstep : (hi : ℚ) + 1 ≤ r := by exact_mod_cast hhigh
      exact Or.inr (Or.inl ⟨hend, by linarith⟩)
    · have hmid : clampInt lo hi r = r := by
        unfold clampInt
        omega
      rw [hmid]
      exact Or.inl hclose

/-- Rounding and clamping picks a nearest integer of the range. -/
theorem clampedRound_nearest {lo hi : ℤ} (hlo : -2 ^ 31 ≤ lo) (hhi : hi ≤ 2 ^ 31 - 1)
    (h : lo ≤ hi) (x : ℚ) {l : ℤ} (hl : lo ≤ l ∧ l ≤ hi) :
    |(clampedRound lo hi x : ℚ) - x| ≤ |(l : ℚ) - x| := by
  have hleft : (lo : ℚ) ≤ l := by exact_mod_cast hl.1
  have hright : (l : ℚ) ≤ hi := by exact_mod_cast hl.2
  rcases clampedRound_spec hlo hhi h x with hclose | ⟨hend, hover⟩ | ⟨hend, hunder⟩
  · rw [abs_sub_comm] at hclose
    by_cases heq : l = clampedRound lo hi x
    · rw [heq]
    · have hgap : (1 : ℚ) ≤ |(l : ℚ) - clampedRound lo hi x| := by
        have hint : 1 ≤ |l - clampedRound lo hi x| := Int.one_le_abs (sub_ne_zero.mpr heq)
        exact_mod_cast hint
      have htri := abs_sub_le (l : ℚ) x (clampedRound lo hi x)
      rw [abs_sub_comm x] at htri
      linarith
  · rw [hend, abs_of_nonpos (by linarith), abs_of_nonpos (by linarith)]
    linarith
  · rw [hend, abs_of_nonneg (by linarith), abs_of_nonneg (by linarith)]
    linarith

end Rounding

section Levels

theorem int4Nibble_toNat (x : ℚ) :
    ((int4Nibble x).toNat : ℤ) = clampedRound (-8) 7 x + 8 := by
  have hrange := clampedRound_mem (by decide : (-8 : ℤ) ≤ 7) x
  have hbyte : (asU8 (clampedRound (-8) 7 x + 8)).toNat = (clampedRound (-8) 7 x + 8).toNat :=
    asU8_toNat (by omega)
  have hmask : (int4Nibble x).toNat = (asU8 (clampedRound (-8) 7 x + 8)).toNat % 16 := by
    change (asU8 (clampedRound (-8) 7 x + 8) &&& 0x0F).toNat = _
    rw [UInt8.toNat_and]
    exact Nat.and_two_pow_sub_one_eq_mod _ 4
  rw [hmask, hbyte]
  omega

theorem headByte_toNat (x : ℚ) :
    ((headByte x).toNat : ℤ) = clampedRound (-128) 127 x + 128 := by
  have hrange := clampedRound_mem (by decide : (-128 : ℤ) ≤ 127) x
  have hbyte : (asU8 (clampedRound (-128) 127 x + 128)).toNat =
      (clampedRound (-128) 127 x + 128).toNat := asU8_toNat (by omega)
  change ((asU8 (clampedRound (-128) 127 x + 128)).toNat : ℤ) = _
  rw [hbyte]
  omega

theorem tq3Pack_toNat (x : ℚ) : ((tq3Pack x).toNat : ℤ) = clampedRound 0 7 (x + 7 / 2) := by
  have hrange := clampedRound_mem (by decide : (0 : ℤ) ≤ 7) (x + 7 / 2)
  have hbyte : (asU8 (clampedRound 0 7 (x + 7 / 2))).toNat =
      (clampedRound 0 7 (x + 7 / 2)).toNat := asU8_toNat (by omega)
  change ((asU8 (clampedRound 0 7 (x + 7 / 2))).toNat : ℤ) = _
  rw [hbyte]
  omega

/-- The corrected level of a value in steps. -/
def tq3Value (code : ℤ) (up : Bool) : ℚ := code - 7 / 2 + if up then 1 / 4 else -(1 / 4)

theorem above_iff (x : ℚ) : above x = decide (0 < x + 7 / 2 - clampedRound 0 7 (x + 7 / 2)) := by
  have hcode : ((tq3Pack x).toNat : ℚ) = clampedRound 0 7 (x + 7 / 2) := by
    exact_mod_cast tq3Pack_toNat x
  change decide (0 < x - (((tq3Pack x).toNat : ℚ) - 7 / 2)) = _
  rw [hcode]
  exact decide_eq_decide.mpr (by constructor <;> intro h <;> linarith)

/-- A quarter step towards the value, against a quarter step elsewhere. -/
theorem quarter_nearest {offset other : ℚ} {m : ℤ} (hother : other = 1 / 4 ∨ other = -(1 / 4))
    (h : |offset| ≤ 1 / 2 ∨ (m ≤ 0 ∧ 1 / 2 ≤ offset) ∨ (0 ≤ m ∧ offset ≤ -(1 / 2))) :
    |(if 0 < offset then 1 / 4 else -(1 / 4)) - offset| ≤ |m + other - offset| := by
  have hbounds : -(1 / 4) ≤ other ∧ other ≤ 1 / 4 := by
    rcases hother with heq | heq <;> rw [heq] <;> constructor <;> norm_num
  rcases h with hclose | ⟨hm, hover⟩ | ⟨hm, hunder⟩
  · obtain ⟨hleft, hright⟩ := abs_le.mp hclose
    have hquarter : |(if 0 < offset then 1 / 4 else -(1 / 4)) - offset| ≤ 1 / 4 := by
      split_ifs <;> rw [abs_le] <;> constructor <;> linarith
    rcases lt_trichotomy m 0 with hneg | hzero | hpos
    · have hstep : (m : ℚ) ≤ -1 := by exact_mod_cast (by omega : m ≤ -1)
      rw [abs_of_nonpos (by linarith : (m : ℚ) + other - offset ≤ 0)]
      linarith
    · rw [hzero, Int.cast_zero, zero_add]
      split_ifs with hpos
      · rcases hother with heq | heq
        · rw [heq]
        · rw [heq, abs_of_nonpos (by linarith : -(1 / 4) - offset ≤ 0), abs_le]
          constructor <;> linarith
      · rcases hother with heq | heq
        · rw [heq, abs_of_nonneg (by linarith : 0 ≤ 1 / 4 - offset), abs_le]
          constructor <;> linarith
        · rw [heq]
    · have hstep : (1 : ℚ) ≤ m := by exact_mod_cast hpos
      rw [abs_of_nonneg (by linarith : 0 ≤ (m : ℚ) + other - offset)]
      linarith
  · have hstep : (m : ℚ) ≤ 0 := by exact_mod_cast hm
    rw [if_pos (by linarith), abs_of_nonpos (by linarith), abs_of_nonpos (by linarith)]
    linarith
  · have hstep : (0 : ℚ) ≤ m := by exact_mod_cast hm
    rw [if_neg (by linarith), abs_of_nonneg (by linarith), abs_of_nonneg (by linarith)]
    linarith

/-- The correction bit makes eight levels into sixteen, at the ends as well. -/
theorem tq3_nearest (x : ℚ) {code : ℤ} (hcode : 0 ≤ code ∧ code ≤ 7) (up : Bool) :
    |tq3Value (clampedRound 0 7 (x + 7 / 2)) (above x) - x| ≤ |tq3Value code up - x| := by
  rw [above_iff]
  have hspec := clampedRound_spec (by decide : -2 ^ 31 ≤ (0 : ℤ))
    (by decide : (7 : ℤ) ≤ 2 ^ 31 - 1) (by decide) (x + 7 / 2)
  generalize clampedRound 0 7 (x + 7 / 2) = c at hspec
  have hother : (if up then 1 / 4 else -(1 / 4) : ℚ) = 1 / 4 ∨
      (if up then 1 / 4 else -(1 / 4) : ℚ) = -(1 / 4) := by
    cases up <;> simp
  have hends : |x + 7 / 2 - c| ≤ 1 / 2 ∨ (code - c ≤ 0 ∧ 1 / 2 ≤ x + 7 / 2 - c) ∨
      (0 ≤ code - c ∧ x + 7 / 2 - c ≤ -(1 / 2)) := by
    rcases hspec with hclose | ⟨hend, hover⟩ | ⟨hend, hunder⟩
    · exact Or.inl hclose
    · rw [hend]
      exact Or.inr (Or.inl ⟨by omega, by linarith⟩)
    · rw [hend]
      exact Or.inr (Or.inr ⟨by omega, by linarith⟩)
  have hnear := quarter_nearest hother hends
  have hleft : tq3Value c (decide (0 < x + 7 / 2 - c)) - x =
      (if 0 < x + 7 / 2 - c then 1 / 4 else -(1 / 4)) - (x + 7 / 2 - c) := by
    unfold tq3Value
    simp only [decide_eq_true_eq]
    ring
  have hright : tq3Value code up - x =
      ((code - c : ℤ) : ℚ) + (if up then 1 / 4 else -(1 / 4)) - (x + 7 / 2 - c) := by
    unfold tq3Value
    push_cast
    ring
  rw [hleft, hright]
  exact hnear

end Levels

section Codebook
variable {val : F32 → ℚ}

/-- The codebook words are read as the floats they are. -/
def ReadsCodebook (val : F32 → ℚ) : Prop :=
  ∀ c ∈ nf4Codebook, val c = toRat (Float32.ofBits c.bits).toModel.unpack

theorem codebook_range (h : ReadsCodebook val) {c : F32} (hc : c ∈ nf4Codebook) :
    -1 ≤ val c ∧ val c ≤ 1 := by
  rw [h c hc]
  have hall : ∀ c ∈ nf4Codebook, -1 ≤ toRat (Float32.ofBits c.bits).toModel.unpack ∧
      toRat (Float32.ofBits c.bits).toModel.unpack ≤ 1 := by
    decide +kernel
  exact hall c hc

/-- The ends of the range are in the codebook. -/
theorem codebook_ends (h : ReadsCodebook val) :
    (∃ c ∈ nf4Codebook, val c = -1) ∧ ∃ c ∈ nf4Codebook, val c = 1 := by
  constructor
  · refine ⟨⟨0xbf800000⟩, by decide, ?_⟩
    rw [h _ (by decide)]
    decide +kernel
  · refine ⟨⟨0x3f800000⟩, by decide, ?_⟩
    rw [h _ (by decide)]
    decide +kernel

/-- One comparison of the scan. -/
def nearer (val : F32 → ℚ) (x : ℚ) (best : Option (ℕ × ℚ)) (entry : F32 × ℕ) : Option (ℕ × ℚ) :=
  if best.elim true fun b => lt (Single.abs (x - val entry.1)) b.2 then
    some (entry.2, Single.abs (x - val entry.1))
  else best

/-- The scan ends at an entry no farther than any it has seen. -/
theorem foldl_nearer (x : ℚ) (entries : List (F32 × ℕ)) (b : ℕ × ℚ) :
    ∃ r, entries.foldl (nearer val x) (some b) = some r ∧ r.2 ≤ b.2 ∧
      (∀ entry ∈ entries, r.2 ≤ |x - val entry.1|) ∧
      (r = b ∨ ∃ entry ∈ entries, r = (entry.2, |x - val entry.1|)) := by
  induction entries generalizing b with
  | nil => exact ⟨b, rfl, le_rfl, fun _ hmem => (List.not_mem_nil hmem).elim, Or.inl rfl⟩
  | cons entry entries ih =>
      have hstep : nearer val x (some b) entry =
          some (if |x - val entry.1| < b.2 then (entry.2, |x - val entry.1|) else b) := by
        change (if decide (|x - val entry.1| < b.2) then _ else _) = _
        by_cases hlt : |x - val entry.1| < b.2
        · rw [if_pos (decide_eq_true hlt), if_pos hlt]
          rfl
        · rw [if_neg (by simpa using hlt), if_neg hlt]
      obtain ⟨r, hr, hle, hall, hfrom⟩ := ih (if |x - val entry.1| < b.2 then
        (entry.2, |x - val entry.1|) else b)
      rw [List.foldl_cons, hstep]
      refine ⟨r, hr, ?_, ?_, ?_⟩
      · split_ifs at hle with hlt
        · exact hle.trans hlt.le
        · exact hle
      · intro other hmem
        rcases List.mem_cons.mp hmem with heq | hrest
        · rw [heq]
          split_ifs at hle with hlt
          · exact hle
          · exact hle.trans (le_of_not_gt hlt)
        · exact hall other hrest
      · rcases hfrom with heq | ⟨other, hother, heq⟩
        · split_ifs at heq with hlt
          · exact Or.inr ⟨entry, List.mem_cons_self, heq⟩
          · exact Or.inl heq
        · exact Or.inr ⟨other, List.mem_cons_of_mem _ hother, heq⟩

/-- The index found is that of a nearest level of the codebook. -/
theorem nf4Nearest_spec (val : F32 → ℚ) (x : ℚ) : (nf4Nearest val x).toNat < 16 ∧
    nf4Codebook.getD (nf4Nearest val x).toNat F32.zero ∈ nf4Codebook ∧
      ∀ c ∈ nf4Codebook,
        |x - val (nf4Codebook.getD (nf4Nearest val x).toNat F32.zero)| ≤ |x - val c| := by
  obtain ⟨first, rest, hsplit⟩ : ∃ first rest, nf4Codebook.zipIdx = first :: rest := ⟨_, _, rfl⟩
  obtain ⟨r, hr, hle, hall, hfrom⟩ := @foldl_nearer val x rest (first.2, |x - val first.1|)
  have hscan : nf4Codebook.zipIdx.foldl (nearer val x) none = some r := by
    rw [hsplit, List.foldl_cons]
    exact hr
  have hindex : nf4Nearest val x = UInt8.ofNat r.1 := by
    change UInt8.ofNat ((nf4Codebook.zipIdx.foldl (nearer val x) none).elim 0 Prod.fst) = _
    rw [hscan]
    rfl
  obtain ⟨entry, hentry, hre⟩ : ∃ entry ∈ nf4Codebook.zipIdx,
      r = (entry.2, |x - val entry.1|) := by
    rw [hsplit]
    rcases hfrom with heq | ⟨entry, hmem, heq⟩
    · exact ⟨first, List.mem_cons_self, heq⟩
    · exact ⟨entry, List.mem_cons_of_mem _ hmem, heq⟩
  have hget := List.mem_zipIdx_iff_getElem?.mp hentry
  have hlt : entry.2 < 16 := (List.getElem?_eq_some_iff.mp hget).1
  have hnat : (nf4Nearest val x).toNat = entry.2 := by
    rw [hindex, hre, UInt8.toNat_ofNat', Nat.mod_eq_of_lt (by omega)]
  have hfound : nf4Codebook.getD entry.2 F32.zero = entry.1 := by
    rw [List.getD_eq_getElem?_getD, hget]
    rfl
  rw [hnat, hfound]
  refine ⟨hlt, List.mem_of_getElem? hget, ?_⟩
  intro c hc
  obtain ⟨i, hi⟩ := List.mem_iff_getElem?.mp hc
  have hmem : (c, i) ∈ first :: rest := by
    rw [← hsplit]
    exact List.mem_zipIdx_iff_getElem?.mpr hi
  have hdist : r.2 = |x - val entry.1| := by rw [hre]
  rw [← hdist]
  rcases List.mem_cons.mp hmem with heq | hrest
  · rw [← heq] at hle
    exact hle
  · exact hall (c, i) hrest

/-- The value in steps that the codebook is asked for. -/
def nf4Clamp (x : ℚ) : ℚ := clamp x (-1) 1

theorem nf4Clamp_eq (x : ℚ) : nf4Clamp x = if x < -1 then -1 else if 1 < x then 1 else x := by
  unfold nf4Clamp clamp
  dsimp only
  change (if decide (1 < if decide (x < -1) then -1 else x) then (1 : ℚ)
    else if decide (x < -1) then -1 else x) = _
  simp only [decide_eq_true_eq]
  split_ifs <;> first | rfl | (exfalso; linarith)

/-- A level nearest to the clamped value is nearest to the value. -/
theorem nf4_nearest (h : ReadsCodebook val) (x : ℚ) {c : F32} (hc : c ∈ nf4Codebook) :
    |val (nf4Codebook.getD (nf4Nearest val (nf4Clamp x)).toNat F32.zero) - x| ≤ |val c - x| := by
  obtain ⟨-, hmem, hnear⟩ := nf4Nearest_spec val (nf4Clamp x)
  generalize nf4Codebook.getD (nf4Nearest val (nf4Clamp x)).toNat F32.zero = best at hmem hnear
  obtain ⟨⟨low, hlow, hlowval⟩, high, hhigh, hhighval⟩ := codebook_ends h
  have hrange := codebook_range h hc
  rw [nf4Clamp_eq] at hnear
  split_ifs at hnear with hunder hover
  · have hend := hnear low hlow
    rw [hlowval, sub_self, abs_zero] at hend
    have heq : val best = -1 := by linarith [abs_nonpos_iff.mp hend]
    rw [heq, abs_of_nonneg (by linarith), abs_of_nonneg (by linarith)]
    linarith
  · have hend := hnear high hhigh
    rw [hhighval, sub_self, abs_zero] at hend
    have heq : val best = 1 := by linarith [abs_nonpos_iff.mp hend]
    rw [heq, abs_of_nonpos (by linarith), abs_of_nonpos (by linarith)]
    linarith
  · rw [abs_sub_comm, abs_sub_comm (val c)]
    exact hnear c hc

end Codebook

section Decoding
variable (val : F32 → ℚ)

/-- The integers of a range. -/
def integers (lo hi : ℤ) : Set ℚ := {l | ∃ n : ℤ, (lo ≤ n ∧ n ≤ hi) ∧ l = n}

def tq3Levels : Set ℚ :=
  {l | ∃ (code : ℤ) (up : Bool), (0 ≤ code ∧ code ≤ 7) ∧ l = tq3Value code up}

/-- The levels that a dimension can take. -/
def levels (codec : LatentCodec) (d : ℕ) : Set ℚ :=
  match codec with
  | .int4Single => integers (-8) 7
  | .int4Grouped => integers (-8) 7
  | .nf4 => {l | ∃ c ∈ nf4Codebook, l = val c}
  | .mixed => if d < mixedHiDims then integers (-128) 127 else integers (-8) 7
  | .tq3 => tq3Levels
  | .mix3 => if d < mixedHiDims then integers (-128) 127 else tq3Levels

/-- The level that a quantiser picks for a value in steps. -/
def levelOf (codec : LatentCodec) (d : ℕ) (x : ℚ) : ℚ :=
  match codec with
  | .int4Single => clampedRound (-8) 7 x
  | .int4Grouped => clampedRound (-8) 7 x
  | .nf4 => val (nf4Codebook.getD (nf4Nearest val (nf4Clamp x)).toNat F32.zero)
  | .mixed => if d < mixedHiDims then clampedRound (-128) 127 x else clampedRound (-8) 7 x
  | .tq3 => tq3Value (clampedRound 0 7 (x + 7 / 2)) (above x)
  | .mix3 =>
      if d < mixedHiDims then clampedRound (-128) 127 x
      else tq3Value (clampedRound 0 7 (x + 7 / 2)) (above x)

theorem nibble_nearest (x : ℚ) {l : ℚ} (hl : l ∈ integers (-8) 7) :
    |(clampedRound (-8) 7 x : ℚ) - x| ≤ |l - x| := by
  obtain ⟨n, hn, rfl⟩ := hl
  exact clampedRound_nearest (by decide) (by decide) (by decide) x hn

theorem head_nearest (x : ℚ) {l : ℚ} (hl : l ∈ integers (-128) 127) :
    |(clampedRound (-128) 127 x : ℚ) - x| ≤ |l - x| := by
  obtain ⟨n, hn, rfl⟩ := hl
  exact clampedRound_nearest (by decide) (by decide) (by decide) x hn

theorem tq3Levels_nearest (x : ℚ) {l : ℚ} (hl : l ∈ tq3Levels) :
    |tq3Value (clampedRound 0 7 (x + 7 / 2)) (above x) - x| ≤ |l - x| := by
  obtain ⟨code, up, hcode, rfl⟩ := hl
  exact tq3_nearest x hcode up

/-- The level picked is nearest to the value. -/
theorem levelOf_nearest (h : ReadsCodebook val) (codec : LatentCodec) (d : ℕ) (x : ℚ) {l : ℚ}
    (hl : l ∈ levels val codec d) : |levelOf val codec d x - x| ≤ |l - x| := by
  cases codec with
  | int4Single => exact nibble_nearest x hl
  | int4Grouped => exact nibble_nearest x hl
  | nf4 =>
      obtain ⟨c, hc, rfl⟩ := hl
      exact nf4_nearest h x hc
  | mixed =>
      unfold levels at hl
      unfold levelOf
      dsimp only at hl ⊢
      split_ifs at hl ⊢
      · exact head_nearest x hl
      · exact nibble_nearest x hl
  | tq3 => exact tq3Levels_nearest x hl
  | mix3 =>
      unfold levels at hl
      unfold levelOf
      dsimp only at hl ⊢
      split_ifs at hl ⊢
      · exact head_nearest x hl
      · exact tq3Levels_nearest x hl

variable {val}
variable {t : SciRustSlhaTile} {codec : LatentCodec}

theorem nibble_lt (byte : UInt8) (d : ℕ) : nibble byte d < 16 := by
  have hbyte := byte.toNat_lt
  rw [nibble_eq]
  split_ifs <;> omega

theorem tq3Code_lt (lo hi shift : ℕ) : tq3Code lo hi shift < 8 := by
  have hseven : (7 : ℕ) = 2 ^ 3 - 1 := rfl
  unfold tq3Code
  rw [hseven, Nat.and_two_pow_sub_one_eq_mod]
  exact Nat.mod_lt _ (by decide)

theorem nibbleLevel_mem (byte : UInt8) (d : ℕ) :
    ((nibble byte d : ℤ) : ℚ) - 8 ∈ integers (-8) 7 := by
  have hlt := nibble_lt byte d
  exact ⟨nibble byte d - 8, by omega, by push_cast; ring⟩

theorem headLevel_mem (byte : UInt8) : ((byte.toNat : ℤ) : ℚ) - 128 ∈ integers (-128) 127 := by
  have hlt := byte.toNat_lt
  exact ⟨byte.toNat - 128, by omega, by push_cast; ring⟩

/-- A corrected three-bit code reads as one of the sixteen levels. -/
theorem tq3Level_eq (hcorr : t.isTq3Nocorr = false) (code corr : ℕ) :
    (tq3Level t code corr : ℚ) = tq3Value code (decide (corr = 1)) := by
  unfold tq3Level tq3Value signOf
  rw [hcorr]
  change (code : ℚ) - 7 / 2 + (if corr = 1 then 1 else -1) * (1 / 4) = _
  by_cases h : corr = 1 <;> simp [h]

/-- The step of a dimension of the tile. -/
def stepAt (val : F32 → ℚ) (t : SciRustSlhaTile) (codec : LatentCodec) (d : ℕ) : ℚ :=
  stepOf (val t.scale) t.groupScales.1 codec d

theorem groupScale_eq (d : ℕ) (hgroup : groupOf codec d = d / groupDim) :
    (groupScale val t d : ℚ) = stepAt val t codec d := by
  unfold stepAt stepOf
  rw [hgroup, mul_div_assoc]
  rfl

/-- The three-bit code at an index of a plane of codes. -/
def codeAt (bytes : List UInt8) (off limit ld : ℕ) : ℕ :=
  tq3Code (bytes.getD (off + 3 * ld / 8) 0).toNat
    (if off + 3 * ld / 8 + 1 < limit then (bytes.getD (off + 3 * ld / 8 + 1) 0).toNat <<< 8 else 0)
    (3 * ld % 8)

/-- The correction bit at an index of a plane of signs. -/
def signAt (bytes : List UInt8) (off ld : ℕ) : ℕ :=
  ((bytes.getD (off + ld / 8) 0).toNat >>> (ld % 8)) &&& 1

/-- The level that a tile stores for a dimension. -/
def levelAt (val : F32 → ℚ) (bytes : List UInt8) (codec : LatentCodec) (d : ℕ) : ℚ :=
  match codec with
  | .int4Single => (nibble (bytes.getD (d / 2) 0) d : ℤ) - 8
  | .int4Grouped => (nibble (bytes.getD (d / 2) 0) d : ℤ) - 8
  | .nf4 => val (nf4Codebook.getD (nibble (bytes.getD (d / 2) 0) d) F32.zero)
  | .mixed =>
      if d < mixedHiDims then ((bytes.getD d 0).toNat : ℤ) - 128
      else (nibble (bytes.getD (mixedHiDims + (d - mixedHiDims) / 2) 0) (d - mixedHiDims) : ℤ) - 8
  | .tq3 => tq3Value (codeAt bytes 0 tq3CodeBytes d) (decide (signAt bytes tq3CodeBytes d = 1))
  | .mix3 =>
      if d < mixedHiDims then ((bytes.getD d 0).toNat : ℤ) - 128
      else tq3Value (codeAt bytes mix3CodesOff mix3CorrOff (d - mixedHiDims))
        (decide (signAt bytes mix3CorrOff (d - mixedHiDims) = 1))

theorem levelAt_mem (val : F32 → ℚ) (bytes : List UInt8) (codec : LatentCodec) (d : ℕ) :
    levelAt val bytes codec d ∈ levels val codec d := by
  have htq3 : ∀ off limit corr ld, tq3Value (codeAt bytes off limit ld)
      (decide (signAt bytes corr ld = 1)) ∈ tq3Levels := by
    intro off limit corr ld
    have hlt : codeAt bytes off limit ld < 8 := tq3Code_lt _ _ _
    exact ⟨codeAt bytes off limit ld, _, by omega, rfl⟩
  cases codec with
  | int4Single => exact nibbleLevel_mem _ _
  | int4Grouped => exact nibbleLevel_mem _ _
  | nf4 =>
      have hlt := nibble_lt (bytes.getD (d / 2) 0) d
      refine ⟨_, ?_, rfl⟩
      rw [List.getD_eq_getElem?_getD,
        List.getElem?_eq_getElem (show _ < nf4Codebook.length from hlt)]
      exact List.getElem_mem _
  | mixed =>
      unfold levelAt levels
      dsimp only
      split_ifs
      · exact headLevel_mem _
      · exact nibbleLevel_mem _ _
  | tq3 => exact htq3 _ _ _ _
  | mix3 =>
      unfold levelAt levels
      dsimp only
      split_ifs
      · exact headLevel_mem _
      · exact htq3 _ _ _ _

/-- A dimension of the three-bit layout, with or without its correction plane. -/
theorem dequantAtTq3_level (d : ℕ) : (dequantAtTq3 val t d : ℚ) =
    tq3Level t (codeAt t.latentKv.1 0 tq3CodeBytes d) (signAt t.latentKv.1 tq3CodeBytes d) *
      stepAt val t .tq3 d := by
  have hand : (3 * d) &&& 7 = 3 * d % 8 := Nat.and_two_pow_sub_one_eq_mod _ 3
  have hshift : (3 * d) >>> 3 = 3 * d / 8 := Nat.shiftRight_eq_div_pow _ 3
  have hsign : d &&& 7 = d % 8 := Nat.and_two_pow_sub_one_eq_mod _ 3
  have hplane : d >>> 3 = d / 8 := Nat.shiftRight_eq_div_pow _ 3
  unfold dequantAtTq3
  dsimp only
  have hgroup : (groupScale val t d : ℚ) = stepAt val t .tq3 d := groupScale_eq d rfl
  rw [hand, hshift, hsign, hplane, hgroup]
  unfold codeAt signAt byteAt
  rw [Nat.zero_add]

theorem dequantAtTq3_eq (hcorr : t.isTq3Nocorr = false) (d : ℕ) :
    (dequantAtTq3 val t d : ℚ) = levelAt val t.latentKv.1 .tq3 d * stepAt val t .tq3 d := by
  rw [dequantAtTq3_level, tq3Level_eq hcorr]
  rfl

theorem dequantAtMix3_head {d : ℕ} (hhead : d < mixedHiDims) : (dequantAtMix3 val t d : ℚ) =
    (((t.latentKv.1.getD d 0).toNat : ℤ) - 128 : ℚ) * stepAt val t .mix3 d := by
  have hsection : (sectionScale val t (groupOf .mix3 d) : ℚ) = stepAt val t .mix3 d := rfl
  rw [← hsection]
  unfold dequantAtMix3 groupOf
  dsimp only
  rw [if_pos hhead, if_pos hhead]
  change (((byteAt t.latentKv d).toNat - 128 : ℤ) : ℚ) * _ = _
  push_cast
  rfl

/-- A dimension of the body of the mixed three-bit layout. -/
theorem dequantAtMix3_level {d : ℕ} (hhead : ¬ d < mixedHiDims) (hd : d < mixedDims) :
    (dequantAtMix3 val t d : ℚ) =
      tq3Level t (codeAt t.latentKv.1 mix3CodesOff mix3CorrOff (d - mixedHiDims))
        (signAt t.latentKv.1 mix3CorrOff (d - mixedHiDims)) * stepAt val t .mix3 d := by
  have hsection : (sectionScale val t (groupOf .mix3 d) : ℚ) = stepAt val t .mix3 d := rfl
  rw [← hsection]
  unfold dequantAtMix3 groupOf
  dsimp only
  generalize hld : d - mixedHiDims = ld
  have hand : (3 * ld) &&& 7 = 3 * ld % 8 := Nat.and_two_pow_sub_one_eq_mod _ 3
  have hshift : (3 * ld) >>> 3 = 3 * ld / 8 := Nat.shiftRight_eq_div_pow _ 3
  have hsign : ld &&& 7 = ld % 8 := Nat.and_two_pow_sub_one_eq_mod _ 3
  have hplane : ld >>> 3 = ld / 8 := Nat.shiftRight_eq_div_pow _ 3
  rw [if_neg hhead, if_neg (Nat.not_le.mpr hd), if_neg hhead, hand, hshift, hsign, hplane]
  rfl

theorem dequantAtMix3_eq (hcorr : t.isTq3Nocorr = false) {d : ℕ} (hd : d < mixedDims) :
    (dequantAtMix3 val t d : ℚ) = levelAt val t.latentKv.1 .mix3 d * stepAt val t .mix3 d := by
  unfold levelAt
  dsimp only
  by_cases hhead : d < mixedHiDims
  · rw [dequantAtMix3_head hhead, if_pos hhead]
  · rw [dequantAtMix3_level hhead hd, if_neg hhead, tq3Level_eq hcorr]

theorem dequantAtMixed_eq {d : ℕ} (hd : d < mixedDims) :
    (dequantAtMixed val t d : ℚ) = levelAt val t.latentKv.1 .mixed d * stepAt val t .mixed d := by
  have hsection : (sectionScale val t (groupOf .mixed d) : ℚ) = stepAt val t .mixed d := rfl
  rw [← hsection]
  unfold dequantAtMixed levelAt groupOf
  dsimp only
  by_cases hhead : d < mixedHiDims
  · rw [if_pos hhead, if_pos hhead, if_pos hhead]
    change (((byteAt t.latentKv d).toNat - 128 : ℤ) : ℚ) * _ = _
    push_cast
    rfl
  · have hhalf : (d - mixedHiDims) >>> 1 = (d - mixedHiDims) / 2 := Nat.shiftRight_eq_div_pow _ 1
    rw [if_neg hhead, if_pos hd, if_neg hhead, if_neg hhead, hhalf]
    change ((_ - 8 : ℤ) : ℚ) * _ = _
    push_cast
    rfl

/-- Under its flag a codec decodes a kept dimension to the stored level times the step. -/
theorem dequantAt_eq (h : t.flags &&& decoderFlags = codecFlag codec) {d : ℕ}
    (hd : d < kept codec) : (dequantAt val t d : ℚ) =
      levelAt val t.latentKv.1 codec d * stepAt val t codec d := by
  obtain ⟨hmixed, htq3, hmix3, hnf4, hcorr⟩ := decoder_of_flags h
  have hhalf : d >>> 1 = d / 2 := Nat.shiftRight_eq_div_pow _ 1
  unfold dequantAt
  rw [hmixed, htq3, hmix3, hnf4, hhalf]
  cases codec with
  | int4Single =>
      have hgroup : (groupScale val t d : ℚ) = stepAt val t .int4Single d := groupScale_eq d rfl
      rw [← hgroup]
      change ((_ - 8 : ℤ) : ℚ) * _ = _
      push_cast
      rfl
  | int4Grouped =>
      have hgroup : (groupScale val t d : ℚ) = stepAt val t .int4Grouped d := groupScale_eq d rfl
      rw [← hgroup]
      change ((_ - 8 : ℤ) : ℚ) * _ = _
      push_cast
      rfl
  | nf4 =>
      have hgroup : (groupScale val t d : ℚ) = stepAt val t .nf4 d := groupScale_eq d rfl
      rw [← hgroup]
      rfl
  | mixed => exact dequantAtMixed_eq hd
  | tq3 => exact dequantAtTq3_eq hcorr d
  | mix3 => exact dequantAtMix3_eq hcorr hd

/-- A dimension past those kept decodes to zero. -/
theorem dequantAt_tail (h : t.flags &&& decoderFlags = codecFlag codec) {d : ℕ} (hd : d < dC)
    (htail : kept codec ≤ d) : (dequantAt val t d : ℚ) = 0 := by
  obtain ⟨hmixed, htq3, hmix3, hnf4, -⟩ := decoder_of_flags h
  have hhead : mixedHiDims ≤ mixedDims := by decide
  unfold dequantAt
  rw [hmixed, htq3, hmix3]
  cases codec with
  | int4Single => exact absurd hd (Nat.not_lt.mpr htail)
  | int4Grouped => exact absurd hd (Nat.not_lt.mpr htail)
  | nf4 => exact absurd hd (Nat.not_lt.mpr htail)
  | tq3 => exact absurd hd (Nat.not_lt.mpr htail)
  | mixed =>
      change dequantAtMixed val t d = 0
      have hle : mixedDims ≤ d := htail
      unfold dequantAtMixed
      rw [if_neg (by omega), if_neg (by omega)]
      rfl
  | mix3 =>
      change dequantAtMix3 val t d = 0
      have hle : mixedDims ≤ d := htail
      unfold dequantAtMix3
      rw [if_neg (by omega), if_pos hle]
      rfl

end Decoding

end SlhaV2.CodecLevels
