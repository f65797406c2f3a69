import SlhaV2.SingleFloat

/-!
# Exact values of floating-point numbers

A finite number stands for a rational. Rounding returns a number whose value it
is given, because the discarded bits of a canonical number's value are zero.
-/
namespace SlhaV2.ExactValues
open Float.Model SingleFloat UnpackedFloat

variable {spec : Format}

def signFactor : Sign → ℚ
  | .positive => 1
  | .negative => -1

/-- The rational that a number stands for; zero where there is none. -/
def toRat : UnpackedFloat → ℚ
  | .finite s m e _ => signFactor s * (m * (2 : ℚ) ^ e)
  | _ => 0

/-- The exponent is the one which the format keeps for this value. -/
def Canonical (spec : Format) : UnpackedFloat → Prop
  | .finite _ m e _ => spec.targetExponent (totalExponent m e) = e
  | _ => True

theorem targetExponent_mono {a b : ℤ} (h : a ≤ b) :
    spec.targetExponent a ≤ spec.targetExponent b := by
  unfold Format.targetExponent
  exact max_le_max (by omega) le_rfl

theorem log2_mul_two_pow {m : ℕ} (hm : 0 < m) (k : ℕ) : (m * 2 ^ k).log2 = m.log2 + k := by
  rw [Nat.log2_eq_log_two, Nat.log2_eq_log_two]
  induction k with
  | zero => simp
  | succ k ih =>
      have hne : m * 2 ^ k ≠ 0 := by positivity
      rw [pow_succ, ← Nat.mul_assoc, Nat.log_mul_base (by decide) hne, ih, Nat.add_assoc]

theorem totalExponent_mul_two_pow {m : ℕ} (hm : 0 < m) (e : ℤ) (k : ℕ) :
    totalExponent (m * 2 ^ k) (e - k) = totalExponent m e := by
  unfold totalExponent
  rw [log2_mul_two_pow hm]
  push_cast
  omega

theorem toNat_implicit {k : ℕ} (m : BitVec k) : (1#1 ++ m).toNat = 2 ^ k + m.toNat := by
  rw [BitVec.toNat_append, BitVec.toNat_ofNat, ← Nat.shiftLeft_add_eq_or_of_lt m.isLt 1,
    Nat.shiftLeft_eq, Nat.one_mul]

theorem log2_implicit {k : ℕ} (m : BitVec k) : (1#1 ++ m).toNat.log2 = k := by
  have hlt := m.isLt
  rw [toNat_implicit, Nat.log2_eq_iff (by positivity), pow_succ]
  omega

/-- Unpacked numbers carry the exponent that their format keeps. -/
theorem canonical_unpack (b : BitVec spec.numBits) :
    Canonical spec (UnpackedFloat.unpack spec b) := by
  have hbias : (1 : ℤ) - (spec.exponentBias + spec.mantissaBitsWithoutImplicit) =
      spec.minExponent := by
    have hpow : 1 ≤ 2 ^ (spec.exponentBits - 1) := Nat.one_le_two_pow
    unfold Format.minExponent Format.exponentBias Format.mantissaBits
    push_cast [Nat.cast_sub hpow]
    ring
  unfold UnpackedFloat.unpack
  dsimp only
  split_ifs with hexp hman hzero hman
  · trivial
  · trivial
  · trivial
  · -- a subnormal number keeps the least exponent
    have hlog : (unpackMantissa b).toNat.log2 < spec.mantissaBitsWithoutImplicit := by
      refine (Nat.log2_lt fun h => hman (BitVec.eq_of_toNat_eq (by simpa using h))).mpr ?_
      exact (unpackMantissa b).isLt
    change spec.targetExponent (totalExponent _ _) = _
    unfold totalExponent Format.targetExponent Format.mantissaBits
    rw [hzero]
    simp only [BitVec.toNat_ofNat, Nat.zero_mod]
    omega
  · have hpos : (unpackExponent b).toNat ≠ 0 := fun h =>
      hzero (BitVec.eq_of_toNat_eq (by simpa using h))
    change spec.targetExponent (totalExponent _ _) = _
    unfold totalExponent Format.targetExponent Format.mantissaBits
    rw [log2_implicit]
    omega

/-- Cutting zero bits off a mantissa leaves no residue. -/
theorem shiftRight_mul_two_pow (m k : ℕ) :
    (⟨m * 2 ^ k, false, false⟩ : ExtendedMantissa) >>> k = ⟨m, false, false⟩ := by
  change k.repeat ExtendedMantissa.shiftRightOne _ = _
  induction k generalizing m with
  | zero => simp [Nat.repeat]
  | succ k ih =>
      have hk : m * 2 ^ (k + 1) = m * 2 * 2 ^ k := by ring
      rw [Nat.repeat, hk, ih (m * 2)]
      simp [ExtendedMantissa.shiftRightOne]

theorem shiftToTargetExponent_exact {m : ℕ} {e : ℤ} (hm : 0 < m)
    (h : spec.targetExponent (totalExponent m e) = e) (k : ℕ) :
    shiftToTargetExponent spec (m * 2 ^ k) (e - k) .exact = (⟨m, false, false⟩, e) := by
  unfold shiftToTargetExponent shiftToExponent
  rw [totalExponent_mul_two_pow hm, h]
  have hk : (e - (e - (k : ℤ))).toNat = k := by omega
  simp only [hk, ExtendedMantissa.ofMantissaAndAccuracy, shiftRight_mul_two_pow]
  rw [Int.sub_add_cancel]

theorem roundWithAccuracy_exact {m : ℕ} {e : ℤ} (s : Sign) (hm : 0 < m)
    (h : spec.targetExponent (totalExponent m e) = e) (k : ℕ) :
    roundWithAccuracy spec s (m * 2 ^ k) (e - k) .exact = .finite s m e hm := by
  have hshift := shiftToTargetExponent_exact hm h k
  have hkeep := shiftToTargetExponent_exact hm h 0
  simp only [pow_zero, Nat.mul_one, Nat.cast_zero, Int.sub_zero] at hkeep
  unfold roundWithAccuracy
  simp only [hshift, ExtendedMantissa.roundedMantissa, ExtendedMantissa.accuracy,
    Accuracy.roundToNearestEven, hkeep]
  exact dif_neg hm.ne'

/-- A quotient of equal value has no more bits than the number. -/
theorem targetExponent_quotient_le {num den m : ℕ} {e : ℤ} (hden : 0 < den) (hm : 0 < m)
    (h : (num : ℚ) = m * (2 : ℚ) ^ e * den)
    (hcanon : spec.targetExponent (totalExponent m e) = e) :
    spec.targetExponent (totalExponent num 0 - totalExponent den 0) ≤ e := by
  have hnum : num ≠ 0 := by
    intro h0
    rw [h0] at h
    have : (0 : ℚ) < m * (2 : ℚ) ^ e * den := by positivity
    simp only [Nat.cast_zero] at h
    linarith
  have hlow : ((2 ^ num.log2 : ℕ) : ℚ) ≤ num := by exact_mod_cast Nat.log2_self_le hnum
  have hm' : (m : ℚ) < (2 : ℚ) ^ (m.log2 + 1) := by exact_mod_cast Nat.lt_log2_self
  have hden' : (den : ℚ) < (2 : ℚ) ^ (den.log2 + 1) := by exact_mod_cast Nat.lt_log2_self
  have hlt : (2 : ℚ) ^ (num.log2 : ℤ) < (2 : ℚ) ^ ((m.log2 + 1 : ℤ) + e + (den.log2 + 1)) := by
    rw [zpow_add₀ two_ne_zero, zpow_add₀ two_ne_zero, zpow_natCast]
    calc (2 : ℚ) ^ num.log2 ≤ num := by exact_mod_cast hlow
      _ = m * (2 : ℚ) ^ e * den := h
      _ < (2 : ℚ) ^ ((m.log2 : ℤ) + 1) * (2 : ℚ) ^ e * (2 : ℚ) ^ ((den.log2 : ℤ) + 1) := by
          have h1 : (m : ℚ) < (2 : ℚ) ^ ((m.log2 : ℤ) + 1) := by exact_mod_cast hm'
          have h2 : (den : ℚ) < (2 : ℚ) ^ ((den.log2 : ℤ) + 1) := by exact_mod_cast hden'
          have h3 : (0 : ℚ) < den := by exact_mod_cast hden
          gcongr
  have hexp := (zpow_lt_zpow_iff_right₀ (by norm_num : (1 : ℚ) < 2)).mp hlt
  calc spec.targetExponent (totalExponent num 0 - totalExponent den 0)
      ≤ spec.targetExponent (totalExponent m e) := by
        apply targetExponent_mono
        unfold totalExponent
        omega
    _ = e := hcanon

/-- A quotient that divides exactly is computed without a remainder. -/
theorem divCore_exact {num den m : ℕ} {e : ℤ} (hden : 0 < den) (hm : 0 < m)
    (h : (num : ℚ) = m * (2 : ℚ) ^ e * den)
    (hcanon : spec.targetExponent (totalExponent m e) = e) :
    ∃ k : ℕ, divCore spec num 0 den 0 = (m * 2 ^ k, e - k, .exact) := by
  have hle := targetExponent_quotient_le hden hm h hcanon
  generalize ht : min (0 - 0 : ℤ)
    (spec.targetExponent (totalExponent num 0 - totalExponent den 0)) = t
  have hte : t ≤ e := by omega
  have ht0 : t ≤ 0 := by omega
  refine ⟨(e - t).toNat, ?_⟩
  have hshift : num <<< (0 - 0 - t : ℤ).toNat = m * 2 ^ (e - t).toNat * den := by
    rw [Nat.shiftLeft_eq]
    have hq : ((num * 2 ^ (0 - 0 - t : ℤ).toNat : ℕ) : ℚ) =
        ((m * 2 ^ (e - t).toNat * den : ℕ) : ℚ) := by
      push_cast
      rw [← zpow_natCast, ← zpow_natCast, Int.toNat_of_nonneg (by omega),
        Int.toNat_of_nonneg (by omega), h]
      have hsplit : (2 : ℚ) ^ (e - t) = (2 : ℚ) ^ e * (2 : ℚ) ^ (0 - t) := by
        rw [← zpow_add₀ two_ne_zero, zero_sub, ← sub_eq_add_neg]
      rw [hsplit, ← mul_assoc, mul_right_comm]
    exact_mod_cast hq
  unfold divCore
  simp only [ht, hshift, Nat.mul_div_left _ hden, Nat.mul_mod_left, accuracyOfFraction, if_true]
  rw [Int.toNat_of_nonneg (by omega), sub_sub_cancel]

/-- Rounding the value of a number gives the number back. -/
theorem ofRat_toRat {s : Sign} {m : ℕ} {e : ℤ} {hm : 0 < m}
    (hcanon : Canonical spec (.finite s m e hm)) :
    ofRat spec (toRat (.finite s m e hm)) = .finite s m e hm := by
  have hval : (0 : ℚ) < m * (2 : ℚ) ^ e := by positivity
  have hsign : |signFactor s| = 1 := by cases s <;> simp [signFactor]
  generalize hq : toRat (.finite s m e hm) = q
  have habs : |q| = m * (2 : ℚ) ^ e := by
    rw [← hq, toRat, abs_mul, hsign, one_mul, abs_of_pos hval]
  have hnum : ((q.num.natAbs : ℕ) : ℚ) = m * (2 : ℚ) ^ e * q.den := by
    rw [← habs, Nat.cast_natAbs, Int.cast_abs]
    nth_rewrite 2 [← Rat.num_div_den q]
    have hden : (0 : ℚ) < q.den := by exact_mod_cast q.den_pos
    rw [abs_div, abs_of_pos hden]
    field_simp
  obtain ⟨k, hk⟩ := divCore_exact q.den_pos hm hnum hcanon
  have hne : q.num ≠ 0 := by
    intro h0
    rw [Rat.num_eq_zero.mp h0, abs_zero] at habs
    exact hval.ne habs
  unfold ofRat
  rw [if_neg hne, hk]
  change roundWithAccuracy spec _ _ _ _ = _
  rw [roundWithAccuracy_exact _ hm hcanon k]
  congr 1
  rw [← hq, toRat]
  cases s
  · rw [if_pos (by simpa [signFactor] using hval)]
  · rw [if_neg (by simpa [signFactor] using hval.le)]

/-- The exact value of a finite `f64`. -/
def value (x : Float) : ℚ := toRat x.toModel.unpack

/-- The `f64` nearest to a decimal; the sign is kept on zero. -/
def ofDecimal (neg : Bool) (digits : ℕ) (exponent : ℤ) : Float :=
  let u := ofRat .binary64 (digits * (10 : ℚ) ^ exponent)
  .ofModel (.pack (if neg then u.neg else u))

def isNegative : UnpackedFloat → Bool
  | .infinity s | .zero s | .finite s _ _ _ => s == .negative
  | .notANumber => false

theorem pack_unpack_model (x : Float) : Float.ofModel (.pack x.toModel.unpack) = x := by
  apply Float.toBits_inj.mp
  apply UInt64.toBitVec_inj.mp
  exact pack_unpack_of_valid x.toModel.valid

theorem ofDecimal_congr {neg : Bool} {d d' : ℕ} {e e' : ℤ}
    (h : d * (10 : ℚ) ^ e = d' * (10 : ℚ) ^ e') : ofDecimal neg d e = ofDecimal neg d' e' := by
  unfold ofDecimal
  rw [h]

/-- A decimal of the same magnitude is read as the number. -/
theorem ofDecimal_eq_of_value {x : Float} {digits : ℕ} {exponent : ℤ}
    (hne : value x ≠ 0) (h : digits * (10 : ℚ) ^ exponent = |value x|) :
    ofDecimal (isNegative x.toModel.unpack) digits exponent = x := by
  have hcanon : Canonical .binary64 x.toModel.unpack := canonical_unpack _
  have hpack := pack_unpack_model x
  unfold value at hne h
  generalize x.toModel.unpack = u at hcanon hpack hne h
  cases u with
  | infinity s => exact absurd rfl hne
  | notANumber => exact absurd rfl hne
  | zero s => exact absurd rfl hne
  | finite s m e hm =>
      have habs : |toRat (.finite s m e hm)| = toRat (.finite .positive m e hm) := by
        cases s <;> simp [toRat, signFactor]
      have hround : ofRat .binary64 (toRat (.finite .positive m e hm)) =
        .finite .positive m e hm := ofRat_toRat hcanon
      unfold ofDecimal
      rw [h, habs, hround]
      cases s <;> exact hpack

end SlhaV2.ExactValues
