import SlhaV2.ExactValues

/-!
# Rounding to a format

A product is rounded to the nearest multiple of the unit which the format has at its size. The
rounded value is canonical, so packing keeps it or makes it infinite, and multiplying a normal
number by anything but one changes it.
-/
namespace SlhaV2.FloatRounding
open Float.Model UnpackedFloat SingleFloat ExactValues

section Nearest

/-- The residual bits tell where between two mantissas the value lies. -/
def Located (em : ExtendedMantissa) (x : ℚ) : Prop :=
  match em.roundBit, em.stickyBit with
  | false, false => x = em.mantissa
  | false, true => (em.mantissa : ℚ) < x ∧ x < em.mantissa + 1 / 2
  | true, false => x = em.mantissa + 1 / 2
  | true, true => (em.mantissa : ℚ) + 1 / 2 < x ∧ x < em.mantissa + 1

theorem Located.shiftRightOne {em : ExtendedMantissa} {x : ℚ} (h : Located em x) :
    Located em.shiftRightOne (x / 2) := by
  obtain ⟨m, roundBit, stickyBit⟩ := em
  have hsplit : (m : ℚ) = (m % 2 : ℕ) + 2 * (m / 2 : ℕ) := by
    exact_mod_cast (Nat.mod_add_div m 2).symm
  have hset : ((1 : ℕ) != 0) = true := rfl
  have hclear : ((0 : ℕ) != 0) = false := rfl
  rcases Nat.mod_two_eq_zero_or_one m with hbit | hbit
  all_goals
    rw [hbit] at hsplit
    push_cast at hsplit
    cases roundBit <;> cases stickyBit <;>
      simp only [Located, ExtendedMantissa.shiftRightOne, hbit, hset, hclear, Bool.or_false,
        Bool.or_true] at h ⊢ <;>
      first
        | linarith
        | (constructor <;> linarith)

theorem Located.shiftRight {em : ExtendedMantissa} {x : ℚ} (h : Located em x) (k : ℕ) :
    Located (em >>> k) (x / 2 ^ k) := by
  change Located (k.repeat ExtendedMantissa.shiftRightOne em) _
  induction k with
  | zero => simpa [Nat.repeat] using h
  | succ k ih =>
      rw [Nat.repeat, pow_succ, ← div_div]
      exact ih.shiftRightOne

/-- Rounding is off by half a unit at most. -/
theorem Located.roundedMantissa {em : ExtendedMantissa} {x : ℚ} (h : Located em x) :
    |(em.roundedMantissa : ℚ) - x| ≤ 1 / 2 := by
  obtain ⟨m, roundBit, stickyBit⟩ := em
  unfold ExtendedMantissa.roundedMantissa
  rw [abs_le]
  cases roundBit <;> cases stickyBit <;>
    simp only [Located, ExtendedMantissa.accuracy, Accuracy.roundToNearestEven] at h ⊢
  · constructor <;> linarith
  · constructor <;> linarith
  · have hparity : (m % 2 : ℕ) ≤ (1 : ℚ) := by
      exact_mod_cast Nat.lt_succ_iff.mp (Nat.mod_lt m two_pos)
    have hnonneg : (0 : ℚ) ≤ (m % 2 : ℕ) := Nat.cast_nonneg _
    push_cast at h hparity hnonneg ⊢
    constructor <;> linarith
  · push_cast
    constructor <;> linarith

/-- Half way between two mantissas the even one is taken. -/
theorem Located.roundedMantissa_even {em : ExtendedMantissa} {x : ℚ} (h : Located em x) {k : ℕ}
    (hx : x = k + 1 / 2) : Even em.roundedMantissa := by
  obtain ⟨m, roundBit, stickyBit⟩ := em
  have hdouble : ((2 * k + 1 : ℕ) : ℚ) = 2 * x := by
    rw [hx]
    push_cast
    ring
  unfold ExtendedMantissa.roundedMantissa
  cases roundBit <;> cases stickyBit <;>
    simp only [Located, ExtendedMantissa.accuracy, Accuracy.roundToNearestEven] at h ⊢
  · have hcast : 2 * k + 1 = 2 * m := by
      have : ((2 * k + 1 : ℕ) : ℚ) = (2 * m : ℕ) := by
        rw [hdouble, h]
        push_cast
        rfl
      exact_mod_cast this
    omega
  · have hlow : 2 * m < 2 * k + 1 := by
      have : ((2 * m : ℕ) : ℚ) < (2 * k + 1 : ℕ) := by
        rw [hdouble]
        push_cast
        linarith
      exact_mod_cast this
    have hhigh : 2 * k + 1 < 2 * m + 1 := by
      have : ((2 * k + 1 : ℕ) : ℚ) < (2 * m + 1 : ℕ) := by
        rw [hdouble]
        push_cast
        linarith
      exact_mod_cast this
    omega
  · rw [Nat.even_iff]
    omega
  · have hlow : 2 * m + 1 < 2 * k + 1 := by
      have : ((2 * m + 1 : ℕ) : ℚ) < (2 * k + 1 : ℕ) := by
        rw [hdouble]
        push_cast
        linarith
      exact_mod_cast this
    have hhigh : 2 * k + 1 < 2 * m + 2 := by
      have : ((2 * k + 1 : ℕ) : ℚ) < (2 * m + 2 : ℕ) := by
        rw [hdouble]
        push_cast
        linarith
      exact_mod_cast this
    omega

end Nearest

section Settling
variable {spec : Format}

/-- The number of so many units; a carry into the next power of two takes a larger unit. -/
def settle (spec : Format) (s : Sign) (r : ℕ) (t : ℤ) : UnpackedFloat :=
  if h : r = 0 then .zero s
  else if r = 2 ^ spec.mantissaBits then
    .finite s (2 ^ (spec.mantissaBits - 1)) (t + 1) (by positivity)
  else .finite s r t (Nat.pos_of_ne_zero h)

theorem minExponent_le (x : ℤ) : spec.minExponent ≤ spec.targetExponent x := le_max_right _ _

theorem mantissaBits_pos (spec : Format) : 2 ≤ spec.mantissaBits := by
  have hpos := spec.hm
  unfold Format.mantissaBits
  omega

/-- A mantissa that fits stays where it is. -/
theorem shiftToTargetExponent_fits {r : ℕ} {t : ℤ} (ht : spec.minExponent ≤ t)
    (hr : r < 2 ^ spec.mantissaBits) :
    shiftToTargetExponent spec r t .exact = (⟨r, false, false⟩, t) := by
  have hlog : r.log2 < spec.mantissaBits := by
    rcases Nat.eq_zero_or_pos r with rfl | hpos
    · have := mantissaBits_pos spec
      rw [Nat.log2_zero]
      omega
    · exact (Nat.log2_lt hpos.ne').mpr hr
  have htarget : (spec.targetExponent (totalExponent r t) - t).toNat = 0 := by
    unfold Format.targetExponent totalExponent
    omega
  unfold shiftToTargetExponent shiftToExponent
  simp only [htarget, ExtendedMantissa.ofMantissaAndAccuracy, Nat.cast_zero, add_zero]
  rfl

theorem shiftToTargetExponent_carry {t : ℤ} (ht : spec.minExponent ≤ t) :
    shiftToTargetExponent spec (2 ^ spec.mantissaBits) t .exact =
      (⟨2 ^ (spec.mantissaBits - 1), false, false⟩, t + 1) := by
  have hbits := mantissaBits_pos spec
  have htarget : (spec.targetExponent (totalExponent (2 ^ spec.mantissaBits) t) - t).toNat = 1 := by
    unfold Format.targetExponent totalExponent
    rw [Nat.log2_two_pow]
    omega
  have hpow : 2 ^ spec.mantissaBits = 2 ^ (spec.mantissaBits - 1) * 2 ^ 1 := by
    rw [← pow_add]
    congr 1
    omega
  unfold shiftToTargetExponent shiftToExponent
  simp only [htarget, ExtendedMantissa.ofMantissaAndAccuracy, Nat.cast_one]
  rw [hpow, shiftRight_mul_two_pow]

/-- Rounding settles on a whole number of units at most half a unit away, and half way between
two of them on the even one. -/
theorem roundWithAccuracy_nearest {m : ℕ} {e : ℤ} (s : Sign)
    (he : e ≤ spec.targetExponent (totalExponent m e)) :
    ∃ r : ℕ, |(r : ℚ) - m * (2 : ℚ) ^ (e - spec.targetExponent (totalExponent m e))| ≤ 1 / 2 ∧
      (∀ k : ℕ, m * (2 : ℚ) ^ (e - spec.targetExponent (totalExponent m e)) = k + 1 / 2 →
        Even r) ∧
      r ≤ 2 ^ spec.mantissaBits ∧
      roundWithAccuracy spec s m e .exact =
        settle spec s r (spec.targetExponent (totalExponent m e)) := by
  generalize ht : spec.targetExponent (totalExponent m e) = t at he ⊢
  obtain ⟨k, hk⟩ := Int.eq_ofNat_of_zero_le (sub_nonneg.mpr he)
  have hfirst : shiftToTargetExponent spec m e .exact =
      ((⟨m, false, false⟩ : ExtendedMantissa) >>> k, t) := by
    unfold shiftToTargetExponent shiftToExponent
    simp only [ht, hk, ExtendedMantissa.ofMantissaAndAccuracy, Int.toNat_natCast]
    congr 1
    omega
  have hlocated : Located (⟨m, false, false⟩ : ExtendedMantissa) m := rfl
  have hnear := (hlocated.shiftRight k).roundedMantissa
  have heven : ∀ j : ℕ, (m : ℚ) / 2 ^ k = j + 1 / 2 → Even _ :=
    fun j hj => (hlocated.shiftRight k).roundedMantissa_even hj
  have hvalue : (m : ℚ) / 2 ^ k = m * (2 : ℚ) ^ (e - t) := by
    have hexp : e - t = -(k : ℤ) := by omega
    rw [hexp, zpow_neg, zpow_natCast, div_eq_mul_inv]
  rw [hvalue] at hnear heven
  have hmin : spec.minExponent ≤ t := ht ▸ minExponent_le _
  generalize hr : ((⟨m, false, false⟩ : ExtendedMantissa) >>> k).roundedMantissa = r at hnear heven
  have hle : r ≤ 2 ^ spec.mantissaBits := by
    have hbound : (m : ℚ) * (2 : ℚ) ^ (e - t) < 2 ^ spec.mantissaBits := by
      have hlog : (m : ℚ) < (2 : ℚ) ^ ((m.log2 : ℤ) + 1) := by exact_mod_cast Nat.lt_log2_self
      have hexp : (m.log2 : ℤ) + 1 + (e - t) ≤ spec.mantissaBits := by
        have htarget : totalExponent m e - spec.mantissaBits ≤ t := ht ▸ le_max_left _ _
        unfold totalExponent at htarget
        omega
      calc (m : ℚ) * (2 : ℚ) ^ (e - t) < (2 : ℚ) ^ ((m.log2 : ℤ) + 1) * (2 : ℚ) ^ (e - t) := by
            gcongr
        _ = (2 : ℚ) ^ ((m.log2 : ℤ) + 1 + (e - t)) := (zpow_add₀ two_ne_zero _ _).symm
        _ ≤ (2 : ℚ) ^ (spec.mantissaBits : ℤ) := zpow_le_zpow_right₀ one_le_two hexp
        _ = 2 ^ spec.mantissaBits := zpow_natCast _ _
    have hlt : (r : ℚ) < (2 ^ spec.mantissaBits : ℕ) + 1 := by
      have hclose := (abs_le.mp hnear).2
      push_cast
      linarith
    exact Nat.lt_succ_iff.mp (by exact_mod_cast hlt)
  refine ⟨r, hnear, heven, hle, ?_⟩
  rcases hle.lt_or_eq with hlt | heq
  · have hsecond := shiftToTargetExponent_fits hmin hlt
    unfold roundWithAccuracy settle
    simp only [hfirst, hr, hsecond, hlt.ne, if_false]
  · subst heq
    have hsecond := shiftToTargetExponent_carry hmin
    have hne : 2 ^ (spec.mantissaBits - 1) ≠ 0 := by positivity
    have hne' : 2 ^ spec.mantissaBits ≠ 0 := by positivity
    unfold roundWithAccuracy settle
    simp only [hfirst, hr, hsecond, hne, hne', dite_false, if_true]

/-- Rounding settles on a whole number of units at most half a unit away. -/
theorem roundWithAccuracy_settle {m : ℕ} {e : ℤ} (s : Sign)
    (he : e ≤ spec.targetExponent (totalExponent m e)) :
    ∃ r : ℕ, |(r : ℚ) - m * (2 : ℚ) ^ (e - spec.targetExponent (totalExponent m e))| ≤ 1 / 2 ∧
      r ≤ 2 ^ spec.mantissaBits ∧
      roundWithAccuracy spec s m e .exact =
        settle spec s r (spec.targetExponent (totalExponent m e)) := by
  obtain ⟨r, hnear, -, hle, hround⟩ := roundWithAccuracy_nearest s he
  exact ⟨r, hnear, hle, hround⟩

end Settling

section Packing
variable {spec : Format}

theorem finite_congr {s s' : Sign} {m m' : ℕ} {e e' : ℤ} {h : 0 < m} {h' : 0 < m'} (hs : s = s')
    (hm : m = m') (he : e = e') : UnpackedFloat.finite s m e h = .finite s' m' e' h' := by
  subst hs hm he
  rfl

/-- The largest exponent of a finite number, plus one. -/
def overflowExponent (spec : Format) : ℤ :=
  2 ^ spec.exponentBits - 1 - (spec.exponentBias + spec.mantissaBitsWithoutImplicit)

theorem minExponent_eq (spec : Format) : spec.minExponent =
    1 - (spec.exponentBias + spec.mantissaBitsWithoutImplicit) := by
  have hpow : 1 ≤ 2 ^ (spec.exponentBits - 1) := Nat.one_le_two_pow
  unfold Format.minExponent Format.exponentBias Format.mantissaBits
  push_cast [Nat.cast_sub hpow]
  ring

theorem Canonical.log2_lt {s : Sign} {m : ℕ} {e : ℤ} {hm : 0 < m}
    (h : Canonical spec (.finite s m e hm)) : m.log2 < spec.mantissaBits := by
  have hle : totalExponent m e - spec.mantissaBits ≤ e := (le_max_left _ _).trans h.le
  unfold totalExponent at hle
  omega

theorem Canonical.minExponent_le {s : Sign} {m : ℕ} {e : ℤ} {hm : 0 < m}
    (h : Canonical spec (.finite s m e hm)) : spec.minExponent ≤ e := (le_max_right _ _).trans h.le

/-- Packing keeps a canonical number whose exponent is in range. -/
theorem unpack_pack {s : Sign} {m : ℕ} {e : ℤ} {hm : 0 < m}
    (h : Canonical spec (.finite s m e hm)) (he : e < overflowExponent spec) :
    unpack spec (UnpackedFloat.pack spec (.finite s m e hm)) = .finite s m e hm := by
  have hlog := Canonical.log2_lt h
  have hmin := Canonical.minExponent_le h
  rw [minExponent_eq] at hmin
  unfold overflowExponent at he
  generalize hb : (e + spec.exponentBias + spec.mantissaBitsWithoutImplicit).toNat = biased
  have hbiased : (biased : ℤ) = e + spec.exponentBias + spec.mantissaBitsWithoutImplicit := by
    omega
  have hrange : biased + 1 < 2 ^ spec.exponentBits := by
    have hcast : ((biased + 1 : ℕ) : ℤ) < 2 ^ spec.exponentBits := by
      push_cast
      omega
    exact_mod_cast hcast
  have hones : ∀ x < 2 ^ spec.exponentBits - 1,
      BitVec.ofNat spec.exponentBits x ≠ -(BitVec.ofNat spec.exponentBits 1) := by
    intro x hx heq
    have hnat := congrArg BitVec.toNat heq
    rw [BitVec.toNat_ofNat, Nat.mod_eq_of_lt (by omega), BitVec.neg_one_eq_allOnes,
      BitVec.toNat_allOnes] at hnat
    omega
  have hsign : Sign.ofBitVec s.toBitVec = s := Sign.ofBitVec_toBitVec s
  unfold UnpackedFloat.pack
  dsimp only
  rw [hb, if_neg (by omega)]
  split_ifs with hnormal
  · have hlow : 2 ^ spec.mantissaBitsWithoutImplicit ≤ m := by
      have hlog2 : m.log2 = spec.mantissaBitsWithoutImplicit := by
        unfold Format.mantissaBits at hnormal
        omega
      rw [← hlog2]
      exact Nat.log2_self_le hm.ne'
    have hhigh : m < 2 ^ (spec.mantissaBitsWithoutImplicit + 1) := by
      have hlt := (Nat.log2_lt hm.ne').mp hlog
      unfold Format.mantissaBits at hlt
      rwa [Nat.add_comm] at hlt
    have hzero : BitVec.ofNat spec.exponentBits biased ≠ (BitVec.ofNat spec.exponentBits 0) := by
      intro heq
      have hnat := congrArg BitVec.toNat heq
      rw [BitVec.toNat_ofNat, Nat.mod_eq_of_lt (by omega), BitVec.toNat_ofNat,
        Nat.zero_mod] at hnat
      omega
    unfold UnpackedFloat.unpack
    simp only [unpackMantissa_packComponents, unpackExponent_packComponents,
      unpackSign_packComponents, hones biased (by omega), hzero, if_false, hsign]
    apply finite_congr rfl
    · rw [pow_succ] at hhigh
      rw [toNat_implicit, BitVec.toNat_ofNat, Nat.mod_eq_sub_mod hlow, Nat.mod_eq_of_lt (by omega)]
      omega
    · rw [BitVec.toNat_ofNat, Nat.mod_eq_of_lt (by omega)]
      omega
  · have hsub : m < 2 ^ spec.mantissaBitsWithoutImplicit := by
      apply (Nat.log2_lt hm.ne').mp
      unfold Format.mantissaBits at hnormal hlog
      omega
    have hzero : (BitVec.ofNat spec.exponentBits 0) ≠ -(BitVec.ofNat spec.exponentBits 1) := hones 0 (by omega)
    have hman : BitVec.ofNat spec.mantissaBitsWithoutImplicit m ≠
        (BitVec.ofNat spec.mantissaBitsWithoutImplicit 0) := by
      intro heq
      have hnat := congrArg BitVec.toNat heq
      rw [BitVec.toNat_ofNat, Nat.mod_eq_of_lt hsub, BitVec.toNat_ofNat, Nat.zero_mod] at hnat
      omega
    unfold UnpackedFloat.unpack
    simp only [unpackMantissa_packComponents, unpackExponent_packComponents,
      unpackSign_packComponents, hzero, hman, if_false, dite_false, if_true, hsign]
    apply finite_congr rfl
    · rw [BitVec.toNat_ofNat, Nat.mod_eq_of_lt hsub]
    · have hcanon : max (totalExponent m e - spec.mantissaBits) spec.minExponent = e := h
      have hunder : totalExponent m e - spec.mantissaBits < e := by
        unfold totalExponent
        omega
      rw [BitVec.toNat_ofNat, Nat.zero_mod, ← hcanon, max_eq_right (by omega), minExponent_eq]
      ring

end Packing

section Products
variable {spec : Format}

theorem canonical_settle {r : ℕ} {t : ℤ} (s : Sign) (hr : r ≤ 2 ^ spec.mantissaBits)
    (ht : spec.minExponent ≤ t) (hnormal : spec.minExponent < t → 2 ^ (spec.mantissaBits - 1) ≤ r) :
    Canonical spec (settle spec s r t) := by
  have hbits := mantissaBits_pos spec
  unfold settle
  split_ifs with hzero hcarry
  · trivial
  · change max (totalExponent _ _ - _) _ = _
    unfold totalExponent
    rw [Nat.log2_two_pow]
    omega
  · have hlt : r.log2 < spec.mantissaBits := (Nat.log2_lt hzero).mpr (lt_of_le_of_ne hr hcarry)
    change max (totalExponent _ _ - _) _ = _
    unfold totalExponent
    rcases ht.lt_or_eq with hlt' | heq
    · have hlow := (Nat.le_log2 hzero).mpr (hnormal hlt')
      omega
    · omega

/-- Where the unit is not the least one, it is so small that the value has all the bits. -/
theorem two_pow_le_units {m : ℕ} {e : ℤ} (hm : 0 < m)
    (h : spec.minExponent < spec.targetExponent (totalExponent m e)) :
    (2 : ℚ) ^ (spec.mantissaBits - 1 : ℕ) ≤
      m * (2 : ℚ) ^ (e - spec.targetExponent (totalExponent m e)) := by
  have hbits := mantissaBits_pos spec
  have ht : spec.targetExponent (totalExponent m e) = totalExponent m e - spec.mantissaBits := by
    unfold Format.targetExponent at h ⊢
    omega
  have hlog : (2 : ℚ) ^ (m.log2 : ℤ) ≤ m := by
    rw [zpow_natCast]
    exact_mod_cast Nat.log2_self_le hm.ne'
  have hexp : ((spec.mantissaBits - 1 : ℕ) : ℤ) =
      m.log2 + (e - spec.targetExponent (totalExponent m e)) := by
    rw [ht]
    unfold totalExponent
    omega
  rw [← zpow_natCast, hexp, zpow_add₀ two_ne_zero]
  gcongr

theorem canonical_roundWithAccuracy {m : ℕ} {e : ℤ} (s : Sign) (hm : 0 < m)
    (he : e ≤ spec.targetExponent (totalExponent m e)) :
    Canonical spec (roundWithAccuracy spec s m e .exact) := by
  obtain ⟨r, hnear, hle, hround⟩ := roundWithAccuracy_settle s he
  rw [hround]
  refine canonical_settle s hle (minExponent_le _) fun hlt => ?_
  have hunits := two_pow_le_units hm hlt
  have hclose := (abs_le.mp hnear).1
  have hcast : ((2 ^ (spec.mantissaBits - 1) : ℕ) : ℚ) < r + 1 := by
    push_cast
    linarith
  exact Nat.lt_succ_iff.mp (by exact_mod_cast hcast)

/-- The exponent of a product is small enough to be rounded from. -/
theorem add_le_targetExponent {s₁ s₂ : Sign} {m₁ m₂ : ℕ} {e₁ e₂ : ℤ} {h₁ : 0 < m₁} {h₂ : 0 < m₂}
    (hc₁ : Canonical spec (.finite s₁ m₁ e₁ h₁)) (hc₂ : Canonical spec (.finite s₂ m₂ e₂ h₂)) :
    e₁ + e₂ ≤ spec.targetExponent (totalExponent (m₁ * m₂) (e₁ + e₂)) := by
  have hlog : m₁.log2 + m₂.log2 ≤ (m₁ * m₂).log2 := by
    apply (Nat.le_log2 (Nat.mul_pos h₁ h₂).ne').mpr
    rw [pow_add]
    exact Nat.mul_le_mul (Nat.log2_self_le h₁.ne') (Nat.log2_self_le h₂.ne')
  have hmin : spec.minExponent ≤ 0 := by
    have hbits := mantissaBits_pos spec
    have hpow : (1 : ℤ) ≤ 2 ^ (spec.exponentBits - 1) := by exact_mod_cast Nat.one_le_two_pow
    unfold Format.minExponent
    omega
  have hc₁' : max (totalExponent m₁ e₁ - spec.mantissaBits) spec.minExponent = e₁ := hc₁
  have hc₂' : max (totalExponent m₂ e₂ - spec.mantissaBits) spec.minExponent = e₂ := hc₂
  unfold Format.targetExponent
  unfold totalExponent at hc₁' hc₂' ⊢
  omega

end Products

section SinglePrecision

/-- What packing makes of a canonical number: too large a number is infinite. -/
def capped : UnpackedFloat → UnpackedFloat
  | .finite s m e h => if e < overflowExponent .binary32 then .finite s m e h else .infinity s
  | u => u

theorem unpack_pack_capped {u : UnpackedFloat} (h : Canonical .binary32 u) :
    (Float32.Model.pack u).unpack = capped u := by
  change unpack .binary32 (UnpackedFloat.pack .binary32 u) = capped u
  have hinfinity : ∀ s, unpack .binary32 (packedInfinity .binary32 s) = .infinity s := by
    intro s
    cases s <;> rfl
  cases u with
  | notANumber => exact unpack_packedNaN
  | infinity s => exact hinfinity s
  | zero s => exact unpack_packedZero
  | finite s m e hm =>
      by_cases he : e < overflowExponent .binary32
      · exact (unpack_pack h he).trans (if_pos he).symm
      · have hmin := Canonical.minExponent_le h
        have hlarge : 2 ^ Format.binary32.exponentBits ≤
            (e + Format.binary32.exponentBias +
              Format.binary32.mantissaBitsWithoutImplicit).toNat + 1 := by
          have heq : overflowExponent .binary32 = 105 := rfl
          change 256 ≤ (e + 127 + 23).toNat + 1
          omega
        unfold UnpackedFloat.pack
        dsimp only
        rw [if_pos hlarge]
        exact (hinfinity s).trans (if_neg he).symm

theorem unpack_inj {x y : Float32} (h : x.toModel.unpack = y.toModel.unpack) : x = y :=
  Float32.toBits_inj.mp (UInt32.toBitVec_inj.mp
    ((unpack_inj_of_valid x.toModel.valid y.toModel.valid).mp h))

theorem canonical_single (x : Float32) : Canonical .binary32 x.toModel.unpack := canonical_unpack _

theorem capped_single (x : Float32) : capped x.toModel.unpack = x.toModel.unpack := by
  rw [← unpack_pack_capped (canonical_single x)]
  have hpack : Float32.Model.pack x.toModel.unpack = x.toModel := by
    obtain ⟨⟨bits, hvalid⟩⟩ := x
    rw [Float32.Model.mk.injEq]
    exact UInt32.toBitVec_inj.mp (pack_unpack_of_valid hvalid)
  rw [hpack]

theorem canonical_mul {u w : UnpackedFloat} (hu : Canonical .binary32 u)
    (hw : Canonical .binary32 w) : Canonical .binary32 (mul .binary32 u w) := by
  cases u <;> cases w <;> try trivial
  exact canonical_roundWithAccuracy _ (Nat.mul_pos ‹_› ‹_›) (add_le_targetExponent hu hw)

/-- Products of single-precision numbers, unpacked. -/
theorem unpack_mul (x y : Float32) :
    (x * y).toModel.unpack = capped (mul .binary32 x.toModel.unpack y.toModel.unpack) :=
  unpack_pack_capped (canonical_mul (canonical_single x) (canonical_single y))

/-- The exact value of a finite `f32`, and zero for the others. -/
def single (x : Float32) : ℚ := toRat x.toModel.unpack

theorem unpack_one : (1 : Float32).toModel.unpack = .finite .positive (2 ^ 23) (-23) (by decide) := by
  rfl

/-- The mantissa and the exponent of a finite `f32`. -/
theorem canonical_finite {x : Float32} {s : Sign} {m : ℕ} {e : ℤ} {hm : 0 < m}
    (h : x.toModel.unpack = .finite s m e hm) : e < 105 ∧
      Canonical .binary32 (.finite s m e hm) ∧ -149 ≤ e ∧ m < 2 ^ 24 := by
  have hcanon := canonical_single x
  have hcap := capped_single x
  rw [h] at hcanon hcap
  have hlog : m.log2 < 24 := Canonical.log2_lt hcanon
  refine ⟨?_, hcanon, Canonical.minExponent_le hcanon, (Nat.log2_lt hm.ne').mp hlog⟩
  by_contra hlarge
  have hinf : capped (.finite s m e hm) = .infinity s := if_neg hlarge
  rw [hinf] at hcap
  exact UnpackedFloat.noConfusion hcap

/-- Multiplying by a power of two is exact while the exponent stays in range. -/
theorem unpack_mul_two_pow {x c : Float32} {s : Sign} {m j : ℕ} {e p : ℤ} {hm : 0 < m}
    {hc : 0 < 2 ^ 23} (hx : x.toModel.unpack = .finite s m e hm)
    (hcu : c.toModel.unpack = .finite .positive (2 ^ 23) (p - 23) hc) (hj : j ≤ 23)
    (hcanon : Format.binary32.targetExponent (totalExponent (m * 2 ^ j) (e + p - j)) = e + p - j)
    (hrange : e + p - j < 105) :
    (x * c).toModel.unpack = .finite s (m * 2 ^ j) (e + p - j) (by positivity) := by
  have hsign : s * .positive = s := by cases s <;> rfl
  have hprod : mul .binary32 x.toModel.unpack c.toModel.unpack =
      roundWithAccuracy .binary32 s (m * 2 ^ j * 2 ^ (23 - j)) (e + p - j - (23 - j : ℕ)) .exact := by
    rw [hx, hcu]
    change roundWithAccuracy .binary32 (s * .positive) (m * 2 ^ 23) (e + (p - 23)) .exact = _
    have hpow : m * 2 ^ 23 = m * 2 ^ j * 2 ^ (23 - j) := by
      rw [Nat.mul_assoc, ← pow_add]
      congr 2
      omega
    have hexp : e + (p - 23) = e + p - j - (23 - j : ℕ) := by omega
    rw [hsign, hpow, hexp]
  rw [unpack_mul, hprod, roundWithAccuracy_exact s (by positivity) hcanon]
  exact if_pos hrange

theorem mul_one_single (x : Float32) : x * 1 = x := by
  apply unpack_inj
  cases hx : x.toModel.unpack with
  | notANumber => rw [unpack_mul, hx, unpack_one]; rfl
  | infinity s => cases s <;> (rw [unpack_mul, hx, unpack_one]; rfl)
  | zero s => cases s <;> (rw [unpack_mul, hx, unpack_one]; rfl)
  | finite s m e hm =>
      have hexp : Format.binary32.targetExponent (totalExponent m e) = e :=
        (canonical_finite hx).2.1
      have hmul := unpack_mul_two_pow (j := 0) (p := 0) hx unpack_one (by omega)
        (by simpa using hexp) (by simpa using (canonical_finite hx).1)
      simpa using hmul

/-- No `f32` is closer to one than its neighbours. -/
theorem gap_at_one {n : ℕ} {f : ℤ} (hn : 0 < n) (hlt : n < 2 ^ 24)
    (hcanon : Format.binary32.targetExponent (totalExponent n f) = f) :
    (n : ℚ) * (2 : ℚ) ^ f ≤ 1 - 1 / 2 ^ 24 ∨ (n = 2 ^ 23 ∧ f = -23) ∨
      1 + 1 / 2 ^ 23 ≤ (n : ℚ) * (2 : ℚ) ^ f := by
  rcases lt_or_ge f (-23) with hsmall | hlarge
  · left
    have hcast : (n : ℚ) ≤ 2 ^ 24 - 1 := by
      have hle : n + 1 ≤ 2 ^ 24 := hlt
      have hle' : ((n + 1 : ℕ) : ℚ) ≤ (2 ^ 24 : ℕ) := by exact_mod_cast hle
      push_cast at hle'
      linarith
    have hpow : (2 : ℚ) ^ f ≤ (2 : ℚ) ^ (-24 : ℤ) := zpow_le_zpow_right₀ one_le_two (by omega)
    calc (n : ℚ) * (2 : ℚ) ^ f ≤ (2 ^ 24 - 1) * (2 : ℚ) ^ (-24 : ℤ) := by gcongr
      _ = 1 - 1 / 2 ^ 24 := by norm_num
  · obtain ⟨k, hk⟩ := Int.eq_ofNat_of_zero_le (show 0 ≤ f + 23 by omega)
    have hvalue : (n : ℚ) * (2 : ℚ) ^ f = (n * 2 ^ k : ℕ) * (1 / 2 ^ 23) := by
      have hexp : f = (k : ℤ) + -23 := by omega
      rw [hexp, zpow_add₀ two_ne_zero, zpow_natCast]
      push_cast
      norm_num
      ring
    rw [hvalue]
    rcases lt_trichotomy (n * 2 ^ k) (2 ^ 23) with hlow | heq | hhigh
    · left
      have hcast : ((n * 2 ^ k : ℕ) : ℚ) ≤ 2 ^ 23 - 1 := by
        have hle : n * 2 ^ k + 1 ≤ 2 ^ 23 := hlow
        have hle' : ((n * 2 ^ k + 1 : ℕ) : ℚ) ≤ (2 ^ 23 : ℕ) := by exact_mod_cast hle
        push_cast at hle' ⊢
        linarith
      linarith
    · right
      left
      have hlog : n.log2 + k = 23 := by
        rw [← log2_mul_two_pow hn, heq, Nat.log2_two_pow]
      have htarget : max (totalExponent n f - 24) (-149) = f := hcanon
      unfold totalExponent at htarget
      have hzero : k = 0 := by omega
      subst hzero
      exact ⟨by simpa using heq, by omega⟩
    · right
      right
      have hcast : (2 : ℚ) ^ 23 + 1 ≤ (n * 2 ^ k : ℕ) := by exact_mod_cast hhigh
      linarith

/-- The rounded product has the exponent of the unit it was rounded to, or one more. -/
theorem settle_eq_finite {s s' : Sign} {r m : ℕ} {t e : ℤ} {hm : 0 < m}
    (h : settle .binary32 s r t = .finite s' m e hm) :
    s = s' ∧ t ≤ e ∧ (r : ℚ) = m * (2 : ℚ) ^ (e - t) := by
  unfold settle at h
  split_ifs at h with hzero hcarry
  · rw [UnpackedFloat.finite.injEq] at h
    obtain ⟨rfl, rfl, rfl⟩ := h
    refine ⟨rfl, by omega, ?_⟩
    rw [hcarry, add_sub_cancel_left]
    norm_num [Format.mantissaBits]
  · rw [UnpackedFloat.finite.injEq] at h
    obtain ⟨rfl, rfl, rfl⟩ := h
    refine ⟨rfl, le_rfl, ?_⟩
    rw [sub_self, zpow_zero, mul_one]

/-- A product of finite numbers is rounded to within half of its unit. -/
theorem mul_finite {s₁ s₂ : Sign} {m n : ℕ} {e f : ℤ} {hm : 0 < m} {hn : 0 < n}
    (hcm : Canonical .binary32 (.finite s₁ m e hm)) (hcn : Canonical .binary32 (.finite s₂ n f hn)) :
    ∃ (r : ℕ) (t : ℤ), t = Format.binary32.targetExponent (totalExponent (m * n) (e + f)) ∧
      |(r : ℚ) - (m * n : ℕ) * (2 : ℚ) ^ (e + f - t)| ≤ 1 / 2 ∧ r ≤ 2 ^ 24 ∧
      mul .binary32 (.finite s₁ m e hm) (.finite s₂ n f hn) = settle .binary32 (s₁ * s₂) r t := by
  obtain ⟨r, hnear, hle, hround⟩ := roundWithAccuracy_settle (s₁ * s₂)
    (add_le_targetExponent hcm hcn)
  exact ⟨r, _, rfl, hnear, hle, hround⟩

theorem positive_of_mul_eq {s s' : Sign} (h : s * s' = s) : s' = .positive := by
  cases s <;> cases s' <;> first | rfl | cases h

theorem totalExponent_le_of_lt {m : ℕ} {e b : ℤ} (hm : 0 < m)
    (h : (m : ℚ) * (2 : ℚ) ^ e < (2 : ℚ) ^ b) : totalExponent m e ≤ b := by
  have hlog : (2 : ℚ) ^ (m.log2 : ℤ) ≤ m := by
    rw [zpow_natCast]
    exact_mod_cast Nat.log2_self_le hm.ne'
  have hlt : (2 : ℚ) ^ ((m.log2 : ℤ) + e) < (2 : ℚ) ^ b := by
    rw [zpow_add₀ two_ne_zero]
    refine lt_of_le_of_lt ?_ h
    gcongr
  have hexp := (zpow_lt_zpow_iff_right₀ one_lt_two).mp hlt
  unfold totalExponent
  omega

theorem lt_totalExponent_of_le {m : ℕ} {e b : ℤ}
    (h : (2 : ℚ) ^ b ≤ (m : ℚ) * (2 : ℚ) ^ e) : b < totalExponent m e := by
  have hlog : (m : ℚ) < (2 : ℚ) ^ ((m.log2 : ℤ) + 1) := by exact_mod_cast Nat.lt_log2_self
  have hlt : (2 : ℚ) ^ b < (2 : ℚ) ^ ((m.log2 : ℤ) + 1 + e) := by
    rw [zpow_add₀ two_ne_zero]
    refine lt_of_le_of_lt h ?_
    gcongr
  exact (zpow_lt_zpow_iff_right₀ one_lt_two).mp hlt

/-- Multiplying a normal number by another number than one changes it. -/
theorem mul_ne_self {x y : Float32} {s : Sign} {m : ℕ} {e : ℤ} {hm : 0 < m}
    (hx : x.toModel.unpack = .finite s m e hm) (hnormal : 2 ^ 23 ≤ m) (he : -149 < e)
    (hy : y ≠ 1) : x * y ≠ x := by
  intro heq
  have hmul := congrArg (fun z : Float32 => z.toModel.unpack) heq
  simp only [unpack_mul, hx] at hmul
  obtain ⟨-, hcanon, -, -⟩ := canonical_finite hx
  cases hyu : y.toModel.unpack with
  | notANumber =>
      rw [hyu] at hmul
      exact UnpackedFloat.noConfusion hmul
  | infinity s' =>
      rw [hyu] at hmul
      exact UnpackedFloat.noConfusion hmul
  | zero s' =>
      rw [hyu] at hmul
      exact UnpackedFloat.noConfusion hmul
  | finite s' n f hn =>
      obtain ⟨-, hcanon', -, hn24⟩ := canonical_finite hyu
      obtain ⟨r, t, ht, hnear, -, hprod⟩ := mul_finite hcanon hcanon'
      rw [hyu, hprod] at hmul
      have hsettle : settle .binary32 (s * s') r t = .finite s m e hm := by
        cases hs : settle .binary32 (s * s') r t with
        | notANumber => rw [hs] at hmul; exact UnpackedFloat.noConfusion hmul
        | infinity s'' => rw [hs] at hmul; exact UnpackedFloat.noConfusion hmul
        | zero s'' => rw [hs] at hmul; exact UnpackedFloat.noConfusion hmul
        | finite s'' m' e' hm' =>
            rw [hs] at hmul
            unfold capped at hmul
            dsimp only at hmul
            split_ifs at hmul
            exact hmul
      obtain ⟨hsign, hte, hr⟩ := settle_eq_finite hsettle
      have hpow : (0 : ℚ) < (2 : ℚ) ^ (e - t) := by positivity
      have hvalue : ((m * n : ℕ) : ℚ) * (2 : ℚ) ^ (e + f - t) =
          m * (n * (2 : ℚ) ^ f) * (2 : ℚ) ^ (e - t) := by
        have hexp : e + f - t = f + (e - t) := by omega
        rw [hexp, zpow_add₀ two_ne_zero]
        push_cast
        ring
      have hm23 : (2 : ℚ) ^ 23 ≤ m := by exact_mod_cast hnormal
      rw [hvalue, hr] at hnear
      obtain ⟨hunder, hover⟩ := abs_le.mp hnear
      have hone : (1 : ℚ) ≤ (2 : ℚ) ^ (e - t) := one_le_zpow₀ one_le_two (by omega)
      rcases gap_at_one hn hn24 hcanon' with hlow | ⟨rfl, rfl⟩ | hhigh
      · have hgap : (m : ℚ) / 2 ^ 24 ≤ m - m * (n * (2 : ℚ) ^ f) := by nlinarith
        have hscaled : (m : ℚ) / 2 ^ 24 * (2 : ℚ) ^ (e - t) ≤ 1 / 2 := by
          calc (m : ℚ) / 2 ^ 24 * (2 : ℚ) ^ (e - t)
              ≤ (m - m * (n * (2 : ℚ) ^ f)) * (2 : ℚ) ^ (e - t) := by gcongr
            _ ≤ 1 / 2 := by linarith
        have hteq : t = e := by
          by_contra hne
          have htwo : (2 : ℚ) ^ (1 : ℤ) ≤ (2 : ℚ) ^ (e - t) :=
            zpow_le_zpow_right₀ one_le_two (by omega)
          rw [zpow_one] at htwo
          nlinarith
        -- then the value is a power of two, and the product below it has a smaller unit
        have hmeq : m = 2 ^ 23 := by
          rw [hteq, sub_self, zpow_zero, mul_one] at hscaled
          have hle : (m : ℚ) ≤ (2 ^ 23 : ℕ) := by
            push_cast
            linarith
          exact le_antisymm (by exact_mod_cast hle) hnormal
        have hbelow : ((m * n : ℕ) : ℚ) * (2 : ℚ) ^ (e + f) < (2 : ℚ) ^ (23 + e) := by
          rw [hmeq, zpow_add₀ two_ne_zero, zpow_add₀ two_ne_zero]
          have hlt : (n : ℚ) * (2 : ℚ) ^ f < 1 := by linarith
          have hpowe : (0 : ℚ) < (2 : ℚ) ^ e := by positivity
          push_cast
          nlinarith
        have htotal := totalExponent_le_of_lt (Nat.mul_pos hm hn) hbelow
        have htarget : t = max (totalExponent (m * n) (e + f) - 24) (-149) := ht
        omega
      · apply hy
        apply unpack_inj
        rw [hyu, unpack_one]
        rw [positive_of_mul_eq hsign]
      · have hgap : (1 : ℚ) ≤ m * (n * (2 : ℚ) ^ f) - m := by nlinarith
        have hscaled : (1 : ℚ) ≤ (m * (n * (2 : ℚ) ^ f) - m) * (2 : ℚ) ^ (e - t) := by nlinarith
        linarith

/-- A number below one keeps a product finite. -/
theorem mul_lt_one_finite {x y : Float32} {s s' : Sign} {m n : ℕ} {e f : ℤ} {hm : 0 < m}
    {hn : 0 < n} (hx : x.toModel.unpack = .finite s m e hm)
    (hy : y.toModel.unpack = .finite s' n f hn) (hlt : (n : ℚ) * (2 : ℚ) ^ f < 1) :
    ∃ r t, (x * y).toModel.unpack = settle .binary32 (s * s') r t := by
  obtain ⟨he, hcanon, -, hm24⟩ := canonical_finite hx
  obtain ⟨-, hcanon', -, -⟩ := canonical_finite hy
  obtain ⟨r, t, ht, hnear, hle, hprod⟩ := mul_finite hcanon hcanon'
  refine ⟨r, t, ?_⟩
  have hvalue : ((m * n : ℕ) : ℚ) * (2 : ℚ) ^ (e + f) =
      n * (2 : ℚ) ^ f * (m * (2 : ℚ) ^ e) := by
    rw [zpow_add₀ two_ne_zero]
    push_cast
    ring
  have hte : t ≤ e := by
    have hpos : (0 : ℚ) < m * (2 : ℚ) ^ e := by positivity
    have htotal : totalExponent (m * n) (e + f) ≤ totalExponent m e := by
      apply totalExponent_le_of_lt (Nat.mul_pos hm hn)
      have hlog : (m : ℚ) < (2 : ℚ) ^ ((m.log2 : ℤ) + 1) := by exact_mod_cast Nat.lt_log2_self
      calc ((m * n : ℕ) : ℚ) * (2 : ℚ) ^ (e + f) < 1 * (m * (2 : ℚ) ^ e) := by
            rw [hvalue]
            gcongr
        _ < 1 * ((2 : ℚ) ^ ((m.log2 : ℤ) + 1) * (2 : ℚ) ^ e) := by gcongr
        _ = (2 : ℚ) ^ totalExponent m e := by
            rw [one_mul, ← zpow_add₀ two_ne_zero]
            rfl
    calc t = Format.binary32.targetExponent (totalExponent (m * n) (e + f)) := ht
      _ ≤ Format.binary32.targetExponent (totalExponent m e) := targetExponent_mono htotal
      _ = e := hcanon
  have hcarry : r = 2 ^ 24 → t < e := by
    intro hr
    refine lt_of_le_of_ne hte fun heq => ?_
    have hscaled : ((m * n : ℕ) : ℚ) * (2 : ℚ) ^ (e + f - t) = n * (2 : ℚ) ^ f * m := by
      rw [heq, add_sub_cancel_left]
      push_cast
      ring
    have hcast : (m : ℚ) ≤ 2 ^ 24 - 1 := by
      have hle' : ((m + 1 : ℕ) : ℚ) ≤ (2 ^ 24 : ℕ) := by exact_mod_cast hm24
      push_cast at hle'
      linarith
    have hm0 : (0 : ℚ) < m := by exact_mod_cast hm
    rw [hscaled, hr] at hnear
    have hclose := (abs_le.mp hnear).2
    push_cast at hclose
    nlinarith
  rw [unpack_mul, hx, hy, hprod]
  have hover : overflowExponent .binary32 = 105 := rfl
  unfold settle
  split_ifs with hzero hbits
  · rfl
  · exact if_pos (by rw [hover]; have := hcarry hbits; omega)
  · exact if_pos (by rw [hover]; omega)

/-- A number above one makes the largest one overflow. -/
theorem max_mul_infinite {x y : Float32} {n : ℕ} {f : ℤ} {hm : 0 < 2 ^ 24 - 1} {hn : 0 < n}
    (hx : x.toModel.unpack = .finite .positive (2 ^ 24 - 1) 104 hm)
    (hy : y.toModel.unpack = .finite .positive n f hn)
    (hgt : 1 + 1 / 2 ^ 23 ≤ (n : ℚ) * (2 : ℚ) ^ f) :
    (x * y).toModel.unpack = .infinity .positive := by
  obtain ⟨-, hcanon, -, -⟩ := canonical_finite hx
  obtain ⟨-, hcanon', -, -⟩ := canonical_finite hy
  obtain ⟨r, t, ht, hnear, -, hprod⟩ := mul_finite hcanon hcanon'
  have hlarge : (2 : ℚ) ^ (128 : ℤ) ≤ ((2 ^ 24 - 1) * n : ℕ) * (2 : ℚ) ^ (104 + f) := by
    rw [zpow_add₀ two_ne_zero]
    have hmul : (2 : ℚ) ^ (128 : ℤ) ≤ (2 ^ 24 - 1) * (1 + 1 / 2 ^ 23) * (2 : ℚ) ^ (104 : ℤ) := by
      norm_num
    refine hmul.trans ?_
    have hle : (2 ^ 24 - 1 : ℚ) * (1 + 1 / 2 ^ 23) ≤ (2 ^ 24 - 1) * (n * (2 : ℚ) ^ f) := by
      gcongr
    have hcast : (((2 ^ 24 - 1) * n : ℕ) : ℚ) = (2 ^ 24 - 1) * n := by
      push_cast
      norm_num
    rw [hcast]
    have hpow : (0 : ℚ) ≤ (2 : ℚ) ^ (104 : ℤ) := by positivity
    nlinarith
  have htotal := lt_totalExponent_of_le hlarge
  have htarget : t = max (totalExponent ((2 ^ 24 - 1) * n) (104 + f) - 24) (-149) := ht
  have hunits := @two_pow_le_units .binary32 _ (104 + f) (Nat.mul_pos hm hn)
    (by change (-149 : ℤ) < _; rw [← ht]; omega)
  rw [← ht] at hunits
  have hclose := (abs_le.mp hnear).1
  have hrpos : r ≠ 0 := by
    rintro rfl
    have hbits : (2 : ℚ) ^ (Format.binary32.mantissaBits - 1) = 2 ^ 23 := rfl
    rw [hbits] at hunits
    push_cast at hclose hunits
    linarith
  have hover : overflowExponent .binary32 = 105 := rfl
  rw [unpack_mul, hx, hy, hprod]
  unfold settle
  rw [dif_neg hrpos]
  split_ifs with hbits
  · exact if_neg (by rw [hover]; omega)
  · exact if_neg (by rw [hover]; omega)

end SinglePrecision

section Zeros

/-- What a product with zero sees of the other factor. -/
def shape : UnpackedFloat → UnpackedFloat
  | .finite s _ _ _ => .zero s
  | u => u

theorem shape_settle (s : Sign) (r : ℕ) (t : ℤ) : shape (settle .binary32 s r t) = .zero s := by
  unfold settle
  split_ifs <;> rfl

theorem mul_zero_congr {w w' y : Float32} {s : Sign} (hy : y.toModel.unpack = .zero s)
    (h : shape w.toModel.unpack = shape w'.toModel.unpack) : w * y = w' * y := by
  have hshape : ∀ u : UnpackedFloat,
      mul .binary32 u (.zero s) = mul .binary32 (shape u) (.zero s) := by
    intro u
    cases u <;> rfl
  apply unpack_inj
  rw [unpack_mul, unpack_mul, hy, hshape, h, ← hshape]

/-- Multiplying by a positive number up to one keeps what zero sees. -/
theorem shape_mul {x y : Float32} {n : ℕ} {f : ℤ} {hn : 0 < n}
    (hy : y.toModel.unpack = .finite .positive n f hn) (hlt : (n : ℚ) * (2 : ℚ) ^ f < 1) :
    shape (x * y).toModel.unpack = shape x.toModel.unpack := by
  have hsign : ∀ s : Sign, s * .positive = s := by
    intro s
    cases s <;> rfl
  cases hx : x.toModel.unpack with
  | notANumber => rw [unpack_mul, hx, hy]; rfl
  | infinity s => cases s <;> (rw [unpack_mul, hx, hy]; rfl)
  | zero s => cases s <;> (rw [unpack_mul, hx, hy]; rfl)
  | finite s m e hm =>
      obtain ⟨r, t, hmul⟩ := mul_lt_one_finite hx hy hlt
      rw [hmul, shape_settle, hsign]
      rfl

theorem unpack_add_eq {x y z : Float32}
    (h : add .binary32 x.toModel.unpack y.toModel.unpack = z.toModel.unpack) : x + y = z := by
  apply unpack_inj
  change (Float32.Model.pack (add .binary32 x.toModel.unpack y.toModel.unpack)).unpack = _
  rw [h, unpack_pack_capped (canonical_single z), capped_single]

theorem unpack_div_eq {x y z : Float32}
    (h : div .binary32 x.toModel.unpack y.toModel.unpack = z.toModel.unpack) : x / y = z := by
  apply unpack_inj
  change (Float32.Model.pack (div .binary32 x.toModel.unpack y.toModel.unpack)).unpack = _
  rw [h, unpack_pack_capped (canonical_single z), capped_single]

theorem unpack_mul_eq {x y z : Float32}
    (h : mul .binary32 x.toModel.unpack y.toModel.unpack = z.toModel.unpack) : x * y = z := by
  apply unpack_inj
  rw [unpack_mul, h, capped_single]

/-- A sum of products with zeros is zero or no number. -/
def Blank (x : Float32) : Prop := x = 0 ∨ x = Float32.nan

theorem unpack_zero : (0 : Float32).toModel.unpack = .zero .positive := rfl

theorem unpack_nan : Float32.nan.toModel.unpack = .notANumber := rfl

theorem nan_add (x : Float32) : Float32.nan + x = Float32.nan := unpack_add_eq rfl

theorem zero_mul_blank {y w : Float32} {s : Sign} (hy : y.toModel.unpack = .zero s) :
    (∃ s', (y * w).toModel.unpack = .zero s') ∨ (y * w).toModel.unpack = .notANumber := by
  cases hw : w.toModel.unpack with
  | notANumber => exact Or.inr (by rw [unpack_mul, hy, hw]; rfl)
  | infinity s' => exact Or.inr (by rw [unpack_mul, hy, hw]; rfl)
  | zero s' => exact Or.inl ⟨s * s', by rw [unpack_mul, hy, hw]; rfl⟩
  | finite s' n f hn => exact Or.inl ⟨s * s', by rw [unpack_mul, hy, hw]; rfl⟩

/-- Adding a zero to zero. -/
theorem zero_add_zero {y : Float32} {s : Sign} (hy : y.toModel.unpack = .zero s) : 0 + y = 0 := by
  apply unpack_add_eq
  rw [hy]
  cases s <;> rfl

theorem blank_add {x y w : Float32} {s : Sign} (hx : Blank x) (hy : y.toModel.unpack = .zero s) :
    Blank (x + y * w) := by
  rcases hx with rfl | rfl
  · rcases zero_mul_blank (w := w) hy with ⟨s', hprod⟩ | hprod
    · exact Or.inl (zero_add_zero hprod)
    · right
      apply unpack_add_eq
      rw [hprod]
      rfl
  · exact Or.inr (nan_add _)

theorem blank_div {x y : Float32} {n : ℕ} {f : ℤ} {hn : 0 < n} (hx : Blank x)
    (hy : y.toModel.unpack = .finite .positive n f hn) : x / y = x := by
  apply unpack_div_eq
  rw [hy]
  rcases hx with rfl | rfl <;> rfl

theorem blank_mul {x y : Float32} {n : ℕ} {f : ℤ} {hn : 0 < n} (hx : Blank x)
    (hy : y.toModel.unpack = .finite .positive n f hn) : x * y = x := by
  apply unpack_mul_eq
  rw [hy]
  rcases hx with rfl | rfl <;> rfl

/-- The finite numbers of value zero are the two zeros. -/
theorem unpack_of_single_eq_zero {x : Float32} (hfin : x.isFinite = true) (h : single x = 0) :
    ∃ s, x.toModel.unpack = .zero s := by
  have hcases : x.toModel.unpack.isFinite = true := hfin
  unfold single at h
  cases hx : x.toModel.unpack with
  | notANumber => rw [hx] at hcases; exact absurd hcases (by decide)
  | infinity s => rw [hx] at hcases; cases hcases
  | zero s => exact ⟨s, rfl⟩
  | finite s m e hm =>
      rw [hx] at h
      have hpos : (0 : ℚ) < m * (2 : ℚ) ^ e := by positivity
      cases s <;> simp only [toRat, signFactor] at h <;> linarith

/-- Positive values belong to positive finite numbers. -/
theorem unpack_of_single_pos {x : Float32} (h : 0 < single x) :
    ∃ m e hm, x.toModel.unpack = .finite .positive m e hm ∧ single x = m * (2 : ℚ) ^ e := by
  unfold single at h ⊢
  cases hx : x.toModel.unpack with
  | notANumber => rw [hx] at h; exact absurd h (lt_irrefl _)
  | infinity s => rw [hx] at h; exact absurd h (lt_irrefl _)
  | zero s => rw [hx] at h; exact absurd h (lt_irrefl _)
  | finite s m e hm =>
      rw [hx] at h
      have hpos : (0 : ℚ) < m * (2 : ℚ) ^ e := by positivity
      cases s with
      | positive => exact ⟨m, e, hm, rfl, one_mul _⟩
      | negative =>
          simp only [toRat, signFactor] at h
          linarith

theorem add_zero_finite {x y : Float32} {s s' : Sign} {m : ℕ} {e : ℤ} {hm : 0 < m}
    (hx : x.toModel.unpack = .finite s m e hm) (hy : y.toModel.unpack = .zero s') : x + y = x := by
  apply unpack_add_eq
  rw [hx, hy]
  rfl

theorem zero_add_finite {x : Float32} {s : Sign} {m : ℕ} {e : ℤ} {hm : 0 < m}
    (hx : x.toModel.unpack = .finite s m e hm) : 0 + x = x := by
  apply unpack_add_eq
  rw [hx]
  rfl

theorem unpack_finite_mul_zero {x : Float32} (hfin : x.isFinite = true) :
    ∃ s, (x * 0).toModel.unpack = .zero s := by
  have hcases : x.toModel.unpack.isFinite = true := hfin
  cases hx : x.toModel.unpack with
  | notANumber => rw [hx] at hcases; exact absurd hcases (by decide)
  | infinity s => rw [hx] at hcases; cases hcases
  | zero s => exact ⟨s * .positive, by rw [unpack_mul, hx]; rfl⟩
  | finite s m e hm => exact ⟨s * .positive, by rw [unpack_mul, hx]; rfl⟩

/-- A finite number other than zero can be scaled to a normal one, exactly. -/
theorem exists_normal_multiple {x : Float32} (hfin : x.isFinite = true) (h : single x ≠ 0) :
    ∃ (c : Float32) (s : Sign) (m : ℕ) (e : ℤ) (hm : 0 < m),
      (x * c).toModel.unpack = .finite s m e hm ∧ 2 ^ 23 ≤ m ∧ -149 < e := by
  have hcases : x.toModel.unpack.isFinite = true := hfin
  unfold single at h
  cases hx : x.toModel.unpack with
  | notANumber => rw [hx] at hcases; exact absurd hcases (by decide)
  | infinity s => rw [hx] at hcases; cases hcases
  | zero s => rw [hx] at h; exact absurd rfl h
  | finite s m e hm =>
      obtain ⟨-, hcanon, hmin, hlt⟩ := canonical_finite hx
      have htarget : max (totalExponent m e - 24) (-149) = e := hcanon
      unfold totalExponent at htarget
      have hlow := Nat.log2_self_le hm.ne'
      have hlog : m.log2 < 24 := (Nat.log2_lt hm.ne').mpr hlt
      rcases hmin.lt_or_eq with hnormal | rfl
      · refine ⟨1, s, m, e, hm, (mul_one_single x).symm ▸ hx, ?_, hnormal⟩
        have hbits : m.log2 = 23 := by omega
        rwa [hbits] at hlow
      · -- a subnormal number is scaled by the largest power of two
        have hc : (Float32.ofBits 0x7f000000).toModel.unpack =
            .finite .positive (2 ^ 23) (127 - 23) (by decide) := rfl
        have hpow : (m * 2 ^ (23 - m.log2)).log2 = 23 := by
          rw [log2_mul_two_pow hm]
          omega
        have hshift : Format.binary32.targetExponent (totalExponent (m * 2 ^ (23 - m.log2))
            (-149 + 127 - (23 - m.log2 : ℕ))) = -149 + 127 - (23 - m.log2 : ℕ) := by
          change max (totalExponent _ _ - 24) (-149) = _
          unfold totalExponent
          rw [hpow]
          omega
        refine ⟨_, s, _, _, _, unpack_mul_two_pow hx hc (by omega) hshift (by omega), ?_, by omega⟩
        have hpos : m * 2 ^ (23 - m.log2) ≠ 0 := by positivity
        have hself := Nat.log2_self_le hpos
        rwa [hpow] at hself

theorem unpack_zero_mul_finite {x y : Float32} {s : Sign} (hy : y.toModel.unpack = .zero s)
    (hfin : x.isFinite = true) : ∃ s', (y * x).toModel.unpack = .zero s' := by
  have hcases : x.toModel.unpack.isFinite = true := hfin
  cases hx : x.toModel.unpack with
  | notANumber => rw [hx] at hcases; exact absurd hcases (by decide)
  | infinity s' => rw [hx] at hcases; cases hcases
  | zero s' => exact ⟨s * s', by rw [unpack_mul, hx, hy]; rfl⟩
  | finite s' m e hm => exact ⟨s * s', by rw [unpack_mul, hx, hy]; rfl⟩

/-- `f32::MAX`. -/
def largest : Float32 := .ofBits 0x7f7fffff

theorem unpack_largest :
    largest.toModel.unpack = .finite .positive (2 ^ 24 - 1) 104 (by decide) := rfl

theorem unpack_finite_mul {x y : Float32} {s s' : Sign} {m : ℕ} {e : ℤ} {hm : 0 < m}
    (hx : x.toModel.unpack = .finite s m e hm) (hy : y.toModel.unpack = .zero s') :
    ∃ s'', (x * y).toModel.unpack = .zero s'' := ⟨s * s', by rw [unpack_mul, hx, hy]; rfl⟩

theorem infinite_mul_zero {x y : Float32} {s s' : Sign} (hx : x.toModel.unpack = .infinity s)
    (hy : y.toModel.unpack = .zero s') : x * y = Float32.nan := by
  apply unpack_mul_eq
  rw [hx, hy]
  rfl

theorem add_nan (x : Float32) : x + Float32.nan = Float32.nan := by
  apply unpack_add_eq
  rw [unpack_nan]
  cases x.toModel.unpack <;> rfl

end Zeros

end SlhaV2.FloatRounding
