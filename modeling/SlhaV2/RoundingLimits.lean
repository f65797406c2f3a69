import SlhaV2.FloatRounding

/-!
# Limits of rounding

Rounding to the nearest number is monotone at the numbers of the grid: a rounded value is
below such a number exactly when the value is below the middle between it and the number in
front of it. The limit beyond which a format answers with an infinity is a case of it.
-/
namespace SlhaV2.RoundingLimits
open Float.Model UnpackedFloat SingleFloat ExactValues FloatRounding

section Nearest
variable {P K r : ℕ} {t b : ℤ} {x : ℚ}

/-- On its own grid a rounded value is below an even number exactly when the value is below
the middle in front of it. -/
theorem nearest_lt_iff (hnear : |(r : ℚ) - x| ≤ 1 / 2) (heven : ∀ k : ℕ, x = k + 1 / 2 → Even r)
    (hK : Even K) (hpos : 0 < K) : r < K ↔ x < K - 1 / 2 := by
  have habs := abs_le.mp hnear
  constructor
  · intro hlt
    have hcast : (r : ℚ) + 1 ≤ K := by exact_mod_cast hlt
    apply lt_of_le_of_ne
    · linarith
    · intro htie
      have hreven : Even r := heven (K - 1) (by rw [Nat.cast_sub hpos]; push_cast; linarith)
      have hlow : (K : ℚ) ≤ r + 1 := by linarith
      have hsucc : K = r + 1 := Nat.le_antisymm (by exact_mod_cast hlow) hlt
      rw [hsucc, Nat.even_add_one] at hK
      exact hK hreven
  · intro hlt
    have hcast : (r : ℚ) < K := by linarith
    exact_mod_cast hcast

/-- The units may be smaller or larger than those of the number compared with. -/
theorem rounded_lt_iff (hnear : |(r : ℚ) - x| ≤ 1 / 2)
    (heven : ∀ k : ℕ, x = k + 1 / 2 → Even r) (hle : r ≤ 2 * P) (hnormal : b < t → (P : ℚ) ≤ x)
    (hK : Even K) (hlow : P < K) (hhigh : K ≤ 2 * P) :
    (r : ℚ) * (2 : ℚ) ^ t < K * (2 : ℚ) ^ b ↔ x * (2 : ℚ) ^ t < (K - 1 / 2) * (2 : ℚ) ^ b := by
  have hb : (0 : ℚ) < (2 : ℚ) ^ b := by positivity
  have ht : (0 : ℚ) < (2 : ℚ) ^ t := by positivity
  have habs := abs_le.mp hnear
  have hlow' : (P : ℚ) + 1 ≤ K := by exact_mod_cast hlow
  have hhigh' : (K : ℚ) ≤ 2 * P := by exact_mod_cast hhigh
  rcases lt_trichotomy t b with hlt | heq | hgt
  · have hunit : (2 : ℚ) ^ t * 2 ≤ (2 : ℚ) ^ b := by
      rw [← zpow_add_one₀ two_ne_zero]
      exact zpow_le_zpow_right₀ one_le_two (by omega)
    have hr : (r : ℚ) ≤ 2 * P := by exact_mod_cast hle
    have hP : (0 : ℚ) ≤ P := Nat.cast_nonneg P
    apply iff_of_true
    · nlinarith
    · nlinarith
  · rw [heq, mul_lt_mul_iff_left₀ hb, mul_lt_mul_iff_left₀ hb, Nat.cast_lt]
    exact nearest_lt_iff hnear heven hK (by omega)
  · have hunit : (2 : ℚ) ^ b * 2 ≤ (2 : ℚ) ^ t := by
      rw [← zpow_add_one₀ two_ne_zero]
      exact zpow_le_zpow_right₀ one_le_two (by omega)
    have hx := hnormal hgt
    have hr : (P : ℚ) ≤ r := by
      have hcast : (P : ℚ) < r + 1 := by linarith
      exact_mod_cast Nat.lt_succ_iff.mp (by exact_mod_cast hcast)
    have hP : (0 : ℚ) ≤ P := Nat.cast_nonneg P
    apply iff_of_false
    · rw [not_lt]
      nlinarith
    · rw [not_lt]
      nlinarith

end Nearest

section Packing
variable {spec : Format}

/-- A number whose exponent is out of range is packed as an infinity. -/
theorem pack_large {s : Sign} {m : ℕ} {e : ℤ} {hm : 0 < m} (he : overflowExponent spec ≤ e) :
    UnpackedFloat.pack spec (.finite s m e hm) = packedInfinity spec s := by
  have hlarge : 2 ^ spec.exponentBits ≤
      (e + spec.exponentBias + spec.mantissaBitsWithoutImplicit).toNat + 1 := by
    unfold overflowExponent at he
    have hcast : ((2 ^ spec.exponentBits : ℕ) : ℤ) ≤
        ((e + spec.exponentBias + spec.mantissaBitsWithoutImplicit).toNat : ℤ) + 1 := by
      push_cast
      have hnat := Int.self_le_toNat
        (e + spec.exponentBias + spec.mantissaBitsWithoutImplicit)
      linarith
    exact_mod_cast hcast
  unfold UnpackedFloat.pack
  dsimp only
  rw [if_pos hlarge]

/-- The formats in use: an infinity is read back, and some exponents are in range. -/
structure Proper (spec : Format) : Prop where
  infinity : ∀ s, unpack spec (packedInfinity spec s) = .infinity s
  range : spec.minExponent < overflowExponent spec

theorem proper32 : Proper .binary32 where
  infinity s := by cases s <;> rfl
  range := by decide

theorem proper64 : Proper .binary64 where
  infinity s := by cases s <;> rfl
  range := by decide

theorem isFinite_pack (hspec : Proper spec) {s : Sign} {m : ℕ} {e : ℤ} {hm : 0 < m}
    (hcanon : Canonical spec (.finite s m e hm)) :
    (unpack spec (UnpackedFloat.pack spec (.finite s m e hm))).isFinite = true ↔
      e < overflowExponent spec := by
  by_cases he : e < overflowExponent spec
  · rw [unpack_pack hcanon he]
    exact iff_of_true rfl he
  · rw [pack_large (not_lt.mp he), hspec.infinity]
    exact iff_of_false Bool.false_ne_true he

/-- What rounding settles on is finite below the power of two behind the range. -/
theorem isFinite_settle (hspec : Proper spec) {s : Sign} {r : ℕ} {t : ℤ}
    (hr : r ≤ 2 ^ spec.mantissaBits) (ht : spec.minExponent ≤ t)
    (hnormal : spec.minExponent < t → 2 ^ (spec.mantissaBits - 1) ≤ r) :
    (unpack spec (UnpackedFloat.pack spec (settle spec s r t))).isFinite = true ↔
      (r : ℚ) * (2 : ℚ) ^ t <
        (2 ^ spec.mantissaBits : ℕ) * (2 : ℚ) ^ (overflowExponent spec - 1) := by
  have hcanon := canonical_settle s hr ht hnormal
  have hE : (0 : ℚ) < (2 : ℚ) ^ (overflowExponent spec - 1) := by positivity
  have hbits := mantissaBits_pos spec
  unfold settle at hcanon ⊢
  split_ifs at hcanon ⊢ with hzero hcarry
  · rw [hzero]
    apply iff_of_true
    · change (unpack spec (packedZero spec s)).isFinite = true
      rw [unpack_packedZero]
      rfl
    · rw [Nat.cast_zero, zero_mul]
      positivity
  · rw [hcarry]
    rw [isFinite_pack hspec hcanon, mul_lt_mul_iff_right₀ (by positivity),
      zpow_lt_zpow_iff_right₀ one_lt_two]
    omega
  · rw [isFinite_pack hspec hcanon]
    have hlt : (r : ℚ) < (2 ^ spec.mantissaBits : ℕ) := by
      exact_mod_cast lt_of_le_of_ne hr hcarry
    constructor
    · intro he
      have hunit : (2 : ℚ) ^ t ≤ (2 : ℚ) ^ (overflowExponent spec - 1) :=
        zpow_le_zpow_right₀ one_le_two (by omega)
      exact (mul_lt_mul_of_pos_right hlt (by positivity)).trans_le
        (mul_le_mul_of_nonneg_left hunit (Nat.cast_nonneg _))
    · intro hval
      by_contra he
      have hrange := hspec.range
      have hlow : ((2 ^ (spec.mantissaBits - 1) : ℕ) : ℚ) ≤ r := by
        exact_mod_cast hnormal (by omega)
      have hunit : (2 : ℚ) * (2 : ℚ) ^ (overflowExponent spec - 1) ≤ (2 : ℚ) ^ t := by
        rw [mul_comm, ← zpow_add_one₀ two_ne_zero]
        exact zpow_le_zpow_right₀ one_le_two (by omega)
      have hpow : 2 ^ spec.mantissaBits = 2 ^ (spec.mantissaBits - 1) * 2 := by
        rw [← pow_succ]
        congr 1
        omega
      rw [hpow] at hval
      push_cast at hval hlow
      nlinarith

theorem toRat_settle (s : Sign) (r : ℕ) (t : ℤ) :
    toRat (settle spec s r t) = signFactor s * (r * (2 : ℚ) ^ t) := by
  have hbits := mantissaBits_pos spec
  unfold settle
  split_ifs with hzero hcarry
  · simp [toRat, hzero]
  · have hpow : 2 ^ spec.mantissaBits = 2 ^ (spec.mantissaBits - 1) * 2 := by
      rw [← pow_succ]
      congr 1
      omega
    rw [toRat, hcarry, hpow, zpow_add_one₀ two_ne_zero]
    push_cast
    ring
  · rfl

theorem abs_signFactor (s : Sign) (q : ℚ) : |signFactor s * q| = |q| := by
  cases s <;> simp [signFactor]

/-- The middle between the largest number and the power of two behind it. -/
def limit (spec : Format) : ℚ :=
  ((2 ^ spec.mantissaBits : ℕ) - 1 / 2) * (2 : ℚ) ^ (overflowExponent spec - 1)

section Rounded
variable {m : ℕ} {e : ℤ}

/-- The parts of a rounded value, as the comparison with a number of the grid needs them. -/
theorem exists_nearest (s : Sign) (hm : 0 < m)
    (he : e ≤ spec.targetExponent (totalExponent m e)) :
    ∃ (r : ℕ) (t : ℤ) (x : ℚ), roundWithAccuracy spec s m e .exact = settle spec s r t ∧
      x * (2 : ℚ) ^ t = m * (2 : ℚ) ^ e ∧ |(r : ℚ) - x| ≤ 1 / 2 ∧
      (∀ k : ℕ, x = k + 1 / 2 → Even r) ∧ r ≤ 2 * 2 ^ (spec.mantissaBits - 1) ∧
      spec.minExponent ≤ t ∧
      (spec.minExponent < t → ((2 ^ (spec.mantissaBits - 1) : ℕ) : ℚ) ≤ x) := by
  obtain ⟨r, hnear, heven, hle, hround⟩ := roundWithAccuracy_nearest s he
  have hbits := mantissaBits_pos spec
  have hpow : 2 ^ spec.mantissaBits = 2 * 2 ^ (spec.mantissaBits - 1) := by
    rw [← pow_succ']
    congr 1
    omega
  refine ⟨r, _, _, hround, ?_, hnear, heven, hpow ▸ hle, minExponent_le _, ?_⟩
  · rw [mul_assoc, ← zpow_add₀ two_ne_zero, sub_add_cancel]
  · intro hlt
    push_cast
    exact two_pow_le_units hm hlt

/-- Rounding overflows from the limit of the format on. -/
theorem isFinite_round (hspec : Proper spec) (s : Sign) (hm : 0 < m)
    (he : e ≤ spec.targetExponent (totalExponent m e)) :
    (unpack spec (UnpackedFloat.pack spec (roundWithAccuracy spec s m e .exact))).isFinite = true ↔
      m * (2 : ℚ) ^ e < limit spec := by
  obtain ⟨r, t, x, hround, hx, hnear, heven, hle, hmin, hnormal⟩ := exists_nearest s hm he
  have hbits := mantissaBits_pos spec
  have hrange := hspec.range
  have hpow : 2 ^ spec.mantissaBits = 2 * 2 ^ (spec.mantissaBits - 1) := by
    rw [← pow_succ']
    congr 1
    omega
  have hrnormal : spec.minExponent < t → 2 ^ (spec.mantissaBits - 1) ≤ r := by
    intro hlt
    have hclose := (abs_le.mp hnear).1
    have hcast : ((2 ^ (spec.mantissaBits - 1) : ℕ) : ℚ) < r + 1 := by linarith [hnormal hlt]
    exact Nat.lt_succ_iff.mp (by exact_mod_cast hcast)
  have hpos : 0 < 2 ^ (spec.mantissaBits - 1) := by positivity
  rw [hround, isFinite_settle hspec (hpow ▸ hle) hmin hrnormal, limit, ← hx]
  apply rounded_lt_iff hnear heven hle (fun hlt => hnormal (by omega))
  · exact hpow ▸ even_two_mul _
  · omega
  · omega

/-- A finite rounded value is below an even number of a normal unit exactly when the exact
value is below the middle in front of that number. -/
theorem abs_round_lt (s : Sign) (hm : 0 < m)
    (he : e ≤ spec.targetExponent (totalExponent m e)) {K : ℕ} {b : ℤ} (hK : Even K)
    (hlow : 2 ^ (spec.mantissaBits - 1) < K) (hhigh : K ≤ 2 ^ spec.mantissaBits)
    (hb : spec.minExponent ≤ b) : |toRat (roundWithAccuracy spec s m e .exact)| <
      K * (2 : ℚ) ^ b ↔ m * (2 : ℚ) ^ e < (K - 1 / 2) * (2 : ℚ) ^ b := by
  obtain ⟨r, t, x, hround, hx, hnear, heven, hle, hmin, hnormal⟩ := exists_nearest s hm he
  have hbits := mantissaBits_pos spec
  have hpow : 2 ^ spec.mantissaBits = 2 * 2 ^ (spec.mantissaBits - 1) := by
    rw [← pow_succ']
    congr 1
    omega
  rw [hround, toRat_settle, abs_signFactor, abs_of_nonneg (by positivity), ← hx]
  exact rounded_lt_iff hnear heven hle (fun hlt => hnormal (by omega)) hK hlow (hpow ▸ hhigh)

end Rounded

end Packing

section Conversion
variable {spec : Format}

/-- A conversion first takes as small a unit as the format wants. -/
theorem round_eq (s : Sign) {m : ℕ} (hm : 0 < m) (e : ℤ) :
    ∃ (k : ℕ), UnpackedFloat.round spec s m e =
        roundWithAccuracy spec s (m * 2 ^ k) (e - k) .exact ∧
      e - k ≤ spec.targetExponent (totalExponent (m * 2 ^ k) (e - k)) ∧
      (spec.targetExponent (totalExponent m e) ≤ e →
        spec.targetExponent (totalExponent (m * 2 ^ k) (e - k)) = e - k) := by
  refine ⟨(e - spec.targetExponent (totalExponent m e)).toNat, ?_, ?_, ?_⟩
  · unfold UnpackedFloat.round decreaseExponent
    dsimp only
    rw [Nat.shiftLeft_eq]
  · rw [totalExponent_mul_two_pow hm]
    omega
  · intro hle
    rw [totalExponent_mul_two_pow hm]
    omega

theorem value_shift (m k : ℕ) (e : ℤ) :
    ((m * 2 ^ k : ℕ) : ℚ) * (2 : ℚ) ^ (e - k) = m * (2 : ℚ) ^ e := by
  rw [zpow_sub₀ two_ne_zero, zpow_natCast]
  push_cast
  field_simp

theorem limit_pos (spec : Format) : 0 < limit spec := by
  have hpow : (1 : ℚ) ≤ (2 ^ spec.mantissaBits : ℕ) := by exact_mod_cast Nat.one_le_two_pow
  have hfirst : (0 : ℚ) < (2 ^ spec.mantissaBits : ℕ) - 1 / 2 := by linarith
  unfold limit
  positivity

/-- A converted number is finite below the limit of the format. -/
theorem isFinite_convert (hspec : Proper spec) {u : UnpackedFloat} (hu : u.isFinite = true) :
    (unpack spec (UnpackedFloat.pack spec (convert spec u))).isFinite = true ↔
      |toRat u| < limit spec := by
  cases u with
  | notANumber => exact absurd hu Bool.false_ne_true
  | infinity s => exact absurd hu Bool.false_ne_true
  | zero s =>
      apply iff_of_true
      · change (unpack spec (packedZero spec s)).isFinite = true
        rw [unpack_packedZero]
        rfl
      · change |(0 : ℚ)| < limit spec
        rw [abs_zero]
        exact limit_pos spec
  | finite s m e hm =>
      obtain ⟨k, hround, hle, -⟩ := @round_eq spec s m hm e
      change (unpack spec (UnpackedFloat.pack spec (UnpackedFloat.round spec s m e))).isFinite =
        true ↔ _
      rw [hround, isFinite_round hspec s (by positivity) hle, value_shift, toRat,
        abs_signFactor, abs_of_nonneg (by positivity)]

end Conversion

section Products

theorem isFinite_narrow {x : Float} (hx : x.isFinite = true) :
    (narrow x).isFinite = true ↔ |value x| < limit .binary32 := isFinite_convert proper32 hx

/-- A number with fewer bits than the format is kept by the conversion. -/
theorem convert_exact {spec : Format} {s : Sign} {m : ℕ} {e : ℤ} {hm : 0 < m}
    (hle : spec.targetExponent (totalExponent m e) ≤ e) (hrange : e < overflowExponent spec) :
    ∃ (m' : ℕ) (e' : ℤ) (hm' : 0 < m'),
      unpack spec (UnpackedFloat.pack spec (convert spec (.finite s m e hm))) =
        .finite s m' e' hm' ∧ (m' : ℚ) * (2 : ℚ) ^ e' = m * (2 : ℚ) ^ e := by
  obtain ⟨k, hround, -, htarget⟩ := @round_eq spec s m hm e
  have hpos : 0 < m * 2 ^ k := by positivity
  have hexact := roundWithAccuracy_exact s hpos (htarget hle) 0
  simp only [pow_zero, Nat.mul_one, Nat.cast_zero, Int.sub_zero] at hexact
  refine ⟨m * 2 ^ k, e - k, hpos, ?_, value_shift m k e⟩
  change unpack spec (UnpackedFloat.pack spec (UnpackedFloat.round spec s m e)) = _
  rw [hround, hexact]
  exact unpack_pack (htarget hle) (by omega)

theorem isFinite_cases {u : UnpackedFloat} (hu : u.isFinite = true) :
    (∃ s, u = .zero s) ∨ ∃ s m e hm, u = .finite s m e hm := by
  cases u with
  | notANumber => exact absurd hu Bool.false_ne_true
  | infinity s => exact absurd hu Bool.false_ne_true
  | zero s => exact .inl ⟨s, rfl⟩
  | finite s m e hm => exact .inr ⟨s, m, e, hm, rfl⟩

/-- Widening keeps the value. -/
theorem value_widen {x : Float32} (hx : x.isFinite = true) :
    (widen x).isFinite = true ∧ value (widen x) = single x := by
  change (unpack .binary64 (UnpackedFloat.pack .binary64
    (convert .binary64 x.toModel.unpack))).isFinite = true ∧
    toRat (unpack .binary64 (UnpackedFloat.pack .binary64
      (convert .binary64 x.toModel.unpack))) = toRat x.toModel.unpack
  rcases isFinite_cases hx with ⟨s, hu⟩ | ⟨s, m, e, hm, hu⟩
  · rw [hu]
    change (unpack .binary64 (packedZero .binary64 s)).isFinite = true ∧
      toRat (unpack .binary64 (packedZero .binary64 s)) = _
    rw [unpack_packedZero]
    exact ⟨rfl, rfl⟩
  · obtain ⟨hlarge, -, hsmall, hbits⟩ := canonical_finite hu
    have hlog : m.log2 < 24 := (Nat.log2_lt hm.ne').mpr hbits
    have htarget : Format.binary64.targetExponent (totalExponent m e) ≤ e := by
      change max (totalExponent m e - 53) (-1074) ≤ e
      unfold totalExponent
      omega
    have hrange : e < overflowExponent .binary64 := by
      have hrange : overflowExponent .binary64 = 972 := by decide
      omega
    obtain ⟨m', e', hm', hunpack, hvalue⟩ := @convert_exact .binary64 s m e hm htarget hrange
    rw [hu, hunpack]
    refine ⟨rfl, ?_⟩
    rw [toRat, toRat, hvalue]

theorem unpack_pack_of_finite {spec : Format} (hspec : Proper spec) {u : UnpackedFloat}
    (hu : Canonical spec u) (hfin : (unpack spec (UnpackedFloat.pack spec u)).isFinite = true) :
    toRat (unpack spec (UnpackedFloat.pack spec u)) = toRat u := by
  cases u with
  | notANumber =>
      change toRat (unpack spec (packedNaN spec)) = _
      rw [unpack_packedNaN]
  | infinity s =>
      change toRat (unpack spec (packedInfinity spec s)) = _
      rw [hspec.infinity]
  | zero s =>
      change toRat (unpack spec (packedZero spec s)) = _
      rw [unpack_packedZero]
  | finite s m e hm =>
      rw [unpack_pack hu ((isFinite_pack hspec hu).mp hfin)]

/-- A product of finite numbers is finite below the limit of the format, and then compares with
the even numbers of the grid as the exact product does with the middle in front of them. -/
theorem mul_finite_iff {x y : Float} (hx : x.isFinite = true) (hy : y.isFinite = true) :
    ((x * y).isFinite = true ↔ |value x * value y| < limit .binary64) ∧
    ((x * y).isFinite = true → ∀ (K : ℕ) (b : ℤ), Even K → 2 ^ 52 < K → K ≤ 2 ^ 53 →
      -1074 ≤ b → (|value (x * y)| < K * (2 : ℚ) ^ b ↔
        |value x * value y| < (K - 1 / 2) * (2 : ℚ) ^ b)) := by
  have hunpack : (x * y).toModel.unpack = unpack .binary64 (UnpackedFloat.pack .binary64
    (mul .binary64 x.toModel.unpack y.toModel.unpack)) := rfl
  have hcanonx : Canonical .binary64 x.toModel.unpack := canonical_unpack _
  have hcanony : Canonical .binary64 y.toModel.unpack := canonical_unpack _
  unfold value
  change ((x * y).toModel.unpack.isFinite = true ↔ _) ∧
    ((x * y).toModel.unpack.isFinite = true → _)
  rw [hunpack]
  have hzero : ∀ s, mul .binary64 x.toModel.unpack y.toModel.unpack = .zero s →
      toRat x.toModel.unpack * toRat y.toModel.unpack = 0 →
      ((unpack .binary64 (UnpackedFloat.pack .binary64
        (mul .binary64 x.toModel.unpack y.toModel.unpack))).isFinite = true ↔
          |toRat x.toModel.unpack * toRat y.toModel.unpack| < limit .binary64) ∧
      ((unpack .binary64 (UnpackedFloat.pack .binary64
        (mul .binary64 x.toModel.unpack y.toModel.unpack))).isFinite = true →
        ∀ (K : ℕ) (b : ℤ), Even K → 2 ^ 52 < K → K ≤ 2 ^ 53 → -1074 ≤ b →
        (|toRat (unpack .binary64 (UnpackedFloat.pack .binary64
          (mul .binary64 x.toModel.unpack y.toModel.unpack)))| < K * (2 : ℚ) ^ b ↔
        |toRat x.toModel.unpack * toRat y.toModel.unpack| < (K - 1 / 2) * (2 : ℚ) ^ b)) := by
    intro s hmul hval
    rw [hmul, hval, abs_zero]
    change ((unpack .binary64 (packedZero .binary64 s)).isFinite = true ↔ _) ∧
      ((unpack .binary64 (packedZero .binary64 s)).isFinite = true → ∀ (K : ℕ) (b : ℤ), _ → _ →
        _ → _ → (|toRat (unpack .binary64 (packedZero .binary64 s))| < _ ↔ _))
    rw [unpack_packedZero]
    refine ⟨iff_of_true rfl (limit_pos _), ?_⟩
    intro _ K b _ hK _ _
    have hcast : (1 : ℚ) ≤ K := by exact_mod_cast (by omega : 1 ≤ K)
    have hfirst : (0 : ℚ) < K - 1 / 2 := by linarith
    change |(0 : ℚ)| < _ ↔ _
    rw [abs_zero]
    exact iff_of_true (by positivity) (by positivity)
  rcases isFinite_cases hx with ⟨s, hu⟩ | ⟨s, m, e, hm, hu⟩
  · rcases isFinite_cases hy with ⟨s', hw⟩ | ⟨s', n, f, hn, hw⟩
    · exact hzero (s * s') (by rw [hu, hw]; rfl) (by rw [hu]; exact zero_mul _)
    · exact hzero (s * s') (by rw [hu, hw]; rfl) (by rw [hu]; exact zero_mul _)
  rcases isFinite_cases hy with ⟨s', hw⟩ | ⟨s', n, f, hn, hw⟩
  · exact hzero (s * s') (by rw [hu, hw]; rfl) (by rw [hw]; exact mul_zero _)
  rw [hu] at hcanonx
  rw [hw] at hcanony
  have hpos := Nat.mul_pos hm hn
  have hle := add_le_targetExponent hcanonx hcanony
  have hvalue : |toRat x.toModel.unpack * toRat y.toModel.unpack| =
      (m * n : ℕ) * (2 : ℚ) ^ (e + f) := by
    rw [hu, hw, toRat, toRat, abs_mul, abs_signFactor, abs_signFactor,
      abs_of_nonneg (by positivity), abs_of_nonneg (by positivity), zpow_add₀ two_ne_zero]
    push_cast
    ring
  have hmul : mul .binary64 x.toModel.unpack y.toModel.unpack =
      roundWithAccuracy .binary64 (s * s') (m * n) (e + f) .exact := by
    rw [hu, hw]
    rfl
  rw [hvalue, hmul]
  refine ⟨isFinite_round proper64 _ hpos hle, ?_⟩
  intro hfin K b hK hlow hhigh hb
  rw [unpack_pack_of_finite proper64 (canonical_roundWithAccuracy _ hpos hle) hfin]
  exact abs_round_lt _ hpos hle hK hlow hhigh hb

/-- From here on a product is infinite as an `f64`. -/
def doubleLimit : ℚ := 2 ^ 1024 - 2 ^ 970

/-- From here on a product that is finite as an `f64` is infinite as an `f32`. -/
def narrowLimit : ℚ := 2 ^ 128 - 2 ^ 103 - 2 ^ 74

theorem limit_binary64 : limit .binary64 = doubleLimit := by
  have hrange : overflowExponent .binary64 = 972 := by decide
  have hbits : Format.binary64.mantissaBits = 53 := by decide
  have hlast : (2 : ℚ) ^ ((972 : ℤ) - 1) = 2 * 2 ^ 970 := by
    change (2 : ℚ) ^ ((971 : ℕ) : ℤ) = _
    rw [zpow_natCast, pow_succ']
  have hsplit : (2 : ℚ) ^ 1024 = 2 ^ 54 * 2 ^ 970 := by rw [← pow_add]
  unfold limit doubleLimit
  rw [hrange, hbits, hlast, hsplit]
  generalize (2 : ℚ) ^ 970 = unit
  push_cast
  ring

theorem limit_binary32 : limit .binary32 = ((2 ^ 25 - 1) * 2 ^ 28 : ℕ) * (2 : ℚ) ^ (75 : ℤ) := by
  have hrange : overflowExponent .binary32 = 105 := by decide
  have hbits : Format.binary32.mantissaBits = 24 := by decide
  unfold limit
  rw [hrange, hbits]
  norm_num

theorem middle_narrowLimit :
    (((2 ^ 25 - 1) * 2 ^ 28 : ℕ) - 1 / 2) * (2 : ℚ) ^ (75 : ℤ) = narrowLimit := by
  unfold narrowLimit
  norm_num

/-- Where a widened `f32` times an `f64` overflows, in either format. -/
theorem narrow_product {x : Float32} {a : Float} (hx : x.isFinite = true)
    (ha : a.isFinite = true) :
    ((widen x * a).isFinite = true ↔ |single x * value a| < doubleLimit) ∧
    ((widen x * a).isFinite = true →
      ((narrow (widen x * a)).isFinite = true ↔ |single x * value a| < narrowLimit)) := by
  obtain ⟨hwiden, hvalue⟩ := value_widen hx
  obtain ⟨hfinite, hgrid⟩ := mul_finite_iff hwiden ha
  rw [hvalue] at hfinite hgrid
  rw [limit_binary64] at hfinite
  refine ⟨hfinite, ?_⟩
  intro hfin
  have heven : Even ((2 ^ 25 - 1) * 2 ^ 28) := by decide
  rw [isFinite_narrow hfin, limit_binary32,
    hgrid hfin _ 75 heven (by decide) (by decide) (by decide), middle_narrowLimit]

end Products

end SlhaV2.RoundingLimits
