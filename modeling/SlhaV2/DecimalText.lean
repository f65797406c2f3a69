import SlhaV2.ExactValues

/-!
# Numbers as decimal text

A decimal literal is read as the nearest `f64`. A number is printed without an
exponent, with the fewest digits that are read back as it.
-/
namespace SlhaV2.DecimalText
open Float.Model SingleFloat ExactValues

/-- A leading sign and the characters after it. -/
def takeSign : List Char → Bool × List Char
  | '-' :: r => (true, r)
  | '+' :: r => (false, r)
  | r => (false, r)

def digitsValue (s : List Char) : ℕ := Nat.ofDigitChars 10 s 0

/-- The rest of a literal after its digits: nothing, or an exponent. -/
def parseExponent : List Char → Option ℤ
  | [] => some 0
  | c :: r =>
      let (neg, ds) := takeSign r
      if (c = 'e' ∨ c = 'E') ∧ ds ≠ [] ∧ ds.all Char.isDigit then
        some (if neg then -(digitsValue ds : ℤ) else digitsValue ds)
      else none

/-- The digits after a point, and the characters after them. -/
def takeFraction : List Char → List Char × List Char
  | '.' :: r => (r.takeWhile Char.isDigit, r.dropWhile Char.isDigit)
  | r => ([], r)

/-- `str::parse::<f64>`. The words for the infinities and for not-a-number are
not among the texts which its callers pass. -/
def parseF64 (s : List Char) : Option Float :=
  let (neg, s) := takeSign s
  let int := s.takeWhile Char.isDigit
  let (frac, s) := takeFraction (s.dropWhile Char.isDigit)
  if int = [] ∧ frac = [] then none else
  (parseExponent s).map fun e => ofDecimal neg (digitsValue (int ++ frac)) (e - frac.length)

/-- All decimal digits of a finite number, and how many of them follow the point. -/
def exactDigits : UnpackedFloat → ℕ × ℕ
  | .finite _ m e _ =>
      if 0 ≤ e then (m * 2 ^ e.toNat, 0) else (m * 5 ^ (-e).toNat, (-e).toNat)
  | _ => (0, 0)

/-- The digits with the last `t` cut, if one of the two neighbours is read back as `x`;
the nearer one is preferred. -/
def cut (x : Float) (digits places t : ℕ) : Option ℕ :=
  let lo := digits / 10 ^ t
  let near := if 2 * (digits % 10 ^ t) ≤ 10 ^ t then [lo, lo + 1] else [lo + 1, lo]
  near.find? fun d =>
    (ofDecimal (isNegative x.toModel.unpack) d (t - places)).toBits = x.toBits

/-- The shortest decimal of those with at most `t` digits cut. -/
def shortest (x : Float) (digits places : ℕ) : ℕ → ℕ × ℤ
  | 0 => (digits, -places)
  | t + 1 =>
      match cut x digits places (t + 1) with
      | some d => (d, t + 1 - places)
      | none => shortest x digits places t

def padded (k : ℕ) (s : List Char) : List Char := List.replicate (k - s.length) '0' ++ s

/-- A decimal without an exponent. -/
def layout (digits : ℕ) (exponent : ℤ) : List Char :=
  if 0 ≤ exponent then Nat.toDigits 10 (digits * 10 ^ exponent.toNat) else
  let k := (-exponent).toNat
  Nat.toDigits 10 (digits / 10 ^ k) ++ '.' :: padded k (Nat.toDigits 10 (digits % 10 ^ k))

/-- `Display` of an `f64`. -/
def display (x : Float) : List Char :=
  let u := x.toModel.unpack
  let sign := if isNegative u then ['-'] else []
  if u.isNaN then "NaN".toList
  else if u.isInf then sign ++ "inf".toList
  else
    let (digits, places) := exactDigits u
    let (d, e) := shortest x digits places (Nat.toDigits 10 digits).length
    sign ++ layout d e

theorem exactDigits_value {s : UnpackedFloat.Sign} {m : ℕ} {e : ℤ} {hm : 0 < m} :
    ((exactDigits (.finite s m e hm)).1 : ℚ) * 10 ^ (-((exactDigits (.finite s m e hm)).2 : ℤ)) =
      m * (2 : ℚ) ^ e := by
  simp only [exactDigits]
  split_ifs with he
  · obtain ⟨k, rfl⟩ := Int.eq_ofNat_of_zero_le he
    simp
  · obtain ⟨k, hk⟩ := Int.eq_ofNat_of_zero_le (by omega : 0 ≤ -e)
    obtain rfl : e = -(k : ℤ) := by omega
    have hten : (10 : ℚ) ^ k = 2 ^ k * 5 ^ k := by
      rw [← mul_pow]
      norm_num
    simp only [neg_neg, Int.toNat_natCast, zpow_neg, zpow_natCast]
    push_cast
    rw [hten]
    field_simp

/-- Whatever is cut, the digits are read back as the number. -/
theorem shortest_reads {x : Float} {digits places : ℕ} (t : ℕ)
    (h : ofDecimal (isNegative x.toModel.unpack) digits (-places) = x) :
    ofDecimal (isNegative x.toModel.unpack) (shortest x digits places t).1
      (shortest x digits places t).2 = x := by
  induction t with
  | zero => exact h
  | succ t ih =>
      unfold shortest
      split
      · rename_i d hd
        have hfound := List.find?_some hd
        apply Float.toBits_inj.mp
        simpa using hfound
      · exact ih

theorem display_reads {x : Float} (hne : value x ≠ 0) :
    ∃ d e, display x = (if isNegative x.toModel.unpack then ['-'] else []) ++ layout d e ∧
      ofDecimal (isNegative x.toModel.unpack) d e = x := by
  have hread := @ofDecimal_eq_of_value x
  have hshort := @shortest_reads x
  unfold display
  unfold value at hne hread
  generalize x.toModel.unpack = u at hne hread hshort ⊢
  cases u with
  | infinity s => exact absurd rfl hne
  | notANumber => exact absurd rfl hne
  | zero s => exact absurd rfl hne
  | finite s m e hm =>
      have hval : (0 : ℚ) < m * (2 : ℚ) ^ e := by positivity
      have habs : |toRat (.finite s m e hm)| = m * (2 : ℚ) ^ e := by
        cases s <;> simp [toRat, signFactor]
      have hexact := hread hne ((@exactDigits_value s m e hm).trans habs.symm)
      exact ⟨_, _, rfl, hshort _ hexact⟩

end SlhaV2.DecimalText
