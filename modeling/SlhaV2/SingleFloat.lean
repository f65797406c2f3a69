import Mathlib.Algebra.Order.Round
import SlhaV2.FloatingPoint
import SlhaV2.IeeeFloat

/-!
# Single-precision numbers of the codecs

The codecs compute over any type with the operations of `f32`. Two readings are
used: exact rationals, and the language's binary32. What the language leaves out
of its model is completed here on unpacked numbers.
-/
namespace SlhaV2.SingleFloat
open FloatingPoint Float.Model

class Single (F : Type) extends Add F, Sub F, Mul F, Div F where
  /-- A literal or a converted integer, rounded where the type rounds. -/
  lit : ℚ → F
  lt : F → F → Bool
  abs : F → F
  max : F → F → F
  round : F → F
  /-- The saturating conversion to an integer type with the given range. -/
  toInt : ℤ → ℤ → F → ℤ

namespace Single
variable {F : Type} [Single F]

def ofNat (n : ℕ) : F := lit (n : ℚ)

/-- `f32::clamp`; its callers pass bounds in order. -/
def clamp (x lo hi : F) : F :=
  let x := if lt x lo then lo else x
  if lt hi x then hi else x

end Single

/-- Rounding to an integer with ties away from zero, as `f32::round`. -/
def roundAway (q : ℚ) : ℚ := if q < 0 then -⌊-q + 1 / 2⌋ else ⌊q + 1 / 2⌋

/-- Truncation towards zero. -/
def trunc (q : ℚ) : ℤ := if q < 0 then -⌊-q⌋ else ⌊q⌋

instance : Single ℚ where
  lit q := q
  lt a b := decide (a < b)
  abs q := |q|
  max a b := Max.max a b
  round := roundAway
  toInt lo hi q := Max.max lo (min hi (trunc q))

/-- The nearest number of a format, ties to even. -/
def ofRat (spec : Format) (q : ℚ) : UnpackedFloat :=
  if q.num = 0 then .zero .positive else
  let (m, e, accuracy) := UnpackedFloat.divCore spec q.num.natAbs 0 q.den 0
  UnpackedFloat.roundWithAccuracy spec (if q < 0 then .negative else .positive) m e accuracy

/-- `round` of an unpacked number: the half below the point is added, then the rest cut. -/
def roundUnpacked (spec : Format) : UnpackedFloat → UnpackedFloat
  | .finite s m e h =>
      if 0 ≤ e then .finite s m e h
      else UnpackedFloat.round spec s ((2 * m + 2 ^ (-e).toNat) / 2 ^ ((-e).toNat + 1)) 0
  | x => x

/-- The conversion of a number of one format to another format. -/
def convert (spec : Format) : UnpackedFloat → UnpackedFloat
  | .finite s m e _ => UnpackedFloat.round spec s m e
  | x => x

/-- `f64 as f32`. -/
def narrow (x : Float) : Float32 :=
  .ofModel (.pack (convert .binary32 x.toModel.unpack))

/-- `f32 as f64`. -/
def widen (x : Float32) : Float :=
  .ofModel (.pack (convert .binary64 x.toModel.unpack))

/-- `f32::max`: a missing number loses. -/
def maxFloat32 (x y : Float32) : Float32 :=
  if x.isNaN then y else if y.isNaN then x else if x.lt y then y else x

instance : Single Float32 where
  lit q := .ofModel (.pack (ofRat .binary32 q))
  lt := Float32.lt
  abs := Float32.abs
  max := maxFloat32
  round x := .ofModel (.pack (roundUnpacked .binary32 x.toModel.unpack))
  toInt lo hi x := Max.max lo (min hi (x.toModel.unpack.toInt lo hi))

end SlhaV2.SingleFloat
