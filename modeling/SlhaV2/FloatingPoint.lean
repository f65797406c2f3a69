import Mathlib.Algebra.Order.Floor.Defs
import Mathlib.Data.Rat.Floor
import SlhaV2.MachineWord

/-!
# Floating-point values of the controlled program

Double-precision values steer the controllers. Their operations are an
interface without laws: a result stated over it holds for IEEE arithmetic with
any rounding, and for exact rationals alike. Single-precision values are bit
patterns, because the program stores and orders them by their bits; only their
arithmetic is an interface.
-/
namespace SlhaV2.FloatingPoint
open MachineWord

/-- Operations on `f64`. Literals and integer conversions round a rational. -/
class F64 (F : Type) extends Add F, Sub F, Mul F, Div F, Neg F where
  lit : ℚ → F
  lt : F → F → Bool
  le : F → F → Bool
  eq : F → F → Bool
  isFinite : F → Bool
  toU64 : F → ℕ
  toBits : F → ℕ

namespace F64
variable {F : Type} [F64 F]

def ofNat (n : ℕ) : F := lit (n : ℚ)

/-- `f64::clamp`; its callers pass bounds in order. -/
def clamp (x lo hi : F) : F :=
  let x := if lt x lo then lo else x
  if lt hi x then hi else x

end F64

/-- The exact reading: no rounding, every value finite, no bit image. -/
instance : F64 ℚ where
  lit q := q
  lt a b := decide (a < b)
  le a b := decide (a ≤ b)
  eq a b := decide (a = b)
  isFinite _ := true
  toU64 q := min ⌊q⌋.toNat maxWord
  toBits _ := 0

/-- An `f32` as its bit pattern. -/
structure F32 where
  bits : UInt32
deriving DecidableEq, Repr

namespace F32

def zero : F32 := ⟨0⟩
def negInfinity : F32 := ⟨0xFF800000⟩

/-- The key by which `total_cmp` orders bit patterns: the signed reading, with
the magnitude of negative patterns reversed. -/
def orderKey (x : F32) : ℤ :=
  if x.bits.toNat < 2 ^ 31 then x.bits.toNat else -1 - ((x.bits.toNat - 2 ^ 31 : ℕ) : ℤ)

def totalCmp (x y : F32) : Ordering := compare x.orderKey y.orderKey

/-- The exponent field is not all ones. -/
def isFinite (x : F32) : Bool := (x.bits.toNat / 2 ^ 23) % 256 ≠ 255

end F32

/-- Arithmetic on single-precision patterns. -/
class F32Arith where
  add : F32 → F32 → F32
  sub : F32 → F32 → F32
  mul : F32 → F32 → F32
  div : F32 → F32 → F32
  exp : F32 → F32
  max : F32 → F32 → F32
  sum : List F32 → F32
  le : F32 → F32 → Bool

/-- Arithmetic with no precision at all, enough to run the integer parts. -/
@[reducible] def F32Arith.trivial : F32Arith where
  add _ _ := F32.zero
  sub _ _ := F32.zero
  mul _ _ := F32.zero
  div _ _ := F32.zero
  exp _ := F32.zero
  max _ _ := F32.zero
  sum _ := F32.zero
  le _ _ := true

end SlhaV2.FloatingPoint
