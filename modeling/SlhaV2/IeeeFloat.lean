import Mathlib

/-!
# Floating-point numbers as bit patterns and as values

The language's own model of IEEE arithmetic unpacks a bit pattern, operates on
the parts, and packs the result. Packing and unpacking are inverse to each other
on every pattern but the redundant encodings of not-a-number.
-/
namespace SlhaV2.IeeeFloat
open Float.Model
open UnpackedFloat hiding pack unpack

/-- Patterns of numbers are kept bit for bit. -/
theorem toBits_ofBits {u : UInt32} (h : (Float32.ofBits u).isFinite = true) :
    (Float32.ofBits u).toBits = u := by
  have hpack := @pack_unpack Format.binary32 u.toBitVec (by decide)
  have hfin : (UnpackedFloat.unpack Format.binary32 (UnpackedFloat.pack Format.binary32
    (UnpackedFloat.unpack Format.binary32 u.toBitVec))).isFinite = true := h
  apply UInt32.toBitVec_inj.mp
  by_cases hnan : @isNaNBits Format.binary32 u.toBitVec = true
  · rw [if_pos hnan] at hpack
    rw [hpack, unpack_packedNaN] at hfin
    exact absurd hfin (by decide)
  · rw [if_neg hnan] at hpack
    exact hpack

end SlhaV2.IeeeFloat
