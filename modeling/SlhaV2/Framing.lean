import SlhaV2.ByteBuffer

/-!
# Sequences of frames of one width

A decoder of one frame gives meaning to a body of consecutive frames. The body
determines the records, and bodies can be put one after the other.
-/
namespace SlhaV2.Framing
open ByteBuffer

variable {ρ ε : Type} {w : ℕ} {decode : Bytes w → Except ε ρ}

/-- The body is a sequence of frames which decode to these records. -/
inductive Framed (decode : Bytes w → Except ε ρ) : List UInt8 → List ρ → Prop
  | nil : Framed decode [] []
  | cons {frame : Bytes w} {r : ρ} {body : List UInt8} {rs : List ρ} :
      decode frame = .ok r → Framed decode body rs → Framed decode (frame.1 ++ body) (r :: rs)

theorem Framed.single {frame : Bytes w} {r : ρ} (h : decode frame = .ok r) :
    Framed decode frame.1 [r] := by
  have hcons := Framed.cons h Framed.nil
  rwa [List.append_nil] at hcons

theorem Framed.append {a b : List UInt8} {xs ys : List ρ} (h : Framed decode a xs)
    (k : Framed decode b ys) : Framed decode (a ++ b) (xs ++ ys) := by
  induction h with
  | nil => exact k
  | cons hr _ ih =>
      rw [List.append_assoc, List.cons_append]
      exact Framed.cons hr ih

theorem Framed.length {body : List UInt8} {rs : List ρ} (h : Framed decode body rs) :
    body.length = w * rs.length := by
  induction h with
  | nil => simp
  | @cons frame r body rs _ _ ih =>
      rw [List.length_append, frame.2, ih, List.length_cons, Nat.mul_succ, Nat.add_comm]

/-- The first frames of a body are the first records. -/
theorem Framed.take {body : List UInt8} {rs : List ρ} (h : Framed decode body rs) (n : ℕ) :
    Framed decode (body.take (w * n)) (rs.take n) := by
  induction h generalizing n with
  | nil => simpa using Framed.nil
  | @cons frame r body rs hr _ ih =>
      cases n with
      | zero => simpa using Framed.nil
      | succ n =>
          have hsplit : w * (n + 1) = frame.1.length + w * n := by
            rw [frame.2, Nat.mul_succ, Nat.add_comm]
          rw [hsplit, List.take_length_add_append, List.take_succ_cons]
          exact Framed.cons hr (ih n)

/-- Every frame of a body decodes. -/
theorem Framed.decode_slice {body : List UInt8} {rs : List ρ} (h : Framed decode body rs) {k : ℕ}
    (hk : k < rs.length) {frame : Bytes w} (hframe : slice body (w * k) w = frame.1) :
    decode frame = .ok rs[k] := by
  induction h generalizing k with
  | nil => exact absurd hk (Nat.not_lt_zero k)
  | @cons first r body rs hr _ ih =>
      cases k with
      | zero =>
          rw [Nat.mul_zero, slice_append_left first.2] at hframe
          rw [← Subtype.ext hframe]
          exact hr
      | succ k =>
          have hsplit : w * (k + 1) - first.1.length = w * k := by
            rw [first.2, Nat.mul_succ, Nat.add_sub_cancel]
          rw [slice_append_right (by rw [first.2]; exact Nat.le_mul_of_pos_right w k.succ_pos),
            hsplit] at hframe
          exact ih (Nat.lt_of_succ_lt_succ hk) hframe

/-- A decoder that agrees on every frame which the first accepts. -/
theorem Framed.mono {decode' : Bytes w → Except ε ρ} {body : List UInt8} {rs : List ρ}
    (h : Framed decode body rs)
    (hdecode : ∀ frame r, decode frame = .ok r → decode' frame = .ok r) :
    Framed decode' body rs := by
  induction h with
  | nil => exact Framed.nil
  | cons hr _ ih => exact Framed.cons (hdecode _ _ hr) ih

/-- The first frames of a written body are the frames of the first records. -/
theorem take_flatMap_of_length {encode : ρ → List UInt8} (h : ∀ r, (encode r).length = w)
    (rs : List ρ) (n : ℕ) : (rs.flatMap encode).take (w * n) = (rs.take n).flatMap encode := by
  induction rs generalizing n with
  | nil => simp
  | cons r rs ih =>
      cases n with
      | zero => simp
      | succ n =>
          have hsplit : w * (n + 1) = (encode r).length + w * n := by
            rw [h, Nat.mul_succ, Nat.add_comm]
          rw [hsplit, List.flatMap_cons, List.take_length_add_append, ih, List.take_succ_cons,
            List.flatMap_cons]

theorem framed_flatMap {encode : ρ → Bytes w} (h : ∀ r, decode (encode r) = .ok r)
    (rs : List ρ) : Framed decode (rs.flatMap fun r => (encode r).1) rs := by
  induction rs with
  | nil => exact Framed.nil
  | cons r rs ih => exact Framed.cons (h r) ih

theorem slice_flatMap_of_length {encode : ρ → List UInt8} (h : ∀ r, (encode r).length = w)
    {rs : List ρ} {k : ℕ} (hk : k < rs.length) :
    slice (rs.flatMap encode) (w * k) w = encode rs[k] := by
  induction rs generalizing k with
  | nil => exact absurd hk (Nat.not_lt_zero k)
  | cons r rs ih =>
      rw [List.flatMap_cons]
      cases k with
      | zero => exact slice_append_left (h r)
      | succ k =>
          have hsplit : w * (k + 1) - (encode r).length = w * k := by
            rw [h, Nat.mul_succ, Nat.add_sub_cancel]
          rw [slice_append_right (by rw [h]; exact Nat.le_mul_of_pos_right w k.succ_pos), hsplit]
          exact ih (Nat.lt_of_succ_lt_succ hk)

end SlhaV2.Framing
