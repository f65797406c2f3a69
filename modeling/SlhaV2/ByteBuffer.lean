import Mathlib.Data.List.Basic
import Mathlib.Tactic.SplitIfs
import Mathlib.Tactic.Ring

/-!
# Byte buffers, ranges and little-endian fields

A fixed-width array is a byte list carrying its length. Range reads are
`slice`, range writes are `splice`; both are total on lists, and a buffer keeps
its length exactly when the written range lies inside it.
-/
namespace SlhaV2.ByteBuffer

/-- A byte array of `n` elements. -/
abbrev Bytes (n : ℕ) := { l : List UInt8 // l.length = n }

def zeros (n : ℕ) : Bytes n := ⟨List.replicate n 0, List.length_replicate⟩

/-- Fixed-width view of a byte vector, when its length is right. -/
def tryInto (n : ℕ) (l : List UInt8) : Option (Bytes n) :=
  if h : l.length = n then some ⟨l, h⟩ else none

def slice (l : List UInt8) (off len : ℕ) : List UInt8 := (l.drop off).take len

/-- Overwrite the range of `src.length` bytes which starts at `off`. -/
def splice (l : List UInt8) (off : ℕ) (src : List UInt8) : List UInt8 :=
  l.take off ++ src ++ l.drop (off + src.length)

@[simp] theorem tryInto_val {n : ℕ} (b : Bytes n) : tryInto n b.1 = some b := by
  unfold tryInto
  rw [dif_pos b.2]

theorem tryInto_eq_some {n : ℕ} {l : List UInt8} {b : Bytes n} :
    tryInto n l = some b ↔ l = b.1 := by
  constructor
  · intro h
    unfold tryInto at h
    split_ifs at h with hl
    cases h
    rfl
  · rintro rfl
    exact tryInto_val b

theorem length_slice {l : List UInt8} {off len : ℕ} (h : off + len ≤ l.length) :
    (slice l off len).length = len := by
  simp only [slice, List.length_take, List.length_drop]
  omega

theorem length_slice_eq {l : List UInt8} {off len : ℕ} :
    (slice l off len).length = min len (l.length - off) := by
  simp only [slice, List.length_take, List.length_drop]

theorem length_splice {l src : List UInt8} {off : ℕ} (h : off + src.length ≤ l.length) :
    (splice l off src).length = l.length := by
  simp only [splice, List.length_append, List.length_take, List.length_drop]
  omega

theorem slice_splice_same {l src : List UInt8} {off : ℕ} (h : off + src.length ≤ l.length) :
    slice (splice l off src) off src.length = src := by
  have ho : (l.take off).length = off := by
    rw [List.length_take]
    omega
  unfold slice splice
  rw [List.append_assoc, List.drop_append_of_le_length (by omega),
    List.drop_eq_nil_of_le (by omega), List.nil_append, List.take_append_of_le_length le_rfl,
    List.take_length]

/-- Writing back the bytes that are there changes nothing. -/
theorem splice_slice_self {l : List UInt8} {off len : ℕ} (h : off + len ≤ l.length) :
    splice l off (slice l off len) = l := by
  have hl := length_slice h
  unfold splice
  rw [hl]
  unfold slice
  rw [← List.drop_drop, List.append_assoc, List.take_append_drop, List.take_append_drop]

theorem getElem?_splice {l src : List UInt8} {off : ℕ} (h : off + src.length ≤ l.length) (i : ℕ) :
    (splice l off src)[i]? =
      if off ≤ i ∧ i < off + src.length then src[i - off]? else l[i]? := by
  have ho : (l.take off).length = off := by
    rw [List.length_take]
    omega
  unfold splice
  rw [List.append_assoc, List.getElem?_append, ho]
  split_ifs with h₁ h₂ h₂
  · omega
  · rw [List.getElem?_take_of_lt h₁]
  · rw [List.getElem?_append_left (by omega)]
  · rw [List.getElem?_append_right (by omega), List.getElem?_drop]
    congr 1
    omega

/-- The later of two writes to one range wins. -/
theorem splice_splice_same {l a b : List UInt8} {off : ℕ} (hl : off + a.length ≤ l.length)
    (hab : a.length = b.length) : splice (splice l off a) off b = splice l off b := by
  apply List.ext_getElem?
  intro k
  rw [getElem?_splice (by rw [length_splice hl]; omega), getElem?_splice hl,
    getElem?_splice (by omega)]
  split_ifs <;> first | rfl | omega

theorem getElem?_slice {l : List UInt8} {off len : ℕ} (i : ℕ) :
    (slice l off len)[i]? = if i < len then l[off + i]? else none := by
  unfold slice
  rw [List.getElem?_take, List.getElem?_drop]

/-- Writes to disjoint ranges commute. -/
theorem splice_comm {l a b : List UInt8} {i j : ℕ} (hij : i + a.length ≤ j)
    (hj : j + b.length ≤ l.length) :
    splice (splice l i a) j b = splice (splice l j b) i a := by
  have hi : i + a.length ≤ l.length := by omega
  apply List.ext_getElem?
  intro k
  rw [getElem?_splice (by rw [length_splice hi]; exact hj), getElem?_splice hi,
    getElem?_splice (by rw [length_splice hj]; exact hi), getElem?_splice hj]
  split_ifs <;> first | rfl | omega

theorem slice_splice_of_disjoint {l src : List UInt8} {off i n : ℕ}
    (h : off + src.length ≤ l.length) (hd : i + n ≤ off ∨ off + src.length ≤ i) :
    slice (splice l off src) i n = slice l i n := by
  apply List.ext_getElem?
  intro k
  rw [getElem?_slice, getElem?_slice, getElem?_splice h]
  split_ifs <;> first | rfl | omega

theorem slice_append_left {a b : List UInt8} {n : ℕ} (h : a.length = n) :
    slice (a ++ b) 0 n = a := by
  subst h
  unfold slice
  rw [List.drop_zero, List.take_left]

theorem slice_append_right {a b : List UInt8} {off n : ℕ} (h : a.length ≤ off) :
    slice (a ++ b) off n = slice b (off - a.length) n := by
  unfold slice
  rw [List.drop_append, List.drop_eq_nil_of_le h, List.nil_append]

theorem slice_append_of_le {a b : List UInt8} {off n : ℕ} (h : off + n ≤ a.length) :
    slice (a ++ b) off n = slice a off n := by
  unfold slice
  rw [List.drop_append_of_le_length (by omega), List.take_append_of_le_length (by
    rw [List.length_drop]
    omega)]

theorem splice_append_left {a b src : List UInt8} (h : src.length = a.length) :
    splice (a ++ b) 0 src = src ++ b := by
  unfold splice
  rw [List.take_zero, List.nil_append, Nat.zero_add, h, List.drop_left]

theorem splice_append_right {a b src : List UInt8} {off : ℕ} (h : a.length ≤ off) :
    splice (a ++ b) off src = a ++ splice b (off - a.length) src := by
  have hsub : off + src.length - a.length = off - a.length + src.length := by omega
  unfold splice
  rw [List.take_append, List.drop_append, List.take_of_length_le h,
    List.drop_eq_nil_of_le (by omega : a.length ≤ off + src.length), List.nil_append, hsub,
    List.append_assoc, List.append_assoc, List.append_assoc]

/-- Consecutive ranges join. -/
theorem slice_append_slice {l : List UInt8} {off next m n : ℕ} (h : next = off + m) :
    slice l off m ++ slice l next n = slice l off (m + n) := by
  subst h
  unfold slice
  rw [List.take_add, List.drop_drop]

theorem slice_zero_length {l : List UInt8} {n : ℕ} (h : l.length = n) : slice l 0 n = l := by
  subst h
  unfold slice
  rw [List.drop_zero, List.take_length]

/-- Changing one byte changes the ranges it lies in. -/
theorem slice_set (l : List UInt8) (off len i : ℕ) (b : UInt8) : slice (l.set i b) off len =
    if off ≤ i then (slice l off len).set (i - off) b else slice l off len := by
  apply List.ext_getElem?
  intro k
  split_ifs with h
  · rw [List.getElem?_set, getElem?_slice, getElem?_slice, List.getElem?_set, length_slice_eq]
    split_ifs <;> first | rfl | omega
  · rw [getElem?_slice, getElem?_slice, List.getElem?_set]
    split_ifs <;> first | rfl | omega

/-- The `k` low bytes of a number, least significant first. -/
def leBytes : ℕ → ℕ → List UInt8
  | 0, _ => []
  | k + 1, n => UInt8.ofNat n :: leBytes k (n / 256)

def leNat : List UInt8 → ℕ
  | [] => 0
  | b :: bs => b.toNat + 256 * leNat bs

@[simp] theorem length_leBytes (k n : ℕ) : (leBytes k n).length = k := by
  induction k generalizing n with
  | zero => rfl
  | succ k ih => simp [leBytes, ih]

theorem leNat_lt (l : List UInt8) : leNat l < 256 ^ l.length := by
  induction l with
  | nil => simp [leNat]
  | cons b l ih =>
      have hb := b.toNat_lt
      simp only [leNat, List.length_cons, pow_succ]
      omega

theorem leNat_leBytes (k n : ℕ) : leNat (leBytes k n) = n % 256 ^ k := by
  induction k generalizing n with
  | zero => simp [leBytes, leNat, Nat.mod_one]
  | succ k ih =>
      simp only [leBytes, leNat, ih, pow_succ]
      rw [Nat.mul_comm (256 ^ k) 256, Nat.mod_mul]
      simp

theorem leNat_leBytes_of_lt {k n : ℕ} (h : n < 256 ^ k) : leNat (leBytes k n) = n := by
  rw [leNat_leBytes, Nat.mod_eq_of_lt h]

theorem leBytes_leNat (l : List UInt8) : leBytes l.length (leNat l) = l := by
  induction l with
  | nil => rfl
  | cons b l ih =>
      have hb := b.toNat_lt
      have h₁ : UInt8.ofNat (b.toNat + 256 * leNat l) = b := by
        apply UInt8.toNat_inj.mp
        rw [UInt8.toNat_ofNat']
        omega
      have h₂ : (b.toNat + 256 * leNat l) / 256 = leNat l := by omega
      simp only [List.length_cons, leBytes, leNat, h₁, h₂, ih]

theorem leBytes_leNat_of_length {l : List UInt8} {k : ℕ} (h : l.length = k) :
    leBytes k (leNat l) = l := by
  subst h
  exact leBytes_leNat l

theorem leNat_injective {a b : List UInt8} (hlen : a.length = b.length)
    (h : leNat a = leNat b) : a = b := by
  rw [← leBytes_leNat a, ← leBytes_leNat b, h, hlen]

end SlhaV2.ByteBuffer
