import Mathlib.Algebra.BigOperators.Group.Finset.Basic
import Mathlib.Algebra.BigOperators.Fin
import Mathlib.Algebra.Order.BigOperators.Group.Finset
import SlhaV2.SingleFloat

/-!
# Vector registers

A register is its lanes. Lanes of bytes and of words are moved, masked and
shifted; lanes of numbers are added and multiplied. A load is checked: one that
leaves its array has no result. A loop that adds a product to every lane computes
the sum of all products, however they are spread over the lanes.
-/
namespace SlhaV2.VectorRegisters
open SingleFloat Single

abbrev Vec (n : ℕ) (α : Type) := Fin n → α

/-- Numbers with a fused multiplication and addition. -/
class Fused (F : Type) extends Single F where
  fma : F → F → F → F

instance : Fused ℚ where
  fma a b c := a * b + c

section Memory
variable {n : ℕ} {α : Type}

/-- Consecutive lanes of an array. -/
def loadu (src : Vec n α) (off lanes : ℕ) : Option (Vec lanes α) :=
  if h : off + lanes ≤ n then some fun l => src ⟨off + l, by omega⟩ else none

def get (src : Vec n α) (i : ℕ) : Option α := if h : i < n then some (src ⟨i, h⟩) else none

theorem loadu_eq {src : Vec n α} {off lanes : ℕ} (h : off + lanes ≤ n) :
    loadu src off lanes = some fun l : Fin lanes => src ⟨off + l, by omega⟩ := dif_pos h

theorem get_eq {src : Vec n α} {i : ℕ} (h : i < n) : get src i = some (src ⟨i, h⟩) := dif_pos h

end Memory

section Bytes
variable {n : ℕ}

def set1 {α : Type} (x : α) : Vec n α := fun _ => x

/-- The low eight bytes are loaded, the high eight are zero. -/
def loadlEpi64 {m : ℕ} (src : Vec m UInt8) (off : ℕ) : Option (Vec 16 UInt8) :=
  (loadu src off 8).map fun v i => if h : i.val < 8 then v ⟨i, h⟩ else 0

def andSi (a b : Vec n UInt8) : Vec n UInt8 := fun i => a i &&& b i

/-- The number of a lane of two bytes. -/
def lane16 (v : Vec 16 UInt8) (i : Fin 16) : ℕ :=
  (v ⟨2 * (i / 2), by omega⟩).toNat + 256 * (v ⟨2 * (i / 2) + 1, by omega⟩).toNat

/-- Lanes of two bytes are shifted to the right. -/
def srliEpi16 (v : Vec 16 UInt8) (k : ℕ) : Vec 16 UInt8 := fun i =>
  UInt8.ofNat ((lane16 v i >>> k) / 256 ^ (i.val % 2))

theorem loadlEpi64_eq {m off : ℕ} (src : Vec m UInt8) (h : off + 8 ≤ m) :
    ∃ v, loadlEpi64 src off = some v ∧
      ∀ i (hi : i < 8), v ⟨i, by omega⟩ = src ⟨off + i, by omega⟩ := by
  unfold loadlEpi64
  rw [loadu_eq h]
  refine ⟨_, rfl, ?_⟩
  intro i hi
  exact dif_pos hi

/-- The high nibble of every byte arrives in its low half. -/
theorem srliEpi16_mod (v : Vec 16 UInt8) (i : Fin 16) :
    (srliEpi16 v 4 i).toNat % 16 = (v i).toNat / 16 := by
  have hlt := (v i).toNat_lt
  unfold srliEpi16 lane16
  rw [UInt8.toNat_ofNat', Nat.shiftRight_eq_div_pow]
  rcases Nat.mod_two_eq_zero_or_one i with hpar | hpar
  · have hi : i = ⟨2 * (i / 2), by omega⟩ := Fin.ext (by show i.val = 2 * (i.val / 2); omega)
    rw [hpar, pow_zero, Nat.div_one, ← hi]
    omega
  · have hi : i = ⟨2 * (i / 2) + 1, by omega⟩ :=
      Fin.ext (by show i.val = 2 * (i.val / 2) + 1; omega)
    have hlow := (v ⟨2 * (i / 2), by omega⟩).toNat_lt
    rw [hpar, pow_one, ← hi]
    omega

/-- The low halves of two registers, byte by byte in turn. -/
def unpackloEpi8 (a b : Vec 16 UInt8) : Vec 16 UInt8 := fun i =>
  if i.val % 2 = 0 then a ⟨i / 2, by omega⟩ else b ⟨i / 2, by omega⟩

/-- The register is shifted by whole bytes. -/
def srliSi128 (v : Vec 16 UInt8) (k : ℕ) : Vec 16 UInt8 := fun i =>
  if h : i + k < 16 then v ⟨i + k, h⟩ else 0

/-- As many bytes as the result has lanes are widened. -/
def cvtepu8Epi32 (lanes : ℕ) (h : lanes ≤ 16) (v : Vec 16 UInt8) : Vec lanes (BitVec 32) :=
  fun i => (v ⟨i, by omega⟩).toBitVec.setWidth 32

def andEpi32 (a b : Vec n (BitVec 32)) : Vec n (BitVec 32) := fun i => a i &&& b i

/-- Each lane is shifted by its own count; a shift by the width clears it. -/
def srlvEpi32 (a : Vec n (BitVec 32)) (counts : Vec n ℕ) : Vec n (BitVec 32) :=
  fun i => a i >>> counts i

/-- All bits of a lane are set where the signed comparison holds. -/
def cmpgtEpi32 (a b : Vec n (BitVec 32)) : Vec n (BitVec 32) :=
  fun i => if (b i).toInt < (a i).toInt then BitVec.allOnes 32 else 0

/-- The upper half of the cast is not defined; here it is zero. -/
def castsi256Si512 (v : Vec 8 (BitVec 32)) : Vec 16 (BitVec 32) :=
  fun i => if h : i.val < 8 then v ⟨i, h⟩ else 0

/-- The half of the given number is replaced. -/
def inserti64x4 (a : Vec 16 (BitVec 32)) (b : Vec 8 (BitVec 32)) (imm : ℕ) :
    Vec 16 (BitVec 32) :=
  fun i => if i.val / 8 = imm then b ⟨i.val % 8, by omega⟩ else a i

end Bytes

section Numbers
variable {F : Type} [Fused F] {n : ℕ}

def addPs (a b : Vec n F) : Vec n F := fun i => a i + b i
def subPs (a b : Vec n F) : Vec n F := fun i => a i - b i
def mulPs (a b : Vec n F) : Vec n F := fun i => a i * b i
def fmaddPs (a b c : Vec n F) : Vec n F := fun i => Fused.fma (a i) (b i) (c i)

/-- A word is converted as a signed number. -/
def cvtepi32Ps (v : Vec n (BitVec 32)) : Vec n F := fun i => lit (v i).toInt

/-- The low three bits of each index choose a lane. -/
def permutevar8x32Ps (a : Vec 8 F) (idx : Vec 8 (BitVec 32)) : Vec 8 F :=
  fun i => a ⟨(idx i).toNat % 8, Nat.mod_lt _ (by decide)⟩

/-- The low four bits of each index choose a lane. -/
def permutexvarPs (idx : Vec 16 (BitVec 32)) (a : Vec 16 F) : Vec 16 F :=
  fun i => a ⟨(idx i).toNat % 16, Nat.mod_lt _ (by decide)⟩

/-- The sign bit of the mask chooses the second register. -/
def blendvPs (a b : Vec n F) (mask : Vec n (BitVec 32)) : Vec n F :=
  fun i => if (mask i).msb then b i else a i

def zextps256Ps512 (v : Vec 8 F) : Vec 16 F :=
  fun i => if h : i.val < 8 then v ⟨i, h⟩ else lit 0

/-- The stored lanes are added in order. -/
def sumLanes (v : Vec n F) : F := (List.finRange n).foldl (fun s i => s + v i) (lit 0)

/-- The upper half is added to the lower one until one lane is left. -/
def reduceAdd : (k : ℕ) → (ℕ → F) → F
  | 0, v => v 0
  | k + 1, v => reduceAdd k fun i => v i + v (i + 2 ^ k)

def reduceAddPs (v : Vec 16 F) : F := reduceAdd 4 fun i => if h : i < 16 then v ⟨i, h⟩ else lit 0

end Numbers

section Neon
variable {F : Type} [Fused F]

def vshrNU8 (v : Vec 8 UInt8) (k : ℕ) : Vec 8 UInt8 := fun i => UInt8.ofNat ((v i).toNat >>> k)

/-- The first halves of two registers, byte by byte in turn. -/
def vzip1U8 (a b : Vec 8 UInt8) : Vec 8 UInt8 := fun i =>
  if i.val % 2 = 0 then a ⟨i / 2, by omega⟩ else b ⟨i / 2, by omega⟩

def vzip2U8 (a b : Vec 8 UInt8) : Vec 8 UInt8 := fun i =>
  if i.val % 2 = 0 then a ⟨4 + i / 2, by omega⟩ else b ⟨4 + i / 2, by omega⟩

def vmovlU8 (v : Vec 8 UInt8) : Vec 8 UInt16 := fun i => (v i).toUInt16
def vgetLowU16 (v : Vec 8 UInt16) : Vec 4 UInt16 := fun i => v ⟨i, by omega⟩
def vgetHighU16 (v : Vec 8 UInt16) : Vec 4 UInt16 := fun i => v ⟨4 + i, by omega⟩
def vmovlU16 (v : Vec 4 UInt16) : Vec 4 (BitVec 32) := fun i => (v i).toBitVec.setWidth 32

theorem toNat_low (v : Vec 8 UInt8) (l : Fin 4) :
    (vmovlU16 (vgetLowU16 (vmovlU8 v)) l).toNat = (v ⟨l, by omega⟩).toNat := by
  have hlt := (v ⟨l, by omega⟩).toNat_lt
  unfold vmovlU16 vgetLowU16 vmovlU8
  rw [BitVec.toNat_setWidth, UInt16.toNat_toBitVec, UInt8.toNat_toUInt16]
  exact Nat.mod_eq_of_lt (by omega)

theorem toNat_high (v : Vec 8 UInt8) (l : Fin 4) :
    (vmovlU16 (vgetHighU16 (vmovlU8 v)) l).toNat = (v ⟨4 + l, by omega⟩).toNat := by
  have hlt := (v ⟨4 + l, by omega⟩).toNat_lt
  unfold vmovlU16 vgetHighU16 vmovlU8
  rw [BitVec.toNat_setWidth, UInt16.toNat_toBitVec, UInt8.toNat_toUInt16]
  exact Nat.mod_eq_of_lt (by omega)

/-- A word is converted as a number without sign. -/
def vcvtqF32U32 (v : Vec 4 (BitVec 32)) : Vec 4 F := fun i => ofNat (v i).toNat

/-- A negative count shifts to the right. -/
def vshlqU32 (v : Vec 4 (BitVec 32)) (counts : Vec 4 ℤ) : Vec 4 (BitVec 32) := fun i =>
  if counts i < 0 then v i >>> (-counts i).toNat else v i <<< (counts i).toNat

def vmulqNU32 (v : Vec 4 (BitVec 32)) (x : BitVec 32) : Vec 4 (BitVec 32) := fun i => v i * x
def vaddqU32 (a b : Vec 4 (BitVec 32)) : Vec 4 (BitVec 32) := fun i => a i + b i

/-- The bytes of four words, little-endian. -/
def vreinterpretqU8U32 (v : Vec 4 (BitVec 32)) : Vec 16 UInt8 := fun i =>
  UInt8.ofNat ((v ⟨i / 4, by omega⟩).toNat / 256 ^ (i.val % 4))

theorem vreinterpretqU8U32_byte (v : Vec 4 (BitVec 32)) (i : Fin 4) {k : ℕ} (hk : k < 4) :
    vreinterpretqU8U32 v ⟨4 * i + k, by omega⟩ = UInt8.ofNat ((v i).toNat / 256 ^ k) := by
  have hdiv : (4 * i.val + k) / 4 = i := by omega
  have hmod : (4 * i.val + k) % 4 = k := by omega
  have hfin : (⟨(4 * i.val + k) / 4, by omega⟩ : Fin 4) = i := Fin.ext hdiv
  unfold vreinterpretqU8U32
  dsimp only
  rw [hfin, hmod]

/-- The words of sixteen bytes, little-endian. -/
def word (v : Vec 16 UInt8) (i : Fin 4) : UInt32 :=
  UInt32.ofNat ((v ⟨4 * i, by omega⟩).toNat + 256 * ((v ⟨4 * i + 1, by omega⟩).toNat +
    256 * ((v ⟨4 * i + 2, by omega⟩).toNat + 256 * (v ⟨4 * i + 3, by omega⟩).toNat)))

/-- Bytes are looked up in a table; an index past its end gives zero. -/
def vqtbl4qU8 (table : Vec 64 UInt8) (idx : Vec 16 UInt8) : Vec 16 UInt8 := fun i =>
  if h : (idx i).toNat < 64 then table ⟨(idx i).toNat, h⟩ else 0

/-- A looked-up word depends on the indices in its own lane. -/
theorem word_lane (table : Vec 64 UInt8) (v : Vec 4 (BitVec 32)) (i : Fin 4) :
    word (vqtbl4qU8 table (vreinterpretqU8U32 v)) i =
      word (vqtbl4qU8 table (vreinterpretqU8U32 fun _ => v i)) 0 := by
  have hbyte : ∀ k (hk : k < 4), vqtbl4qU8 table (vreinterpretqU8U32 v) ⟨4 * i + k, by omega⟩ =
      vqtbl4qU8 table (vreinterpretqU8U32 fun _ => v i)
        ⟨4 * (0 : Fin 4) + k, by rw [Fin.val_zero]; omega⟩ := by
    intro k hk
    unfold vqtbl4qU8
    rw [vreinterpretqU8U32_byte v i hk, vreinterpretqU8U32_byte _ 0 hk]
  unfold word
  rw [← hbyte 1 (by decide), ← hbyte 2 (by decide), ← hbyte 3 (by decide)]
  have hzero := hbyte 0 (by decide)
  rw [show vqtbl4qU8 table (vreinterpretqU8U32 v) ⟨4 * i, by omega⟩ = _ from hzero]
  rfl

/-- `a + b · c`. -/
def vfmaqF32 (a b c : Vec 4 F) : Vec 4 F := fun i => Fused.fma (b i) (c i) (a i)

/-- Neighbouring lanes are added, then their sums. -/
def vaddvqF32 (v : Vec 4 F) : F := (v 0 + v 1) + (v 2 + v 3)

end Neon

/-- A loop whose body may leave an array. -/
def loop {α : Type} (n : ℕ) (body : ℕ → α → Option α) (acc : α) : Option α :=
  (List.range n).foldlM (fun acc g => body g acc) acc

theorem toInt_widened (b : UInt8) : (b.toBitVec.setWidth 32).toInt = b.toNat := by
  have hlt := b.toNat_lt
  have hnat : (b.toBitVec.setWidth 32).toNat = b.toNat := by
    rw [BitVec.toNat_setWidth]
    exact Nat.mod_eq_of_lt (by show b.toNat < _; omega)
  rw [BitVec.toInt_eq_toNat_of_lt (by rw [hnat]; omega), hnat]

theorem cvtepi32Ps_widened {lanes : ℕ} (h : lanes ≤ 16) (v : Vec 16 UInt8) (i : Fin lanes) :
    cvtepi32Ps (cvtepu8Epi32 lanes h v) i = ((v ⟨i, by omega⟩).toNat : ℚ) := by
  unfold cvtepi32Ps cvtepu8Epi32
  rw [toInt_widened]
  show (((v ⟨i, by omega⟩).toNat : ℤ) : ℚ) = _
  exact Int.cast_natCast _

theorem toNat_field (w : BitVec 32) (k bits : ℕ) (hbits : 2 ^ bits - 1 < 2 ^ 32) :
    ((w >>> k) &&& BitVec.ofNat 32 (2 ^ bits - 1)).toNat = w.toNat / 2 ^ k % 2 ^ bits := by
  rw [BitVec.toNat_and, BitVec.toNat_ushiftRight, BitVec.toNat_ofNat, Nat.mod_eq_of_lt hbits,
    Nat.and_two_pow_sub_one_eq_mod, Nat.shiftRight_eq_div_pow]

/-- Shifting left by a count that is not positive shifts to the right. -/
theorem vshlqU32_neg (w : BitVec 32) (counts : Vec 4 ℤ) (i : Fin 4) {k : ℕ}
    (h : counts i = -(k : ℤ)) : vshlqU32 (set1 w) counts i = w >>> k := by
  unfold vshlqU32 set1
  rw [h]
  by_cases hk : k = 0
  · rw [hk]
    exact (BitVec.shiftLeft_zero w).trans (BitVec.ushiftRight_zero w).symm
  · rw [if_pos (by omega), neg_neg, Int.toNat_natCast]

section Totals
open Finset

/-- The sum of the lanes. -/
def total {n : ℕ} (v : Vec n ℚ) : ℚ := ∑ i, v i

theorem sumLanes_eq {n : ℕ} (v : Vec n ℚ) : sumLanes v = total v := by
  have hfold : ∀ (l : List (Fin n)) (s : ℚ),
      l.foldl (fun s i => s + v i) s = s + (l.map v).sum := by
    intro l
    induction l with
    | nil => exact fun s => (add_zero s).symm
    | cons i l ih =>
        intro s
        rw [List.foldl_cons, ih, List.map_cons, List.sum_cons, add_assoc]
  unfold sumLanes total
  rw [hfold, ← List.ofFn_eq_map, List.sum_ofFn]
  exact zero_add _

theorem reduceAdd_eq (k : ℕ) (v : ℕ → ℚ) : reduceAdd k v = ∑ i ∈ range (2 ^ k), v i := by
  induction k generalizing v with
  | zero => simp [reduceAdd]
  | succ k ih =>
      unfold reduceAdd
      rw [ih, sum_add_distrib, pow_succ, mul_two, sum_range_add]
      congr 1
      exact sum_congr rfl fun i _ => by rw [add_comm]

theorem reduceAddPs_eq (v : Vec 16 ℚ) : reduceAddPs v = total v := by
  unfold reduceAddPs total
  rw [reduceAdd_eq]
  apply (sum_range _).trans
  exact sum_congr rfl fun i _ => dif_pos i.isLt

theorem vaddvqF32_eq (v : Vec 4 ℚ) : vaddvqF32 v = total v := by
  unfold vaddvqF32 total
  rw [Fin.sum_univ_four]
  ring

theorem total_zext (v : Vec 8 ℚ) : total (zextps256Ps512 v) = total v := by
  have hzero : (Single.lit 0 : ℚ) = 0 := rfl
  simp [total, zextps256Ps512, Fin.sum_univ_succ, hzero]

/-- A step that stays within its arrays and adds a number to the sum of the lanes. -/
def Adds {n : ℕ} (step : Vec n ℚ → Option (Vec n ℚ)) (x : ℚ) : Prop :=
  ∀ acc, ∃ acc', step acc = some acc' ∧ total acc' = total acc + x

variable {n : ℕ} {step step' : Vec n ℚ → Option (Vec n ℚ)} {x y : ℚ}

theorem Adds.bind (h : Adds step x) (h' : Adds step' y) :
    Adds (fun acc => step acc >>= step') (x + y) := by
  intro acc
  obtain ⟨acc1, h1, hx⟩ := h acc
  obtain ⟨acc2, h2, hy⟩ := h' acc1
  refine ⟨acc2, ?_, ?_⟩
  · dsimp only
    rw [h1]
    exact h2
  · rw [hy, hx, add_assoc]

theorem Adds.loop {body : ℕ → Vec n ℚ → Option (Vec n ℚ)} {f : ℕ → ℚ} {k : ℕ}
    (h : ∀ g < k, Adds (body g) (f g)) : Adds (loop k body) (∑ g ∈ range k, f g) := by
  unfold VectorRegisters.loop
  induction k with
  | zero =>
      intro acc
      exact ⟨acc, rfl, by rw [range_zero, sum_empty, add_zero]⟩
  | succ k ih =>
      intro acc
      obtain ⟨acc1, h1, hx⟩ := ih (fun g hg => h g (Nat.lt_succ_of_lt hg)) acc
      obtain ⟨acc2, h2, hy⟩ := h k (Nat.lt_succ_self k) acc1
      refine ⟨acc2, ?_, ?_⟩
      · dsimp only at h1 ⊢
        rw [List.range_succ, List.foldlM_append, h1]
        exact (congrArg (· >>= pure) h2).trans rfl
      · rw [hy, hx, sum_range_succ, add_assoc]

end Totals

end SlhaV2.VectorRegisters
