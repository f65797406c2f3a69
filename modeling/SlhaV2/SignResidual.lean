import Mathlib.Algebra.BigOperators.Group.Finset.Basic
import Mathlib.Algebra.BigOperators.Ring.Finset
import Mathlib.Algebra.Order.Ring.Defs
import SlhaV2.VectorScores

/-!
# The one-bit residual

A vector is kept as the signs of its projections on hyperplanes, packed 64 to a word. Two
vectors are compared by the set bits of the difference of their words, and the bits behind the
last hyperplane are zero in both.
-/
namespace SlhaV2.SignResidual
open TileCodec SlhaTile LatentCodecs
open VectorKernels (Host hammingDistance)

/-- The hyperplanes are the rows of `z`, which a seed chooses. -/
structure BinaryResidual (R : Type) where
  z : List R
  nBits : ℕ
  d : ℕ

section Exact
variable {R : Type} [CommRing R] [LinearOrder R] (r : BinaryResidual R)

def BinaryResidual.projection (v : List R) (i : ℕ) : R :=
  (List.range r.d).foldl (fun acc j => acc + r.z.getD (i * r.d + j) 0 * v.getD j 0) 0

def BinaryResidual.project (v : List R) : List R := (List.range r.nBits).map (r.projection v)

/-- `usize::div_ceil`. -/
def words (nBits : ℕ) : ℕ := (nBits + 63) / 64

/-- Setting the bit of a negative projection. -/
def setSign (p : List R) (out : List UInt64) (i : ℕ) : List UInt64 :=
  if p.getD i 0 < 0 then
    out.set (i >>> 6) (out.getD (i >>> 6) 0 ||| (1 <<< UInt64.ofNat (i &&& 63)))
  else out

def BinaryResidual.encode (v : List R) : List UInt64 :=
  (List.range r.nBits).foldl (setSign (r.project v)) (List.replicate (words r.nBits) 0)

def countOnes (x : UInt64) : ℕ := x.toBitVec.cpop.toNat

/-- Words that are missing are read as zero. -/
def BinaryResidual.hamming (a b : List UInt64) : ℕ :=
  (List.range (words r.nBits)).foldl (fun h w => h + countOnes (a.getD w 0 ^^^ b.getD w 0)) 0

def BinaryResidual.dotEstimate (a b : List UInt64) : R :=
  (r.nBits : R) - ((2 * r.hamming a b : ℕ) : R)

/-- The host chooses between the kernels of the tile. -/
def binaryDotViaTileKernel (host : Host) (a b : Words residualWords) : R :=
  (dS : R) - ((2 * hammingDistance host a b : ℕ) : R)

def signBit (v : List R) (i : ℕ) : Bool := decide (r.projection v i < 0)

theorem getLsbD_setBit (x : UInt64) {j k : ℕ} (hj : j < 64) (hk : k < 64) :
    (x ||| (1 <<< UInt64.ofNat j)).toBitVec.getLsbD k =
      (x.toBitVec.getLsbD k || decide (k = j)) := by
  have hshift : (UInt64.ofNat j).toNat % 64 = j := by
    rw [UInt64.toNat_ofNat']
    omega
  have hone : ((1 : UInt64) <<< UInt64.ofNat j).toBitVec.getLsbD k = decide (k = j) := by
    change ((1 : UInt64) <<< UInt64.ofNat j).toNat.testBit k = decide (k = j)
    rw [UInt64.toNat_shiftLeft, hshift, Nat.testBit_mod_two_pow, Nat.testBit_shiftLeft]
    by_cases hkj : k = j
    · subst hkj
      simp [hk]
    · have hzero : (1 : ℕ).testBit (k - j) = false ∨ ¬ j ≤ k := by
        by_cases hle : j ≤ k
        · exact .inl (Nat.testBit_lt_two_pow (Nat.one_lt_two_pow (by omega)))
        · exact .inr hle
      change (decide (k < 64) && (decide (k ≥ j) && (1 : ℕ).testBit (k - j))) = decide (k = j)
      rcases hzero with hzero | hlt
      · rw [hzero]
        simp [hkj]
      · simp [hlt, hkj]
  rw [UInt64.toBitVec_or, BitVec.getLsbD_or, hone]

theorem countOnes_eq_sum (x : UInt64) :
    countOnes x = ∑ k ∈ Finset.range 64, (x.toBitVec.getLsbD k).toNat := by
  have hrec : ∀ n, x.toBitVec.cpopNatRec n 0 =
      ∑ k ∈ Finset.range n, (x.toBitVec.getLsbD k).toNat := by
    intro n
    induction n with
    | zero => rfl
    | succ n ih =>
        rw [BitVec.cpopNatRec_succ, BitVec.cpopNatRec_eq, ih, Finset.sum_range_succ,
          Nat.zero_add]
  have hle := @BitVec.cpopNatRec_le 64 0 x.toBitVec 64
  unfold countOnes BitVec.cpop
  rw [BitVec.toNat_ofNat, Nat.mod_eq_of_lt (by omega), hrec]

/-- After `n` hyperplanes their signs are packed and every other bit is zero. -/
theorem encode_bits (v : List R) (n : ℕ) (hn : n ≤ r.nBits) :
    ((List.range n).foldl (setSign (r.project v))
        (List.replicate (words r.nBits) 0)).length = words r.nBits ∧
    ∀ w < words r.nBits, ∀ k < 64,
      (((List.range n).foldl (setSign (r.project v))
        (List.replicate (words r.nBits) 0)).getD w 0).toBitVec.getLsbD k =
        (decide (64 * w + k < n) && signBit r v (64 * w + k)) := by
  induction n with
  | zero =>
      constructor
      · exact List.length_replicate
      · intro w hw k hk
        change ((List.replicate (words r.nBits) (0 : UInt64)).getD w 0).toBitVec.getLsbD k = _
        rw [List.getD_eq_getElem?_getD, List.getElem?_replicate_of_lt hw]
        simp
  | succ n ih =>
      have ih := ih (by omega)
      rw [List.range_succ, List.foldl_append]
      generalize (List.range n).foldl (setSign (r.project v))
        (List.replicate (words r.nBits) 0) = out at ih ⊢
      change (setSign (r.project v) out n).length = _ ∧ ∀ w < words r.nBits, ∀ k < 64,
        ((setSign (r.project v) out n).getD w 0).toBitVec.getLsbD k = _
      have hproject : (r.project v).getD n 0 = r.projection v n := by
        unfold BinaryResidual.project
        rw [List.getD_eq_getElem?_getD, List.getElem?_map, List.getElem?_range (by omega)]
        rfl
      have hword : n >>> 6 = n / 64 := Nat.shiftRight_eq_div_pow n 6
      have hbit : n &&& 63 = n % 64 := Nat.and_two_pow_sub_one_eq_mod n 6
      have hin : n / 64 < words r.nBits := by
        unfold words
        omega
      unfold setSign
      rw [hproject, hword, hbit]
      by_cases hneg : r.projection v n < 0
      · rw [if_pos hneg]
        constructor
        · rw [List.length_set]
          exact ih.1
        · intro w hw k hk
          by_cases hsame : w = n / 64
          · subst hsame
            rw [List.getD_eq_getElem?_getD, List.getElem?_set_self (ih.1 ▸ hin),
              Option.getD_some, getLsbD_setBit _ (Nat.mod_lt n (by decide)) hk, ih.2 _ hin k hk]
            by_cases hlast : k = n % 64
            · have hindex : 64 * (n / 64) + k = n := by omega
              rw [hindex]
              unfold signBit
              simp [hneg, hlast]
            · have hindex : decide (64 * (n / 64) + k < n + 1) =
                  decide (64 * (n / 64) + k < n) := by
                apply decide_eq_decide.mpr
                omega
              rw [hindex, decide_eq_false hlast, Bool.or_false]
          · have hindex : decide (64 * w + k < n + 1) = decide (64 * w + k < n) := by
              apply decide_eq_decide.mpr
              omega
            rw [List.getD_eq_getElem?_getD, List.getElem?_set_ne (Ne.symm hsame),
              ← List.getD_eq_getElem?_getD, ih.2 w hw k hk, hindex]
      · rw [if_neg hneg]
        refine ⟨ih.1, ?_⟩
        intro w hw k hk
        rw [ih.2 w hw k hk]
        by_cases hlast : 64 * w + k = n
        · rw [hlast]
          unfold signBit
          simp [hneg]
        · have hindex : decide (64 * w + k < n + 1) = decide (64 * w + k < n) := by
            apply decide_eq_decide.mpr
            omega
          rw [hindex]

theorem length_encode (v : List R) : (r.encode v).length = words r.nBits :=
  (encode_bits r v r.nBits (Nat.le_refl _)).1

theorem getLsbD_encode (v : List R) {w k : ℕ} (hw : w < words r.nBits) (hk : k < 64) :
    ((r.encode v).getD w 0).toBitVec.getLsbD k =
      (decide (64 * w + k < r.nBits) && signBit r v (64 * w + k)) :=
  (encode_bits r v r.nBits (Nat.le_refl _)).2 w hw k hk

/-- Whether the vectors lie on different sides of a hyperplane, and zero behind the last. -/
def differs (a b : List R) (i : ℕ) : ℕ :=
  (decide (i < r.nBits) && (signBit r a i != signBit r b i)).toNat

theorem countOnes_encode (a b : List R) {w : ℕ} (hw : w < words r.nBits) :
    countOnes ((r.encode a).getD w 0 ^^^ (r.encode b).getD w 0) =
      ∑ k ∈ Finset.range 64, differs r a b (64 * w + k) := by
  rw [countOnes_eq_sum]
  apply Finset.sum_congr rfl
  intro k hk
  have hk := Finset.mem_range.mp hk
  rw [UInt64.toBitVec_xor, BitVec.getLsbD_xor, getLsbD_encode r a hw hk,
    getLsbD_encode r b hw hk]
  unfold differs
  by_cases hin : 64 * w + k < r.nBits
  · simp [hin]
  · simp [hin]

/-- The count of a run of words is that of their bits. -/
theorem hamming_words (a b : List R) (n : ℕ) (hn : n ≤ words r.nBits) :
    (List.range n).foldl (fun h w =>
      h + countOnes ((r.encode a).getD w 0 ^^^ (r.encode b).getD w 0)) 0 =
      ∑ i ∈ Finset.range (64 * n), differs r a b i := by
  induction n with
  | zero => rfl
  | succ n ih =>
      rw [List.range_succ, List.foldl_append, ih (by omega), Nat.mul_succ, Finset.sum_range_add,
        ← countOnes_encode r a b (by omega)]
      rfl

theorem hamming_encode (a b : List R) :
    r.hamming (r.encode a) (r.encode b) = ∑ i ∈ Finset.range r.nBits, differs r a b i := by
  have hcover : r.nBits ≤ 64 * words r.nBits := by
    unfold words
    omega
  have hwords := hamming_words r a b (words r.nBits) (Nat.le_refl _)
  unfold BinaryResidual.hamming
  rw [hwords]
  symm
  apply Finset.sum_subset (Finset.range_mono hcover)
  intro i _ hi
  unfold differs
  rw [decide_eq_false (by rwa [Finset.mem_range] at hi)]
  rfl

/-- The side of a hyperplane. -/
def side (v : List R) (i : ℕ) : R := if r.projection v i < 0 then -1 else 1

theorem side_mul (a b : List R) {i : ℕ} (hi : i < r.nBits) :
    side r a i * side r b i = 1 - 2 * (differs r a b i : R) := by
  unfold side differs signBit
  rw [decide_eq_true hi]
  by_cases ha : r.projection a i < 0
  · by_cases hb : r.projection b i < 0
    · simp [ha, hb]
    · simp [ha, hb]
      ring
  · by_cases hb : r.projection b i < 0
    · simp [ha, hb]
      ring
    · simp [ha, hb]

theorem dotEstimate_encode (a b : List R) :
    r.dotEstimate (r.encode a) (r.encode b) =
      ∑ i ∈ Finset.range r.nBits, side r a i * side r b i := by
  calc r.dotEstimate (r.encode a) (r.encode b)
      = (r.nBits : R) - 2 * ∑ i ∈ Finset.range r.nBits, (differs r a b i : R) := by
        unfold BinaryResidual.dotEstimate
        rw [hamming_encode, Nat.cast_mul, Nat.cast_sum, Nat.cast_ofNat]
    _ = ∑ i ∈ Finset.range r.nBits, (1 - 2 * (differs r a b i : R)) := by
        rw [Finset.sum_sub_distrib, Finset.sum_const, Finset.card_range, nsmul_eq_mul, mul_one,
          Finset.mul_sum]
    _ = ∑ i ∈ Finset.range r.nBits, side r a i * side r b i := by
        apply Finset.sum_congr rfl
        intro i hi
        exact (side_mul r a b (Finset.mem_range.mp hi)).symm

omit [CommRing R] [LinearOrder R] in
/-- The tile's four words are counted alike. -/
theorem hamming_tile (hbits : r.nBits = dS) (a b : Words residualWords) :
    r.hamming a.1 b.1 = hammingScalar a.1 b.1 := by
  have hwords : words r.nBits = 4 := by
    rw [hbits]
    rfl
  unfold BinaryResidual.hamming
  rw [hwords]
  match a, b with
  | ⟨[a0, a1, a2, a3], _⟩, ⟨[b0, b1, b2, b3], _⟩ =>
      simp [List.range_succ, hammingScalar, countOnes, Nat.add_assoc]

/-- The estimate is the sum over the hyperplanes of the product of the sides, and over as many
hyperplanes as the tile has bits it is the kernel's. The count stays within the number of
hyperplanes. -/
theorem dotEstimate_exact :
    (∀ a b : List R, r.dotEstimate (r.encode a) (r.encode b) =
      ∑ i ∈ Finset.range r.nBits, side r a i * side r b i) ∧
    (r.nBits = dS → (∀ a : List R, (r.encode a).length = residualWords) ∧
      ∀ (host : Host) (wa wb : Words residualWords),
        r.dotEstimate wa.1 wb.1 = binaryDotViaTileKernel host wa wb) ∧
    ∀ a b : List R, r.hamming (r.encode a) (r.encode b) ≤ r.nBits := by
  refine ⟨dotEstimate_encode r, ?_, ?_⟩
  · intro hbits
    constructor
    · intro a
      rw [length_encode, hbits]
      rfl
    · intro host wa wb
      unfold BinaryResidual.dotEstimate binaryDotViaTileKernel
      rw [hamming_tile r hbits, hbits, VectorScores.hammingDistance_eq]
  · intro a b
    rw [hamming_encode]
    calc ∑ i ∈ Finset.range r.nBits, differs r a b i
        ≤ ∑ _i ∈ Finset.range r.nBits, 1 := Finset.sum_le_sum fun i _ => Bool.toNat_le _
      _ = r.nBits := by
        rw [Finset.sum_const, Finset.card_range, smul_eq_mul, mul_one]

end Exact

/-- Residuals of numbers: every hyperplane keeps the sign. -/
def signs : BinaryResidual ℤ := ⟨List.replicate dS 1, dS, 1⟩

theorem signs_tile : (signs.encode [-5]).length = residualWords ∧
    ∀ (host : Host) (wa wb : Words residualWords),
      signs.dotEstimate wa.1 wb.1 = binaryDotViaTileKernel host wa wb := by
  have htile := (dotEstimate_exact signs).2.1 rfl
  exact ⟨htile.1 [-5], htile.2⟩

end SlhaV2.SignResidual
