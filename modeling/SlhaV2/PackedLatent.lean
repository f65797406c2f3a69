import SlhaV2.LatentQuantisers

/-!
# Reading back what a quantiser packs

A latent is looked at as a row of bits, byte after byte from the lowest bit on.
A three-bit code or a correction sign is or-ed into blank bits, a nibble or a
head byte replaces what is there; each is read back as it was written, whatever
is written beside it.
-/
namespace SlhaV2.PackedLatent
open ByteBuffer FloatingPoint SingleFloat TileCodec SlhaTile LatentCodecs LatentQuantisers Single

/-- One bit of a row of bytes; bits past the end are blank. -/
def bitAt (out : List UInt8) (k : ℕ) : Bool := (out.getD (k / 8) 0).toNat.testBit (k % 8)

theorem getD_modify (out : List UInt8) (f : UInt8 → UInt8) {i : ℕ} (hi : i < out.length) (j : ℕ) :
    (out.modify i f).getD j 0 = if i = j then f (out.getD j 0) else out.getD j 0 := by
  rw [List.getD_eq_getElem?_getD, List.getD_eq_getElem?_getD, List.getElem?_modify]
  split_ifs with hij
  · subst hij
    rw [List.getElem?_eq_getElem hi]
    rfl
  · simp

/-- Or-ing into one byte sets the bits of the mask there. -/
theorem bitAt_modify_or (out : List UInt8) {i : ℕ} (hi : i < out.length) (x : UInt8) (k : ℕ) :
    bitAt (out.modify i fun b => b ||| x) k =
      (bitAt out k || (decide (i = k / 8) && x.toNat.testBit (k % 8))) := by
  unfold bitAt
  rw [getD_modify out _ hi]
  split_ifs with hik
  · rw [UInt8.toNat_or, Nat.testBit_or, decide_eq_true hik, Bool.true_and]
  · rw [decide_eq_false hik, Bool.false_and, Bool.or_false]

theorem bitAt_emptyLatent (k : ℕ) : bitAt emptyLatent k = false := by
  have hzero : emptyLatent.getD (k / 8) 0 = 0 := by
    unfold emptyLatent zeros
    rw [List.getD_eq_getElem?_getD, List.getElem?_replicate]
    split_ifs <;> rfl
  unfold bitAt
  rw [hzero]
  exact Nat.zero_testBit _

section ThreeBits
variable {F : Type} [Single F]

/-- The three-bit code of a value in grid steps. -/
def tq3Pack (t : F) : UInt8 := asU8 (clampInt 0 7 (toI32 (round (t + tq3HalfRange))))

/-- The value is above the level of its code. -/
def above (t : F) : Bool := lt (lit 0) (t - (ofNat (tq3Pack t).toNat - tq3HalfRange))

theorem clampInt_le (lo hi q : ℤ) (h : lo ≤ hi) :
    lo ≤ clampInt lo hi q ∧ clampInt lo hi q ≤ hi := by
  unfold clampInt
  omega

theorem asU8_toNat {q : ℤ} (h : q < 256) : (asU8 q).toNat = q.toNat := by
  unfold asU8
  rw [UInt8.toNat_ofNat', Nat.mod_eq_of_lt (by omega)]

theorem tq3Pack_lt (t : F) : (tq3Pack t).toNat < 8 := by
  unfold tq3Pack
  have hrange := clampInt_le 0 7 (toI32 (round (t + tq3HalfRange))) (by decide)
  rw [asU8_toNat (by omega)]
  omega

/-- The bits a code and its sign put into the planes. -/
def tq3Bits (codes corrections ld : ℕ) (t : F) (k : ℕ) : Bool :=
  (decide (8 * codes + 3 * ld ≤ k) && (tq3Pack t).toNat.testBit (k - (8 * codes + 3 * ld))) ||
    (decide (8 * corrections + ld = k) && above t)

/-- A code has three bits. -/
theorem testBit_high {code j : ℕ} (hcode : code < 8) (hj : 3 ≤ j) : code.testBit j = false := by
  have hpow : 2 ^ 3 ≤ 2 ^ j := Nat.pow_le_pow_right (by decide) hj
  exact Nat.testBit_lt_two_pow (hcode.trans_le hpow)

/-- A code in two neighbouring bytes is one run of bits. -/
theorem testBit_code_run {code byte shift k : ℕ} (hcode : code < 8) (hshift : shift < 8) :
    ((decide (byte = k / 8) && (code <<< shift % 256).testBit (k % 8)) ||
      (decide (byte + 1 = k / 8) && (code >>> (8 - shift)).testBit (k % 8))) =
      (decide (8 * byte + shift ≤ k) && code.testBit (k - (8 * byte + shift))) := by
  have hrem : k % 8 < 8 := Nat.mod_lt k (by decide)
  have hlow : (code <<< shift % 256).testBit (k % 8) =
      (decide (shift ≤ k % 8) && code.testBit (k % 8 - shift)) := by
    have hmod : (256 : ℕ) = 2 ^ 8 := rfl
    rw [hmod, Nat.testBit_mod_two_pow, Nat.testBit_shiftLeft]
    simp [hrem]
  rw [hlow, Nat.testBit_shiftRight]
  have hk := Nat.div_add_mod k 8
  rcases Nat.lt_trichotomy (k / 8) byte with hlt | heq | hgt
  · rw [decide_eq_false (by omega : ¬ byte = k / 8),
      decide_eq_false (by omega : ¬ byte + 1 = k / 8),
      decide_eq_false (by omega : ¬ 8 * byte + shift ≤ k)]
    rfl
  · rw [decide_eq_true heq.symm, decide_eq_false (by omega : ¬ byte + 1 = k / 8)]
    have hsub : k - (8 * byte + shift) = k % 8 - shift := by omega
    have hle : decide (8 * byte + shift ≤ k) = decide (shift ≤ k % 8) :=
      decide_eq_decide.mpr (by omega)
    rw [hsub, hle, Bool.true_and, Bool.false_and, Bool.or_false]
  · rw [decide_eq_false (by omega : ¬ byte = k / 8), Bool.false_and, Bool.false_or,
      decide_eq_true (by omega : 8 * byte + shift ≤ k), Bool.true_and]
    by_cases hnext : byte + 1 = k / 8
    · have hsub : k - (8 * byte + shift) = 8 - shift + k % 8 := by omega
      rw [decide_eq_true hnext, Bool.true_and, hsub]
    · rw [decide_eq_false hnext, Bool.false_and, testBit_high hcode (by omega)]

theorem toNat_shiftLeft_ofNat (code : UInt8) {shift : ℕ} (h : shift < 8) :
    (code <<< UInt8.ofNat shift).toNat = code.toNat <<< shift % 256 := by
  rw [UInt8.toNat_shiftLeft, UInt8.toNat_ofNat', Nat.mod_eq_of_lt (by omega : shift < 2 ^ 8),
    Nat.mod_eq_of_lt h]

theorem toNat_shiftRight_ofNat (code : UInt8) {shift : ℕ} (h : shift < 8) :
    (code >>> UInt8.ofNat shift).toNat = code.toNat >>> shift := by
  rw [UInt8.toNat_shiftRight, UInt8.toNat_ofNat', Nat.mod_eq_of_lt (by omega : shift < 2 ^ 8),
    Nat.mod_eq_of_lt h]

/-- One set bit of a byte. -/
theorem testBit_sign {ld k corrections : ℕ} :
    (decide (corrections + ld / 8 = k / 8) && ((1 : UInt8) <<< UInt8.ofNat (ld % 8)).toNat.testBit
      (k % 8)) = decide (8 * corrections + ld = k) := by
  have hrem : ld % 8 < 8 := Nat.mod_lt ld (by decide)
  have hpow : (1 : ℕ) <<< (ld % 8) % 256 = 2 ^ (ld % 8) := by
    rw [Nat.one_shiftLeft]
    exact Nat.mod_eq_of_lt (Nat.pow_lt_pow_right (by decide) hrem)
  rw [toNat_shiftLeft_ofNat _ hrem]
  change (_ && ((1 : ℕ) <<< (ld % 8) % 256).testBit (k % 8)) = _
  rw [hpow, Nat.testBit_two_pow, ← Bool.decide_and]
  exact decide_eq_decide.mpr (by omega)

/-- A code or-ed into at most two bytes. -/
def putCode (codes : ℕ) (out : List UInt8) (ld : ℕ) (code : UInt8) : List UInt8 :=
  let out := out.modify (codes + 3 * ld / 8) fun b => b ||| (code <<< UInt8.ofNat (3 * ld % 8))
  if 5 < 3 * ld % 8 then
    out.modify (codes + 3 * ld / 8 + 1) fun b => b ||| (code >>> UInt8.ofNat (8 - 3 * ld % 8))
  else out

theorem putTq3_eq (codes corrections : ℕ) (out : List UInt8) (ld : ℕ) (t : F) :
    putTq3 codes corrections out ld t =
      if above t then (putCode codes out ld (tq3Pack t)).modify (corrections + ld / 8) fun b =>
        b ||| (1 <<< UInt8.ofNat (ld % 8))
      else putCode codes out ld (tq3Pack t) := by
  have hshift : (3 * ld) &&& 7 = 3 * ld % 8 := Nat.and_two_pow_sub_one_eq_mod _ 3
  have hbyte : (3 * ld) >>> 3 = 3 * ld / 8 := Nat.shiftRight_eq_div_pow _ 3
  have hsign : ld &&& 7 = ld % 8 := Nat.and_two_pow_sub_one_eq_mod _ 3
  have hplane : ld >>> 3 = ld / 8 := Nat.shiftRight_eq_div_pow _ 3
  unfold putTq3
  dsimp only
  rw [hshift, hbyte, hsign, hplane]
  rfl

theorem length_putCode (codes : ℕ) (out : List UInt8) (ld : ℕ) (code : UInt8) :
    (putCode codes out ld code).length = out.length := by
  unfold putCode
  dsimp only
  split_ifs <;> simp only [List.length_modify]

theorem bitAt_putCode {codes ld : ℕ} {out : List UInt8} {code : UInt8} (hlt : code.toNat < 8)
    (hcode : codes + (3 * ld + 2) / 8 < out.length) (k : ℕ) :
    bitAt (putCode codes out ld code) k = (bitAt out k ||
      (decide (8 * codes + 3 * ld ≤ k) && code.toNat.testBit (k - (8 * codes + 3 * ld)))) := by
  have hmod : 3 * ld % 8 < 8 := Nat.mod_lt _ (by decide)
  have hbase : 8 * (codes + 3 * ld / 8) + 3 * ld % 8 = 8 * codes + 3 * ld := by omega
  have hrun := @testBit_code_run code.toNat (codes + 3 * ld / 8) (3 * ld % 8) k hlt hmod
  rw [hbase] at hrun
  rw [← hrun, ← Bool.or_assoc]
  unfold putCode
  dsimp only
  split_ifs with hspill
  · rw [bitAt_modify_or _ (by rw [List.length_modify]; omega), bitAt_modify_or _ (by omega),
      toNat_shiftLeft_ofNat _ hmod, toNat_shiftRight_ofNat _ (by omega)]
  · -- the code ends inside its first byte
    have hzero : code.toNat >>> (8 - 3 * ld % 8) = 0 := by
      rw [Nat.shiftRight_eq_div_pow, Nat.div_eq_zero_iff]
      right
      have hpow : 2 ^ 3 ≤ 2 ^ (8 - 3 * ld % 8) := Nat.pow_le_pow_right (by decide) (by omega)
      omega
    rw [bitAt_modify_or _ (by omega), toNat_shiftLeft_ofNat _ hmod, hzero, Nat.zero_testBit,
      Bool.and_false, Bool.or_false]

/-- Storing a code or-s its bits and its sign into the planes. -/
theorem bitAt_putTq3 {codes corrections ld : ℕ} {out : List UInt8} (t : F)
    (hcode : codes + (3 * ld + 2) / 8 < out.length) (hcorr : corrections + ld / 8 < out.length)
    (k : ℕ) : bitAt (putTq3 codes corrections out ld t) k =
      (bitAt out k || tq3Bits codes corrections ld t k) := by
  have hbits := @bitAt_putCode codes ld out (tq3Pack t) (tq3Pack_lt t) hcode k
  rw [putTq3_eq]
  unfold tq3Bits
  split_ifs with habove
  · rw [bitAt_modify_or _ (by rw [length_putCode]; exact hcorr), hbits, testBit_sign, habove,
      Bool.and_true, Bool.or_assoc]
  · rw [hbits, Bool.eq_false_iff.mpr habove, Bool.and_false, Bool.or_false]

/-- The bits of both planes after any number of codes. -/
theorem bitAt_foldl_putTq3 {codes corrections n : ℕ} {out : List UInt8} (t : ℕ → F)
    (hcode : codes + (3 * n + 7) / 8 ≤ out.length) (hcorr : corrections + (n + 7) / 8 ≤ out.length)
    (k : ℕ) :
    bitAt ((List.range n).foldl (fun out ld => putTq3 codes corrections out ld (t ld)) out) k =
      (bitAt out k || (List.range n).any fun ld => tq3Bits codes corrections ld (t ld) k) := by
  induction n with
  | zero => simp
  | succ n ih =>
      have hlen : ((List.range n).foldl
          (fun out ld => putTq3 codes corrections out ld (t ld)) out).length = out.length :=
        length_foldl_update (fun out ld => length_putTq3 codes corrections out ld (t ld)) _ _
      rw [List.range_succ, List.foldl_append, List.any_append]
      simp only [List.foldl_cons, List.foldl_nil, List.any_cons, List.any_nil, Bool.or_false]
      rw [bitAt_putTq3 _ (by omega) (by omega), ih (by omega) (by omega), Bool.or_assoc]

/-- A code is what its three bits say. -/
theorem tq3Code_of_bits {out : List UInt8} {off bit limit code : ℕ} (hcode : code < 8)
    (hbits : ∀ j < 3, bitAt out (8 * off + bit + j) = code.testBit j)
    (hlimit : 5 < bit % 8 → off + bit / 8 + 1 < limit) :
    tq3Code (out.getD (off + bit / 8) 0).toNat
      (if off + bit / 8 + 1 < limit then (out.getD (off + bit / 8 + 1) 0).toNat <<< 8 else 0)
      (bit % 8) = code := by
  have hmod : bit % 8 < 8 := Nat.mod_lt _ (by decide)
  have hseven : (7 : ℕ) = 2 ^ 3 - 1 := rfl
  unfold tq3Code
  rw [hseven, Nat.and_two_pow_sub_one_eq_mod]
  apply Nat.eq_of_testBit_eq
  intro j
  rw [Nat.testBit_mod_two_pow, Nat.testBit_shiftRight, Nat.testBit_or]
  by_cases hj : j < 3
  · rw [decide_eq_true hj, Bool.true_and, ← hbits j hj]
    unfold bitAt
    by_cases hin : bit % 8 + j < 8
    · have hdiv : (8 * off + bit + j) / 8 = off + bit / 8 := by omega
      have hrem : (8 * off + bit + j) % 8 = bit % 8 + j := by omega
      have hhigh : (if off + bit / 8 + 1 < limit then
          (out.getD (off + bit / 8 + 1) 0).toNat <<< 8 else 0).testBit (bit % 8 + j) = false := by
        split_ifs
        · rw [Nat.testBit_shiftLeft, decide_eq_false (by omega), Bool.false_and]
        · exact Nat.zero_testBit _
      rw [hhigh, Bool.or_false, hdiv, hrem]
    · have hdiv : (8 * off + bit + j) / 8 = off + bit / 8 + 1 := by omega
      have hrem : (8 * off + bit + j) % 8 = bit % 8 + j - 8 := by omega
      have hlow : (out.getD (off + bit / 8) 0).toNat.testBit (bit % 8 + j) = false := by
        have hbyte := (out.getD (off + bit / 8) 0).toNat_lt
        have hpow : 2 ^ 8 ≤ 2 ^ (bit % 8 + j) := Nat.pow_le_pow_right (by decide) (by omega)
        exact Nat.testBit_lt_two_pow (hbyte.trans_le hpow)
      rw [hlow, Bool.false_or, if_pos (hlimit (by omega)), Nat.testBit_shiftLeft,
        decide_eq_true (by omega), Bool.true_and, hdiv, hrem]
  · rw [decide_eq_false hj, Bool.false_and, testBit_high hcode (by omega)]

theorem corr_of_bit (out : List UInt8) (off ld : ℕ) :
    ((out.getD (off + ld / 8) 0).toNat >>> (ld % 8)) &&& 1 =
      if bitAt out (8 * off + ld) then 1 else 0 := by
  have hdiv : (8 * off + ld) / 8 = off + ld / 8 := by omega
  have hrem : (8 * off + ld) % 8 = ld % 8 := by omega
  unfold bitAt
  rw [hdiv, hrem, Nat.and_one_is_mod, Nat.shiftRight_eq_div_pow, ← Nat.toNat_testBit]
  cases (out.getD (off + ld / 8) 0).toNat.testBit (ld % 8) <;> rfl

/-- A test that only one index of a range can pass. -/
theorem any_range_only {n k : ℕ} (hk : k < n) {f : ℕ → Bool} {b : Bool}
    (h : ∀ i < n, f i = (decide (i = k) && b)) : (List.range n).any f = b := by
  rw [Bool.eq_iff_iff, List.any_eq_true]
  constructor
  · intro hex
    obtain ⟨i, hi, hf⟩ := hex
    rw [h i (List.mem_range.mp hi), Bool.and_eq_true] at hf
    exact hf.2
  · intro hb
    refine ⟨k, List.mem_range.mpr hk, ?_⟩
    rw [h k hk, hb, decide_eq_true rfl]
    rfl

/-- The planes of `n` codes stored into blank bits give back every code and every sign. -/
theorem planes_read {codes corrections n : ℕ} {out : List UInt8} (t : ℕ → F)
    (hplanes : 8 * codes + 3 * n ≤ 8 * corrections)
    (hcode : codes + (3 * n + 7) / 8 ≤ out.length) (hcorr : corrections + (n + 7) / 8 ≤ out.length)
    (hblank : ∀ k, 8 * codes ≤ k → bitAt out k = false) {ld : ℕ} (hld : ld < n) :
    (∀ j < 3, bitAt ((List.range n).foldl
        (fun out ld => putTq3 codes corrections out ld (t ld)) out) (8 * codes + 3 * ld + j) =
          (tq3Pack (t ld)).toNat.testBit j) ∧
      bitAt ((List.range n).foldl
        (fun out ld => putTq3 codes corrections out ld (t ld)) out) (8 * corrections + ld) =
          above (t ld) := by
  constructor
  · intro j hj
    rw [bitAt_foldl_putTq3 t hcode hcorr, hblank _ (by omega), Bool.false_or]
    apply any_range_only hld
    intro i _
    unfold tq3Bits
    rw [decide_eq_false (by omega : ¬ 8 * corrections + i = 8 * codes + 3 * ld + j),
      Bool.false_and, Bool.or_false]
    rcases Nat.lt_trichotomy i ld with hlt | heq | hgt
    · rw [decide_eq_false (by omega : ¬ i = ld), testBit_high (tq3Pack_lt _) (by omega),
        Bool.and_false, Bool.false_and]
    · have hsub : 8 * codes + 3 * ld + j - (8 * codes + 3 * ld) = j := by omega
      rw [heq, decide_eq_true rfl, decide_eq_true (by omega), hsub]
    · rw [decide_eq_false (by omega : ¬ i = ld), decide_eq_false (by omega), Bool.false_and]
      rfl
  · rw [bitAt_foldl_putTq3 t hcode hcorr, hblank _ (by omega), Bool.false_or]
    apply any_range_only hld
    intro i hi
    unfold tq3Bits
    rw [testBit_high (tq3Pack_lt _) (by omega), Bool.and_false, Bool.false_or]
    by_cases heq : i = ld
    · rw [heq, decide_eq_true rfl, decide_eq_true rfl]
    · rw [decide_eq_false heq, decide_eq_false (by omega), Bool.false_and]
      rfl

end ThreeBits

section Nibbles

theorem low_written : ∀ b < 256, ∀ n < 16, (b &&& 240) ||| n = 16 * (b / 16) + n := by
  decide +kernel

theorem high_written : ∀ b < 256, ∀ n < 16, (b &&& 15) ||| (n <<< 4 % 256) = b % 16 + 16 * n := by
  decide +kernel

theorem nibble_eq (byte : UInt8) (d : ℕ) :
    nibble byte d = if d % 2 = 0 then byte.toNat % 16 else byte.toNat / 16 := by
  have hone : d &&& 1 = d % 2 := Nat.and_one_is_mod d
  have hlow : (byte &&& 0x0F).toNat = byte.toNat % 16 := by
    rw [UInt8.toNat_and]
    exact Nat.and_two_pow_sub_one_eq_mod _ 4
  have hhigh : (byte >>> 4).toNat = byte.toNat / 16 := by
    rw [UInt8.toNat_shiftRight]
    exact Nat.shiftRight_eq_div_pow _ 4
  unfold nibble
  rw [hone]
  split_ifs
  · exact hlow
  · exact hhigh

/-- The byte a nibble has been written to. -/
theorem toNat_getD_putNibble {out : List UInt8} {byte : ℕ} (d : ℕ) {nib : UInt8}
    (hnib : nib.toNat < 16) (hbyte : byte < out.length) :
    ((putNibble out byte d nib).getD byte 0).toNat =
      if d % 2 = 0 then 16 * ((out.getD byte 0).toNat / 16) + nib.toNat
      else (out.getD byte 0).toNat % 16 + 16 * nib.toNat := by
  have hone : d &&& 1 = d % 2 := Nat.and_one_is_mod d
  have hb := (out.getD byte 0).toNat_lt
  unfold putNibble
  rw [getD_modify _ _ hbyte, if_pos rfl, hone]
  split_ifs
  · rw [UInt8.toNat_or, UInt8.toNat_and]
    exact low_written _ hb _ hnib
  · rw [UInt8.toNat_or, UInt8.toNat_and, UInt8.toNat_shiftLeft]
    exact high_written _ hb _ hnib

/-- A nibble is read as written, and writing it leaves the others. -/
theorem nibble_putNibble {out : List UInt8} {off d d' : ℕ} {nib : UInt8} (hnib : nib.toNat < 16)
    (hbyte : off + d / 2 < out.length) :
    nibble ((putNibble out (off + d / 2) d nib).getD (off + d' / 2) 0) d' =
      if d' = d then nib.toNat else nibble (out.getD (off + d' / 2) 0) d' := by
  have hwritten := @toNat_getD_putNibble out (off + d / 2) d nib hnib hbyte
  have hb := (out.getD (off + d / 2) 0).toNat_lt
  rw [nibble_eq, nibble_eq]
  by_cases hsame : d' / 2 = d / 2
  · rw [hsame, hwritten]
    by_cases heq : d' = d
    · subst heq
      split_ifs <;> omega
    · split_ifs <;> omega
  · have hne : d' ≠ d := fun heq => hsame (by rw [heq])
    have hother : (putNibble out (off + d / 2) d nib).getD (off + d' / 2) 0 =
        out.getD (off + d' / 2) 0 := by
      unfold putNibble
      rw [getD_modify _ _ hbyte, if_neg (by omega)]
    rw [hother, if_neg hne]

/-- After any number of nibbles each of them is read back. -/
theorem nibble_foldl {off n : ℕ} {out : List UInt8} (nib : ℕ → UInt8)
    (hnib : ∀ d, (nib d).toNat < 16) (hlen : off + (n + 1) / 2 ≤ out.length) {d : ℕ} (hd : d < n) :
    nibble (((List.range n).foldl (fun out d => putNibble out (off + d / 2) d (nib d)) out).getD
      (off + d / 2) 0) d = (nib d).toNat := by
  induction n with
  | zero => exact absurd hd (Nat.not_lt_zero d)
  | succ n ih =>
      have hlength : ((List.range n).foldl
          (fun out d => putNibble out (off + d / 2) d (nib d)) out).length = out.length :=
        length_foldl_update (fun out d => length_putNibble out (off + d / 2) d (nib d)) _ _
      rw [List.range_succ, List.foldl_append, List.foldl_cons, List.foldl_nil,
        nibble_putNibble (hnib n) (by omega)]
      split_ifs with heq
      · rw [heq]
      · exact ih (by omega) (by omega)

theorem getD_putNibble_below {out : List UInt8} {byte d : ℕ} {nib : UInt8} {i : ℕ} (h : i < byte) :
    (putNibble out byte d nib).getD i 0 = out.getD i 0 := by
  unfold putNibble
  rw [List.getD_eq_getElem?_getD, List.getD_eq_getElem?_getD,
    List.getElem?_modify_ne _ _ (by omega)]

end Nibbles

section Heads
variable {F : Type} [Single F]

theorem getD_set (out : List UInt8) {i : ℕ} (hi : i < out.length) (b : UInt8) (j : ℕ) :
    (out.set i b).getD j 0 = if i = j then b else out.getD j 0 := by
  rw [List.getD_eq_getElem?_getD, List.getD_eq_getElem?_getD, List.getElem?_set]
  split_ifs
  · rfl
  · rfl

/-- The head bytes are those of the first dimensions. -/
theorem getD_putHead (v : Latent F) (eff : F) {out : List UInt8}
    (hlen : mixedHiDims ≤ out.length) (j : ℕ) : (putHead v eff out).getD j 0 =
      if j < mixedHiDims then headByte (at128 v j / eff) else out.getD j 0 := by
  have hstep : ∀ n ≤ mixedHiDims, ((List.range n).foldl
      (fun out d => out.set d (headByte (at128 v d / eff))) out).getD j 0 =
        if j < n then headByte (at128 v j / eff) else out.getD j 0 := by
    intro n hn
    induction n with
    | zero => rfl
    | succ n ih =>
        have hlength : ((List.range n).foldl
            (fun out d => out.set d (headByte (at128 v d / eff))) out).length = out.length :=
          length_foldl_update (fun _ _ => List.length_set) _ _
        rw [List.range_succ, List.foldl_append, List.foldl_cons, List.foldl_nil,
          getD_set _ (by omega), ih (by omega)]
        split_ifs <;> first | rfl | omega | (subst_vars; rfl)
  exact hstep mixedHiDims le_rfl

end Heads

end SlhaV2.PackedLatent
