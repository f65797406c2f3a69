import SlhaV2.Sha256Copies

/-!
# Compressing a block

The words of the program are the words of the standard, so that its rounds over one block are
the standard's.
-/
namespace SlhaV2.HashBlocks
open Sha256Copies

theorem rotr_toBitVec (x : UInt32) {n : ℕ} (hpos : 0 < n) (hn : n < 32) :
    (rotr x (UInt32.ofNat n)).toBitVec = x.toBitVec.rotateRight n := by
  have hcount : (UInt32.ofNat n).toBitVec = BitVec.ofNat 32 n := rfl
  unfold rotr
  rw [UInt32.toBitVec_or, UInt32.toBitVec_shiftRight, UInt32.toBitVec_shiftLeft,
    BitVec.rotateRight_def, Nat.mod_eq_of_lt hn]
  congr 1
  · rw [hcount, BitVec.ushiftRight_eq', BitVec.toNat_umod]
    congr 1
    change n % 2 ^ 32 % 32 = n
    omega
  · rw [BitVec.shiftLeft_eq', BitVec.toNat_umod, UInt32.toBitVec_sub, BitVec.toNat_sub, hcount]
    congr 1
    change (2 ^ 32 - n % 2 ^ 32 + 32) % 2 ^ 32 % 32 = 32 - n
    omega

def vars (v : Working) : SecureHash.Vars where
  a := v.a.toBitVec
  b := v.b.toBitVec
  c := v.c.toBitVec
  d := v.d.toBitVec
  e := v.e.toBitVec
  f := v.f.toBitVec
  g := v.g.toBitVec
  h := v.hh.toBitVec

/-- Three rotations by fixed counts. -/
theorem rotations_eq (x : UInt32) {i j k : ℕ} (hi : 0 < i ∧ i < 32) (hj : 0 < j ∧ j < 32)
    (hk : 0 < k ∧ k < 32) :
    (rotr x (UInt32.ofNat i) ^^^ rotr x (UInt32.ofNat j) ^^^ rotr x (UInt32.ofNat k)).toBitVec =
      x.toBitVec.rotateRight i ^^^ x.toBitVec.rotateRight j ^^^ x.toBitVec.rotateRight k := by
  rw [UInt32.toBitVec_xor, UInt32.toBitVec_xor, rotr_toBitVec x hi.1 hi.2,
    rotr_toBitVec x hj.1 hj.2, rotr_toBitVec x hk.1 hk.2]

/-- Two rotations and a shift by fixed counts. -/
theorem shifts_eq (x : UInt32) {i j k : ℕ} (hi : 0 < i ∧ i < 32) (hj : 0 < j ∧ j < 32)
    (hk : k < 32) :
    (rotr x (UInt32.ofNat i) ^^^ rotr x (UInt32.ofNat j) ^^^
        (x >>> UInt32.ofNat k)).toBitVec =
      x.toBitVec.rotateRight i ^^^ x.toBitVec.rotateRight j ^^^ x.toBitVec >>> k := by
  have hcount : (UInt32.ofNat k).toBitVec = BitVec.ofNat 32 k := rfl
  rw [UInt32.toBitVec_xor, UInt32.toBitVec_xor, rotr_toBitVec x hi.1 hi.2,
    rotr_toBitVec x hj.1 hj.2, UInt32.toBitVec_shiftRight, hcount, BitVec.ushiftRight_eq',
    BitVec.toNat_umod]
  congr 2
  change k % 2 ^ 32 % 32 = k
  omega

theorem round_eq (v : Working) (k w : UInt32) :
    vars (v.round k w) = SecureHash.round (vars v) k.toBitVec w.toBitVec := by
  have hs1 := @rotations_eq v.e 6 11 25 (by decide) (by decide) (by decide)
  have hs0 := @rotations_eq v.a 2 13 22 (by decide) (by decide) (by decide)
  unfold Working.round SecureHash.round vars SecureHash.bigSigma0 SecureHash.bigSigma1
  dsimp only
  rw [← hs1, ← hs0]
  rfl

theorem toNat_shiftByte (x : UInt8) {k : ℕ} (hk : k ≤ 24) :
    (x.toUInt32 <<< UInt32.ofNat k).toNat = 2 ^ k * x.toNat := by
  have hx := x.toNat_lt
  have hcount : (UInt32.ofNat k).toNat % 32 = k := by
    rw [UInt32.toNat_ofNat']
    omega
  have hpow : 2 ^ k ≤ 2 ^ 24 := Nat.pow_le_pow_right (by decide) hk
  have hlt : 2 ^ k * x.toNat < 2 ^ 32 := by
    calc 2 ^ k * x.toNat ≤ 2 ^ 24 * x.toNat := Nat.mul_le_mul_right _ hpow
      _ < 2 ^ 32 := by omega
  rw [UInt32.toNat_shiftLeft, UInt8.toNat_toUInt32, hcount, Nat.shiftLeft_eq, Nat.mul_comm,
    Nat.mod_eq_of_lt hlt]

/-- Four bytes side by side. -/
theorem toNat_pack (a b c d : UInt8) :
    ((a.toUInt32 <<< 24) ||| (b.toUInt32 <<< 16) ||| (c.toUInt32 <<< 8) ||| d.toUInt32).toNat =
      a.toNat * 2 ^ 24 + b.toNat * 2 ^ 16 + c.toNat * 2 ^ 8 + d.toNat := by
  have hb := b.toNat_lt
  have hc := c.toNat_lt
  have hd := d.toNat_lt
  have ha24 := @toNat_shiftByte a 24 (by decide)
  have hb16 := @toNat_shiftByte b 16 (by decide)
  have hc8 := @toNat_shiftByte c 8 (by decide)
  have hlow : 2 ^ 8 * c.toNat ||| d.toNat = 2 ^ 8 * c.toNat + d.toNat :=
    (Nat.two_pow_add_eq_or_of_lt (by omega) _).symm
  have hmid : 2 ^ 16 * b.toNat ||| (2 ^ 8 * c.toNat + d.toNat) =
      2 ^ 16 * b.toNat + (2 ^ 8 * c.toNat + d.toNat) :=
    (Nat.two_pow_add_eq_or_of_lt (by omega) _).symm
  have hhigh : 2 ^ 24 * a.toNat ||| (2 ^ 16 * b.toNat + (2 ^ 8 * c.toNat + d.toNat)) =
      2 ^ 24 * a.toNat + (2 ^ 16 * b.toNat + (2 ^ 8 * c.toNat + d.toNat)) :=
    (Nat.two_pow_add_eq_or_of_lt (by omega) _).symm
  rw [UInt32.toNat_or, UInt32.toNat_or, UInt32.toNat_or, UInt8.toNat_toUInt32]
  change (a.toUInt32 <<< UInt32.ofNat 24).toNat ||| (b.toUInt32 <<< UInt32.ofNat 16).toNat |||
    (c.toUInt32 <<< UInt32.ofNat 8).toNat ||| d.toNat = _
  rw [ha24, hb16, hc8, Nat.or_assoc, Nat.or_assoc, hlow, hmid, hhigh]
  omega

theorem loadWords_getD (p : Bytes) {i : ℕ} (hi : i < 16) :
    ((loadWords p).getD i 0).toBitVec = SecureHash.word p i := by
  have hget : (loadWords p).getD i 0 = ((p.getD (i * 4) 0).toUInt32 <<< 24) |||
      ((p.getD (i * 4 + 1) 0).toUInt32 <<< 16) ||| ((p.getD (i * 4 + 2) 0).toUInt32 <<< 8) |||
      (p.getD (i * 4 + 3) 0).toUInt32 := by
    unfold loadWords
    rw [List.getD_eq_getElem?_getD, List.getElem?_map, List.getElem?_range hi]
    rfl
  rw [hget]
  apply BitVec.eq_of_toNat_eq
  have hpack := toNat_pack (p.getD (i * 4) 0) (p.getD (i * 4 + 1) 0) (p.getD (i * 4 + 2) 0)
    (p.getD (i * 4 + 3) 0)
  have ha := (p.getD (i * 4) 0).toNat_lt
  have hb := (p.getD (i * 4 + 1) 0).toNat_lt
  have hc := (p.getD (i * 4 + 2) 0).toNat_lt
  have hd := (p.getD (i * 4 + 3) 0).toNat_lt
  unfold SecureHash.word
  rw [UInt32.toNat_toBitVec, hpack, BitVec.toNat_ofNat, Nat.mul_comm i 4]
  rw [Nat.mul_comm i 4] at ha hb hc hd
  omega

theorem getD_extendWords {w : List UInt32} {i t : ℕ} (ht : t < w.length) :
    (extendWords w i).getD t 0 = w.getD t 0 := by
  unfold extendWords
  rw [List.getD_eq_getElem?_getD, List.getElem?_append_left ht, ← List.getD_eq_getElem?_getD]

theorem extendWords_length (w : List UInt32) (i : ℕ) :
    (extendWords w i).length = w.length + 1 := by
  unfold extendWords
  rw [List.length_append]
  rfl

theorem add_reversed (a b c d : SecureHash.Word) : a + b + c + d = d + c + b + a := by
  ac_rfl

/-- The word that an extension adds. -/
theorem getD_extendWords_new (w : List UInt32) (i : ℕ) :
    ((extendWords w i).getD w.length 0).toBitVec =
      SecureHash.sigma1 (w.getD (i - 2) 0).toBitVec + (w.getD (i - 7) 0).toBitVec +
        SecureHash.sigma0 (w.getD (i - 15) 0).toBitVec + (w.getD (i - 16) 0).toBitVec := by
  have hs0 := @shifts_eq (w.getD (i - 15) 0) 7 18 3 (by decide) (by decide) (by decide)
  have hs1 := @shifts_eq (w.getD (i - 2) 0) 17 19 10 (by decide) (by decide) (by decide)
  have hget : (extendWords w i).getD w.length 0 = w.getD (i - 16) 0 +
      (rotr (w.getD (i - 15) 0) 7 ^^^ rotr (w.getD (i - 15) 0) 18 ^^^
        (w.getD (i - 15) 0 >>> 3)) + w.getD (i - 7) 0 +
      (rotr (w.getD (i - 2) 0) 17 ^^^ rotr (w.getD (i - 2) 0) 19 ^^^
        (w.getD (i - 2) 0 >>> 10)) := by
    unfold extendWords
    rw [List.getD_eq_getElem?_getD, List.getElem?_append_right (Nat.le_refl _), Nat.sub_self]
    rfl
  unfold SecureHash.sigma0 SecureHash.sigma1
  rw [hget, ← hs0, ← hs1, UInt32.toBitVec_add, UInt32.toBitVec_add, UInt32.toBitVec_add]
  exact add_reversed _ _ _ _

/-- The words after `n` extensions are the schedule so far. -/
theorem words_schedule (p : Bytes) (n : ℕ) :
    (((List.range n).map (16 + ·)).foldl extendWords (loadWords p)).length = 16 + n ∧
    ∀ t < 16 + n, ((((List.range n).map (16 + ·)).foldl extendWords (loadWords p)).getD t
      0).toBitVec = SecureHash.schedule p t := by
  induction n with
  | zero =>
      constructor
      · rfl
      · intro t ht
        unfold SecureHash.schedule
        rw [if_pos ht]
        exact loadWords_getD p ht
  | succ n ih =>
      rw [List.range_succ, List.map_append, List.foldl_append]
      generalize ((List.range n).map (16 + ·)).foldl extendWords (loadWords p) = w at ih ⊢
      change (extendWords w (16 + n)).length = _ ∧ ∀ t < 16 + (n + 1),
        ((extendWords w (16 + n)).getD t 0).toBitVec = _
      constructor
      · rw [extendWords_length, ih.1]
        rfl
      · intro t ht
        by_cases hold : t < 16 + n
        · rw [getD_extendWords (ih.1 ▸ hold)]
          exact ih.2 t hold
        · have hlast : t = 16 + n := by omega
          subst hlast
          have hnew := getD_extendWords_new w (16 + n)
          rw [ih.1] at hnew
          unfold SecureHash.schedule
          rw [hnew, if_neg (by omega), ih.2 _ (by omega), ih.2 _ (by omega), ih.2 _ (by omega),
            ih.2 _ (by omega)]

theorem messageWords_getD (p : Bytes) {t : ℕ} (ht : t < 64) :
    ((messageWords p).getD t 0).toBitVec = SecureHash.schedule p t :=
  (words_schedule p 48).2 t ht

/-- The eight words of a hash value. -/
def hashVars (h : List UInt32) : SecureHash.Vars where
  a := (h.getD 0 0).toBitVec
  b := (h.getD 1 0).toBitVec
  c := (h.getD 2 0).toBitVec
  d := (h.getD 3 0).toBitVec
  e := (h.getD 4 0).toBitVec
  f := (h.getD 5 0).toBitVec
  g := (h.getD 6 0).toBitVec
  h := (h.getD 7 0).toBitVec

/-- Tables with the constants of the standard. -/
structure Standard (T : Tables) : Prop where
  iv : hashVars T.iv = SecureHash.initial
  length : T.iv.length = 8
  k : ∀ t < 64, (T.k.getD t 0).toBitVec = SecureHash.constant t

theorem rounds_eq {T : Tables} (hT : Standard T) (v : Working) (p : Bytes) :
    vars (rounds T v p) = SecureHash.rounds (vars v) p := by
  have hrun : ∀ n ≤ 64, vars ((List.range n).foldl
      (fun v i => v.round (T.k.getD i 0) ((messageWords p).getD i 0)) v) =
      (List.range n).foldl
        (fun v t => SecureHash.round v (SecureHash.constant t) (SecureHash.schedule p t))
        (vars v) := by
    intro n
    induction n with
    | zero =>
        intro _
        rfl
    | succ n ih =>
        intro hn
        rw [List.range_succ, List.foldl_append, List.foldl_append, ← ih (by omega)]
        change vars (Working.round _ _ _) = SecureHash.round _ _ _
        rw [round_eq, hT.k n (by omega), messageWords_getD p (by omega)]
  exact hrun 64 (Nat.le_refl 64)

theorem add_comm_vars (v w : SecureHash.Vars) : v.add w = w.add v := by
  unfold SecureHash.Vars.add
  rw [BitVec.add_comm v.a, BitVec.add_comm v.b, BitVec.add_comm v.c, BitVec.add_comm v.d,
    BitVec.add_comm v.e, BitVec.add_comm v.f, BitVec.add_comm v.g, BitVec.add_comm v.h]

theorem block_h {T : Tables} (hT : Standard T) (s : Sha256) (p : Bytes) :
    hashVars (s.block T p).h = SecureHash.compress (hashVars s.h) p := by
  have hrounds := rounds_eq hT ⟨s.h.getD 0 0, s.h.getD 1 0, s.h.getD 2 0, s.h.getD 3 0,
    s.h.getD 4 0, s.h.getD 5 0, s.h.getD 6 0, s.h.getD 7 0⟩ p
  unfold SecureHash.compress
  change _ = (SecureHash.rounds (vars ⟨s.h.getD 0 0, s.h.getD 1 0, s.h.getD 2 0, s.h.getD 3 0,
    s.h.getD 4 0, s.h.getD 5 0, s.h.getD 6 0, s.h.getD 7 0⟩) p).add (hashVars s.h)
  rw [← hrounds, add_comm_vars]
  rfl

theorem standard_calib : Standard Calib.tables := by
  constructor
  · decide +kernel
  · rfl
  · decide +kernel

theorem standard_scale : Standard Scale.tables := by
  constructor
  · decide +kernel
  · rfl
  · decide +kernel

end SlhaV2.HashBlocks
