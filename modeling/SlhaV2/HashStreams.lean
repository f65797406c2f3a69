import SlhaV2.HashBlocks

/-!
# Hashing a message in pieces

Whatever the pieces are, a hash has compressed the full blocks of its message and holds the
rest in its buffer. At the end the padding completes the last block.
-/
namespace SlhaV2.HashStreams
open Sha256Copies HashBlocks

theorem length_flatten_blocks {blocks : List Bytes} (h : ∀ b ∈ blocks, b.length = 64) :
    blocks.flatten.length = 64 * blocks.length := by
  induction blocks with
  | nil => rfl
  | cons b blocks ih =>
      rw [List.flatten_cons, List.length_append, h b List.mem_cons_self,
        ih fun c hc => h c (List.mem_cons_of_mem b hc), List.length_cons]
      omega

/-- The blocks of a message of full blocks. -/
theorem hashBlocks_flatten {blocks : List Bytes} (h : ∀ b ∈ blocks, b.length = 64)
    (v : SecureHash.Vars) :
    SecureHash.hashBlocks v blocks.flatten = blocks.foldl SecureHash.compress v := by
  induction blocks generalizing v with
  | nil => rfl
  | cons b blocks ih =>
      have hb := h b List.mem_cons_self
      have hblocks := fun c hc => h c (List.mem_cons_of_mem b hc)
      have hcount : (b ++ blocks.flatten).length / 64 = blocks.length + 1 := by
        rw [List.length_append, hb, length_flatten_blocks hblocks]
        omega
      have hfirst : SecureHash.block (b ++ blocks.flatten) 0 = b := by
        unfold SecureHash.block
        rw [Nat.mul_zero, List.drop_zero, List.take_left' hb]
      have hnext : ∀ i, SecureHash.block (b ++ blocks.flatten) (i + 1) =
          SecureHash.block blocks.flatten i := by
        intro i
        unfold SecureHash.block
        rw [Nat.mul_succ, Nat.add_comm, ← List.drop_drop, List.drop_left' hb]
      have hrest : blocks.flatten.length / 64 = blocks.length := by
        rw [length_flatten_blocks hblocks, Nat.mul_div_cancel_left _ (by decide)]
      have hstep : (fun u i => SecureHash.compress u
          (SecureHash.block (b ++ blocks.flatten) (Nat.succ i))) =
          fun u i => SecureHash.compress u (SecureHash.block blocks.flatten i) := by
        funext u i
        exact congrArg (SecureHash.compress u) (hnext i)
      rw [List.foldl_cons, ← ih hblocks (SecureHash.compress v b)]
      unfold SecureHash.hashBlocks
      rw [List.flatten_cons, hcount, hrest, List.range_succ_eq_map, List.foldl_cons, hfirst,
        List.foldl_map, hstep]

/-- The hash value covers the full blocks of the message, and the buffer holds its rest. -/
structure Taken (s : Sha256) (m : Bytes) (blocks : List Bytes) : Prop where
  full : ∀ b ∈ blocks, b.length = 64
  message : m = blocks.flatten ++ s.buf
  room : s.buf.length < 64
  hash : hashVars s.h = blocks.foldl SecureHash.compress SecureHash.initial
  words : s.h.length = 8

theorem Taken.buf_length {s : Sha256} {m : Bytes} {blocks : List Bytes} (h : Taken s m blocks) :
    s.buf.length = m.length % 64 := by
  have hroom := h.room
  rw [h.message, List.length_append, length_flatten_blocks h.full]
  omega

section Tables
variable {T : Tables}

/-- One pass of the loop. -/
theorem Taken.take (hT : Standard T) {s : Sha256} {m : Bytes} {blocks : List Bytes}
    (h : Taken s m blocks) (data : Bytes) :
    ∃ blocks' head, data = head ++ (s.take T data).2 ∧ (data ≠ [] → head ≠ []) ∧
      Taken (s.take T data).1 (m ++ head) blocks' ∧ (s.take T data).1.len = s.len := by
  have hroom := h.room
  have hsplit : data = data.take (min data.length (64 - s.buf.length)) ++ (s.take T data).2 :=
    (List.take_append_drop _ data).symm
  have hsome : data ≠ [] → data.take (min data.length (64 - s.buf.length)) ≠ [] := by
    intro hne hnil
    have hpos := List.length_pos_of_ne_nil hne
    have hlength := congrArg List.length hnil
    rw [List.length_take, List.length_nil] at hlength
    omega
  have hlimit : (data.take (min data.length (64 - s.buf.length))).length ≤ 64 - s.buf.length := by
    rw [List.length_take]
    omega
  unfold Sha256.take at hsplit ⊢
  dsimp only at hsplit ⊢
  generalize data.take (min data.length (64 - s.buf.length)) = head at hsplit hsome hlimit ⊢
  by_cases hfull : (s.buf ++ head).length = 64
  · rw [if_pos hfull]
    refine ⟨blocks ++ [s.buf ++ head], head, hsplit, hsome, ?_, rfl⟩
    constructor
    · intro b hb
      rcases List.mem_append.mp hb with hold | hnew
      · exact h.full b hold
      · rwa [List.mem_singleton.mp hnew]
    · rw [h.message, List.flatten_append, List.flatten_singleton, List.append_assoc,
        List.append_assoc, List.append_nil]
    · exact Nat.zero_lt_succ 63
    · rw [List.foldl_append, ← h.hash]
      exact block_h hT { s with buf := s.buf ++ head } (s.buf ++ head)
    · rfl
  · rw [if_neg hfull]
    refine ⟨blocks, head, hsplit, hsome, ?_, rfl⟩
    constructor
    · exact h.full
    · rw [h.message, List.append_assoc]
    · rw [List.length_append] at hfull ⊢
      omega
    · exact h.hash
    · exact h.words

theorem Taken.feed (hT : Standard T) (fuel : ℕ) {s : Sha256} {m data : Bytes}
    {blocks : List Bytes} (h : Taken s m blocks) (hfuel : data.length ≤ fuel) :
    ∃ blocks', Taken (s.feed T fuel data) (m ++ data) blocks' ∧
      (s.feed T fuel data).len = s.len := by
  induction fuel generalizing s m data blocks with
  | zero =>
      have hnil : data = [] := List.eq_nil_of_length_eq_zero (Nat.le_zero.mp hfuel)
      subst hnil
      rw [List.append_nil]
      exact ⟨blocks, h, rfl⟩
  | succ fuel ih =>
      unfold Sha256.feed
      by_cases hnil : data = []
      · subst hnil
        rw [if_pos rfl, List.append_nil]
        exact ⟨blocks, h, rfl⟩
      · rw [if_neg hnil]
        obtain ⟨blocks', head, hsplit, hsome, htaken, hlen⟩ := h.take hT data
        have hhead := List.length_pos_of_ne_nil (hsome hnil)
        have hlength := congrArg List.length hsplit
        rw [List.length_append] at hlength
        have hfewer : (s.take T data).2.length ≤ fuel := by omega
        obtain ⟨blocks'', hrest, hlen'⟩ := ih htaken hfewer
        refine ⟨blocks'', ?_, hlen'.trans hlen⟩
        rwa [List.append_assoc, ← hsplit] at hrest

/-- A hash of a message: its blocks, its rest and its length. -/
def Hashed (s : Sha256) (m : Bytes) : Prop :=
  (∃ blocks, Taken s m blocks) ∧ s.len = UInt64.ofNat m.length

theorem hashed_new (hT : Standard T) : Hashed (Sha256.new T) [] := by
  refine ⟨⟨[], ?_⟩, rfl⟩
  constructor
  · exact nofun
  · rfl
  · exact Nat.zero_lt_succ 63
  · exact hT.iv
  · exact hT.length

theorem Hashed.update (hT : Standard T) {s : Sha256} {m : Bytes} (h : Hashed s m)
    (data : Bytes) : Hashed (s.update T data) (m ++ data) := by
  obtain ⟨⟨blocks, htaken⟩, hlen⟩ := h
  have hstart : Taken { s with len := s.len + UInt64.ofNat data.length } m blocks :=
    ⟨htaken.full, htaken.message, htaken.room, htaken.hash, htaken.words⟩
  obtain ⟨blocks', hend, hlen'⟩ := hstart.feed hT data.length (Nat.le_refl _)
  refine ⟨⟨blocks', hend⟩, ?_⟩
  unfold Sha256.update
  rw [hlen', List.length_append, UInt64.ofNat_add, ← hlen]

theorem Hashed.updates (hT : Standard T) (pieces : List Bytes) {s : Sha256} {m : Bytes}
    (h : Hashed s m) : Hashed (s.updates T pieces) (m ++ pieces.flatten) := by
  induction pieces generalizing s m with
  | nil =>
      rw [List.flatten_nil, List.append_nil]
      exact h
  | cons data pieces ih =>
      have hrest := ih (h.update hT data)
      rwa [List.append_assoc] at hrest

theorem Hashed.buf_length {s : Sha256} {m : Bytes} (h : Hashed s m) :
    s.buf.length = m.length % 64 := by
  obtain ⟨⟨blocks, htaken⟩, -⟩ := h
  exact htaken.buf_length

/-- The zeros that fill the block up to the length. -/
theorem Hashed.zeros (hT : Standard T) (fuel : ℕ) {s : Sha256} {m : Bytes} (h : Hashed s m)
    (hfuel : (120 - m.length % 64) % 64 ≤ fuel) :
    Hashed (s.zeros T fuel) (m ++ List.replicate ((120 - m.length % 64) % 64) 0) := by
  induction fuel generalizing s m with
  | zero =>
      rw [Nat.le_zero.mp hfuel, List.replicate_zero, List.append_nil]
      exact h
  | succ fuel ih =>
      have hbuf := h.buf_length
      unfold Sha256.zeros
      by_cases hfull : s.buf.length = 56
      · rw [if_pos hfull]
        have hzero : (120 - m.length % 64) % 64 = 0 := by omega
        rw [hzero, List.replicate_zero, List.append_nil]
        exact h
      · rw [if_neg hfull]
        have hcount : (120 - m.length % 64) % 64 =
            (120 - (m ++ [(0 : UInt8)]).length % 64) % 64 + 1 := by
          rw [List.length_append, List.length_singleton]
          omega
        have hrest := ih (h.update hT [0]) (by omega)
        rw [hcount, List.replicate_succ]
        rwa [List.append_assoc] at hrest

theorem nibble_eq (x : UInt32) {k : ℕ} (hk : k ≤ 28) :
    ((x >>> UInt32.ofNat k) &&& 0xF).toNat = x.toNat / 2 ^ k % 16 := by
  have hcount : (UInt32.ofNat k).toNat % 32 = k := by
    rw [UInt32.toNat_ofNat']
    omega
  rw [UInt32.toNat_and, UInt32.toNat_shiftRight, hcount, Nat.shiftRight_eq_div_pow]
  exact Nat.and_two_pow_sub_one_eq_mod _ 4

theorem hexChars_eq (x : UInt32) : hexChars x = SecureHash.hexWord x.toBitVec := by
  have hrange : hexChars x = (List.range 8).map fun i =>
      "0123456789abcdef".toList.getD ((x >>> UInt32.ofNat (28 - 4 * i)) &&& 0xF).toNat '0' := rfl
  rw [hrange]
  apply List.map_congr_left
  intro i hi
  have hi := List.mem_range.mp hi
  have hpow : 2 ^ (28 - 4 * i) = 16 ^ (7 - i) := by
    rw [show (16 : ℕ) = 2 ^ 4 from rfl, ← Nat.pow_mul]
    congr 1
    omega
  rw [nibble_eq x (by omega), hpow]
  rfl

theorem lenbuf_eq (bitLen : UInt64) : lenbuf bitLen = SecureHash.lengthBytes bitLen.toNat := by
  apply List.map_congr_left
  intro i hi
  have hi := List.mem_range.mp hi
  have hcounts : ∀ j < 8, 56 - UInt64.ofNat j * 8 = UInt64.ofNat (56 - 8 * j) := by decide
  have hcount : (UInt64.ofNat (56 - 8 * i)).toNat % 64 = 56 - 8 * i := by
    rw [UInt64.toNat_ofNat']
    omega
  apply UInt8.toNat_inj.mp
  rw [hcounts i hi, UInt64.toNat_toUInt8, UInt64.toNat_shiftRight, hcount,
    Nat.shiftRight_eq_div_pow, UInt8.toNat_ofNat']

theorem hex_words {h : List UInt32} (hlength : h.length = 8) :
    h.flatMap hexChars = (hashVars h).hex := by
  match h, hlength with
  | [a, b, c, d, e, f, g, x], _ =>
      simp only [List.flatMap_cons, List.flatMap_nil, hexChars_eq, List.append_nil]
      unfold SecureHash.Vars.hex
      simp only [List.append_assoc]
      rfl

/-- A hash ends in the digest of its message. -/
theorem Hashed.hex (hT : Standard T) {s : Sha256} {m : Bytes} (h : Hashed s m) :
    s.hex T = SecureHash.digest m (8 * m.length % 2 ^ 64) := by
  have hlen := h.2
  have hbits : (s.len * 8).toNat = 8 * m.length % 2 ^ 64 := by
    rw [hlen, UInt64.toNat_mul, UInt64.toNat_ofNat']
    change m.length % 2 ^ 64 * 8 % 2 ^ 64 = _
    omega
  have hzeros := (h.update hT [0x80]).zeros hT 64 (by omega)
  have hend := hzeros.update hT (lenbuf (s.len * 8))
  have hzero : (120 - (m ++ [(0x80 : UInt8)]).length % 64) % 64 =
      (119 - m.length % 64) % 64 := by
    rw [List.length_append, List.length_singleton]
    omega
  have hpad : m ++ [0x80] ++ List.replicate ((120 - (m ++ [(0x80 : UInt8)]).length % 64) % 64) 0 ++
      lenbuf (s.len * 8) = SecureHash.pad m (8 * m.length % 2 ^ 64) := by
    rw [hzero, lenbuf_eq, hbits]
    unfold SecureHash.pad
    simp only [List.append_assoc, List.cons_append, List.nil_append]
  rw [hpad] at hend
  obtain ⟨⟨blocks, htaken⟩, -⟩ := hend
  have hempty : ((s.update T [0x80]).zeros T 64 |>.update T (lenbuf (s.len * 8))).buf = [] := by
    apply List.eq_nil_of_length_eq_zero
    rw [htaken.buf_length]
    unfold SecureHash.pad SecureHash.lengthBytes
    simp only [List.length_append, List.length_cons, List.length_replicate, List.length_map,
      List.length_range]
    omega
  have hmessage := htaken.message
  rw [hempty, List.append_nil] at hmessage
  unfold SecureHash.digest
  rw [hmessage, hashBlocks_flatten htaken.full, ← htaken.hash, ← hex_words htaken.words]
  rfl

theorem hexOf_eq (hT : Standard T) (pieces : List Bytes) :
    hexOf T pieces =
      SecureHash.digest pieces.flatten (8 * pieces.flatten.length % 2 ^ 64) := by
  have hstart := hashed_new hT
  have hend := hstart.updates hT pieces
  rw [List.nil_append] at hend
  exact hend.hex hT

end Tables

/-- The pieces of a file are the file. -/
theorem readPieces_flatten (fuel : ℕ) (content : Bytes) (h : content.length < fuel) :
    (readPieces fuel content).flatten = content := by
  induction fuel generalizing content with
  | zero => omega
  | succ fuel ih =>
      unfold readPieces
      by_cases hlast : content.length < 2 ^ 16
      · rw [if_pos hlast]
        split_ifs with hnil
        · rw [hnil]
          rfl
        · exact List.flatten_singleton
      · rw [if_neg hlast, List.flatten_cons, ih _ (by rw [List.length_drop]; omega),
          List.take_append_drop]

/-- Both copies return the digest of the standard, whatever the pieces are, and on a message of
any length they return the same. -/
theorem copies_exact :
    (∀ pieces : List Bytes, pieces.flatten.length < 2 ^ 61 →
      hexOf Calib.tables pieces =
        SecureHash.digest pieces.flatten (8 * pieces.flatten.length) ∧
      hexOf Scale.tables pieces =
        SecureHash.digest pieces.flatten (8 * pieces.flatten.length)) ∧
    (∀ content : Bytes, content.length < 2 ^ 61 → Calib.sha256File (some content) =
      some (SecureHash.digest content (8 * content.length))) ∧
    ∀ pieces pieces' : List Bytes, pieces.flatten = pieces'.flatten →
      hexOf Calib.tables pieces = hexOf Scale.tables pieces' := by
  have hbits : ∀ n < 2 ^ 61, 8 * n % 2 ^ 64 = 8 * n := by omega
  refine ⟨?_, ?_, ?_⟩
  · intro pieces hlength
    rw [hexOf_eq standard_calib, hexOf_eq standard_scale, hbits _ hlength]
    exact ⟨rfl, rfl⟩
  · intro content hlength
    unfold Calib.sha256File
    rw [Option.map_some, hexOf_eq standard_calib,
      readPieces_flatten _ _ (Nat.lt_succ_self _), hbits _ hlength]
  · intro pieces pieces' hsame
    rw [hexOf_eq standard_calib, hexOf_eq standard_scale, hsame]

/-- Seventy-one bytes; the first block ends inside the second piece. -/
def acrossBlocks : List Bytes := [List.replicate 40 97, List.replicate 30 98, [99]]

theorem copies_acrossBlocks :
    hexOf Calib.tables acrossBlocks = SecureHash.digest acrossBlocks.flatten 568 ∧
      hexOf Scale.tables acrossBlocks = SecureHash.digest acrossBlocks.flatten 568 ∧
      Calib.sha256File (some acrossBlocks.flatten) =
        some (SecureHash.digest acrossBlocks.flatten 568) ∧
      hexOf Calib.tables acrossBlocks = hexOf Scale.tables [acrossBlocks.flatten] := by
  have hlength : acrossBlocks.flatten.length < 2 ^ 61 := by decide
  have hpieces := copies_exact.1 acrossBlocks hlength
  refine ⟨hpieces.1, hpieces.2, copies_exact.2.1 _ hlength, ?_⟩
  exact copies_exact.2.2 _ _ List.flatten_singleton.symm

example : Calib.sha256Hex [97, 98, 99] =
    "ba7816bf8f01cfea414140de5dae2223b00361a396177a9cb410ff61f20015ad".toList := by
  decide +kernel

end SlhaV2.HashStreams
