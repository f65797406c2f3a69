import Mathlib.Algebra.Order.BigOperators.Group.List
import SlhaV2.RankReader

/-!
# The layer files of a ranking dataset

The reader accepts exactly the images of well-formed layers, and returns the
layer a file is the image of. The number of key rows of a chunk is no field of
a layer: it is the length of the chunk's block over the width of a key. The
last word of the header is not read.
-/
namespace SlhaV2.RankFormat
open MachineWord ByteBuffer CheckedSteps ByteReader FloatingPoint Calibration CalibrationFiles
open RankReader

def i32Bytes (x : Int32) : List UInt8 := leBytes 4 x.toBitVec.toNat
def i64Bytes (x : Int64) : List UInt8 := leBytes 8 x.toBitVec.toNat

def keyRows (L : LayerRows) : List ℕ := L.keys.map fun block => block.length / L.keyDim

def headerBytes (layer qDim rows nChunks keyDim : ℕ) (reserved : List UInt8) : List UInt8 :=
  leBytes 4 magic ++ leBytes 4 version ++ leBytes 4 layer ++ leBytes 4 qDim ++ leBytes 8 rows ++
    leBytes 8 nChunks ++ leBytes 4 keyDim ++ reserved

def bodyBytes (L : LayerRows) : List UInt8 :=
  (keyRows L).flatMap (leBytes 8) ++ (L.heads.flatMap i32Bytes ++
    (L.gqaGroups.flatMap i32Bytes ++ (L.tokens.flatMap i64Bytes ++
      (L.nVisible.flatMap (leBytes 4) ++ (L.chunks.flatMap (leBytes 4) ++
        (L.q.flatMap scalarBytes ++ (L.baseline.flatMap scalarBytes ++
          (L.controlScores.flatMap scalarBytes ++
            L.keys.flatMap fun block => block.flatMap scalarBytes))))))))

def layerBytes (L : LayerRows) (reserved : List UInt8) : List UInt8 :=
  headerBytes L.layer L.qDim L.rows L.keys.length L.keyDim reserved ++ bodyBytes L

def AllFinite (xs : List F32) : Prop := ∀ x ∈ xs, x.isFinite = true

/-- A row sees no more keys than the block of its chunk has. -/
def ChunkOk (nVisible keyRows : List ℕ) (i chunk : ℕ) : Prop :=
  chunk < 2 ^ 31 ∧ ∃ visible present, nVisible[i]? = some visible ∧
    keyRows[chunk]? = some present ∧ visible ≤ present

/-- The columns and blocks of a layer agree with its counts. -/
structure Body (L : LayerRows) : Prop where
  heads : L.heads.length = L.rows
  gqaGroups : L.gqaGroups.length = L.rows
  tokens : L.tokens.length = L.rows
  nVisible : L.nVisible.length = L.rows
  visible : ∀ v ∈ L.nVisible, 0 < v ∧ v < 2 ^ 31
  chunks : L.chunks.length = L.rows
  chunk : ∀ i chunk, L.chunks[i]? = some chunk → ChunkOk L.nVisible (keyRows L) i chunk
  q : L.q.length = L.rows * L.qDim ∧ AllFinite L.q
  baseline : L.baseline.length = L.nVisible.sum ∧ AllFinite L.baseline
  controlScores : L.controlScores.length = L.nVisible.sum ∧ AllFinite L.controlScores
  keys : ∀ block ∈ L.keys, L.keyDim ∣ block.length ∧ AllFinite block
  starts : L.starts = L.nVisible.scanl (· + ·) 0

structure WellFormed (L : LayerRows) : Prop extends Body L where
  layer : L.layer < 2 ^ 32
  qDim : 0 < L.qDim ∧ L.qDim < 2 ^ 32
  keyDim : 0 < L.keyDim ∧ L.keyDim < 2 ^ 32
  rowsWord : L.rows < 2 ^ 64
  slots : 0 < L.keys.length ∧ L.keys.length < 2 ^ 64

/-- The byte counts of the scalars are words. -/
structure Words (L : LayerRows) : Prop where
  q : L.q.length * 4 ≤ maxWord
  scores : L.nVisible.sum * 4 ≤ maxWord
  keys : ∀ block ∈ L.keys, block.length * 4 ≤ maxWord

theorem denotes_take (n : ℕ) (what : String) :
    Denotes (take n what) fun a bs => a.length = n ∧ bs = a :=
  Denotes.takeBytes n _ _

/-- A value of fixed width, from the values its bytes can have. -/
theorem denotes_word {α : Type} {n : ℕ} {what : String} {dec : List UInt8 → α}
    {enc : α → List UInt8} (hdec : ∀ b, b.length = n → enc (dec b) = b)
    (henc : ∀ a, (enc a).length = n ∧ dec (enc a) = a) :
    Denotes (take n what >>= fun b => pure (dec b)) fun a bs => True ∧ bs = enc a := by
  refine ((denotes_take n what).bind fun b => Denotes.pure (dec b)).congr ?_
  intro a bs
  constructor
  · rintro ⟨_, b, _, ⟨hb, rfl⟩, ⟨rfl, rfl⟩, rfl⟩
    rw [List.append_nil, hdec b hb]
    exact ⟨trivial, rfl⟩
  · rintro ⟨-, rfl⟩
    exact ⟨enc a, enc a, [], ⟨(henc a).1, rfl⟩, ⟨(henc a).2.symm, rfl⟩, (List.append_nil _).symm⟩

theorem denotes_u64 (what : String) :
    Denotes (u64 what) fun a bs => a < 2 ^ 64 ∧ bs = leBytes 8 a := by
  refine ((denotes_take 8 what).bind fun b => Denotes.pure (leNat b)).congr ?_
  intro a bs
  constructor
  · rintro ⟨_, b, _, ⟨hb, rfl⟩, ⟨rfl, rfl⟩, rfl⟩
    have hlt := leNat_lt b
    rw [hb] at hlt
    exact ⟨hlt, by rw [List.append_nil, leBytes_leNat_of_length hb]⟩
  · rintro ⟨ha, rfl⟩
    exact ⟨_, _, [], ⟨length_leBytes 8 a, rfl⟩, ⟨(leNat_leBytes_of_lt ha).symm, rfl⟩,
      (List.append_nil _).symm⟩

theorem denotes_i32 (what : String) :
    Denotes (i32 what) fun a bs => True ∧ bs = i32Bytes a := by
  apply denotes_word
  · intro b hb
    have hlt := leNat_lt b
    rw [hb] at hlt
    unfold i32Bytes i32At
    rw [Int32.toBitVec_ofBitVec, BitVec.toNat_ofNat, Nat.mod_eq_of_lt (show _ < 2 ^ 32 from hlt),
      leBytes_leNat_of_length hb]
  · intro a
    unfold i32Bytes i32At
    rw [leNat_leBytes_of_lt a.toBitVec.isLt, BitVec.ofNat_toNat, BitVec.setWidth_eq,
      Int32.ofBitVec_toBitVec]
    exact ⟨length_leBytes 4 _, rfl⟩

theorem denotes_i64 (what : String) :
    Denotes (i64 what) fun a bs => True ∧ bs = i64Bytes a := by
  apply denotes_word
  · intro b hb
    have hlt := leNat_lt b
    rw [hb] at hlt
    unfold i64Bytes i64At
    rw [Int64.toBitVec_ofBitVec, BitVec.toNat_ofNat, Nat.mod_eq_of_lt (show _ < 2 ^ 64 from hlt),
      leBytes_leNat_of_length hb]
  · intro a
    unfold i64Bytes i64At
    rw [leNat_leBytes_of_lt a.toBitVec.isLt, BitVec.ofNat_toNat, BitVec.setWidth_eq,
      Int64.ofBitVec_toBitVec]
    exact ⟨length_leBytes 8 _, rfl⟩

theorem finiteValues_eq_ok {what : String} {i : ℕ} {xs out : List F32} :
    finiteValues what i xs = .ok out ↔ AllFinite xs ∧ out = xs := by
  induction xs generalizing i out with
  | nil =>
      unfold finiteValues
      constructor
      · intro h
        exact ⟨fun x hx => absurd hx List.not_mem_nil, (Except.ok.inj h).symm⟩
      · intro h
        rw [h.2]
  | cons x xs ih =>
      unfold finiteValues AllFinite
      rw [List.forall_mem_cons]
      cases hx : x.isFinite with
      | false => simp
      | true =>
          simp only [Bool.not_true, Bool.false_eq_true, if_false, true_and]
          rw [bind_eq_ok]
          constructor
          · intro h
            obtain ⟨ys, hys, ho⟩ := h
            obtain ⟨hfin, rfl⟩ := ih.mp hys
            exact ⟨hfin, (Except.ok.inj ho).symm⟩
          · intro h
            exact ⟨xs, ih.mpr ⟨h.1, rfl⟩, by rw [h.2]; rfl⟩

theorem scalars_eq {raw : List UInt8} {n : ℕ} (h : raw.length = n * 4) {xs : List F32} :
    (List.range n).map (scalarAt raw) = xs ↔ xs.length = n ∧ raw = xs.flatMap scalarBytes := by
  constructor
  · rintro rfl
    rw [flatMap_scalars h, List.length_map, List.length_range]
    exact ⟨rfl, rfl⟩
  · rintro ⟨rfl, rfl⟩
    exact scalars_flatMap xs

theorem denotes_finiteF32Vec (count : ℕ) (what : String) :
    Denotes (finiteF32Vec count what) fun xs bs =>
      (xs.length = count ∧ count * 4 ≤ maxWord ∧ AllFinite xs) ∧ bs = xs.flatMap scalarBytes := by
  refine ((Denotes.still _).bind fun bytes => (denotes_take bytes what).bind fun raw =>
    Denotes.still _).congr ?_
  intro xs bs
  constructor
  · rintro ⟨bytes, _, _, ⟨hm, rfl⟩, ⟨raw, _, _, ⟨hl, rfl⟩, ⟨hf, rfl⟩, rfl⟩, rfl⟩
    obtain ⟨hle, rfl⟩ := checkedMul_eq_some.mp (orErr_eq_ok.mp hm)
    obtain ⟨hfin, hxs⟩ := finiteValues_eq_ok.mp hf
    obtain ⟨hlen, hraw⟩ := (scalars_eq hl).mp hxs.symm
    rw [← hxs] at hfin
    refine ⟨⟨hlen, hle, hfin⟩, ?_⟩
    rw [List.append_nil, List.nil_append, hraw]
  · rintro ⟨⟨hlen, hle, hfin⟩, rfl⟩
    have hl : (xs.flatMap scalarBytes).length = count * 4 := by rw [length_scalars, hlen]
    refine ⟨count * 4, [], _, ⟨?_, rfl⟩, ⟨xs.flatMap scalarBytes, _, [], ⟨hl, rfl⟩, ⟨?_, rfl⟩, rfl⟩, ?_⟩
    · rw [checkedMul_eq_some.mpr ⟨hle, rfl⟩, orErr_some]
    · rw [finiteValues_eq_ok, (scalars_eq hl).mpr ⟨hlen, rfl⟩]
      exact ⟨hfin, rfl⟩
    · rw [List.append_nil, List.nil_append]

theorem toInt_of_lt {x : Int32} (h : x.toBitVec.toNat < 2 ^ 31) :
    x.toInt = (x.toBitVec.toNat : ℤ) := by
  have hx := BitVec.toInt_eq_toNat_cond x.toBitVec
  rw [if_pos (by omega)] at hx
  exact hx

theorem lt_of_toInt_nonneg {x : Int32} (h : 0 ≤ x.toInt) : x.toBitVec.toNat < 2 ^ 31 := by
  have hx : x.toInt = x.toBitVec.toInt := rfl
  have hlt := x.toBitVec.isLt
  rw [hx, BitVec.toInt_eq_toNat_cond] at h
  split_ifs at h with hc
  · omega
  · omega

/-- A word that is not negative is the image of a number. -/
theorem i32Bytes_of_nonneg {x : Int32} (h : 0 ≤ x.toInt) :
    x.toInt.toNat < 2 ^ 31 ∧ i32Bytes x = leBytes 4 x.toInt.toNat := by
  have hlt := lt_of_toInt_nonneg h
  unfold i32Bytes
  rw [toInt_of_lt hlt, Int.toNat_natCast]
  exact ⟨hlt, rfl⟩

theorem exists_i32 {n : ℕ} (h : n < 2 ^ 31) :
    ∃ x : Int32, x.toInt = (n : ℤ) ∧ i32Bytes x = leBytes 4 n := by
  have hn : (Int32.ofBitVec (BitVec.ofNat 32 n)).toBitVec.toNat = n := by
    rw [Int32.toBitVec_ofBitVec, BitVec.toNat_ofNat, Nat.mod_eq_of_lt (by omega)]
  refine ⟨Int32.ofBitVec (BitVec.ofNat 32 n), ?_, ?_⟩
  · rw [toInt_of_lt (by omega), hn]
  · unfold i32Bytes
    rw [hn]

theorem denotes_visibleCount (source : String) (i : ℕ) :
    Denotes (visibleCount source i) fun v bs => (0 < v ∧ v < 2 ^ 31) ∧ bs = leBytes 4 v := by
  refine ((denotes_i32 _).bind_image fun value => Denotes.still_bind fun _ =>
    Denotes.pure value.toInt.toNat).congr ?_
  intro v bs
  constructor
  · rintro ⟨value, -, _, ⟨_, hpos, rfl, rfl⟩, rfl⟩
    rw [require_eq_ok] at hpos
    obtain ⟨hlt, hb⟩ := i32Bytes_of_nonneg hpos.le
    refine ⟨⟨by omega, hlt⟩, ?_⟩
    rw [List.append_nil, hb]
  · rintro ⟨⟨hpos, hlt⟩, rfl⟩
    obtain ⟨value, hv, hb⟩ := exists_i32 hlt
    refine ⟨value, trivial, [], ⟨(), ?_, ?_, rfl⟩, ?_⟩
    · rw [require_eq_ok, hv]
      exact_mod_cast hpos
    · rw [hv, Int.toNat_natCast]
    · rw [List.append_nil, hb]

theorem denotes_chunkId (source : String) (nChunks : ℕ) (keyRows nVisible : List ℕ) (i : ℕ) :
    Denotes (chunkId source nChunks keyRows nVisible i) fun chunk bs =>
      (chunk < nChunks ∧ ChunkOk nVisible keyRows i chunk) ∧ bs = leBytes 4 chunk := by
  refine ((denotes_i32 _).bind_image fun value => Denotes.still_bind fun _ =>
    Denotes.still_bind fun _ => Denotes.still_bind fun visible => Denotes.still_bind fun present =>
    Denotes.still_bind fun _ => Denotes.pure value.toInt.toNat).congr ?_
  intro chunk bs
  constructor
  · rintro ⟨value, -, _, ⟨_, h₁, _, h₂, visible, h₃, present, h₄, _, h₅, rfl, rfl⟩, rfl⟩
    rw [require_eq_ok] at h₁ h₂ h₅
    obtain ⟨hlt, hb⟩ := i32Bytes_of_nonneg h₁
    refine ⟨⟨h₂, hlt, visible, present, index_eq_ok.mp h₃, index_eq_ok.mp h₄, h₅⟩, ?_⟩
    rw [List.append_nil, hb]
  · rintro ⟨⟨hn, hlt, visible, present, h₃, h₄, h₅⟩, rfl⟩
    obtain ⟨value, hv, hb⟩ := exists_i32 hlt
    have hnat : value.toInt.toNat = chunk := by rw [hv, Int.toNat_natCast]
    refine ⟨value, trivial, [], ⟨(), ?_, (), ?_, visible, index_eq_ok.mpr h₃, present, ?_, (),
      require_eq_ok.mpr h₅, hnat.symm, rfl⟩, ?_⟩
    · rw [require_eq_ok, hv]
      exact Int.natCast_nonneg chunk
    · rw [require_eq_ok, hnat]
      exact hn
    · rw [hnat]
      exact index_eq_ok.mpr h₄
    · rw [List.append_nil, hb]

theorem scoreStarts_eq_ok {source : String} {counts : List ℕ} {t : ℕ} {p : List ℕ × ℕ}
    (ht : t ≤ maxWord) : scoreStarts source counts t = .ok p ↔
      t + counts.sum ≤ maxWord ∧ p = (counts.scanl (· + ·) t, t + counts.sum) := by
  induction counts generalizing t p with
  | nil =>
      unfold scoreStarts
      rw [List.sum_nil, Nat.add_zero, List.scanl_nil]
      constructor
      · intro h
        exact ⟨ht, (Except.ok.inj h).symm⟩
      · intro h
        rw [h.2]
  | cons count counts ih =>
      unfold scoreStarts
      rw [List.sum_cons, List.scanl_cons, bind_eq_ok]
      constructor
      · rintro ⟨next, hn, hs⟩
        obtain ⟨hle, rfl⟩ := checkedAdd_eq_some.mp (orErr_eq_ok.mp hn)
        obtain ⟨⟨starts, total⟩, hr, hp⟩ := bind_eq_ok.mp hs
        obtain ⟨hsum, he⟩ := (ih hle).mp hr
        obtain ⟨rfl, rfl⟩ := Prod.mk.inj he
        rw [← Nat.add_assoc]
        exact ⟨hsum, (Except.ok.inj hp).symm⟩
      · rintro ⟨hle, rfl⟩
        rw [← Nat.add_assoc] at hle
        refine ⟨t + count, ?_, ?_⟩
        · rw [orErr_eq_ok, checkedAdd_eq_some]
          exact ⟨by omega, rfl⟩
        · rw [(ih (by omega)).mpr ⟨hle, rfl⟩, ok_bind, ← Nat.add_assoc]
          rfl

/-- The block has as many keys as were counted. -/
def BlockOk (keyRows : List ℕ) (keyDim chunk : ℕ) (block : List F32) : Prop :=
  ∃ count, keyRows[chunk]? = some count ∧ block.length = count * keyDim ∧
    block.length * 4 ≤ maxWord ∧ AllFinite block

theorem denotes_keyBlock (source : String) (keyRows : List ℕ) (keyDim chunk : ℕ) :
    Denotes (keyBlock source keyRows keyDim chunk) fun block bs =>
      BlockOk keyRows keyDim chunk block ∧ bs = block.flatMap scalarBytes := by
  refine (Denotes.still_bind fun count => Denotes.still_bind fun elements =>
    denotes_finiteF32Vec elements _).congr ?_
  intro block bs
  constructor
  · rintro ⟨count, hc, elements, he, ⟨hl, hw, hf⟩, rfl⟩
    obtain ⟨-, rfl⟩ := checkedMul_eq_some.mp (orErr_eq_ok.mp he)
    exact ⟨⟨count, index_eq_ok.mp hc, hl, by rw [hl]; exact hw, hf⟩, rfl⟩
  · rintro ⟨⟨count, hc, hl, hw, hf⟩, rfl⟩
    rw [hl] at hw
    refine ⟨count, index_eq_ok.mpr hc, count * keyDim, ?_, ⟨hl, hw, hf⟩, rfl⟩
    rw [orErr_eq_ok, checkedMul_eq_some]
    exact ⟨by omega, rfl⟩

theorem denotes_keyRowCount (i : ℕ) :
    Denotes (keyRowCount i) fun a bs => a < 2 ^ 64 ∧ bs = leBytes 8 a := by
  refine ((denotes_u64 _).bind_image fun value => Denotes.still _).congr ?_
  intro a bs
  unfold usizeFromU64 maxWord
  constructor
  · rintro ⟨value, hv, _, ⟨hu, rfl⟩, rfl⟩
    rw [if_pos (by omega)] at hu
    obtain rfl := Except.ok.inj hu
    exact ⟨hv, List.append_nil _⟩
  · rintro ⟨ha, rfl⟩
    refine ⟨a, ha, [], ⟨?_, rfl⟩, (List.append_nil _).symm⟩
    rw [if_pos (by omega)]

theorem forall_mem_of_getElem? {α : Type} {xs : List α} {P : α → Prop}
    (h : ∀ (j : ℕ) (x : α), xs[j]? = some x → P x) : ∀ x ∈ xs, P x := by
  intro x hx
  obtain ⟨j, hj⟩ := List.mem_iff_getElem?.mp hx
  exact h j x hj

/-- The columns of as many rows as announced. -/
structure ColumnsOk (rows nChunks : ℕ) (c : Columns) : Prop where
  keyRows : c.keyRows.length = nChunks ∧ ∀ k ∈ c.keyRows, k < 2 ^ 64
  heads : c.heads.length = rows
  gqaGroups : c.gqaGroups.length = rows
  tokens : c.tokens.length = rows
  nVisible : c.nVisible.length = rows ∧ ∀ v ∈ c.nVisible, 0 < v ∧ v < 2 ^ 31
  chunks : c.chunks.length = rows
  chunk : ∀ i chunk, c.chunks[i]? = some chunk → ChunkOk c.nVisible c.keyRows i chunk

def columnsBytes (c : Columns) : List UInt8 :=
  c.keyRows.flatMap (leBytes 8) ++ (c.heads.flatMap i32Bytes ++
    (c.gqaGroups.flatMap i32Bytes ++ (c.tokens.flatMap i64Bytes ++
      (c.nVisible.flatMap (leBytes 4) ++ c.chunks.flatMap (leBytes 4)))))

theorem ChunkOk.lt {nVisible keyRows : List ℕ} {i chunk : ℕ}
    (h : ChunkOk nVisible keyRows i chunk) : chunk < keyRows.length := by
  obtain ⟨-, -, present, -, hp, -⟩ := h
  exact (List.getElem?_eq_some_iff.mp hp).1

theorem denotes_readColumns (source : String) (rows nChunks : ℕ) :
    Denotes (readColumns source rows nChunks) fun c bs =>
      ColumnsOk rows nChunks c ∧ bs = columnsBytes c := by
  have hi32 := fun (what : String) (_ : ℕ) => denotes_i32 what
  have hi64 := fun (what : String) (_ : ℕ) => denotes_i64 what
  refine ((Denotes.collect denotes_keyRowCount nChunks 0).bind_image fun keyRows =>
    (Denotes.collect (hi32 _) rows 0).bind_image fun heads =>
    (Denotes.collect (hi32 _) rows 0).bind_image fun gqaGroups =>
    (Denotes.collect (hi64 _) rows 0).bind_image fun tokens =>
    (Denotes.collect (denotes_visibleCount source) rows 0).bind_image fun nVisible =>
    (Denotes.collect (denotes_chunkId source nChunks keyRows nVisible) rows 0).bind_image
      fun chunks => Denotes.pure _).congr ?_
  intro c bs
  constructor
  · rintro ⟨keyRows, ⟨hkl, hk⟩, _, ⟨heads, ⟨hhl, -⟩, _, ⟨gqaGroups, ⟨hgl, -⟩, _,
      ⟨tokens, ⟨htl, -⟩, _, ⟨nVisible, ⟨hvl, hv⟩, _, ⟨chunks, ⟨hcl, hc⟩, _, ⟨rfl, rfl⟩, rfl⟩,
      rfl⟩, rfl⟩, rfl⟩, rfl⟩, rfl⟩
    constructor
    · refine ⟨⟨hkl, forall_mem_of_getElem? hk⟩, hhl, hgl, htl, ⟨hvl, forall_mem_of_getElem? hv⟩,
        hcl, ?_⟩
      intro i chunk hi
      have hok := (hc i chunk hi).2
      rw [Nat.zero_add] at hok
      exact hok
    · unfold columnsBytes
      rw [List.append_nil]
  · rintro ⟨h, rfl⟩
    refine ⟨c.keyRows, ⟨h.keyRows.1, ?_⟩, _, ⟨c.heads, ⟨h.heads, fun _ _ _ => trivial⟩, _,
      ⟨c.gqaGroups, ⟨h.gqaGroups, fun _ _ _ => trivial⟩, _,
      ⟨c.tokens, ⟨h.tokens, fun _ _ _ => trivial⟩, _, ⟨c.nVisible, ⟨h.nVisible.1, ?_⟩, _,
      ⟨c.chunks, ⟨h.chunks, ?_⟩, [], ⟨rfl, rfl⟩, rfl⟩, rfl⟩, rfl⟩, rfl⟩, rfl⟩, ?_⟩
    · intro j k hj
      exact h.keyRows.2 k (List.mem_of_getElem? hj)
    · intro j v hj
      exact h.nVisible.2 v (List.mem_of_getElem? hj)
    · intro i chunk hi
      have hok := h.chunk i chunk hi
      rw [Nat.zero_add]
      refine ⟨?_, hok⟩
      rw [← h.keyRows.1]
      exact hok.lt
    · unfold columnsBytes
      rw [List.append_nil]

/-- The scalars agree with the counts. -/
structure PayloadOk (rows qDim keyDim : ℕ) (keyRows nVisible : List ℕ) (p : Payload) : Prop where
  q : p.q.length = rows * qDim ∧ p.q.length * 4 ≤ maxWord ∧ AllFinite p.q
  scores : nVisible.sum * 4 ≤ maxWord
  starts : p.starts = nVisible.scanl (· + ·) 0
  baseline : p.baseline.length = nVisible.sum ∧ AllFinite p.baseline
  controlScores : p.controlScores.length = nVisible.sum ∧ AllFinite p.controlScores
  slots : p.keys.length = keyRows.length
  keys : ∀ (j : ℕ) (block : List F32), p.keys[j]? = some block → BlockOk keyRows keyDim j block

def payloadBytes (p : Payload) : List UInt8 :=
  p.q.flatMap scalarBytes ++ (p.baseline.flatMap scalarBytes ++
    (p.controlScores.flatMap scalarBytes ++
      p.keys.flatMap fun block => block.flatMap scalarBytes))

theorem denotes_readPayload (source : String) (rows qDim keyDim : ℕ) (keyRows nVisible : List ℕ) :
    Denotes (readPayload source rows qDim keyDim keyRows nVisible) fun p bs =>
      PayloadOk rows qDim keyDim keyRows nVisible p ∧ bs = payloadBytes p := by
  unfold readPayload
  refine Denotes.congr (Denotes.still_bind fun qCount =>
    Denotes.bind_image (denotes_finiteF32Vec qCount _) fun q => Denotes.still_bind fun scores =>
    Denotes.bind_image (denotes_finiteF32Vec scores.2 _) fun baseline =>
    Denotes.bind_image (denotes_finiteF32Vec scores.2 _) fun controlScores =>
    Denotes.bind_image (Denotes.collect (denotes_keyBlock source keyRows keyDim) keyRows.length 0)
      fun keys => Denotes.pure _) ?_
  intro p bs
  constructor
  · rintro ⟨qCount, hqc, q, ⟨hql, hqw, hqf⟩, _, ⟨scores, hs, baseline, ⟨hbl, hbw, hbf⟩, _,
      ⟨controlScores, ⟨hsl, -, hsf⟩, _, ⟨keys, ⟨hyl, hy⟩, _, ⟨rfl, rfl⟩, rfl⟩, rfl⟩, rfl⟩, rfl⟩
    obtain ⟨-, rfl⟩ := checkedMul_eq_some.mp (orErr_eq_ok.mp hqc)
    obtain ⟨-, rfl⟩ := (scoreStarts_eq_ok (Nat.zero_le maxWord)).mp hs
    rw [Nat.zero_add] at hbl hbw hsl
    constructor
    · refine ⟨⟨hql, by rw [hql]; exact hqw, hqf⟩, hbw, rfl, ⟨hbl, hbf⟩, ⟨hsl, hsf⟩, hyl, ?_⟩
      intro j block hj
      have hok := hy j block hj
      rw [Nat.zero_add] at hok
      exact hok
    · unfold payloadBytes
      rw [List.append_nil]
  · rintro ⟨h, rfl⟩
    have hqw := h.q.2.1
    rw [h.q.1] at hqw
    have hsw := h.scores
    refine ⟨rows * qDim, ?_, p.q, ⟨h.q.1, hqw, h.q.2.2⟩, _, ⟨(p.starts, nVisible.sum), ?_,
      p.baseline, ⟨h.baseline.1, hsw, h.baseline.2⟩, _, ⟨p.controlScores,
      ⟨h.controlScores.1, hsw, h.controlScores.2⟩, _, ⟨p.keys, ⟨h.slots, ?_⟩, [], ⟨rfl, rfl⟩,
      rfl⟩, rfl⟩, rfl⟩, ?_⟩
    · rw [orErr_eq_ok, checkedMul_eq_some]
      exact ⟨by omega, rfl⟩
    · rw [scoreStarts_eq_ok (Nat.zero_le maxWord), Nat.zero_add, h.starts]
      exact ⟨by omega, rfl⟩
    · intro j block hj
      rw [Nat.zero_add]
      exact h.keys j block hj
    · unfold payloadBytes
      rw [List.append_nil]

/-- The fields of a layer that come from the header. -/
def HeaderIs (L : LayerRows) (layer qDim rows nChunks keyDim : ℕ) : Prop :=
  L.layer = layer ∧ L.qDim = qDim ∧ L.rows = rows ∧ L.keys.length = nChunks ∧ L.keyDim = keyDim

/-- The counts of keys are the lengths of the blocks over the width of a key. -/
theorem keyRows_of_blocks {keyDim : ℕ} {rows : List ℕ} {keys : List (List F32)}
    (hpos : 0 < keyDim) (hl : keys.length = rows.length)
    (h : ∀ (j : ℕ) (block : List F32), keys[j]? = some block → BlockOk rows keyDim j block) :
    (keys.map fun block => block.length / keyDim) = rows := by
  apply List.ext_getElem?
  intro j
  rw [List.getElem?_map]
  cases hj : keys[j]? with
  | none =>
      rw [List.getElem?_eq_none_iff, hl] at hj
      rw [Option.map_none, List.getElem?_eq_none hj]
  | some block =>
      obtain ⟨count, hc, hlen, -⟩ := h j block hj
      rw [Option.map_some, hc, hlen, Nat.mul_div_cancel _ hpos]

theorem bodyBytes_eq {c : Columns} {p : Payload} {L : LayerRows} (hk : keyRows L = c.keyRows)
    (h : L.heads = c.heads ∧ L.gqaGroups = c.gqaGroups ∧ L.tokens = c.tokens ∧
      L.nVisible = c.nVisible ∧ L.chunks = c.chunks)
    (h' : L.q = p.q ∧ L.baseline = p.baseline ∧ L.controlScores = p.controlScores ∧
      L.keys = p.keys) :
    bodyBytes L = columnsBytes c ++ payloadBytes p := by
  obtain ⟨h₁, h₂, h₃, h₄, h₅⟩ := h
  obtain ⟨k₁, k₂, k₃, k₄⟩ := h'
  unfold bodyBytes columnsBytes payloadBytes
  rw [hk, h₁, h₂, h₃, h₄, h₅, k₁, k₂, k₃, k₄]
  simp only [List.append_assoc]

theorem denotes_readBody (source : String) {layer qDim rows nChunks keyDim : ℕ}
    (hpos : 0 < keyDim) :
    Denotes (readBody source layer qDim rows nChunks keyDim) fun L bs =>
      (HeaderIs L layer qDim rows nChunks keyDim ∧ Body L ∧ Words L) ∧ bs = bodyBytes L := by
  refine ((denotes_readColumns source rows nChunks).bind_image fun c =>
    (denotes_readPayload source rows qDim keyDim c.keyRows c.nVisible).bind_image fun p =>
    Denotes.pure _).congr ?_
  intro L bs
  constructor
  · rintro ⟨c, hc, _, ⟨p, hp, _, ⟨rfl, rfl⟩, rfl⟩, rfl⟩
    have hrows := keyRows_of_blocks hpos hp.slots hp.keys
    refine ⟨⟨⟨rfl, rfl, rfl, hp.slots.trans hc.keyRows.1, rfl⟩, ⟨hc.heads, hc.gqaGroups,
      hc.tokens, hc.nVisible.1, hc.nVisible.2, hc.chunks, ?_, ⟨hp.q.1, hp.q.2.2⟩, hp.baseline,
      hp.controlScores, ?_, hp.starts⟩, ⟨hp.q.2.1, hp.scores, ?_⟩⟩, ?_⟩
    · intro i chunk hi
      unfold keyRows
      rw [hrows]
      exact hc.chunk i chunk hi
    · apply forall_mem_of_getElem?
      intro j block hj
      obtain ⟨count, -, hlen, -, hfin⟩ := hp.keys j block hj
      exact ⟨hlen ▸ Dvd.intro_left count rfl, hfin⟩
    · apply forall_mem_of_getElem?
      intro j block hj
      obtain ⟨-, -, -, hw, -⟩ := hp.keys j block hj
      exact hw
    · rw [List.append_nil]
      symm
      refine bodyBytes_eq ?_ ⟨rfl, rfl, rfl, rfl, rfl⟩ ⟨rfl, rfl, rfl, rfl⟩
      exact hrows
  · rintro ⟨⟨⟨rfl, rfl, rfl, rfl, rfl⟩, hb, hw⟩, rfl⟩
    have hlen : (keyRows L).length = L.keys.length := List.length_map _
    refine ⟨⟨keyRows L, L.heads, L.gqaGroups, L.tokens, L.nVisible, L.chunks⟩,
      ⟨⟨hlen, ?_⟩, hb.heads, hb.gqaGroups, hb.tokens, ⟨hb.nVisible, hb.visible⟩, hb.chunks,
        hb.chunk⟩, payloadBytes ⟨L.q, L.starts, L.baseline, L.controlScores, L.keys⟩,
      ⟨⟨L.q, L.starts, L.baseline, L.controlScores, L.keys⟩,
        ⟨⟨hb.q.1, hw.q, hb.q.2⟩, hw.scores, hb.starts, hb.baseline, hb.controlScores, hlen.symm,
          ?_⟩, [], ⟨rfl, rfl⟩, (List.append_nil _).symm⟩, ?_⟩
    · intro k hk
      obtain ⟨block, hmem, rfl⟩ := List.mem_map.mp hk
      have hword := hw.keys block hmem
      have hle := Nat.div_le_self block.length L.keyDim
      unfold maxWord at hword
      omega
    · intro j block hj
      have hmem := List.mem_of_getElem? hj
      refine ⟨block.length / L.keyDim, ?_, ?_, hw.keys block hmem, (hb.keys block hmem).2⟩
      · unfold keyRows
        rw [List.getElem?_map, hj, Option.map_some]
      · exact (Nat.div_mul_cancel (hb.keys block hmem).1).symm
    · exact bodyBytes_eq rfl ⟨rfl, rfl, rfl, rfl, rfl⟩ ⟨rfl, rfl, rfl, rfl⟩

/-- The byte counts of the scalars of a file are words. -/
theorem words_of_length {L : LayerRows} (hb : Body L) (h : (bodyBytes L).length ≤ maxWord) :
    Words L := by
  have hkeys : ∀ block ∈ L.keys,
      block.length * 4 ≤ (L.keys.flatMap fun block => block.flatMap scalarBytes).length := by
    intro block hmem
    rw [List.length_flatMap, ← length_scalars]
    exact List.single_le_sum (fun _ _ => Nat.zero_le _) _
      (List.mem_map_of_mem (f := fun block => (block.flatMap scalarBytes).length) hmem)
  have hbase := hb.baseline.1
  unfold bodyBytes at h
  simp only [List.length_append, length_scalars] at h
  constructor
  · omega
  · omega
  · intro block hmem
    have hle := hkeys block hmem
    omega

theorem length_headerBytes {layer qDim rows nChunks keyDim : ℕ} {reserved : List UInt8}
    (h : reserved.length = 4) :
    (headerBytes layer qDim rows nChunks keyDim reserved).length = header := by
  unfold headerBytes header
  simp only [List.length_append, length_leBytes, h]

theorem slice_skip {k n off m : ℕ} {rest : List UInt8} (h : k ≤ off) :
    slice (leBytes k n ++ rest) off m = slice rest (off - k) m := by
  rw [slice_append_right (by rw [length_leBytes]; exact h), length_leBytes]

theorem slice_first {k n : ℕ} {rest : List UInt8} : slice (leBytes k n ++ rest) 0 k = leBytes k n :=
  slice_append_left (length_leBytes k n)

/-- The fields are read where they are written. -/
theorem fields_headerBytes {layer qDim rows nChunks keyDim : ℕ} {reserved rest : List UInt8}
    (hl : layer < 2 ^ 32) (hq : qDim < 2 ^ 32) (hr : rows < 2 ^ 64) (hn : nChunks < 2 ^ 64)
    (hk : keyDim < 2 ^ 32) {raw : List UInt8}
    (h : raw = headerBytes layer qDim rows nChunks keyDim reserved ++ rest) :
    (u32At raw 0 = magic ∧ u32At raw 4 = version) ∧ u32At raw 8 = layer ∧ u32At raw 12 = qDim ∧
      u64At raw 16 = rows ∧ u64At raw 24 = nChunks ∧ u32At raw 32 = keyDim := by
  subst h
  unfold headerBytes u32At u64At
  simp only [List.append_assoc]
  refine ⟨⟨?_, ?_⟩, ?_, ?_, ?_, ?_, ?_⟩
  · rw [slice_first]
    exact leNat_leBytes_of_lt (by decide)
  · rw [slice_skip (by decide), slice_first]
    exact leNat_leBytes_of_lt (by decide)
  · rw [slice_skip (by decide), slice_skip (by decide), slice_first]
    exact leNat_leBytes_of_lt hl
  · rw [slice_skip (by decide), slice_skip (by decide), slice_skip (by decide), slice_first]
    exact leNat_leBytes_of_lt hq
  · rw [slice_skip (by decide), slice_skip (by decide), slice_skip (by decide),
      slice_skip (by decide), slice_first]
    exact leNat_leBytes_of_lt hr
  · rw [slice_skip (by decide), slice_skip (by decide), slice_skip (by decide),
      slice_skip (by decide), slice_skip (by decide), slice_first]
    exact leNat_leBytes_of_lt hn
  · rw [slice_skip (by decide), slice_skip (by decide), slice_skip (by decide),
      slice_skip (by decide), slice_skip (by decide), slice_skip (by decide), slice_first]
    exact leNat_leBytes_of_lt hk

/-- Any long enough bytes with the two marks start with a header. -/
theorem eq_headerBytes {raw : List UInt8} (hlen : header ≤ raw.length)
    (hm : u32At raw 0 = magic) (hv : u32At raw 4 = version) :
    raw = headerBytes (u32At raw 8) (u32At raw 12) (u64At raw 16) (u64At raw 24) (u32At raw 32)
      (slice raw 36 4) ++ raw.drop header := by
  unfold header at hlen ⊢
  have h₄ : ∀ off, off + 4 ≤ 40 → leBytes 4 (u32At raw off) = slice raw off 4 := fun off h =>
    leBytes_leNat_of_length (length_slice (by omega))
  have h₈ : ∀ off, off + 8 ≤ 40 → leBytes 8 (u64At raw off) = slice raw off 8 := fun off h =>
    leBytes_leNat_of_length (length_slice (by omega))
  unfold headerBytes
  rw [← hm, ← hv, h₄ 0 (by decide), h₄ 4 (by decide), h₄ 8 (by decide), h₄ 12 (by decide),
    h₈ 16 (by decide), h₈ 24 (by decide), h₄ 32 (by decide), slice_append_slice (by decide),
    slice_append_slice (by decide), slice_append_slice (by decide), slice_append_slice (by decide),
    slice_append_slice (by decide), slice_append_slice (by decide), slice_append_slice (by decide)]
  exact (List.take_append_drop 40 raw).symm

theorem u32At_lt (raw : List UInt8) (off : ℕ) : u32At raw off < 2 ^ 32 := by
  have hl : (slice raw off 4).length ≤ 4 := by
    rw [length_slice_eq]
    exact Nat.min_le_left _ _
  exact lt_of_lt_of_le (leNat_lt _) (Nat.pow_le_pow_right (by decide) hl)

theorem u64At_lt (raw : List UInt8) (off : ℕ) : u64At raw off < 2 ^ 64 := by
  have hl : (slice raw off 8).length ≤ 8 := by
    rw [length_slice_eq]
    exact Nat.min_le_left _ _
  exact lt_of_lt_of_le (leNat_lt _) (Nat.pow_le_pow_right (by decide) hl)

theorem usizeFromU64_of_lt {v : ℕ} {what : String} (h : v < 2 ^ 64) :
    usizeFromU64 v what = .ok v := by
  unfold usizeFromU64 maxWord
  rw [if_pos (by omega)]

/-- The reader accepts the images of well-formed layers, and returns the layer. -/
theorem parseLayer_eq_ok {raw : List UInt8} {source : String} {L : LayerRows}
    (hlen : raw.length ≤ maxWord) : parseLayer raw source = .ok L ↔
      WellFormed L ∧ ∃ reserved, reserved.length = 4 ∧ raw = layerBytes L reserved := by
  constructor
  · intro h
    unfold parseLayer at h
    split at h
    · cases h
    · rename_i hh
      obtain ⟨_, hm, h⟩ := bind_eq_ok.mp h
      obtain ⟨_, hv, h⟩ := bind_eq_ok.mp h
      rw [usizeFromU64_of_lt (u64At_lt raw 16), usizeFromU64_of_lt (u64At_lt raw 24), ok_bind,
        ok_bind] at h
      obtain ⟨_, hd, h⟩ := bind_eq_ok.mp h
      obtain ⟨_, hn, h⟩ := bind_eq_ok.mp h
      obtain ⟨⟨out, c⟩, hb, h⟩ := bind_eq_ok.mp h
      obtain ⟨_, ho, h⟩ := bind_eq_ok.mp h
      obtain rfl := Except.ok.inj h
      rw [require_eq_ok] at hm hv hd hn ho
      rw [not_or] at hd
      have hden := @denotes_readBody source (u32At raw 8) (u32At raw 12) (u64At raw 16)
        (u64At raw 24) _ (Nat.pos_of_ne_zero hd.2)
      obtain ⟨⟨⟨h₁, h₂, h₃, h₄, h₅⟩, hbody, hw⟩, hrest⟩ :=
        (hden.run_to_end (c := ⟨raw, header, not_lt.mp hh⟩) hlen).mp ⟨c, hb, ho⟩
      have hwf : WellFormed out :=
        { hbody with
          layer := by rw [h₁]; exact u32At_lt raw 8
          qDim := by rw [h₂]; exact ⟨Nat.pos_of_ne_zero hd.1, u32At_lt raw 12⟩
          keyDim := by rw [h₅]; exact ⟨Nat.pos_of_ne_zero hd.2, u32At_lt raw 32⟩
          rowsWord := by rw [h₃]; exact u64At_lt raw 16
          slots := by rw [h₄]; exact ⟨Nat.pos_of_ne_zero hn, u64At_lt raw 24⟩ }
      refine ⟨hwf, slice raw 36 4, length_slice (by unfold header at hh; omega), ?_⟩
      unfold layerBytes
      rw [h₁, h₂, h₃, h₄, h₅, ← hrest]
      exact eq_headerBytes (not_lt.mp hh) hm hv
  · rintro ⟨hwf, reserved, hres, hraw⟩
    obtain ⟨⟨hm, hv⟩, h₁, h₂, h₃, h₄, h₅⟩ := fields_headerBytes hwf.layer hwf.qDim.2 hwf.rowsWord
      hwf.slots.2 hwf.keyDim.2 hraw
    have hhl := @length_headerBytes L.layer L.qDim L.rows L.keys.length L.keyDim reserved hres
    have hraw' : raw.length = header + (bodyBytes L).length := by
      rw [hraw, ← hhl]
      exact List.length_append
    have hrest : raw.drop header = bodyBytes L := by
      rw [hraw, ← hhl]
      exact List.drop_left
    have hh : ¬ raw.length < header := by omega
    have hq := hwf.qDim.1
    have hk := hwf.keyDim.1
    have hs := hwf.slots.1
    have hden := @denotes_readBody source L.layer L.qDim L.rows L.keys.length _ hk
    obtain ⟨c, hb, ho⟩ := (hden.run_to_end (c := ⟨raw, header, not_lt.mp hh⟩) hlen).mpr
      ⟨⟨⟨rfl, rfl, rfl, rfl, rfl⟩, hwf.toBody, words_of_length hwf.toBody (by omega)⟩, hrest⟩
    unfold parseLayer
    rw [dif_neg hh, require_of hm, require_of hv, h₁, h₂, h₃, h₄, h₅,
      usizeFromU64_of_lt hwf.rowsWord, usizeFromU64_of_lt hwf.slots.2]
    simp only [ok_bind]
    rw [require_of (by omega), require_of (by omega), ok_bind, ok_bind, hb, ok_bind,
      require_of ho]
    rfl

end SlhaV2.RankFormat
