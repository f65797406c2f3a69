import SlhaV2.WeightsFile

/-!
# Corrupted weight files

The loader always answers, and it never accepts a damaged file: a changed byte
breaks a header field, the size equation or the checksum, and a cut or longer
file breaks the size equation. An accepted file is the one which the model it
yields is written to.
-/
namespace SlhaV2.WeightsIntegrity
open ByteBuffer MachineWord CheckedSteps SlhaTile EventLog Learned WeightsFile

section Answers

theorem noPanic_orError {α : Type} {o : Option α} {msg : String} : NoPanic (orError o msg) := by
  cases o with
  | none => exact NoPanic.err msg
  | some a => exact NoPanic.ok a

theorem noPanic_expectedFileSize (header d : ℕ) : NoPanic (expectedFileSize header d) :=
  (noPanic_orError.bind fun _ _ => noPanic_orError).bind fun _ _ => noPanic_orError

theorem noPanic_headerOf (version : ℕ) : NoPanic (headerOf version) := by
  unfold headerOf
  split_ifs
  · exact NoPanic.ok _
  · exact NoPanic.ok _
  · exact NoPanic.err _

theorem noPanic_rhtOf (flag : UInt8) : NoPanic (rhtOf flag) := by
  unfold rhtOf
  split_ifs
  · exact NoPanic.ok _
  · exact NoPanic.ok _
  · exact NoPanic.err _

theorem noPanic_verifyChecksum {version : ℕ} {bytes : List UInt8}
    (h : version = weightsVersion → weightsHeader ≤ bytes.length) :
    NoPanic (verifyChecksum version bytes) := by
  unfold verifyChecksum
  split_ifs with hv
  · have hlen : 28 ≤ bytes.length := h hv
    have hrest : weightsHeader + (bytes.length - weightsHeader) ≤ bytes.length :=
      (Nat.add_sub_of_le hlen).le
    rw [fieldAt_of_le hlen, ok_bind, indexRange_of_le (le_trans (by decide) hlen), ok_bind,
      indexRange_of_le hrest, ok_bind]
    exact NoPanic.require
  · exact NoPanic.ok _

theorem noPanic_readHeader (bytes : List UInt8) : NoPanic (readHeader bytes) := by
  unfold readHeader
  refine NoPanic.require.bind fun _ hlen => ?_
  have h24 : 24 ≤ bytes.length := require_eq_ok.mp hlen
  rw [fieldAt_of_le (by omega), ok_bind]
  refine NoPanic.require.bind fun _ _ => ?_
  rw [fieldAt_of_le (by omega), ok_bind]
  refine (noPanic_headerOf _).bind fun size hsize => ?_
  refine NoPanic.require.bind fun _ hle => ?_
  rw [fieldAt_of_le (by omega), ok_bind]
  refine NoPanic.require.bind fun _ _ => ?_
  rw [fieldAt_of_le (by omega), ok_bind, index_of_lt (by omega), ok_bind]
  refine (noPanic_rhtOf _).bind fun rht _ => ?_
  rw [indexRange_of_le (by omega), ok_bind]
  refine NoPanic.require.bind fun _ _ => ?_
  refine (noPanic_expectedFileSize _ _).bind fun expected _ => ?_
  refine NoPanic.require.bind fun _ _ => ?_
  refine (noPanic_verifyChecksum fun hv => ?_).bind fun _ _ => NoPanic.ok _
  rw [hv] at hsize
  exact (Except.ok.inj hsize).trans_le (require_eq_ok.mp hle)

theorem noPanic_readProjection {bytes : List UInt8} {header : ℕ} (hmax : bytes.length ≤ maxWord)
    {n i : ℕ} (hle : header + 4 * (i + n) ≤ bytes.length) :
    NoPanic (readProjection bytes header n i) := by
  induction n generalizing i with
  | zero => exact NoPanic.ok []
  | succ n ih =>
      unfold readProjection
      rw [wordMul_of_le (by omega), ok_bind, wordAdd_of_le (by omega), ok_bind,
        wordAdd_of_le (by omega), ok_bind, fieldAt_of_le (by omega), ok_bind]
      refine NoPanic.require.bind fun _ _ => ?_
      exact (ih (by omega)).bind fun _ _ => NoPanic.ok _

/-- Loading any bytes whatsoever returns a model or an error. -/
theorem noPanic_fromBytes (bytes : List UInt8) : NoPanic (fromBytes bytes) := by
  refine (noPanic_readHeader bytes).bind fun h hh => ?_
  have hl := readHeader_eq_ok.mp hh
  obtain ⟨hd, hlen, hmax⟩ := hl.bounds
  have hread : h.size + 4 * (0 + dC * h.d) ≤ bytes.length := by rw [hlen, Nat.zero_add]
  rw [projectionLen_of_lt hd, ok_bind]
  refine (noPanic_readProjection hmax hread).bind fun p hp => ?_
  have hcount := ((readProjection_eq_ok hmax hread).mp hp).1
  rw [tryFromProjectionWith_ok ((Nat.zero_le _).trans_lt hl.wide) hd hcount]
  exact NoPanic.ok _

end Answers

section Damage
variable {b c : List UInt8} {h h' : Header}

theorem Layout.size_eq (hl : Layout b h) (hv : h.version = weightsVersion) :
    h.size = weightsHeader := by
  have hs := hl.size
  rw [hv] at hs
  exact (Except.ok.inj hs).symm

/-- Files with the same version and dimension have the same length. -/
theorem length_eq_of_layouts (hl : Layout b h) (hl' : Layout c h')
    (hversion : slice c 4 4 = slice b 4 4) (hdim : slice c 8 4 = slice b 8 4) :
    c.length = b.length := by
  have hv : h'.version = h.version := by rw [hl.version, hl'.version, hversion]
  have hd : h'.d = h.d := by rw [hl.dimension, hl'.dimension, hdim]
  have hs : h'.size = h.size := by
    have hs' := hl'.size
    rw [hv, hl.size] at hs'
    exact (Except.ok.inj hs').symm
  rw [hl.length, hl'.length, hs, hd]

theorem slice_set_outside {off len i : ℕ} (x : UInt8) (hi : i < off ∨ off + len ≤ i) :
    slice (b.set i x) off len = slice b off len := by
  rw [slice_set]
  split_ifs with ho
  · exact List.set_eq_of_length_le (by rw [length_slice_eq]; omega)
  · rfl

/-- A changed byte changes the number in the field around it. -/
theorem leNat_slice_set_ne {off len i : ℕ} {x : UInt8} (hlo : off ≤ i) (hhi : i < off + len)
    (hi : i < b.length) (hx : b[i]? ≠ some x) :
    leNat (slice (b.set i x) off len) ≠ leNat (slice b off len) := by
  intro heq
  have hsame := leNat_injective (by rw [length_slice_eq, length_slice_eq, List.length_set]) heq
  have hget := congrArg (fun l => l[i - off]?) hsame
  simp only [getElem?_slice] at hget
  rw [if_pos (by omega), if_pos (by omega), Nat.add_sub_of_le hlo, List.getElem?_set_self hi]
    at hget
  exact hx hget.symm

/-- A byte changed under the checksum changes the checksum. -/
theorem weightsChecksum_set_ne {common payload : List UInt8} {i : ℕ} {x : UInt8}
    (hi : i < (common ++ payload).length) (hx : (common ++ payload)[i]? ≠ some x) :
    ((common ++ payload).set i x).foldl fnvStep fnvOffset ≠ weightsChecksum common payload :=
  fnvStep_lossless.foldl_set_ne hi hx fnvOffset

/-- A changed byte outside the stored checksum changes the checksum. -/
theorem covered_set_ne {i : ℕ} {x : UInt8} (hout : i < 24 ∨ 28 ≤ i) (hi : i < b.length)
    (hx : b[i]? ≠ some x) :
    weightsChecksum (slice (b.set i x) 0 commonHeader) ((b.set i x).drop weightsHeader) ≠
      weightsChecksum (slice b 0 commonHeader) (b.drop weightsHeader) := by
  have hheader : weightsHeader = 28 := rfl
  have hcommon : commonHeader = 24 := rfl
  by_cases hlt : i < 24
  · have hhead : slice (b.set i x) 0 commonHeader = (slice b 0 commonHeader).set i x := by
      rw [slice_set, if_pos (Nat.zero_le i), Nat.sub_zero]
    have htail : (b.set i x).drop weightsHeader = b.drop weightsHeader := by
      rw [List.drop_set, if_pos (by omega)]
    have hlen : i < (slice b 0 commonHeader).length := by
      rw [length_slice_eq]
      omega
    rw [hhead, htail]
    unfold weightsChecksum
    rw [← List.set_append_left i x hlen]
    refine weightsChecksum_set_ne (by rw [List.length_append]; omega) ?_
    rwa [List.getElem?_append_left hlen, getElem?_slice, if_pos (by omega), Nat.zero_add]
  · have hhead : slice (b.set i x) 0 commonHeader = slice b 0 commonHeader :=
      slice_set_outside x (by omega)
    have htail : (b.set i x).drop weightsHeader = (b.drop weightsHeader).set (i - 28) x := by
      rw [List.drop_set, if_neg (by omega), hheader]
    have hlen : (slice b 0 commonHeader).length = 24 := length_slice (by omega)
    rw [hhead, htail]
    unfold weightsChecksum
    have hset := List.set_append_right (s := slice b 0 commonHeader)
      (t := b.drop weightsHeader) (i - 4) x (by omega)
    rw [hlen, show i - 4 - 24 = i - 28 by omega] at hset
    rw [← hset]
    refine weightsChecksum_set_ne (by rw [List.length_append, hlen, List.length_drop]; omega) ?_
    rw [List.getElem?_append_right (by omega), hlen, List.getElem?_drop, hheader]
    rwa [show 28 + (i - 4 - 24) = i by omega]

/-- No byte of a current file can change without the file being rejected. -/
theorem layout_set_false {i : ℕ} {x : UInt8} (hl : Layout b h) (hv : h.version = weightsVersion)
    (hi : i < b.length) (hx : b[i]? ≠ some x) (hl' : Layout (b.set i x) h') : False := by
  have hsize := Layout.size_eq hl hv
  have hlen : b.length = 28 + dC * h.d * 4 := by
    rw [hl.length, hsize]
  have hlen' : b.length = h'.size + dC * h'.d * 4 := by
    rw [← hl'.length, List.length_set]
  by_cases h4 : i < 4
  · -- the magic number
    have hne : leNat (slice (b.set i x) 0 4) ≠ leNat (slice b 0 4) :=
      leNat_slice_set_ne (Nat.zero_le i) (by omega) hi hx
    rw [hl'.magic, hl.magic] at hne
    exact hne rfl
  by_cases h8 : i < 8
  · -- the version: only the older one is left, whose header is shorter
    have hver : h'.version ≠ weightsVersion := by
      rw [hl'.version, ← hv, hl.version]
      exact leNat_slice_set_ne (by omega) (by omega) hi hx
    have hdim : h'.d = h.d := by
      rw [hl'.dimension, hl.dimension, slice_set_outside x (by omega)]
    obtain ⟨-, hs⟩ | ⟨hv', -⟩ := headerOf_eq_ok.mp hl'.size
    · rw [hs, hdim] at hlen'
      have hcommon : commonHeader = 24 := rfl
      omega
    · exact hver hv'
  have hver : h'.version = weightsVersion := by
    rw [hl'.version, slice_set_outside x (by omega), ← hl.version, hv]
  have hsize' := Layout.size_eq hl' hver
  by_cases h12 : i < 12
  · -- the dimension, which the length determines
    have hdim : h'.d ≠ h.d := by
      rw [hl'.dimension, hl.dimension]
      exact leNat_slice_set_ne (by omega) (by omega) hi hx
    rw [hsize'] at hlen'
    have hd : dC * h.d = dC * h'.d := by
      have hheader : weightsHeader = 28 := rfl
      omega
    exact hdim (Nat.eq_of_mul_eq_mul_left (by decide) hd).symm
  have hsum := hl.checksum hv
  have hsum' := hl'.checksum hver
  by_cases hstored : 24 ≤ i ∧ i < 28
  · -- the stored checksum itself
    have hhead : slice (b.set i x) 0 commonHeader = slice b 0 commonHeader :=
      slice_set_outside x (Or.inr (by
        have hheader : commonHeader = 24 := rfl
        omega))
    have htail : (b.set i x).drop weightsHeader = b.drop weightsHeader := by
      rw [List.drop_set, if_pos (show i < 28 from hstored.2)]
    rw [hhead, htail, ← hsum] at hsum'
    have hwidth : (slice b 24 4).length = 4 := length_slice (by omega)
    have hwidth' : (slice (b.set i x) 24 4).length = 4 := length_slice (by
      rw [List.length_set]
      omega)
    have hslice : slice (b.set i x) 24 4 = slice b 24 4 := by
      rw [← leBytes_ofNat_leNat hwidth', ← leBytes_ofNat_leNat hwidth]
      exact congrArg (fun w => leBytes 4 w.toNat) hsum'
    exact leNat_slice_set_ne hstored.1 hstored.2 hi hx (congrArg leNat hslice)
  · -- a byte under the checksum
    have hkeep : slice (b.set i x) commonHeader 4 = slice b commonHeader 4 :=
      slice_set_outside x (by
        have hheader : commonHeader = 24 := rfl
        omega)
    rw [hkeep, hsum] at hsum'
    exact covered_set_ne (by omega) hi hx hsum'.symm

/-- A file that agrees in version and dimension but not in length is rejected. -/
theorem layout_length_false (hl : Layout b h) (hc : c.length ≠ b.length)
    (hagree : 24 ≤ c.length → slice c 4 4 = slice b 4 4 ∧ slice c 8 4 = slice b 8 4)
    (hl' : Layout c h') : False := by
  have hlen : 24 ≤ c.length := by
    rw [hl'.length]
    exact (headerOf_le hl'.size).1.trans (Nat.le_add_right _ _)
  exact hc (length_eq_of_layouts hl hl' (hagree hlen).1 (hagree hlen).2)

theorem slice_take {off len n : ℕ} (hn : off + len ≤ n) (l : List UInt8) :
    slice (l.take n) off len = slice l off len := by
  apply List.ext_getElem?
  intro k
  rw [getElem?_slice, getElem?_slice]
  split_ifs with hk
  · rw [List.getElem?_take_of_lt (by omega)]
  · rfl

/-- What has no layout is reported. -/
theorem fromBytes_err (hno : ∀ h, ¬ Layout b h) : ∃ msg, fromBytes b = .error (.err msg) := by
  refine (noPanic_fromBytes b).exists_err fun m hm => ?_
  obtain ⟨h, -, hl, -⟩ := fromBytes_eq_ok.mp hm
  exact hno h hl

end Damage

/-- The seed and the flag which a file carries. -/
def seedOf (bytes : List UInt8) : UInt64 := UInt64.ofNat (leNat (slice bytes 12 8))
def rhtFlagOf (bytes : List UInt8) : Bool := bytes[20]? = some 1
def versionOf (bytes : List UInt8) : ℕ := leNat (slice bytes 4 4)

/-- A written file is never accepted after one byte changed, after it was cut, or with bytes added;
any bytes get an answer; and an accepted current file is what its model is written to. -/
theorem weights_integrity (b : List UInt8) :
    (∀ m seed rht, tryToBytes m seed rht = .ok b →
      (∀ i x, i < b.length → b[i]? ≠ some x → ∃ msg, fromBytes (b.set i x) = .error (.err msg)) ∧
      (∀ n, n < b.length → ∃ msg, fromBytes (b.take n) = .error (.err msg)) ∧
      ∀ extra, extra ≠ [] → ∃ msg, fromBytes (b ++ extra) = .error (.err msg)) ∧
    NoPanic (fromBytes b) ∧
    ∀ m, fromBytes b = .ok m → versionOf b = weightsVersion →
      tryToBytes m (seedOf b) (rhtFlagOf b) = .ok b := by
  refine ⟨fun m seed rht hb => ?_, noPanic_fromBytes b, fun m hm hversion => ?_⟩
  · obtain ⟨hwide, hlt, hlen, -, rfl⟩ := tryToBytes_eq_ok.mp hb
    have hl := layout_encodeFile hwide hlt seed rht hlen
    refine ⟨fun i x hi hx => ?_, fun n hn => ?_, fun extra hextra => ?_⟩
    · exact fromBytes_err fun h' hl' => layout_set_false hl rfl hi hx hl'
    · refine fromBytes_err fun h' hl' => layout_length_false hl ?_ (fun h24 => ?_) hl'
      · rw [List.length_take]
        omega
      · rw [List.length_take] at h24
        exact ⟨slice_take (by omega) _, slice_take (by omega) _⟩
    · have hshort : 24 ≤ (encodeFile m.d seed rht m.evec).length := by
        rw [hl.length]
        exact le_trans (by decide) (Nat.le_add_right weightsHeader _)
      refine fromBytes_err fun h' hl' => layout_length_false hl ?_ (fun _ => ?_) hl'
      · rw [List.length_append]
        have hpos := List.length_pos_of_ne_nil hextra
        omega
      · exact ⟨slice_append_of_le (by omega), slice_append_of_le (by omega)⟩
  · obtain ⟨h, p, hl, hlen, hfin, henc, rfl⟩ := fromBytes_eq_ok.mp hm
    have hv : h.version = weightsVersion := hl.version.trans hversion
    obtain ⟨flag, hflag, hrht⟩ := hl.flag
    have hseed : seedOf b = h.seed := hl.seed.symm
    have hrhtOf : rhtFlagOf b = h.rht := by
      rw [rhtFlagOf, hflag, rhtOf_eq_ok.mp hrht]
      cases h.rht <;> decide
    rw [hseed, hrhtOf]
    exact tryToBytes_eq_ok.mpr ⟨hl.wide, hl.bounds.1, hlen, hfin, hl.eq_encodeFile hv henc⟩

/-- A projection of 129 zero columns. -/
def zeroProjection : List Float32 := List.replicate (128 * 129) (.ofBits 0)

/-- The file of the zero projection, with its first byte changed. -/
theorem weights_integrity_first_byte :
    ∃ msg, fromBytes ((encodeFile 129 7 false zeroProjection).set 0 0) = .error (.err msg) := by
  have hlen : zeroProjection.length = dC * 129 := List.length_replicate
  have hfin : ∀ x ∈ zeroProjection, x.isFinite = true := by
    intro x hx
    rw [List.eq_of_mem_replicate hx]
    decide
  have hwrite : tryToBytes (ofProjection zeroProjection 129 7 false) 7 false =
      .ok (encodeFile 129 7 false zeroProjection) :=
    tryToBytes_eq_ok.mpr ⟨by decide, by decide, hlen, hfin, rfl⟩
  have hfirst : (encodeFile 129 7 false zeroProjection)[0]? = some 0x57 := by
    rw [encodeFile, List.append_assoc, encodeCommon_append]
    rfl
  have hpos : 0 < (encodeFile 129 7 false zeroProjection).length :=
    (List.getElem?_eq_some_iff.mp hfirst).1
  exact ((weights_integrity _).1 _ 7 false hwrite).1 0 0 hpos (by
    rw [hfirst]
    decide)

end SlhaV2.WeightsIntegrity
