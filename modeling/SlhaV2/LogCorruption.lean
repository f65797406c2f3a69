import SlhaV2.LogRecovery

/-!
# Single-byte changes of a checksummed log

Every byte of a record is in its checksum or is the checksum, and the checksum
loses nothing, so a record with one byte changed does not decode. A changed
header is refused, or changes nothing the records depend on: even the legacy
version, which turns the checks off, reads the same frames the same way.
-/
namespace SlhaV2.LogCorruption
open ByteBuffer TileCodec HostFile SlhaTile EventLog EventLogRuns LogRecovery Framing Log

/-- What the checksum of a frame covers. -/
def covered (frame : Bytes recordBytes) : List UInt8 := slice frame.1 0 12 ++ slice frame.1 16 128

def storedChecksum (frame : Bytes recordBytes) : UInt32 :=
  UInt32.ofNat (leNat (slice frame.1 12 4))

theorem recordChecksum_eq (frame : Bytes recordBytes) :
    recordChecksum (UInt64.ofNat (leNat (slice frame.1 0 8)))
        (UInt32.ofNat (leNat (slice frame.1 8 4))) (field frame 16 tileBytes (by decide)) =
      (covered frame).foldl fnvStep fnvOffset := by
  have hlen : ∀ off n, off + n ≤ recordBytes → (slice frame.1 off n).length = n := by
    intro off n hle
    exact length_slice (by rw [frame.2]; exact hle)
  have hseq : leBytes 8 (UInt64.ofNat (leNat (slice frame.1 0 8))).toNat = slice frame.1 0 8 := by
    have hlt := leNat_lt (slice frame.1 0 8)
    rw [hlen 0 8 (by decide)] at hlt
    have hmod : leNat (slice frame.1 0 8) % 2 ^ 64 = leNat (slice frame.1 0 8) :=
      Nat.mod_eq_of_lt hlt
    rw [UInt64.toNat_ofNat', hmod, leBytes_leNat_of_length (hlen 0 8 (by decide))]
  have hslot : leBytes 4 (UInt32.ofNat (leNat (slice frame.1 8 4))).toNat = slice frame.1 8 4 := by
    have hlt := leNat_lt (slice frame.1 8 4)
    rw [hlen 8 4 (by decide)] at hlt
    have hmod : leNat (slice frame.1 8 4) % 2 ^ 32 = leNat (slice frame.1 8 4) :=
      Nat.mod_eq_of_lt hlt
    rw [UInt32.toNat_ofNat', hmod, leBytes_leNat_of_length (hlen 8 4 (by decide))]
  have hjoin : slice frame.1 0 12 = slice frame.1 0 8 ++ slice frame.1 8 4 :=
    (slice_append_slice (m := 8) (n := 4) rfl).symm
  unfold recordChecksum covered
  rw [hseq, hslot, hjoin, List.foldl_append, List.foldl_append]
  rfl

/-- A checked frame decodes when it stores the checksum of what it covers. -/
theorem decodeRecord_error {frame : Bytes recordBytes}
    (h : storedChecksum frame ≠ (covered frame).foldl fnvStep fnvOffset) :
    decodeRecord version2 frame = .error (invalid "EventLog: record checksum mismatch") := by
  rw [← recordChecksum_eq] at h
  exact if_pos ⟨rfl, h⟩

theorem stored_of_decodeRecord {frame : Bytes recordBytes} {r : LogRecord}
    (h : decodeRecord version2 frame = .ok r) :
    storedChecksum frame = (covered frame).foldl fnvStep fnvOffset := by
  by_contra hne
  rw [decodeRecord_error hne] at h
  cases h

theorem decodeRecord_versionV1 {frame : Bytes recordBytes} {r : LogRecord}
    (h : decodeRecord version2 frame = .ok r) : decodeRecord versionV1 frame = .ok r := by
  unfold decodeRecord at h ⊢
  dsimp only at h ⊢
  rw [if_neg fun hv => absurd hv.1 (by decide)]
  split_ifs at h with hcheck
  exact h

/-- A frame with one byte changed. -/
def changed (frame : Bytes recordBytes) (i : ℕ) (b : UInt8) : Bytes recordBytes :=
  ⟨frame.1.set i b, by rw [List.length_set, frame.2]⟩

theorem length_part (frame : Bytes recordBytes) {off n : ℕ} (h : off + n ≤ recordBytes) :
    (slice frame.1 off n).length = n :=
  length_slice (by rw [frame.2]; exact h)

theorem length_covered (frame : Bytes recordBytes) : (covered frame).length = 140 := by
  rw [covered, List.length_append, length_part frame (by decide), length_part frame (by decide)]

section Changed
variable {frame : Bytes recordBytes} {i : ℕ} {b : UInt8}

/-- A change before the checksum field is a change of what is covered. -/
theorem changed_before (hi : i < 12) :
    storedChecksum (changed frame i b) = storedChecksum frame ∧
      covered (changed frame i b) = (covered frame).set i b ∧
      (covered frame)[i]? = frame.1[i]? := by
  have hlen := length_part frame (by decide : 0 + 12 ≤ recordBytes)
  refine ⟨?_, ?_, ?_⟩
  · rw [storedChecksum, changed, slice_set, if_neg (by omega)]
    rfl
  · rw [covered, changed, slice_set, slice_set, if_pos (Nat.zero_le i), if_neg (by omega),
      Nat.sub_zero, covered, List.set_append_left i b (by omega)]
  · rw [covered, List.getElem?_append_left (by omega), getElem?_slice, if_pos hi, Nat.zero_add]

/-- A change behind the checksum field is one too. -/
theorem changed_behind (hlow : 16 ≤ i) (hi : i < recordBytes) :
    storedChecksum (changed frame i b) = storedChecksum frame ∧
      covered (changed frame i b) = (covered frame).set (i - 4) b ∧
      (covered frame)[i - 4]? = frame.1[i]? := by
  have hlen := length_part frame (by decide : 0 + 12 ≤ recordBytes)
  have hfour := length_part frame (by decide : 12 + 4 ≤ recordBytes)
  have hindex : i - 4 - 12 = i - 16 := by omega
  refine ⟨?_, ?_, ?_⟩
  · rw [storedChecksum, changed, slice_set, if_pos (by omega), List.set_eq_of_length_le (by omega)]
    rfl
  · rw [covered, changed, slice_set, slice_set, if_pos (Nat.zero_le i), if_pos hlow,
      List.set_eq_of_length_le (by omega), covered, List.set_append_right (i - 4) b (by omega), hlen, hindex]
  · rw [covered, List.getElem?_append_right (by omega), hlen, hindex, getElem?_slice,
      if_pos (Nat.sub_lt_left_of_lt_add hlow hi), Nat.add_sub_cancel' hlow]

/-- A change of the checksum field changes the stored checksum only. -/
theorem changed_checksum (hlow : 12 ≤ i) (hi : i < 16) (hb : frame.1[i]? ≠ some b) :
    storedChecksum (changed frame i b) ≠ storedChecksum frame ∧
      covered (changed frame i b) = covered frame := by
  have hlen := length_part frame (by decide : 0 + 12 ≤ recordBytes)
  have hfour := length_part frame (by decide : 12 + 4 ≤ recordBytes)
  refine ⟨?_, ?_⟩
  · intro heq
    have hlt : ∀ l : List UInt8, l.length = 4 → (UInt32.ofNat (leNat l)).toNat = leNat l := by
      intro l hl
      have hbound := leNat_lt l
      rw [hl] at hbound
      rw [UInt32.toNat_ofNat']
      exact Nat.mod_eq_of_lt hbound
    have hset : ((slice frame.1 12 4).set (i - 12) b).length = 4 := by rw [List.length_set, hfour]
    have hnat := congrArg UInt32.toNat heq
    rw [storedChecksum, storedChecksum, changed, slice_set, if_pos hlow, hlt _ hset,
      hlt _ hfour] at hnat
    have hsame := leNat_injective (hset.trans hfour.symm) hnat
    have hget : (slice frame.1 12 4)[i - 12]? = frame.1[i]? := by
      rw [getElem?_slice, if_pos (by omega), Nat.add_sub_cancel' hlow]
    rw [← hget, ← hsame, List.getElem?_set_self (by omega)] at hb
    exact hb rfl
  · rw [covered, changed, slice_set, slice_set, if_pos (Nat.zero_le i), if_neg (by omega),
      List.set_eq_of_length_le (by omega), covered]

/-- No single change of a frame keeps its checksum right. -/
theorem decodeRecord_changed {r : LogRecord} (h : decodeRecord version2 frame = .ok r)
    (hi : i < recordBytes) (hb : frame.1[i]? ≠ some b) :
    decodeRecord version2 (changed frame i b) =
      .error (invalid "EventLog: record checksum mismatch") := by
  apply decodeRecord_error
  have hstored := stored_of_decodeRecord h
  have hlen := length_covered frame
  have hend : i < 144 := hi
  rcases lt_or_ge i 12 with hlow | hlow
  · obtain ⟨hsame, hset, hget⟩ := changed_before (b := b) hlow
    rw [hsame, hset, hstored]
    exact (fnvStep_lossless.foldl_set_ne (by omega) (hget ▸ hb) _).symm
  rcases lt_or_ge i 16 with hfield | hfield
  · obtain ⟨hne, hsame⟩ := changed_checksum hlow hfield hb
    rw [hsame, ← hstored]
    exact hne
  · obtain ⟨hsame, hset, hget⟩ := changed_behind (b := b) hfield hi
    rw [hsame, hset, hstored]
    exact (fnvStep_lossless.foldl_set_ne (by omega) (hget ▸ hb) _).symm

end Changed

/-- A file with a bad complete record behind the current header cannot be opened. -/
theorem openImpl_bad_frame {bytes : List UInt8} {k : ℕ}
    (hlen : headerBytes + recordBytes * (k + 1) ≤ bytes.length)
    (hhead : HeaderOf version2 (slice bytes 0 headerBytes)) {frame : Bytes recordBytes}
    (hframe : slice bytes (headerBytes + recordBytes * k) recordBytes = frame.1)
    (hbad : ∀ r, decodeRecord version2 frame ≠ .ok r) (recoverTail writable : Bool) :
    ∃ e, (openImpl bytes recoverTail writable).1 = .error e := by
  rcases hopen : openImpl bytes recoverTail writable with ⟨result, after⟩
  cases result with
  | error e => exact ⟨e, rfl⟩
  | ok log =>
      obtain ⟨⟨rs, hrs⟩, -, rest, hbytes, hrest⟩ := represents_of_openImpl hopen
      have hlength := hrs.length
      obtain ⟨head, body, hlog, hlogHead, hbody⟩ := hrs.contents
      have hfirst : slice bytes 0 headerBytes = head := by
        rw [hbytes, hlog, List.append_assoc, slice_append_left hlogHead.length]
      have hversion : log.version = version2 := by
        rw [← hlogHead.version, ← hhead.version, hfirst]
      have hk : k < rs.length := by
        have htotal := congrArg List.length hbytes
        rw [List.length_append, hlength] at htotal
        by_contra hge
        have hmul := Nat.mul_le_mul_left recordBytes (not_lt.mp hge)
        rw [Nat.mul_succ] at hlen
        omega
      have hin : recordBytes * k + recordBytes ≤ body.length := by
        rw [hbody.length, ← Nat.mul_succ]
        exact Nat.mul_le_mul_left _ hk
      have hslice : slice body (recordBytes * k) recordBytes = frame.1 := by
        rw [← hframe, hbytes, hlog, List.append_assoc, slice_append_right (by
          rw [hlogHead.length]
          exact Nat.le_add_right _ _), hlogHead.length, Nat.add_sub_cancel_left,
          slice_append_of_le hin]
      rw [hversion] at hbody
      exact absurd (hbody.decode_slice hk hslice) (hbad _)

/-- What can happen to a log between two calls of its owner. -/
inductive Write where
  | append (r : LogRecord) (faults : Faults)
  | appendDurable (r : LogRecord) (faults : Faults)
  | reopen (recoverTail writable : Bool)
deriving DecidableEq

/-- The log, and the records whose append succeeded. -/
def write (s : Log × List LogRecord) : Write → Log × List LogRecord
  | .append r faults =>
      match s.1.append r faults with
      | (.ok _, log) => (log, s.2 ++ [r])
      | (.error _, log) => (log, s.2)
  | .appendDurable r faults =>
      match s.1.appendDurable r faults with
      | (.ok _, log) => (log, s.2 ++ [r])
      | (.error _, log) => (log, s.2)
  | .reopen recoverTail writable =>
      match openImpl s.1.file.bytes recoverTail writable with
      | (.ok log, _) => (log, s.2)
      | (.error _, _) => s

/-- The host cuts the file back when an append fails. -/
def Write.CutsBack : Write → Prop
  | .append _ faults | .appendDurable _ faults => faults.truncate = true
  | .reopen _ _ => True

/-- The file is the header and the frames of the records, in the current format. -/
structure Written (log : Log) (rs : List LogRecord) : Prop where
  represents : Represents log rs
  version : log.version = version2
  bytes : log.file.bytes = header ++ rs.flatMap (encodeRecord version2)

theorem Written.moved {log : Log} {rs : List LogRecord} (h : Written log rs) {file : File}
    (hb : file.bytes = log.file.bytes) (writable : Bool) :
    Written { log with file := file, writable := writable } rs :=
  ⟨h.represents.moved hb, h.version, hb.trans h.bytes⟩

theorem Written.extended {log : Log} {rs : List LogRecord} (h : Written log rs) (r : LogRecord) :
    Written (extended log r) (rs ++ [r]) := by
  refine ⟨h.represents.extended r, h.version, ?_⟩
  rw [EventLogRuns.extended, File.put_seekEnd_bytes, h.version, h.bytes, List.flatMap_append,
    List.flatMap_singleton, List.append_assoc]

theorem write_written {log : Log} {rs : List LogRecord} (h : Written log rs) {w : Write}
    (hw : w.CutsBack) : Written (write (log, rs) w).1 (write (log, rs) w).2 := by
  cases w with
  | append r faults =>
      simp only [write]
      rcases happ : log.append r faults with ⟨result, after⟩
      cases result with
      | ok u =>
          obtain rfl := append_ok happ
          exact h.extended r
      | error e =>
          obtain ⟨f, hbytes, hafter⟩ := append_error hw (congrArg Prod.fst happ)
          rw [happ] at hafter
          obtain rfl : after = _ := hafter
          exact h.moved hbytes log.writable
  | appendDurable r faults =>
      simp only [write]
      rcases appendDurable_cases log r hw with happ | ⟨e, f, happ, hbytes⟩
      · rw [happ]
        exact h.extended r
      · rw [happ]
        exact h.moved hbytes log.writable
  | reopen recoverTail writable =>
      simp only [write, openImpl_represents h.represents]
      exact h.moved (File.seekEnd_bytes _) writable

theorem writes_written {log : Log} {rs : List LogRecord} (h : Written log rs) {ws : List Write}
    (hws : ∀ w ∈ ws, w.CutsBack) :
    Written (ws.foldl write (log, rs)).1 (ws.foldl write (log, rs)).2 := by
  induction ws generalizing log rs with
  | nil => exact h
  | cons w ws ih =>
      rw [List.foldl_cons]
      exact ih (write_written h (hws w List.mem_cons_self))
        fun x hx => hws x (List.mem_cons_of_mem w hx)

/-- Opening fails, or reading the opened log gives these records. -/
def OpensTo (bytes : List UInt8) (rs : List LogRecord) (recoverTail writable : Bool) : Prop :=
  (∃ e, (openImpl bytes recoverTail writable).1 = .error e) ∨
    ∃ log, (openImpl bytes recoverTail writable).1 = .ok log ∧ log.readAll.1 = .ok rs

/-- A header that is still accepted leaves the records as they were. -/
theorem opensTo_of_body {head body tail : List UInt8} {rs : List LogRecord}
    (hlen : head.length = headerBytes) (hbody : Framed (decodeRecord version2) body rs)
    (htail : tail.length < recordBytes) (recoverTail writable : Bool) :
    OpensTo (head ++ body ++ tail) rs recoverTail writable := by
  rcases hopen : openImpl (head ++ body ++ tail) recoverTail writable with ⟨result, after⟩
  cases result with
  | error e => exact Or.inl ⟨e, congrArg Prod.fst hopen⟩
  | ok log =>
      obtain ⟨-, version, hv, hhead⟩ := header_of_openImpl hopen
      rw [List.append_assoc, slice_append_left hlen] at hhead
      have hframed : Framed (decodeRecord version) body rs := by
        rcases hv with rfl | rfl
        · exact hbody.mono fun _ _ => decodeRecord_versionV1
        · exact hbody
      have hrep : Represents ⟨⟨head ++ body, 0⟩, rs.length, version, true⟩ rs :=
        ⟨hv, ⟨head, body, rfl, hhead, hframed⟩, rfl⟩
      by_cases hrecover : recoverTail = true ∨ tail = []
      · have htorn := openImpl_torn hrep htail hrecover writable
        refine Or.inr ⟨_, congrArg Prod.fst htorn, ?_⟩
        rw [readAll_represents (hrep.moved (File.seekEnd_bytes _))]
      · push Not at hrecover
        have htorn := openImpl_torn_error hrep htail hrecover.2 writable
        rw [← Bool.eq_false_of_not_eq_true hrecover.1] at htorn
        exact Or.inl ⟨_, congrArg Prod.fst htorn⟩

/-- A changed byte of a complete record is noticed. -/
theorem opensTo_of_changed_body {rs : List LogRecord} {tail : List UInt8} {i : ℕ} {b : UInt8}
    (hlow : headerBytes ≤ i) (hi : i < headerBytes + recordBytes * rs.length)
    (hb : (header ++ rs.flatMap (encodeRecord version2) ++ tail)[i]? ≠ some b)
    (recoverTail writable : Bool) :
    OpensTo ((header ++ rs.flatMap (encodeRecord version2) ++ tail).set i b) rs recoverTail
      writable := by
  set body := rs.flatMap (encodeRecord version2) with hbody
  have hheader : header.length = headerBytes := by decide
  have hlength : body.length = recordBytes * rs.length := by
    have hframed := framed_flatMap (decodeRecord_frameOf version2) rs
    exact hframed.length
  have hdiv := Nat.div_add_mod (i - headerBytes) recordBytes
  have hmod := Nat.mod_lt (i - headerBytes) (by decide : 0 < recordBytes)
  generalize (i - headerBytes) / recordBytes = k at hdiv
  generalize (i - headerBytes) % recordBytes = o at hdiv hmod
  have hindex : headerBytes + recordBytes * k + o = i := by omega
  have hk : k < rs.length := by
    by_contra hge
    have hmul := Nat.mul_le_mul_left recordBytes (not_lt.mp hge)
    omega
  have hnext := Nat.mul_le_mul_left recordBytes (Nat.succ_le_of_lt hk)
  rw [Nat.mul_succ] at hnext
  have hframe : slice (header ++ body ++ tail) (headerBytes + recordBytes * k) recordBytes =
      (frameOf version2 rs[k]).1 := by
    have hskip : headerBytes + recordBytes * k - header.length = recordBytes * k := by
      rw [hheader, Nat.add_sub_cancel_left]
    have hpast : header.length ≤ headerBytes + recordBytes * k := by omega
    rw [List.append_assoc, slice_append_right hpast, hskip, slice_append_of_le (by omega)]
    exact slice_flatMap_of_length (length_encodeRecord version2) hk
  have hold : (frameOf version2 rs[k]).1[o]? ≠ some b := by
    rw [← hframe, getElem?_slice, if_pos hmod, hindex]
    exact hb
  have hbad := decodeRecord_changed (decodeRecord_frameOf version2 rs[k]) hmod hold
  have hchanged : slice ((header ++ body ++ tail).set i b) (headerBytes + recordBytes * k)
      recordBytes = (changed (frameOf version2 rs[k]) o b).1 := by
    have hoffset : i - (headerBytes + recordBytes * k) = o := by omega
    rw [slice_set, if_pos (by omega), hframe, hoffset]
    rfl
  refine Or.inl (openImpl_bad_frame ?_ ?_ hchanged (fun r hr => by rw [hbad] at hr; cases hr)
    recoverTail writable)
  · rw [List.length_set, List.length_append, List.length_append, hlength, hheader, Nat.mul_succ]
    omega
  · rw [slice_set, if_pos (Nat.zero_le i), List.append_assoc, slice_append_left hheader,
      List.set_eq_of_length_le (by omega)]
    constructor <;> decide

/-- Whatever was appended to a fresh log, also when a crash broke off one more append: after
a change of a single byte the file is refused, or reads as before. -/
theorem corruption_never_silent {ws : List Write} (hws : ∀ w ∈ ws, w.CutsBack)
    {log : Log} {rs : List LogRecord} (hrun : ws.foldl write (Log.create, []) = (log, rs))
    (next : LogRecord) {broken : ℕ} (hbroken : broken < recordBytes)
    {i : ℕ} {b : UInt8}
    (hb : (log.file.bytes ++ (encodeRecord version2 next).take broken)[i]? ≠ some b)
    (recoverTail writable : Bool) :
    OpensTo ((log.file.bytes ++ (encodeRecord version2 next).take broken).set i b) rs
      recoverTail writable := by
  have hwritten : Written log rs := by
    have hstart : Written Log.create [] := ⟨create_represents, rfl, by decide⟩
    have hend := writes_written hstart hws
    rwa [hrun] at hend
  have hheader : header.length = headerBytes := by decide
  have hframed := framed_flatMap (decodeRecord_frameOf version2) rs
  have hlength : (rs.flatMap (encodeRecord version2)).length = recordBytes * rs.length :=
    hframed.length
  have htail : ((encodeRecord version2 next).take broken).length = broken := by
    rw [List.length_take, length_encodeRecord]
    omega
  rw [hwritten.bytes] at hb ⊢
  rcases lt_or_ge i headerBytes with hlow | hlow
  · rw [List.append_assoc, List.set_append_left i b (by omega), ← List.append_assoc]
    exact opensTo_of_body (List.length_set.trans hheader) hframed (by omega) _ _
  rcases lt_or_ge i (headerBytes + recordBytes * rs.length) with hin | hin
  · exact opensTo_of_changed_body hlow hin hb _ _
  · have hbehind : (header ++ rs.flatMap (encodeRecord version2)).length ≤ i := by
      rw [List.length_append, hheader, hlength]
      exact hin
    rw [List.set_append_right i b hbehind]
    exact opensTo_of_body hheader hframed (by rw [List.length_set]; omega) _ _

/-- The fifth byte of the sequence number of the first record, set to one. -/
theorem corruption_never_silent_sequence :
    OpensTo (((extended Log.create blankRecord).file.bytes ++
      (encodeRecord version2 blankRecord).take 3).set 20 1) [blankRecord] true true := by
  have hrun : [Write.append blankRecord Faults.none].foldl write (Log.create, []) =
      (extended Log.create blankRecord, [blankRecord]) := by
    simp only [List.foldl_cons, List.foldl_nil, write,
      append_written (rfl : Log.create.writable = true) blankRecord (rfl : Faults.none.write = none),
      List.nil_append]
  exact corruption_never_silent (by simp [Write.CutsBack, Faults.none]) hrun blankRecord (by decide)
    (by decide) true true

end SlhaV2.LogCorruption
