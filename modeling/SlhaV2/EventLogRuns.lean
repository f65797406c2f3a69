import SlhaV2.EventLog
import SlhaV2.Framing

/-!
# What a log file holds

A log represents a list of records when its body is the list's frames. Appends
extend the list, failed appends leave it, and reading gives it back; opening
the file anew finds the same list. What the legacy format does not check, the
reserved field of header and records, is free here too.
-/
namespace SlhaV2.EventLogRuns
open ByteBuffer TileCodec HostFile SlhaTile EventLog Framing Log

/-- A header that opening accepts. -/
structure HeaderOf (version : ℕ) (head : List UInt8) : Prop where
  length : head.length = headerBytes
  magic : leNat (slice head 0 4) = magic
  version : leNat (slice head 4 4) = version
  tileSize : leNat (slice head 8 4) = tileBytes

structure Represents (log : Log) (rs : List LogRecord) : Prop where
  supported : log.version = versionV1 ∨ log.version = version2
  contents : ∃ head body, log.file.bytes = head ++ body ∧ HeaderOf log.version head ∧
    Framed (decodeRecord log.version) body rs
  records : log.records = rs.length

/-- The record buffer is its four fields in order. -/
theorem encodeRecord_eq (version : ℕ) (r : LogRecord) : encodeRecord version r =
    leBytes 8 r.seq.toNat ++ (leBytes 4 r.slot.toNat ++
      ((if version = version2 then
          leBytes 4 (recordChecksum r.seq r.slot (tileToBytes r.tile)).toNat
        else List.replicate 4 0) ++ (tileToBytes r.tile).1)) := by
  have htile : (tileToBytes r.tile).1.length = 128 := (tileToBytes r.tile).2
  have hzeros : (zeros recordBytes).1 = List.replicate 8 0 ++ (List.replicate 4 0 ++
      (List.replicate 4 0 ++ List.replicate 128 0)) := by decide
  have hlast : splice (List.replicate 128 0) 0 (tileToBytes r.tile).1 =
      (tileToBytes r.tile).1 := by
    have happ := splice_append_left (b := []) (htile.trans List.length_replicate.symm :
      (tileToBytes r.tile).1.length = (List.replicate 128 (0 : UInt8)).length)
    rwa [List.append_nil, List.append_nil] at happ
  unfold encodeRecord
  rw [hzeros]
  split_ifs <;> simp (disch := simp) only [splice_append_left, splice_append_right,
    length_leBytes, List.length_replicate, Nat.reduceSub, hlast]

theorem length_encodeRecord (version : ℕ) (r : LogRecord) :
    (encodeRecord version r).length = recordBytes := by
  have htile : (tileToBytes r.tile).1.length = tileBytes := (tileToBytes r.tile).2
  rw [encodeRecord_eq]
  split_ifs <;> simp only [List.length_append, length_leBytes, List.length_replicate, htile] <;> rfl

def frameOf (version : ℕ) (r : LogRecord) : Bytes recordBytes :=
  ⟨encodeRecord version r, length_encodeRecord version r⟩

/-- A record the log wrote is read back as it was. -/
theorem decodeRecord_frameOf (version : ℕ) (r : LogRecord) :
    decodeRecord version (frameOf version r) = .ok r := by
  have hframe : (frameOf version r).1 = encodeRecord version r := rfl
  have hfour : (if version = version2 then
      leBytes 4 (recordChecksum r.seq r.slot (tileToBytes r.tile)).toNat
    else List.replicate 4 0).length = 4 := by
    split_ifs <;> simp
  have hseq : UInt64.ofNat (leNat (slice (frameOf version r).1 0 8)) = r.seq := by
    have hlt : r.seq.toNat < 256 ^ 8 := r.seq.toNat_lt
    rw [hframe, encodeRecord_eq, slice_append_left (length_leBytes 8 _), leNat_leBytes_of_lt hlt,
      UInt64.ofNat_toNat]
  have hslot : UInt32.ofNat (leNat (slice (frameOf version r).1 8 4)) = r.slot := by
    rw [hframe, encodeRecord_eq]
    simp (disch := simp) only [slice_append_right, slice_append_left, length_leBytes, Nat.sub_self]
    exact u32_roundtrip r.slot
  have htile : (field (frameOf version r) 16 tileBytes (by decide) : Bytes tileBytes) =
      tileToBytes r.tile := by
    apply Subtype.ext
    change slice (frameOf version r).1 16 tileBytes = (tileToBytes r.tile).1
    rw [hframe, encodeRecord_eq, slice_append_right (by simp), length_leBytes,
      slice_append_right (by simp), length_leBytes, slice_append_right (by rw [hfour]), hfour]
    exact slice_zero_length (tileToBytes r.tile).2
  have hstored : version = version2 →
      UInt32.ofNat (leNat (slice (frameOf version r).1 12 4)) =
        recordChecksum r.seq r.slot (tileToBytes r.tile) := by
    intro hv
    rw [hframe, encodeRecord_eq, if_pos hv]
    simp (disch := simp) only [slice_append_right, slice_append_left, length_leBytes,
      Nat.reduceSub]
    exact u32_roundtrip _
  unfold decodeRecord
  simp only [hseq, hslot, htile, tileFromBytes_tileToBytes]
  exact if_neg fun h => h.2 (hstored h.1)

/-- Reading records where a body of frames lies gives the body's records. -/
theorem readRecords_framed {version : ℕ} {body : List UInt8} {rs : List LogRecord}
    (h : Framed (decodeRecord version) body rs) {f : File} {pre post : List UInt8}
    (hbytes : f.bytes = pre ++ (body ++ post)) (hpos : f.pos = pre.length) :
    readRecords version rs.length f = (.ok rs, { f with pos := pre.length + body.length }) := by
  induction h generalizing f pre with
  | nil =>
      cases f
      simp only at hpos
      simp [readRecords, hpos]
  | @cons frame r body rs hr _ ih =>
      have hroom : f.pos + recordBytes ≤ f.bytes.length := by
        rw [hpos, hbytes]
        simp only [List.length_append, frame.2]
        omega
      have hslice : slice f.bytes f.pos recordBytes = frame.1 := by
        rw [hbytes, hpos, slice_append_right le_rfl, Nat.sub_self, List.append_assoc,
          slice_append_left frame.2]
      have hread : f.readExact recordBytes =
          (.ok frame, { f with pos := f.pos + recordBytes }) := by
        rw [File.readExact_ok hroom]
        congr 2
        exact Subtype.ext hslice
      have hrest := @ih { f with pos := f.pos + recordBytes } (pre ++ frame.1)
        (by simp only [hbytes, List.append_assoc]) (by simp only [hpos, List.length_append, frame.2])
      simp only [List.length_cons, readRecords, hread, hr, hrest, List.length_append]
      congr 2
      omega

/-- What a successful pass read lies in the file as a body. -/
theorem framed_of_readRecords {version n : ℕ} {f : File} {rs : List LogRecord}
    (h : (readRecords version n f).1 = .ok rs) : rs.length = n ∧
      Framed (decodeRecord version) (slice f.bytes f.pos (recordBytes * n)) rs := by
  induction n generalizing f rs with
  | zero =>
      obtain rfl : [] = rs := by simpa [readRecords] using h
      exact ⟨rfl, by simpa [slice] using Framed.nil⟩
  | succ n ih =>
      unfold readRecords at h
      by_cases hroom : f.pos + recordBytes ≤ f.bytes.length
      · rw [File.readExact_ok hroom] at h
        dsimp only at h
        cases hr : decodeRecord version ⟨slice f.bytes f.pos recordBytes, length_slice hroom⟩ with
        | error e =>
            rw [hr] at h
            cases h
        | ok r =>
            rw [hr] at h
            dsimp only at h
            rcases hs : readRecords version n { f with pos := f.pos + recordBytes } with ⟨rest, g⟩
            rw [hs] at h
            cases rest with
            | error e => cases h
            | ok tail =>
                obtain rfl : r :: tail = rs := by simpa using h
                obtain ⟨hlen, hbody⟩ := ih (congrArg Prod.fst hs)
                refine ⟨by rw [List.length_cons, hlen], ?_⟩
                have hjoin : slice f.bytes f.pos (recordBytes * (n + 1)) =
                    slice f.bytes f.pos recordBytes ++
                      slice f.bytes (f.pos + recordBytes) (recordBytes * n) := by
                  rw [slice_append_slice rfl, Nat.mul_succ, Nat.add_comm]
                rw [hjoin]
                exact Framed.cons hr hbody
      · have hshort : f.readExact recordBytes =
            (.error .unexpectedEof, { f with pos := max f.pos f.bytes.length }) := dif_neg hroom
        rw [hshort] at h
        cases h

/-- Reading everything gives the records and leaves the cursor at the end. -/
theorem readAll_represents {log : Log} {rs : List LogRecord} (h : Represents log rs) :
    log.readAll = (.ok rs, { log with file := log.file.seekEnd }) := by
  obtain ⟨head, body, hbytes, hhead, hbody⟩ := h.contents
  have hplace : (log.file.seekStart headerBytes).bytes = head ++ (body ++ []) := by
    rw [List.append_nil]
    exact hbytes
  have hread := readRecords_framed hbody hplace hhead.length.symm
  unfold Log.readAll
  rw [h.records, hread]
  rfl

theorem fetchBySeq_represents {log : Log} {rs : List LogRecord} (h : Represents log rs)
    (seq : UInt64) : log.fetchBySeq seq =
      (.ok (rs.reverse.find? fun r => r.seq = seq), { log with file := log.file.seekEnd }) := by
  unfold Log.fetchBySeq
  rw [readAll_represents h]
  rfl

theorem fetchLastForSlot_represents {log : Log} {rs : List LogRecord} (h : Represents log rs)
    (slot : UInt32) : log.fetchLastForSlot slot =
      (.ok (rs.reverse.find? fun r => r.slot = slot), { log with file := log.file.seekEnd }) := by
  unfold Log.fetchLastForSlot
  rw [readAll_represents h]
  rfl

theorem validateRecords_represents {log : Log} {rs : List LogRecord} (h : Represents log rs) :
    log.validateRecords = (.ok (), { log with file := log.file.seekEnd }) := by
  unfold Log.validateRecords
  rw [readAll_represents h]
  rfl

/-- The cursor does not matter to what a log represents. -/
theorem Represents.moved {log : Log} {rs : List LogRecord} (h : Represents log rs) {file : File}
    {writable : Bool} (hb : file.bytes = log.file.bytes) :
    Represents { log with file := file, writable := writable } rs :=
  ⟨h.supported, hb ▸ h.contents, h.records⟩

theorem create_represents : Represents create [] := by
  refine ⟨Or.inr rfl, ⟨header, [], ?_, ?_, Framed.nil⟩, rfl⟩
  · decide
  · constructor <;> decide

/-- The log after one more record was written at its end. -/
def extended (log : Log) (r : LogRecord) : Log :=
  { log with
    file := log.file.seekEnd.put (encodeRecord log.version r)
    records := log.records + 1 }

theorem Represents.extended {log : Log} {rs : List LogRecord} (h : Represents log rs)
    (r : LogRecord) : Represents (extended log r) (rs ++ [r]) := by
  obtain ⟨head, body, hbytes, hhead, hbody⟩ := h.contents
  refine ⟨h.supported, ⟨head, body ++ encodeRecord log.version r, ?_, hhead, ?_⟩, ?_⟩
  · rw [EventLogRuns.extended, File.put_seekEnd_bytes, hbytes, List.append_assoc]
  · exact hbody.append (Framed.single (decodeRecord_frameOf log.version r))
  · rw [List.length_append, List.length_singleton, ← h.records]
    rfl

theorem append_written {log : Log} (hw : log.writable = true) (r : LogRecord) {faults : Faults}
    (hf : faults.write = none) : log.append r faults = (.ok (), extended log r) := by
  unfold append
  rw [if_neg (by simp [hw])]
  simp only [hf, File.writeAll]
  rfl

/-- Only a writable log with an unbroken write is extended. -/
theorem append_ok {log after : Log} {r : LogRecord} {faults : Faults} {u : Unit}
    (h : log.append r faults = (.ok u, after)) : after = extended log r := by
  have hok : log.writable = true ∧ faults.write = none := by
    unfold append at h
    cases hw : log.writable <;> cases hf : faults.write <;>
      simp [hw, hf, File.writeAll] at h ⊢
  rw [append_written hok.1 r hok.2] at h
  exact (congrArg Prod.snd h).symm

/-- An append that fails leaves the bytes, when cutting the file back succeeds. -/
theorem append_error {log : Log} {r : LogRecord} {faults : Faults} {e : IoError}
    (ht : faults.truncate = true) (h : (log.append r faults).1 = .error e) :
    ∃ f : File, f.bytes = log.file.bytes ∧ (log.append r faults).2 = { log with file := f } := by
  by_cases hw : log.writable = true
  · cases hf : faults.write with
    | none =>
        rw [append_written hw r hf] at h
        cases h
    | some k =>
        have hcut := File.setLen_append
          (File.put_seekEnd_bytes log.file ((encodeRecord log.version r).take k))
        unfold append
        rw [if_neg (by simp [hw])]
        simp only [hf, File.writeAll, ht, if_true]
        exact ⟨_, (File.seekEnd_bytes _).trans hcut, rfl⟩
  · unfold append
    rw [if_pos (by simp [hw])]
    exact ⟨log.file, rfl, rfl⟩

/-- A durable append either writes its record, or fails and leaves the bytes. -/
theorem appendDurable_cases (log : Log) (r : LogRecord) {faults : Faults}
    (ht : faults.truncate = true) :
    log.appendDurable r faults = (.ok (), extended log r) ∨
      ∃ e f, (log.appendDurable r faults) = (.error e, { log with file := f }) ∧
        f.bytes = log.file.bytes := by
  unfold appendDurable
  rcases happ : ({ log with file := log.file.seekEnd } : Log).append r faults with ⟨result, after⟩
  dsimp only
  rw [happ]
  cases result with
  | error e =>
      obtain ⟨f, hbytes, hafter⟩ := append_error ht (congrArg Prod.fst happ)
      rw [happ] at hafter
      obtain rfl : after = _ := hafter
      exact Or.inr ⟨e, f, rfl, hbytes⟩
  | ok u =>
      obtain rfl := append_ok happ
      cases hs : sync faults with
      | ok u => exact Or.inl rfl
      | error e =>
          have hcut := File.setLen_append
            (File.put_seekEnd_bytes log.file (encodeRecord log.version r))
          refine Or.inr ⟨e, File.seekEnd _, ?_, (File.seekEnd_bytes _).trans hcut⟩
          simp only [ht, if_true]
          rfl

/-- The log after the check of its records, and what its file holds. -/
def afterCheck (r : IoResult Unit × Log) : IoResult Log × List UInt8 :=
  (r.1.map fun _ => { r.2 with file := r.2.file.seekEnd }, r.2.file.bytes)

/-- Past an acceptable header, opening checks the complete records. -/
theorem openImpl_of_header {bytes : List UInt8} {version : ℕ}
    (hlen : headerBytes ≤ bytes.length) (hv : version = versionV1 ∨ version = version2)
    (hhead : HeaderOf version (slice bytes 0 headerBytes)) (recoverTail writable : Bool) :
    openImpl bytes recoverTail writable =
      let remainder := (bytes.length - headerBytes) % recordBytes
      let len := bytes.length - remainder
      if remainder ≠ 0 ∧ !recoverTail then
        (.error (invalid "EventLog: truncated record"), bytes)
      else
        afterCheck (Log.validateRecords
          ⟨⟨bytes.take len, headerBytes⟩, (len - headerBytes) / recordBytes, version, writable⟩) := by
  have hread := File.readExact_ok (f := (⟨bytes, bytes.length⟩ : File).seekStart 0)
    (n := headerBytes) (by simp only [File.seekStart_pos, File.seekStart_bytes]; omega)
  have hfile : ∀ remainder, (if remainder ≠ 0 then
      (⟨bytes, headerBytes⟩ : File).setLen (bytes.length - remainder)
      else ⟨bytes, headerBytes⟩) = ⟨bytes.take (bytes.length - remainder), headerBytes⟩ := by
    intro remainder
    split_ifs with hempty
    · simp [File.setLen, File.prefixBytes]
    · rw [not_not.mp hempty, Nat.sub_zero, List.take_length]
  unfold openImpl
  rw [if_neg (by omega), hread]
  dsimp only [File.seekStart_bytes, File.seekStart_pos]
  have hsupported : ¬ (version ≠ versionV1 ∧ version ≠ version2) := by
    rcases hv with hv | hv <;> simp [hv]
  obtain ⟨-, hmagic, rfl, htile⟩ := hhead
  rw [if_neg (not_not_intro hmagic), if_neg hsupported, if_neg (not_not_intro htile),
    Nat.zero_add, hfile]
  split_ifs
  · rfl
  · rcases Log.validateRecords _ with ⟨result, log⟩
    cases result <;> rfl

/-- Only files with an acceptable header can be opened. -/
theorem header_of_openImpl {bytes after : List UInt8} {recoverTail writable : Bool} {log : Log}
    (h : openImpl bytes recoverTail writable = (.ok log, after)) :
    headerBytes ≤ bytes.length ∧ ∃ version, (version = versionV1 ∨ version = version2) ∧
      HeaderOf version (slice bytes 0 headerBytes) := by
  unfold openImpl at h
  by_cases hshort : bytes.length < headerBytes
  · rw [if_pos hshort] at h
    cases h
  have hread := File.readExact_ok (f := (⟨bytes, bytes.length⟩ : File).seekStart 0)
    (n := headerBytes) (by simp only [File.seekStart_pos, File.seekStart_bytes]; omega)
  rw [if_neg hshort, hread] at h
  simp only [File.seekStart_bytes, File.seekStart_pos, Nat.zero_add] at h
  split_ifs at h with hmagic hversion htile
  · cases h
  · cases h
  · cases h
  · cases h
  all_goals
    refine ⟨not_lt.mp hshort, _, ?_, length_slice (by omega), not_not.mp hmagic, rfl,
      not_not.mp htile⟩
    tauto

theorem Represents.length {log : Log} {rs : List LogRecord} (h : Represents log rs) :
    log.file.bytes.length = headerBytes + recordBytes * rs.length := by
  obtain ⟨head, body, hbytes, hhead, hbody⟩ := h.contents
  rw [hbytes, List.length_append, hhead.length, hbody.length]

/-- Less than a record after a log is what is left over of its records. -/
theorem Represents.remainder {log : Log} {rs : List LogRecord} (h : Represents log rs)
    {tail : List UInt8} (htail : tail.length < recordBytes) :
    ((log.file.bytes ++ tail).length - headerBytes) % recordBytes = tail.length := by
  rw [List.length_append, h.length, Nat.add_assoc, Nat.add_sub_cancel_left, Nat.mul_add_mod,
    Nat.mod_eq_of_lt htail]

theorem Represents.header {log : Log} {rs : List LogRecord} (h : Represents log rs)
    (tail : List UInt8) : headerBytes ≤ (log.file.bytes ++ tail).length ∧
      HeaderOf log.version (slice (log.file.bytes ++ tail) 0 headerBytes) := by
  obtain ⟨head, body, hbytes, hhead, -⟩ := h.contents
  rw [hbytes, List.append_assoc, slice_append_left hhead.length, List.length_append, hhead.length]
  exact ⟨Nat.le_add_right _ _, hhead⟩

/-- Opening the bytes of a log, with less than a record after them when the tail is
given up, finds the log and leaves its bytes. -/
theorem openImpl_torn {log : Log} {rs : List LogRecord} (h : Represents log rs)
    {tail : List UInt8} (htail : tail.length < recordBytes) {recoverTail : Bool}
    (hrecover : recoverTail = true ∨ tail = []) (writable : Bool) :
    openImpl (log.file.bytes ++ tail) recoverTail writable =
      (.ok { log with file := log.file.seekEnd, writable := writable }, log.file.bytes) := by
  have hcount : (log.file.bytes.length - headerBytes) / recordBytes = log.records := by
    rw [h.length, Nat.add_sub_cancel_left, h.records]
    exact Nat.mul_div_cancel_left _ (by decide)
  have hopened : Represents { log with
      file := ⟨log.file.bytes, headerBytes⟩
      writable := writable } rs := h.moved rfl
  have hcut : (log.file.bytes ++ tail).length - tail.length = log.file.bytes.length := by
    rw [List.length_append, Nat.add_sub_cancel]
  rw [openImpl_of_header (h.header tail).1 h.supported (h.header tail).2]
  simp only [h.remainder htail, hcut, List.take_left, hcount, validateRecords_represents hopened]
  rw [if_neg (by rcases hrecover with hr | ht <;> simp [*])]
  rfl

/-- Without recovery a file that ends inside a record is refused. -/
theorem openImpl_torn_error {log : Log} {rs : List LogRecord} (h : Represents log rs)
    {tail : List UInt8} (htail : tail.length < recordBytes) (hne : tail ≠ []) (writable : Bool) :
    openImpl (log.file.bytes ++ tail) false writable =
      (.error (invalid "EventLog: truncated record"), log.file.bytes ++ tail) := by
  rw [openImpl_of_header (h.header tail).1 h.supported (h.header tail).2]
  simp only [h.remainder htail]
  exact if_pos ⟨mt List.length_eq_zero_iff.mp hne, rfl⟩

/-- Opening the bytes of a log finds the log again. -/
theorem openImpl_represents {log : Log} {rs : List LogRecord} (h : Represents log rs)
    (recoverTail writable : Bool) : openImpl log.file.bytes recoverTail writable =
      (.ok { log with file := log.file.seekEnd, writable := writable }, log.file.bytes) := by
  have hrecover : recoverTail = true ∨ ([] : List UInt8) = [] := Or.inr rfl
  have htorn := openImpl_torn h (by decide) hrecover writable
  rwa [List.append_nil] at htorn

/-- A log whose records all decode represents them. -/
theorem represents_of_validate {log checked : Log}
    (hv : log.version = versionV1 ∨ log.version = version2)
    (hhead : HeaderOf log.version (slice log.file.bytes 0 headerBytes))
    (hlen : log.file.bytes.length = headerBytes + recordBytes * log.records)
    (h : log.validateRecords = (.ok (), checked)) : ∃ rs, Represents log rs := by
  unfold Log.validateRecords Log.readAll at h
  rcases hread : readRecords log.version log.records (log.file.seekStart headerBytes) with
    ⟨result, f⟩
  rw [hread] at h
  cases result with
  | error e => cases h
  | ok rs =>
      obtain ⟨hcount, hbody⟩ := framed_of_readRecords (congrArg Prod.fst hread)
      refine ⟨rs, hv, ⟨_, _, ?_, hhead, hbody⟩, hcount.symm⟩
      exact ((slice_append_slice rfl).trans (slice_zero_length (by simp [hlen]))).symm

/-- A log that was opened represents some list of records. -/
theorem represents_of_openImpl {bytes after : List UInt8} {recoverTail writable : Bool} {log : Log}
    (h : openImpl bytes recoverTail writable = (.ok log, after)) :
    (∃ rs, Represents log rs) ∧ after = log.file.bytes ∧
      ∃ rest, bytes = log.file.bytes ++ rest ∧ rest.length < recordBytes := by
  obtain ⟨hlen, version, hv, hhead⟩ := header_of_openImpl h
  rw [openImpl_of_header hlen hv hhead] at h
  dsimp only at h
  generalize hcut : bytes.length - (bytes.length - headerBytes) % recordBytes = len at h
  have hheader : headerBytes ≤ len ∧ len ≤ bytes.length := by
    have hmod := Nat.mod_le (bytes.length - headerBytes) recordBytes
    omega
  have hmultiple : len = headerBytes + recordBytes * ((len - headerBytes) / recordBytes) := by
    have hdiv := Nat.div_add_mod (bytes.length - headerBytes) recordBytes
    have hsub : len - headerBytes =
        recordBytes * ((bytes.length - headerBytes) / recordBytes) := by omega
    rw [hsub, Nat.mul_div_cancel_left _ (by decide)]
    omega
  have hfirst : slice (bytes.take len) 0 headerBytes = slice bytes 0 headerBytes := by
    simp only [slice, List.drop_zero, List.take_take, min_eq_left hheader.1]
  have hwhole : (bytes.take len).length =
      headerBytes + recordBytes * ((len - headerBytes) / recordBytes) := by
    rw [List.length_take, min_eq_left hheader.2]
    exact hmultiple
  split_ifs at h
  · cases h
  rcases hcheck : Log.validateRecords
    ⟨⟨bytes.take len, headerBytes⟩, (len - headerBytes) / recordBytes, version, writable⟩ with
    ⟨result, checked⟩
  rw [hcheck] at h
  cases result with
  | error e => cases h
  | ok u =>
      obtain ⟨rs, hrs⟩ := represents_of_validate hv (hfirst ▸ hhead) hwhole hcheck
      rw [validateRecords_represents hrs] at hcheck
      cases hcheck
      cases h
      refine ⟨⟨rs, hrs.moved rfl⟩, rfl, bytes.drop len, (List.take_append_drop len bytes).symm, ?_⟩
      have hmod := Nat.mod_lt (bytes.length - headerBytes) (by decide : 0 < recordBytes)
      rw [List.length_drop]
      omega

end SlhaV2.EventLogRuns
