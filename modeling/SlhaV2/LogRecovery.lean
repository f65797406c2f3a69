import SlhaV2.LogSessions

/-!
# Crashes in the middle of an append

A crash leaves a prefix of the log file. Recovery cuts the prefix back to the
last complete record, so it finds the log that held these records: the next
session goes on from there, and a second recovery finds nothing to do.
-/
namespace SlhaV2.LogRecovery
open ByteBuffer TileCodec HostFile SlhaTile EventLog EventLogRuns LogSessions Framing

/-- The log when it held its first `k` records, open for appending. -/
def firstRecords (log : Log) (k : ℕ) : Log where
  file := ⟨log.file.bytes.take (headerBytes + recordBytes * k), headerBytes + recordBytes * k⟩
  records := k
  version := log.version
  writable := true

theorem firstRecords_represents {log : Log} {rs : List LogRecord} (h : Represents log rs) {k : ℕ}
    (hk : k ≤ rs.length) : Represents (firstRecords log k) (rs.take k) := by
  obtain ⟨head, body, hbytes, hhead, hbody⟩ := h.contents
  refine ⟨h.supported, ⟨head, body.take (recordBytes * k), ?_, hhead, hbody.take k⟩, ?_⟩
  · rw [firstRecords, hbytes, ← hhead.length, List.take_length_add_append]
  · rw [List.length_take, min_eq_left hk]
    rfl

theorem firstRecords_length {log : Log} {rs : List LogRecord} (h : Represents log rs) {k : ℕ}
    (hk : k ≤ rs.length) :
    (firstRecords log k).file.bytes.length = headerBytes + recordBytes * k := by
  have hle := Nat.mul_le_mul_left recordBytes hk
  simp only [firstRecords, List.length_take, h.length]
  omega

/-- The prefix a crash leaves: the complete records, and less than one more. -/
theorem crash_prefix {log : Log} {cut : ℕ} (hcut : headerBytes ≤ cut)
    (hle : cut ≤ log.file.bytes.length) :
    ∃ tail, log.file.bytes.take cut =
        (firstRecords log ((cut - headerBytes) / recordBytes)).file.bytes ++ tail ∧
      tail.length = (cut - headerBytes) % recordBytes := by
  have hdiv := Nat.div_add_mod (cut - headerBytes) recordBytes
  have hsplit : cut = headerBytes + recordBytes * ((cut - headerBytes) / recordBytes) +
      (cut - headerBytes) % recordBytes := by omega
  refine ⟨(log.file.bytes.drop (headerBytes + recordBytes * ((cut - headerBytes) / recordBytes))).take
    ((cut - headerBytes) % recordBytes), ?_, ?_⟩
  · conv_lhs => rw [hsplit, List.take_add]
    rfl
  · rw [List.length_take, List.length_drop]
    omega

theorem firstRecords_count {log : Log} {rs : List LogRecord} (h : Represents log rs) {cut : ℕ}
    (hle : cut ≤ log.file.bytes.length) : (cut - headerBytes) / recordBytes ≤ rs.length := by
  rw [h.length] at hle
  have hsub : cut - headerBytes ≤ recordBytes * rs.length := by omega
  exact Nat.div_le_of_le_mul hsub

/-- At every cut point: strict opening refuses exactly the torn files, and recovery
finds the log of the complete records, which sessions then extend. -/
theorem recovery_contract {log : Log} {rs : List LogRecord} (h : Represents log rs) {cut : ℕ}
    (hcut : headerBytes ≤ cut) (hle : cut ≤ log.file.bytes.length) :
    let torn := log.file.bytes.take cut
    let kept := (cut - headerBytes) / recordBytes
    let recovered := firstRecords log kept
    ((∃ e, (Log.openStrict torn).1 = .error e) ↔ ¬ recordBytes ∣ cut - headerBytes) ∧
    Log.openRecover torn = (.ok recovered, recovered.file.bytes) ∧
    Log.openRecover recovered.file.bytes = (.ok recovered, recovered.file.bytes) ∧
    Log.openStrict recovered.file.bytes = (.ok recovered, recovered.file.bytes) ∧
    recovered.readAll.1 = .ok (rs.take kept) ∧
    (∀ head, head.length = headerBytes →
      log.file.bytes = head ++ rs.flatMap (Log.encodeRecord log.version) →
      recovered.file.bytes = head ++ (rs.take kept).flatMap (Log.encodeRecord log.version)) ∧
    ∀ sessions : List Session, ∃ after, sessions.foldlM step recovered = .ok after ∧
      after.readAll.1 = .ok (rs.take kept ++ appended sessions) ∧
      after.file.bytes = recovered.file.bytes ++
        (appended sessions).flatMap (Log.encodeRecord log.version) := by
  intro torn kept recovered
  have hkept : kept ≤ rs.length := firstRecords_count h hle
  have hfirst : Represents recovered (rs.take kept) := firstRecords_represents h hkept
  have hend : ({ recovered with file := recovered.file.seekEnd, writable := true } : Log) =
      recovered := by
    have hpos := firstRecords_length h hkept
    simp only [recovered, firstRecords, File.seekEnd] at hpos ⊢
    rw [hpos]
  obtain ⟨tail, htorn, htail⟩ := crash_prefix hcut hle
  have hshort : tail.length < recordBytes := htail ▸ Nat.mod_lt _ (by decide)
  have hagain : ∀ recoverTail, Log.openImpl recovered.file.bytes recoverTail true =
      (.ok recovered, recovered.file.bytes) := by
    intro recoverTail
    rw [openImpl_represents hfirst, hend]
  refine ⟨?_, ?_, hagain true, hagain false, by rw [readAll_represents hfirst], ?_, ?_⟩
  · rw [Nat.dvd_iff_mod_eq_zero, ← htail, List.length_eq_zero_iff]
    constructor
    · rintro ⟨e, he⟩ rfl
      rw [List.append_nil] at htorn
      rw [Log.openStrict, show torn = recovered.file.bytes from htorn, hagain] at he
      cases he
    · intro hne
      exact ⟨_, by rw [Log.openStrict, show torn = _ from htorn,
        openImpl_torn_error hfirst hshort hne]⟩
  · rw [Log.openRecover, show torn = _ from htorn, openImpl_torn hfirst hshort (Or.inl rfl), hend]
  · intro head hhead hbytes
    simp only [recovered, firstRecords]
    rw [hbytes, ← hhead, List.take_length_add_append,
      take_flatMap_of_length (length_encodeRecord log.version)]
  · intro sessions
    obtain ⟨after, hrun, hready, hext⟩ := run_ready ⟨hfirst, rfl⟩ sessions
    exact ⟨after, hrun, by rw [readAll_represents hready.represents], hext.bytes⟩

/-- A record of a blank tile. -/
def blankRecord : LogRecord := ⟨0, 0, tileFromBytes (zeros tileBytes)⟩

theorem recovery_contract_first_append :
    ∃ recovered, Log.openRecover ((extended Log.create blankRecord).file.bytes.take 20) =
        (.ok recovered, recovered.file.bytes) ∧ recovered.readAll.1 = .ok [] := by
  have hrep := create_represents.extended blankRecord
  have hle : 20 ≤ (extended Log.create blankRecord).file.bytes.length := by
    rw [hrep.length]
    decide
  have hcontract := recovery_contract hrep (by decide : headerBytes ≤ 20) hle
  exact ⟨_, hcontract.2.1, hcontract.2.2.2.2.1⟩

end SlhaV2.LogRecovery
