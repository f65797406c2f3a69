import SlhaV2.EventLogRuns

/-!
# Sessions with one log

A fresh log is appended to, read, closed and reopened in any order. Without
host failures every call succeeds, and every read finds the records appended so
far, whichever session appended them.
-/
namespace SlhaV2.LogSessions
open ByteBuffer TileCodec HostFile SlhaTile EventLog EventLogRuns

inductive Session where
  | append (r : LogRecord)
  | appendDurable (r : LogRecord)
  | readAll
  /-- Close the log and open it again, strictly or with recovery. -/
  | reopen (recoverTail : Bool)
deriving DecidableEq

def resultLog {α : Type} : IoResult α × Log → IoResult Log
  | (.ok _, log) => .ok log
  | (.error e, _) => .error e

def step (log : Log) : Session → IoResult Log
  | .append r => resultLog (log.append r Faults.none)
  | .appendDurable r => resultLog (log.appendDurable r Faults.none)
  | .readAll => resultLog log.readAll
  | .reopen recoverTail =>
      if recoverTail then (Log.openRecover log.file.bytes).1 else (Log.openStrict log.file.bytes).1

def appended : List Session → List LogRecord
  | [] => []
  | .append r :: rest | .appendDurable r :: rest => r :: appended rest
  | .readAll :: rest | .reopen _ :: rest => appended rest

/-- The last record with a property, or none if no record has it. -/
def LastMatch (p : LogRecord → Prop) (rs : List LogRecord) : Option LogRecord → Prop
  | none => ∀ r ∈ rs, ¬ p r
  | some r => ∃ before after, rs = before ++ r :: after ∧ p r ∧ ∀ x ∈ after, ¬ p x

theorem lastMatch_find (p : LogRecord → Prop) [DecidablePred p] (rs : List LogRecord) :
    LastMatch p rs (rs.reverse.find? fun r => decide (p r)) := by
  cases hfind : rs.reverse.find? (fun r => decide (p r)) with
  | none =>
      intro r hr
      simpa using List.find?_eq_none.mp hfind r (List.mem_reverse.mpr hr)
  | some r =>
      obtain ⟨hp, after, before, hsplit, hafter⟩ := List.find?_eq_some_iff_append.mp hfind
      refine ⟨before.reverse, after.reverse, ?_, by simpa using hp, fun x hx => ?_⟩
      · rw [← List.reverse_reverse rs, hsplit]
        simp
      · simpa using hafter x (List.mem_reverse.mp hx)

/-- An open log that can be appended to. -/
structure Ready (log : Log) (rs : List LogRecord) : Prop where
  represents : Represents log rs
  writable : log.writable = true

/-- The second log is the first with these records written behind it. -/
structure Extends (log after : Log) (rs : List LogRecord) : Prop where
  version : after.version = log.version
  bytes : after.file.bytes = log.file.bytes ++ rs.flatMap (Log.encodeRecord log.version)

theorem Extends.refl (log : Log) : Extends log log [] := ⟨rfl, (List.append_nil _).symm⟩

theorem Extends.trans {log mid after : Log} {rs new : List LogRecord} (h : Extends log mid rs)
    (k : Extends mid after new) : Extends log after (rs ++ new) := by
  refine ⟨k.version.trans h.version, ?_⟩
  rw [k.bytes, h.bytes, h.version, List.flatMap_append, List.append_assoc]

theorem extends_extended (log : Log) (r : LogRecord) : Extends log (extended log r) [r] := by
  refine ⟨rfl, ?_⟩
  rw [extended, File.put_seekEnd_bytes, List.flatMap_singleton]

/-- One session step extends the represented list, and the file, by what it appends. -/
def StepsTo (log after : Log) (rs : List LogRecord) (s : Session) : Prop :=
  step log s = .ok after ∧ Ready after (rs ++ appended [s]) ∧ Extends log after (appended [s])

theorem append_steps {log : Log} {rs : List LogRecord} (h : Ready log rs) (r : LogRecord) :
    StepsTo log (extended log r) rs (.append r) := by
  refine ⟨?_, ⟨h.represents.extended r, h.writable⟩, extends_extended log r⟩
  rw [step, append_written h.writable r rfl]
  rfl

theorem appendDurable_steps {log : Log} {rs : List LogRecord} (h : Ready log rs)
    (r : LogRecord) : StepsTo log (extended log r) rs (.appendDurable r) := by
  have hmoved : ({ log with file := log.file.seekEnd } : Log).writable = true := h.writable
  have happ := append_written hmoved r (rfl : Faults.none.write = none)
  refine ⟨?_, ⟨h.represents.extended r, h.writable⟩, extends_extended log r⟩
  unfold step Log.appendDurable
  dsimp only
  rw [happ]
  rfl

theorem readAll_steps {log : Log} {rs : List LogRecord} (h : Ready log rs) :
    StepsTo log { log with file := log.file.seekEnd } rs .readAll := by
  refine ⟨?_, ⟨?_, h.writable⟩, ⟨rfl, (List.append_nil _).symm⟩⟩
  · rw [step, readAll_represents h.represents]
    rfl
  · have hmoved : Represents { log with file := log.file.seekEnd } rs :=
      h.represents.moved (File.seekEnd_bytes log.file)
    simpa [appended] using hmoved

theorem reopen_steps {log : Log} {rs : List LogRecord} (h : Ready log rs) (recoverTail : Bool) :
    StepsTo log { log with file := log.file.seekEnd, writable := true } rs
      (.reopen recoverTail) := by
  refine ⟨?_, ⟨?_, rfl⟩, ⟨rfl, (List.append_nil _).symm⟩⟩
  · unfold step Log.openRecover Log.openStrict
    simp only [openImpl_represents h.represents]
    split_ifs <;> rfl
  · have hmoved : Represents { log with file := log.file.seekEnd, writable := true } rs :=
      h.represents.moved (File.seekEnd_bytes log.file)
    simpa [appended] using hmoved

theorem step_ready {log : Log} {rs : List LogRecord} (h : Ready log rs) (s : Session) :
    ∃ after, StepsTo log after rs s := by
  cases s with
  | append r => exact ⟨_, append_steps h r⟩
  | appendDurable r => exact ⟨_, appendDurable_steps h r⟩
  | readAll => exact ⟨_, readAll_steps h⟩
  | reopen recoverTail => exact ⟨_, reopen_steps h recoverTail⟩

theorem appended_cons (s : Session) (rest : List Session) :
    appended (s :: rest) = appended [s] ++ appended rest := by
  cases s <;> rfl

theorem run_ready {log : Log} {rs : List LogRecord} (h : Ready log rs) (sessions : List Session) :
    ∃ after, sessions.foldlM step log = .ok after ∧ Ready after (rs ++ appended sessions) ∧
      Extends log after (appended sessions) := by
  induction sessions generalizing log rs with
  | nil => exact ⟨log, rfl, by simpa [appended] using h, Extends.refl log⟩
  | cons s rest ih =>
      obtain ⟨mid, hstep, hmid, hext⟩ := step_ready h s
      obtain ⟨after, hrun, hafter, hrest⟩ := ih hmid
      refine ⟨after, ?_, ?_, ?_⟩
      · rw [List.foldlM_cons, hstep]
        exact hrun
      · rwa [appended_cons, ← List.append_assoc]
      · rw [appended_cons]
        exact hext.trans hrest

/-- Tiles and their images determine each other, and whatever the sessions with
a fresh log are, reading finds the appended records and lookups the last ones. -/
theorem log_round_trip :
    (∀ t : SciRustSlhaTile, tileFromBytes (tileToBytes t) = t) ∧
    (∀ b : Bytes tileBytes, tileToBytes (tileFromBytes b) = b) ∧
    ∀ sessions : List Session, ∃ log, sessions.foldlM step Log.create = .ok log ∧
      log.readAll.1 = .ok (appended sessions) ∧ log.records = (appended sessions).length ∧
      (∀ seq, ∃ found, (log.fetchBySeq seq).1 = .ok found ∧
        LastMatch (fun r => r.seq = seq) (appended sessions) found) ∧
      (∀ slot, ∃ found, (log.fetchLastForSlot slot).1 = .ok found ∧
        LastMatch (fun r => r.slot = slot) (appended sessions) found) := by
  refine ⟨tileFromBytes_tileToBytes, tileToBytes_tileFromBytes, fun sessions => ?_⟩
  obtain ⟨log, hrun, hready, -⟩ := run_ready ⟨create_represents, rfl⟩ sessions
  rw [List.nil_append] at hready
  have hread := readAll_represents hready.represents
  refine ⟨log, hrun, by rw [hread], hready.represents.records, fun seq => ?_, fun slot => ?_⟩
  · exact ⟨_, congrArg Prod.fst (fetchBySeq_represents hready.represents seq),
      lastMatch_find (fun r => r.seq = seq) (appended sessions)⟩
  · exact ⟨_, congrArg Prod.fst (fetchLastForSlot_represents hready.represents slot),
      lastMatch_find (fun r => r.slot = slot) (appended sessions)⟩

end SlhaV2.LogSessions
