import Mathlib.Data.List.Basic
import Mathlib.Logic.Relation
import Mathlib.Tactic.SplitIfs

/-!
# Newline-delimited frames from a buffered reader

The reader hands out the stream in chunks of any size, and a frame may end in
the middle of a chunk or span many. What the loop knows about an unfinished
frame is determined by its bytes so far, however they were cut, so the frames
are the pieces between newlines.
-/
namespace SlhaV2.FrameReader

inductive FrameRead where
  | eof
  | ready
  | tooLarge
deriving DecidableEq, Repr

def newlineByte : UInt8 := 10

/-- What is left of the stream, and how often the buffer was filled. -/
structure Reader where
  rest : List UInt8
  calls : ℕ
deriving DecidableEq, Repr

/-- A call of `fill_buf`; `chop` says how many bytes more than one each call finds. -/
def Reader.fillBuf (chop : ℕ → ℕ) (r : Reader) : List UInt8 := r.rest.take (chop r.calls + 1)

def Reader.consume (n : ℕ) (r : Reader) : Reader := ⟨r.rest.drop n, r.calls + 1⟩

/-- The variables of the loop. -/
structure Progress where
  sawInput : Bool
  tooLarge : Bool
  buffer : List UInt8
  reader : Reader
deriving DecidableEq, Repr

def Progress.finish (s : Progress) : FrameRead := if s.tooLarge then .tooLarge else .ready

/-- A payload that does not fit discards what the buffer holds of the frame. -/
def Progress.takePayload (maxBytes : ℕ) (payload : List UInt8) (s : Progress) : Progress :=
  if s.tooLarge then s
  else if maxBytes - s.buffer.length < payload.length then { s with tooLarge := true, buffer := [] }
  else { s with buffer := s.buffer ++ payload }

/-- One turn of the loop; without a result it goes round again. -/
def readStep (chop : ℕ → ℕ) (maxBytes : ℕ) (s : Progress) : Option FrameRead × Progress :=
  let available := s.reader.fillBuf chop
  if available.isEmpty then (some (if s.sawInput then s.finish else .eof), s)
  else
    let s := { s with sawInput := true }
    let newline := available.findIdx? (· = newlineByte)
    let payloadLen := newline.getD available.length
    let consumed := payloadLen + if newline.isSome then 1 else 0
    let s := s.takePayload maxBytes (available.take payloadLen)
    let s := { s with reader := s.reader.consume consumed }
    (if newline.isSome then some s.finish else none, s)

/-- The loop's variables after the bytes `p` of a frame that has not ended. -/
def unfinished (maxBytes : ℕ) (p : List UInt8) (r : Reader) : Progress where
  sawInput := !p.isEmpty
  tooLarge := maxBytes < p.length
  buffer := if maxBytes < p.length then [] else p
  reader := r

section Step
variable (chop : ℕ → ℕ) (maxBytes : ℕ) (p : List UInt8) {r : Reader}

theorem readStep_end (h : r.rest = []) : readStep chop maxBytes (unfinished maxBytes p r) =
    (some (if p = [] then .eof else (unfinished maxBytes p r).finish),
      unfinished maxBytes p r) := by
  have hempty : (r.fillBuf chop).isEmpty = true := by simp [Reader.fillBuf, h]
  unfold readStep
  cases p with
  | nil => simp [unfinished, hempty]
  | cons b p => simp [unfinished, hempty]

/-- Bytes are kept while they fit; once they do not, nothing is kept any more. -/
theorem takePayload_unfinished (q : List UInt8) :
    { unfinished maxBytes p r with sawInput := true }.takePayload maxBytes q =
      { unfinished maxBytes (p ++ q) r with sawInput := true } := by
  have hlength : (p ++ q).length = p.length + q.length := List.length_append
  unfold Progress.takePayload unfinished
  by_cases hp : maxBytes < p.length
  · have hpq : maxBytes < (p ++ q).length := by omega
    simp only [hp, hpq, decide_true, if_true]
  by_cases hq : maxBytes - p.length < q.length
  · have hpq : maxBytes < (p ++ q).length := by omega
    simp only [hp, hq, hpq, decide_false, decide_true, if_true, if_false, Bool.false_eq_true]
  · have hpq : ¬ maxBytes < (p ++ q).length := by omega
    simp only [hp, hq, hpq, decide_false, if_false, Bool.false_eq_true]

/-- Taking more bytes into an unfinished frame. -/
theorem readStep_more {chunk : List UInt8} (hchunk : r.fillBuf chop = chunk) (hne : chunk ≠ [])
    (hnewline : newlineByte ∉ chunk) : readStep chop maxBytes (unfinished maxBytes p r) =
      (none, unfinished maxBytes (p ++ chunk) (r.consume chunk.length)) := by
  have hfind : chunk.findIdx? (· = newlineByte) = none := by
    rw [List.findIdx?_eq_none_iff]
    intro b hb
    exact decide_eq_false fun heq => hnewline (heq ▸ hb)
  have hreader : (unfinished maxBytes p r).reader.fillBuf chop = chunk := hchunk
  have hsaw : (p ++ chunk).isEmpty = false := by simp [hne]
  unfold readStep
  simp only [hreader, List.isEmpty_eq_false_iff.mpr hne, hfind, Option.getD_none, List.take_length,
    takePayload_unfinished, Bool.false_eq_true, if_false, Option.isSome_none, Nat.add_zero]
  simp only [unfinished, hsaw, Bool.not_false]

/-- The newline ends the frame, and the bytes behind it stay in the reader. -/
theorem readStep_newline {a b : List UInt8} (hchunk : r.fillBuf chop = a ++ newlineByte :: b)
    (hnewline : newlineByte ∉ a) : readStep chop maxBytes (unfinished maxBytes p r) =
      (some (unfinished maxBytes (p ++ a) r).finish,
        { unfinished maxBytes (p ++ a) (r.consume (a.length + 1)) with sawInput := true }) := by
  have hfind : (a ++ newlineByte :: b).findIdx? (· = newlineByte) = some a.length := by
    have hnone : a.findIdx? (· = newlineByte) = none := by
      rw [List.findIdx?_eq_none_iff]
      intro c hc
      exact decide_eq_false fun heq => hnewline (heq ▸ hc)
    simp [List.findIdx?_append, List.findIdx?_cons, hnone]
  have hreader : (unfinished maxBytes p r).reader.fillBuf chop = a ++ newlineByte :: b := hchunk
  have hne : (a ++ newlineByte :: b).isEmpty = false := by simp
  unfold readStep
  simp only [hreader, hne, hfind, Option.getD_some, List.take_left, takePayload_unfinished,
    Bool.false_eq_true, if_false, Option.isSome_some, if_true]
  rfl

end Step

/-- A turn without a result takes all the bytes it found. -/
theorem readStep_shorter {chop : ℕ → ℕ} {maxBytes : ℕ} {s s' : Progress}
    (h : readStep chop maxBytes s = (none, s')) :
    s'.reader.rest.length < s.reader.rest.length := by
  unfold readStep at h
  dsimp only at h
  by_cases hempty : (s.reader.fillBuf chop).isEmpty = true
  · rw [if_pos hempty] at h
    cases h
  rw [if_neg hempty] at h
  cases hfind : (s.reader.fillBuf chop).findIdx? (· = newlineByte) with
  | some i => simp [hfind] at h
  | none =>
      have hreader := congrArg (fun x => x.2.reader.rest.length) h
      have hsame : ∀ payload, ({ s with sawInput := true }.takePayload maxBytes payload).reader =
          s.reader := by
        intro payload
        unfold Progress.takePayload
        split_ifs <;> rfl
      simp only [hfind, Option.getD_none, Option.isSome_none, Bool.false_eq_true, if_false,
        Nat.add_zero, Reader.consume, List.length_drop, hsame] at hreader
      have hne : (s.reader.fillBuf chop).length ≠ 0 := fun heq =>
        hempty (List.isEmpty_iff_length_eq_zero.mpr heq)
      have hle : (s.reader.fillBuf chop).length ≤ s.reader.rest.length := by
        rw [Reader.fillBuf, List.length_take]
        exact Nat.min_le_right _ _
      omega

/-- The whole loop; every turn but the last takes bytes from the stream. -/
def readLoop (chop : ℕ → ℕ) (maxBytes : ℕ) (s : Progress) : FrameRead × Progress :=
  match _h : readStep chop maxBytes s with
  | (some result, s) => (result, s)
  | (none, s) => readLoop chop maxBytes s
termination_by s.reader.rest.length
decreasing_by exact readStep_shorter _h

/-- Read one frame into the cleared buffer. -/
def readFrame (chop : ℕ → ℕ) (maxBytes : ℕ) (r : Reader) : FrameRead × List UInt8 × Reader :=
  let (result, s) := readLoop chop maxBytes ⟨false, false, [], r⟩
  (result, s.buffer, s.reader)

/-- The pieces of a stream between newlines; nothing behind the last newline is no piece. -/
def pieces (stream : List UInt8) : List (List UInt8) :=
  let parts := stream.splitOn newlineByte
  if parts.getLast? = some [] then parts.dropLast else parts

theorem pieces_nil : pieces [] = [] := rfl

theorem pieces_last {p : List UInt8} (hne : p ≠ []) (h : newlineByte ∉ p) : pieces p = [p] := by
  unfold pieces
  rw [List.splitOn_eq_singleton h]
  simp [hne]

theorem pieces_append {p rest : List UInt8} (h : newlineByte ∉ p) :
    pieces (p ++ newlineByte :: rest) = p :: pieces rest := by
  have hsplit : (p ++ newlineByte :: rest).splitOn newlineByte =
      p :: rest.splitOn newlineByte := by
    rw [List.splitOn_append_cons_self, List.splitOn_eq_singleton h, List.singleton_append]
  have hne := List.splitOn_ne_nil newlineByte rest
  unfold pieces
  obtain ⟨x, xs, hparts⟩ := List.exists_cons_of_ne_nil hne
  rw [hsplit, hparts]
  dsimp only
  rw [List.getLast?_cons_cons]
  split_ifs <;> rfl

/-- What a call gives back: the verdict, the buffer, and the rest of the stream. -/
def observed (x : FrameRead × Progress) : FrameRead × List UInt8 × List UInt8 :=
  (x.1, x.2.buffer, x.2.reader.rest)

/-- The verdict on a frame, with what is delivered of it. -/
def verdict (maxBytes : ℕ) (frame : List UInt8) : FrameRead × List UInt8 :=
  if frame.length ≤ maxBytes then (.ready, frame) else (.tooLarge, [])

section Loop
variable (chop : ℕ → ℕ) (maxBytes : ℕ)

theorem readLoop_result {s s' : Progress} {result : FrameRead}
    (h : readStep chop maxBytes s = (some result, s')) :
    readLoop chop maxBytes s = (result, s') := by
  rw [readLoop]
  split
  · next heq => rw [h] at heq; cases heq; rfl
  · next heq => rw [h] at heq; cases heq

theorem readLoop_again {s s' : Progress} (h : readStep chop maxBytes s = (none, s')) :
    readLoop chop maxBytes s = readLoop chop maxBytes s' := by
  rw [readLoop]
  split
  · next heq => rw [h] at heq; cases heq
  · next heq => rw [h] at heq; cases heq; rfl

theorem finish_unfinished (p : List UInt8) (r : Reader) :
    ((unfinished maxBytes p r).finish, (unfinished maxBytes p r).buffer) = verdict maxBytes p := by
  unfold Progress.finish unfinished verdict
  by_cases hp : maxBytes < p.length
  · simp [hp, Nat.not_le.mpr hp]
  · simp [hp, Nat.not_lt.mp hp]

theorem fillBuf_append (r : Reader) :
    r.fillBuf chop ++ (r.consume (r.fillBuf chop).length).rest = r.rest := by
  unfold Reader.fillBuf Reader.consume
  rcases Nat.lt_or_ge (chop r.calls + 1) r.rest.length with hlt | hge
  · rw [List.length_take, Nat.min_eq_left (Nat.le_of_lt hlt), List.take_append_drop]
  · rw [List.take_of_length_le hge, List.drop_length, List.append_nil]

theorem fillBuf_ne_nil {r : Reader} (h : r.rest ≠ []) : r.fillBuf chop ≠ [] := by
  simp [Reader.fillBuf, h]

/-- A frame that the end of the stream ends. -/
theorem readLoop_last {p : List UInt8} {r : Reader} (h : newlineByte ∉ r.rest)
    (hne : p ++ r.rest ≠ []) : observed (readLoop chop maxBytes (unfinished maxBytes p r)) =
      ((verdict maxBytes (p ++ r.rest)).1, (verdict maxBytes (p ++ r.rest)).2, []) := by
  induction hn : r.rest.length using Nat.strongRecOn generalizing p r with
  | _ n ih =>
      by_cases hrest : r.rest = []
      · rw [hrest, List.append_nil] at hne ⊢
        rw [readLoop_result chop maxBytes (readStep_end chop maxBytes p hrest), if_neg hne, ← finish_unfinished maxBytes p r]
        simp only [observed, unfinished, hrest]
      · have hchunk := fillBuf_ne_nil chop hrest
        have hnewline : newlineByte ∉ r.fillBuf chop := fun hmem => h (List.mem_of_mem_take hmem)
        have hstep := readStep_more chop maxBytes p rfl hchunk hnewline
        have hsplit := fillBuf_append chop r
        have hbehind := ih _ (hn ▸ readStep_shorter hstep) (p := p ++ r.fillBuf chop)
          (r := r.consume (r.fillBuf chop).length) (fun hmem => h (List.mem_of_mem_drop hmem))
          (by rwa [List.append_assoc, hsplit]) rfl
        rw [List.append_assoc, hsplit] at hbehind
        rw [readLoop_again chop maxBytes hstep, hbehind]

/-- A frame that a newline ends; the bytes behind it are left. -/
theorem readLoop_frame {p a b : List UInt8} {r : Reader} (hrest : r.rest = a ++ newlineByte :: b)
    (h : newlineByte ∉ a) : observed (readLoop chop maxBytes (unfinished maxBytes p r)) =
      ((verdict maxBytes (p ++ a)).1, (verdict maxBytes (p ++ a)).2, b) := by
  induction hn : r.rest.length using Nat.strongRecOn generalizing p a r with
  | _ n ih =>
      have hne : r.rest ≠ [] := by simp [hrest]
      have hchunk := fillBuf_ne_nil chop hne
      rcases Nat.lt_or_ge a.length (chop r.calls + 1) with hin | hout
      · -- the newline is in this chunk
        obtain ⟨k, hk⟩ := Nat.exists_eq_add_of_lt hin
        have hbuf : r.fillBuf chop = a ++ newlineByte :: b.take k := by
          rw [Reader.fillBuf, hrest, hk, Nat.add_assoc, List.take_length_add_append,
            List.take_succ_cons]
        rw [readLoop_result chop maxBytes (readStep_newline chop maxBytes p hbuf h), ← finish_unfinished maxBytes (p ++ a) r]
        have hdrop : (r.consume (a.length + 1)).rest = b := by
          rw [Reader.consume, hrest, ← List.drop_drop, List.drop_left, List.drop_one, List.tail_cons]
        simp only [observed, unfinished, hdrop]
      · have hbuf : r.fillBuf chop = a.take (chop r.calls + 1) := by
          rw [Reader.fillBuf, hrest, List.take_append_of_le_length hout]
        have hnewline : newlineByte ∉ r.fillBuf chop := by
          rw [hbuf]
          exact fun hmem => h (List.mem_of_mem_take hmem)
        have hstep := readStep_more chop maxBytes p rfl hchunk hnewline
        have hrest' : (r.consume (r.fillBuf chop).length).rest =
            a.drop (chop r.calls + 1) ++ newlineByte :: b := by
          rw [Reader.consume, hbuf, List.length_take, Nat.min_eq_left hout, hrest,
            List.drop_append_of_le_length hout]
        have hbehind := ih _ (hn ▸ readStep_shorter hstep) (p := p ++ r.fillBuf chop)
          hrest' (fun hmem => h (List.mem_of_mem_drop hmem)) rfl
        rw [hbuf, List.append_assoc, List.take_append_drop] at hbehind
        rw [readLoop_again chop maxBytes hstep, hbuf, hbehind]

end Loop

/-- What a call reports when this is the next piece of the stream. -/
def expected (maxBytes : ℕ) : Option (List UInt8) → FrameRead × List UInt8
  | none => (.eof, [])
  | some p => verdict maxBytes p

theorem split_newline (l : List UInt8) :
    newlineByte ∉ l ∨ ∃ a b, l = a ++ newlineByte :: b ∧ newlineByte ∉ a := by
  by_cases h : newlineByte ∈ l
  · obtain ⟨a, b, hsplit, hfirst⟩ := List.eq_append_cons_of_mem h
    exact Or.inr ⟨a, b, hsplit, hfirst⟩
  · exact Or.inl h

/-- Each call takes the next piece. -/
theorem readFrame_pieces (chop : ℕ → ℕ) (maxBytes : ℕ) (r : Reader) :
    ((readFrame chop maxBytes r).1, (readFrame chop maxBytes r).2.1) =
        expected maxBytes (pieces r.rest).head? ∧
      pieces (readFrame chop maxBytes r).2.2.rest = (pieces r.rest).tail := by
  have hstart : (⟨false, false, [], r⟩ : Progress) = unfinished maxBytes [] r := by
    simp [unfinished]
  unfold readFrame
  rw [hstart]
  change ((observed (readLoop chop maxBytes (unfinished maxBytes [] r))).1,
      (observed (readLoop chop maxBytes (unfinished maxBytes [] r))).2.1) = _ ∧
    pieces (observed (readLoop chop maxBytes (unfinished maxBytes [] r))).2.2 = _
  rcases split_newline r.rest with hlast | ⟨a, b, hsplit, ha⟩
  · by_cases hempty : r.rest = []
    · rw [readLoop_result chop maxBytes (readStep_end chop maxBytes [] hempty), hempty, pieces_nil]
      simp [observed, unfinished, hempty, expected, pieces_nil]
    · have hne : [] ++ r.rest ≠ [] := hempty
      rw [readLoop_last chop maxBytes hlast hne, List.nil_append,
        pieces_last hempty hlast]
      exact ⟨rfl, pieces_nil⟩
  · rw [readLoop_frame chop maxBytes hsplit ha, hsplit, pieces_append ha]
    exact ⟨rfl, rfl⟩

/-- The reader before each call. -/
def readerAfter (chop : ℕ → ℕ) (maxBytes : ℕ) (stream : List UInt8) : ℕ → Reader
  | 0 => ⟨stream, 0⟩
  | n + 1 => (readFrame chop maxBytes (readerAfter chop maxBytes stream n)).2.2

theorem pieces_readerAfter (chop : ℕ → ℕ) (maxBytes : ℕ) (stream : List UInt8) (n : ℕ) :
    pieces (readerAfter chop maxBytes stream n).rest = (pieces stream).drop n := by
  induction n with
  | zero => rfl
  | succ n ih =>
      rw [readerAfter, (readFrame_pieces chop maxBytes _).2, ih, List.tail_drop]

/-- One turn of the loop, with or without a result. -/
def Turn (chop : ℕ → ℕ) (maxBytes : ℕ) (s s' : Progress) : Prop :=
  (readStep chop maxBytes s).2 = s'

theorem turn_buffer {chop : ℕ → ℕ} {maxBytes : ℕ} {s s' : Progress} (h : Turn chop maxBytes s s')
    (hs : s.buffer.length ≤ maxBytes) : s'.buffer.length ≤ maxBytes := by
  have htake : ∀ (t : Progress) (payload : List UInt8), t.buffer.length ≤ maxBytes →
      (t.takePayload maxBytes payload).buffer.length ≤ maxBytes := by
    intro t payload ht
    unfold Progress.takePayload
    split_ifs with hlarge hroom
    · exact ht
    · exact Nat.zero_le _
    · rw [List.length_append]
      omega
  unfold Turn readStep at h
  dsimp only at h
  rw [← h]
  by_cases hempty : (s.reader.fillBuf chop).isEmpty = true
  · rw [if_pos hempty]
    exact hs
  · rw [if_neg hempty]
    exact htake _ _ hs

/-- The n-th call reports the n-th piece of the stream, whatever the chunks are; too long a
piece is reported once, and the buffer never holds more than the limit. -/
theorem frame_sequence (chop : ℕ → ℕ) (maxBytes : ℕ) (stream : List UInt8) (n : ℕ) :
    ((readFrame chop maxBytes (readerAfter chop maxBytes stream n)).1,
        (readFrame chop maxBytes (readerAfter chop maxBytes stream n)).2.1) =
        expected maxBytes (pieces stream)[n]? ∧
      ∀ s, Relation.ReflTransGen (Turn chop maxBytes)
          ⟨false, false, [], readerAfter chop maxBytes stream n⟩ s →
        s.buffer.length ≤ maxBytes := by
  constructor
  · rw [(readFrame_pieces chop maxBytes _).1, pieces_readerAfter, List.head?_drop]
  · intro s hs
    induction hs with
    | refl => exact Nat.zero_le _
    | tail _ hturn ih => exact turn_buffer hturn ih

end SlhaV2.FrameReader
