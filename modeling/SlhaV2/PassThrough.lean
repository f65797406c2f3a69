import SlhaV2.CopyModes

/-!
# Passing K and the scores through

The score operation copies the products flatly, element by element, in the shadow mode and
for the layers that are not selected. Like the modes of the K transform that copy, it is
right for the tensors whose elements lie where the copy takes them to be.
-/
namespace SlhaV2.PassThrough
open ByteMemory ThreadSchedules KTransform RoundtripRows CopyModes

inductive ScoreMode where
  | off
  | shadow
  | replace
deriving DecidableEq

/-- What the operation reads of a tensor, `nelements` being what ggml answers. -/
structure Tensor where
  type : GgmlType
  ne0 : ℕ
  nb0 : ℕ
  outer : Layout
  nelements : ℕ
  nelements_eq : nelements = ne0 * outer.ne1 * outer.ne2 * outer.ne3

/-- One call of the score operation; the scores have the shape of the products. -/
structure ScoreCall where
  dst : Tensor
  kq : Tensor
  q : Tensor
  shape : dst.ne0 = kq.ne0 ∧ dst.outer.ne1 = kq.outer.ne1 ∧ dst.outer.ne2 = kq.outer.ne2 ∧
    dst.outer.ne3 = kq.outer.ne3
  nth : ℕ
  scoreMode : ScoreMode
  nEmbdGqa : ℕ
  /-- What `slha_layer_selected` says of the layer. -/
  selected : Bool

namespace ScoreCall
variable (s : ScoreCall)

/-- Whether the checks let the call get to copying the products. -/
def Copies : Prop :=
  s.scoreMode ≠ .off ∧
    (s.kq.type.isF32 ∧ s.q.type.isF32 ∧ s.dst.type.isF32) ∧
    (s.kq.nb0 = 4 ∧ s.q.nb0 = 4 ∧ s.dst.nb0 = 4) ∧
    (s.q.outer.ne1 = s.kq.outer.ne1 ∧ s.q.outer.ne2 = s.kq.outer.ne2 ∧
      s.q.outer.ne3 = s.kq.outer.ne3) ∧
    (s.nEmbdGqa ≠ 0 ∧ s.nEmbdGqa % s.q.ne0 = 0) ∧
    (s.nEmbdGqa / s.q.ne0 ≠ 0 ∧ s.kq.outer.ne2 % (s.nEmbdGqa / s.q.ne0) = 0) ∧
    (s.scoreMode = .replace → s.selected = false)

instance : Decidable s.Copies := by
  unfold Copies
  infer_instance

inductive Pc where
  | enter
  | copying (i : ℕ)
  | done

def firstElement (ith : ℕ) : ℕ := s.dst.nelements * ith / s.nth

/-- One step of a thread: the pointers are followed element by element. -/
def step (src : Memory) (ith : Fin s.nth) (pc : Pc) (out : Memory) : Pc × Memory :=
  match pc with
  | .enter => if s.Copies then (.copying (s.firstElement ith), out) else (.done, out)
  | .copying i =>
      if i < s.firstElement (ith + 1) then
        (.copying (i + 1), writeBytes out (4 * i) (readBytes src (4 * i) 4))
      else (.done, out)
  | .done => (.done, out)

def Pc.Done : Pc → Prop
  | .done => True
  | _ => False

def start (out : Memory) : World (Fin s.nth) Pc Memory := ⟨fun _ => .enter, out⟩

/-- After all threads every score is the product at its place. -/
def CopiesRows : Prop :=
  ∀ src before schedule, (∀ i, ((run (s.step src) (s.start before) schedule).locals i).Done) →
    SameRows s.kq.outer s.dst.outer (4 * s.kq.ne0) src
      (run (s.step src) (s.start before) schedule).shared

variable {s : ScoreCall}

theorem firstElement_le {i : ℕ} (hi : i ≤ s.nth) :
    s.firstElement i ≤ s.dst.nelements := by
  apply Nat.div_le_of_le_mul
  rw [Nat.mul_comm]
  exact Nat.mul_le_mul_right _ hi

theorem exists_share {e : ℕ} (he : e < s.dst.nelements) (hn : 0 < s.nth) :
    ∃ i : Fin s.nth, s.firstElement i ≤ e ∧ e < s.firstElement (i + 1) := by
  have hlast : e < s.firstElement s.nth := by
    unfold firstElement
    rwa [Nat.mul_div_cancel _ hn]
  have hsome : ∃ i, e < s.firstElement i := ⟨s.nth, hlast⟩
  -- the first thread whose share starts after the element is the next one
  have hfound := Nat.find_spec hsome
  have hle : Nat.find hsome ≤ s.nth := Nat.find_min' hsome hlast
  cases hi : Nat.find hsome with
  | zero =>
      rw [hi] at hfound
      unfold firstElement at hfound
      rw [Nat.mul_zero, Nat.zero_div] at hfound
      omega
  | succ i =>
      rw [hi] at hfound hle
      refine ⟨⟨i, hle⟩, ?_, hfound⟩
      have hnot := Nat.find_min hsome (m := i) (by omega)
      exact not_lt.mp hnot

def Pc.left (n : ℕ) : Pc → ℕ
  | .enter => n + 2
  | .copying i => n - i + 1
  | .done => 0

theorem left_step_lt (src : Memory) (i : Fin s.nth) (pc : Pc) (out : Memory) (h : ¬ pc.Done) :
    Pc.left (s.dst.nelements) (s.step src i pc out).1 < Pc.left (s.dst.nelements) pc := by
  cases pc with
  | enter =>
      unfold step
      dsimp only
      split_ifs <;> simp only [Pc.left] <;> omega
  | copying e =>
      have hend := firstElement_le (s := s) (i := i + 1) i.isLt
      unfold step
      dsimp only
      split_ifs <;> simp only [Pc.left] <;> omega
  | done => exact absurd trivial h

theorem exists_allDone (src before : Memory) :
    ∃ schedule, ∀ i, ((run (s.step src) (s.start before) schedule).locals i).Done := by
  obtain ⟨schedule, h⟩ := exists_all_done (left_step_lt src)
    (fun i pc out hdone => by
      cases pc with
      | done => trivial
      | _ => exact hdone.elim) (s.start before) (List.finRange s.nth)
  exact ⟨schedule, fun i => h i (List.mem_finRange i)⟩

/-- The element is behind the thread. -/
def Passed (s : ScoreCall) (i : Fin s.nth) (e : ℕ) : Pc → Prop
  | .enter => False
  | .copying now => s.firstElement i ≤ e ∧ e < now
  | .done => s.firstElement i ≤ e ∧ e < s.firstElement (i + 1)

/-- What is behind a thread is copied, and only the elements are touched. -/
structure Copied (s : ScoreCall) (src before : Memory)
    (w : World (Fin s.nth) Pc Memory) : Prop where
  ahead : ∀ i now, w.locals i = .copying now → s.firstElement i ≤ now
  passed : ∀ i e, Passed s i e (w.locals i) → ∀ k < 4, w.shared (4 * e + k) = src (4 * e + k)
  untouched : ∀ a, 4 * s.dst.nelements ≤ a → w.shared a = before a

/-- A step copies the element it is at, or nothing. -/
theorem copy_step (hcopies : s.Copies) (src out : Memory) {i : Fin s.nth} {pc : Pc}
    (hahead : ∀ now, pc = .copying now → s.firstElement i ≤ now) :
    (∀ now, (s.step src i pc out).1 = .copying now → s.firstElement i ≤ now) ∧
      ((s.step src i pc out).2 = out ∧
          (∀ e, Passed s i e (s.step src i pc out).1 → Passed s i e pc) ∨
        ∃ u < s.dst.nelements,
          (∀ e, Passed s i e (s.step src i pc out).1 → Passed s i e pc ∨ e = u) ∧
          (s.step src i pc out).2 = writeBytes out (4 * u) (readBytes src (4 * u) 4)) := by
  cases pc with
  | enter =>
      unfold step
      dsimp only
      rw [if_pos hcopies]
      constructor
      · rintro now heq
        cases heq
        exact le_rfl
      · refine .inl ⟨rfl, fun e h => ?_⟩
        have hbounds : s.firstElement i ≤ e ∧ e < s.firstElement i := h
        omega
  | copying now =>
      have hle := hahead now rfl
      have hend := firstElement_le (s := s) (i := i + 1) i.isLt
      unfold step
      dsimp only
      split_ifs with hmore
      · constructor
        · rintro next heq
          cases heq
          exact Nat.le_succ_of_le hle
        · refine .inr ⟨now, hmore.trans_le hend, fun e h => ?_, rfl⟩
          have hbounds : s.firstElement i ≤ e ∧ e < now + 1 := h
          rcases Nat.lt_succ_iff_lt_or_eq.mp hbounds.2 with hlt | heq
          · exact .inl ⟨hbounds.1, hlt⟩
          · exact .inr heq
      · refine ⟨nofun, .inl ⟨rfl, fun e h => ?_⟩⟩
        exact ⟨h.1, h.2.trans_le (not_lt.mp hmore)⟩
  | done => exact ⟨nofun, .inl ⟨rfl, fun _ h => h⟩⟩

theorem copied_step (hcopies : s.Copies) {src before : Memory} (w : World (Fin s.nth) Pc Memory)
    (i : Fin s.nth) (h : Copied s src before w) : Copied s src before (exec (s.step src) w i) := by
  obtain ⟨hahead, hcopy⟩ := copy_step hcopies src w.shared (h.ahead i)
  constructor
  · intro j now hj
    by_cases hij : j = i
    · subst hij
      rw [exec_self] at hj
      exact hahead now hj
    · rw [exec_of_ne w hij] at hj
      exact h.ahead j now hj
  · intro j e hj k hk
    change (s.step src i (w.locals i) w.shared).2 (4 * e + k) = _
    rcases hcopy with ⟨hout, hback⟩ | ⟨u, _, hback, hout⟩
    · rw [hout]
      apply h.passed j e _ k hk
      by_cases hij : j = i
      · subst hij
        rw [exec_self] at hj
        exact hback e hj
      · rwa [exec_of_ne w hij] at hj
    · rw [hout, writeBytes_readBytes]
      split_ifs with hin
      · congr 1
        omega
      · apply h.passed j e _ k hk
        by_cases hij : j = i
        · subst hij
          rw [exec_self] at hj
          rcases hback e hj with hold | rfl
          · exact hold
          · omega
        · rwa [exec_of_ne w hij] at hj
  · intro a ha
    change (s.step src i (w.locals i) w.shared).2 a = _
    rcases hcopy with ⟨hout, _⟩ | ⟨u, hu, _, hout⟩
    · rw [hout]
      exact h.untouched a ha
    · rw [hout, writeBytes_readBytes, if_neg (by omega)]
      exact h.untouched a ha

theorem copied_run (hcopies : s.Copies) (src before : Memory) (schedule : List (Fin s.nth)) :
    Copied s src before (run (s.step src) (s.start before) schedule) := by
  apply run_invariant fun w i => copied_step hcopies w i
  constructor
  · intro i now h
    cases h
  · intro i e h
    exact h.elim
  · exact fun _ _ => rfl

theorem flatCopy_done (hcopies : s.Copies) (hn : 0 < s.nth) {src before : Memory}
    {schedule : List (Fin s.nth)}
    (hdone : ∀ i, ((run (s.step src) (s.start before) schedule).locals i).Done) :
    FlatCopy src before (run (s.step src) (s.start before) schedule).shared
      (4 * s.dst.nelements) := by
  have h := copied_run hcopies src before schedule
  intro a
  split_ifs with hin
  · obtain ⟨i, hfirst, hlast⟩ := exists_share (s := s) (e := a / 4) (by omega) hn
    have hpassed : Passed s i (a / 4) ((run (s.step src) (s.start before) schedule).locals i) := by
      have hend := hdone i
      cases hpc : (run (s.step src) (s.start before) schedule).locals i with
      | done => exact ⟨hfirst, hlast⟩
      | _ => rw [hpc] at hend; exact hend.elim
    have hbyte := h.passed i _ hpassed (a % 4) (Nat.mod_lt _ (by decide))
    rwa [Nat.div_add_mod] at hbyte
  · exact h.untouched a (by omega)

theorem copiesRows_iff (hcopies : s.Copies) (hn : 0 < s.nth) :
    s.CopiesRows ↔
      FlatRows s.kq.outer s.dst.outer (4 * s.kq.ne0) (4 * s.dst.nelements) := by
  rw [← sameRows_flat_iff]
  constructor
  · intro h src before after hcopy
    obtain ⟨schedule, hdone⟩ := exists_allDone (s := s) src before
    have hfinal := flatCopy_done hcopies hn hdone
    have hsame : after = (run (s.step src) (s.start before) schedule).shared := by
      funext a
      rw [hcopy a, hfinal a]
    rw [hsame]
    exact h src before schedule hdone
  · intro h src before schedule hdone
    exact h src before _ (flatCopy_done hcopies hn hdone)

end ScoreCall

/-- A call of one of the two operations. -/
inductive Path (F : Type) where
  | transform (c : Call F) (layer : LayerState)
  | score (s : ScoreCall)

namespace Path
variable {F : Type}

/-- The call copies, on some number of threads. -/
def Accepted : Path F → Prop
  | transform c layer => Copying c layer
  | score s => s.Copies ∧ 0 < s.nth

/-- The destination ends up as the source, and what is collected is the source. -/
def PassesThrough : Path F → Prop
  | transform c layer => CopiesRows c layer ∧ (layer.kvMode = .collect → CollectsRows c layer)
  | score s => s.CopiesRows

/-- The rows lie where the copy takes them to be. -/
def LaidOut : Path F → Prop
  | transform c layer =>
      if layer.kvMode = .tilestore then StridedRows c layer
      else FlatRows c.a c.dst (rowBytes c) (c.a.ne1 * packedRowBytes c) ∧
        (layer.kvMode = .collect →
          (logicalOffsets c.a).length = (packedOffsets c).length ∧
            (0 < rowBytes c → (logicalOffsets c.a).Perm (packedOffsets c)))
  | score s => FlatRows s.kq.outer s.dst.outer (4 * s.kq.ne0) (4 * s.dst.nelements)

/-- A path passes its input through exactly when the tensors are laid out as its copy assumes. -/
theorem passesThrough_iff_laidOut (p : Path F) (h : p.Accepted) :
    p.PassesThrough ↔ p.LaidOut := by
  cases p with
  | transform c layer =>
      have hc : Copying c layer := h
      unfold PassesThrough LaidOut
      dsimp only
      split_ifs with hmode
      · rw [copiesRows_strided_iff hc hmode]
        constructor
        · exact And.left
        · intro hrows
          refine ⟨hrows, fun hcollect => ?_⟩
          rw [hmode] at hcollect
          cases hcollect
      · rw [copiesRows_packed_iff hc hmode]
        constructor
        · exact fun ⟨hrows, hall⟩ =>
            ⟨hrows, fun hcollect => (collectsRows_iff hc hcollect).mp (hall hcollect)⟩
        · exact fun ⟨hrows, hall⟩ =>
            ⟨hrows, fun hcollect => (collectsRows_iff hc hcollect).mpr (hall hcollect)⟩
  | score s => exact ScoreCall.copiesRows_iff h.1 h.2

-- Two tokens between three threads, packed and with a padded row in the source.
def collecting : LayerState := ⟨.collect, 0, 0, []⟩

def packedTokens : Call ℚ := { twoRows with nth := 3 }

def paddedTokens : Call ℚ := { packedTokens with a := ⟨2, 1, 1, 8, 16, 16⟩ }

theorem passesThrough_packedTokens : (transform packedTokens collecting).PassesThrough := by
  have hc : Copying packedTokens collecting := ⟨.inr (.inl rfl), by decide⟩
  apply (passesThrough_iff_laidOut (transform packedTokens collecting) hc).mpr
  unfold LaidOut FlatRows
  dsimp only
  rw [if_neg (by decide)]
  constructor
  · decide
  · decide

/-- The second row is taken from the padding behind the first. -/
theorem padding_passed : (transform paddedTokens collecting).Accepted ∧
    ¬ (transform paddedTokens collecting).PassesThrough := by
  have hc : Copying paddedTokens collecting := ⟨.inr (.inl rfl), by decide⟩
  refine ⟨hc, fun h => ?_⟩
  have hflat := (copiesRows_packed_iff hc (by decide)).mp h.1
  have hrow := hflat 1 (by decide) 0 (by decide) 0 (by decide) (by decide)
  exact absurd hrow.1 (by decide)

end Path

end SlhaV2.PassThrough
