import SlhaV2.ByteBuffer
import SlhaV2.MachineWord

/-!
# Sequences of checked steps

A step returns a value, reports an error, or panics. A sequence succeeds when
each of its steps does, and does not panic when none of them does; an index is
such a step, and so is a check which reports a message.
-/
namespace SlhaV2.CheckedSteps
open ByteBuffer MachineWord

variable {α β : Type}

/-- An element of an array or a slice; a panic when there is none. -/
def index (l : List α) (i : ℕ) : Outcome α :=
  match l[i]? with
  | some a => .ok a
  | none => .error .panic

/-- The range of `len` elements from `start` on. -/
def indexRange (l : List α) (start len : ℕ) : Outcome (List α) :=
  if start + len ≤ l.length then .ok ((l.drop start).take len) else .error .panic

/-- A multiplication of lengths; it panics when it overflows. -/
def wordMul (a b : ℕ) : Outcome ℕ := if a * b ≤ maxWord then .ok (a * b) else .error .panic

def wordAdd (a b : ℕ) : Outcome ℕ := if a + b ≤ maxWord then .ok (a + b) else .error .panic

/-- The elements from `start` on and before `stop`. -/
def indexBetween (l : List α) (start stop : ℕ) : Outcome (List α) :=
  if start ≤ stop ∧ stop ≤ l.length then .ok ((l.drop start).take (stop - start))
  else .error .panic

/-- The value of an optional result, or a message. -/
def orErr (x : Option α) (msg : String) : Outcome α :=
  match x with
  | some a => .ok a
  | none => .error (.err msg)

/-- Report a message unless the condition holds. -/
def require (c : Prop) [Decidable c] (msg : String) : Outcome Unit :=
  if c then .ok () else .error (.err msg)

def NoPanic (x : Outcome α) : Prop := x ≠ .error .panic

theorem bind_eq_ok {x : Outcome α} {f : α → Outcome β} {b : β} :
    (x >>= f) = .ok b ↔ ∃ a, x = .ok a ∧ f a = .ok b := by
  cases x <;> simp [bind, Except.bind]

@[simp] theorem ok_bind {a : α} {f : α → Outcome β} : (Except.ok a >>= f) = f a := rfl

@[simp] theorem require_eq_ok {c : Prop} [Decidable c] {msg : String} {u : Unit} :
    require c msg = .ok u ↔ c := by
  unfold require
  split_ifs with h <;> simp [h]

theorem index_of_lt {l : List α} {i : ℕ} (h : i < l.length) : index l i = .ok l[i] := by
  unfold index
  rw [List.getElem?_eq_getElem h]

theorem index_eq_ok {l : List α} {i : ℕ} {a : α} : index l i = .ok a ↔ l[i]? = some a := by
  unfold index
  cases l[i]? <;> simp

theorem getElem?_getD {l : List α} {i : ℕ} (d : α) (h : i < l.length) :
    l[i]? = some (l.getD i d) := by
  rw [List.getD_eq_getElem?_getD, List.getElem?_eq_getElem h, Option.getD_some]

theorem index_getD {l : List α} {i : ℕ} (d : α) (h : i < l.length) :
    index l i = .ok (l.getD i d) :=
  index_eq_ok.mpr (getElem?_getD d h)

theorem indexRange_of_le {l : List α} {start len : ℕ} (h : start + len ≤ l.length) :
    indexRange l start len = .ok ((l.drop start).take len) := if_pos h

theorem indexRange_eq_ok {l : List α} {start len : ℕ} {r : List α} :
    indexRange l start len = .ok r ↔ start + len ≤ l.length ∧ r = (l.drop start).take len := by
  unfold indexRange
  split_ifs with h <;> simp [h, eq_comm]

theorem wordMul_of_le {a b : ℕ} (h : a * b ≤ maxWord) : wordMul a b = .ok (a * b) := if_pos h

theorem wordAdd_of_le {a b : ℕ} (h : a + b ≤ maxWord) : wordAdd a b = .ok (a + b) := if_pos h

theorem NoPanic.ok (a : α) : NoPanic (.ok a : Outcome α) := by
  intro h
  cases h

theorem NoPanic.err (msg : String) : NoPanic (.error (.err msg) : Outcome α) := by
  intro h
  cases h

theorem NoPanic.require {c : Prop} [Decidable c] {msg : String} :
    NoPanic (require c msg) := by
  unfold CheckedSteps.require
  split_ifs
  · exact NoPanic.ok ()
  · exact NoPanic.err msg

theorem NoPanic.bind {x : Outcome α} {f : α → Outcome β} (hx : NoPanic x)
    (hf : ∀ a, x = .ok a → NoPanic (f a)) : NoPanic (x >>= f) := by
  cases x with
  | ok a => exact hf a rfl
  | error e =>
      intro h
      exact hx (congrArg Except.error (Except.error.inj h))

/-- What neither panics nor succeeds reports an error. -/
theorem NoPanic.exists_err {x : Outcome α} (hx : NoPanic x) (h : ∀ a, x ≠ .ok a) :
    ∃ msg, x = .error (.err msg) := by
  cases x with
  | ok a => exact absurd rfl (h a)
  | error e =>
      cases e with
      | err msg => exact ⟨msg, rfl⟩
      | panic => exact absurd rfl hx

/-- A step does not panic, and when it succeeds its result meets a condition. -/
def Meets (x : Outcome α) (Q : α → Prop) : Prop := NoPanic x ∧ ∀ a, x = .ok a → Q a

theorem Meets.ok {Q : α → Prop} {a : α} (h : Q a) : Meets (.ok a) Q := by
  constructor
  · exact NoPanic.ok a
  · intro b hb
    cases hb
    exact h

theorem Meets.err {Q : α → Prop} (msg : String) : Meets (.error (.err msg)) Q := by
  constructor
  · exact NoPanic.err msg
  · intro a ha
    cases ha

theorem Meets.bind {Q : α → Prop} {R : β → Prop} {x : Outcome α} {f : α → Outcome β}
    (hx : Meets x Q) (hf : ∀ a, Q a → Meets (f a) R) : Meets (x >>= f) R := by
  constructor
  · exact hx.1.bind fun a ha => (hf a (hx.2 a ha)).1
  · intro b hb
    obtain ⟨a, ha, hfa⟩ := bind_eq_ok.mp hb
    exact (hf a (hx.2 a ha)).2 b hfa

theorem Meets.mono {Q R : α → Prop} {x : Outcome α} (hx : Meets x Q) (h : ∀ a, Q a → R a) :
    Meets x R :=
  ⟨hx.1, fun a ha => h a (hx.2 a ha)⟩

/-- After a check the steps may rely on what it checked. -/
theorem Meets.require {c : Prop} [Decidable c] {msg : String} {f : Unit → Outcome α}
    {Q : α → Prop} (h : c → Meets (f ()) Q) : Meets (require c msg >>= f) Q := by
  unfold CheckedSteps.require
  split_ifs with hc
  · exact h hc
  · exact Meets.err msg

theorem Meets.orErr {x : Option α} {msg : String} {f : α → Outcome β} {Q : β → Prop}
    (h : ∀ a, x = some a → Meets (f a) Q) : Meets (orErr x msg >>= f) Q := by
  cases x with
  | none => exact Meets.err msg
  | some a => exact h a rfl

@[simp] theorem orErr_some (a : α) (msg : String) : orErr (some a) msg = .ok a := rfl

theorem orErr_eq_ok {x : Option α} {msg : String} {a : α} : orErr x msg = .ok a ↔ x = some a := by
  unfold orErr
  cases x <;> simp

theorem require_of {c : Prop} [Decidable c] {msg : String} (h : c) :
    CheckedSteps.require c msg = .ok () := if_pos h

theorem indexBetween_of_le {l : List α} {start stop : ℕ} (h : start ≤ stop)
    (h' : stop ≤ l.length) :
    indexBetween l start stop = .ok ((l.drop start).take (stop - start)) := if_pos ⟨h, h'⟩

/-- Steps that all succeed give the list of their results. -/
theorem mapM_ok {f : α → Outcome β} {g : α → β} {l : List α} (h : ∀ a ∈ l, f a = .ok (g a)) :
    l.mapM f = .ok (l.map g) := by
  induction l with
  | nil => rfl
  | cons a l ih =>
      rw [List.mapM_cons, h a List.mem_cons_self,
        ih fun b hb => h b (List.mem_cons_of_mem a hb)]
      rfl

end SlhaV2.CheckedSteps
