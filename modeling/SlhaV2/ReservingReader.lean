import SlhaV2.ByteReader

/-!
# Readers that ask for room

A reader that reserves room for what it is about to read also leaves the list
of its requests, whether it succeeds or not. A request is backed when as many
elements are in the input. A reader is safe at a cursor when it does not panic
there and all its requests are backed.
-/
namespace SlhaV2.ReservingReader
open MachineWord ByteBuffer CheckedSteps ByteReader

/-- The largest size in bytes of one allocation. -/
def isizeMax : ℕ := 2 ^ 63 - 1

/-- Room for `count` elements of `size` bytes each, of which the input is known to have or to
have room for `present`. -/
structure Request where
  count : ℕ
  size : ℕ
  present : ℕ
deriving DecidableEq, Repr

def Request.Backed (q : Request) : Prop := q.count ≤ q.present

/-- A reader which records its requests. -/
def Reserving (α : Type) : Type := Cursor → List Request × Outcome (α × Cursor)

variable {α β : Type}

namespace Reserving

protected def pure (a : α) : Reserving α := fun c => ([], .ok (a, c))

/-- The requests of a failing reader are all there are. -/
protected def bind (m : Reserving α) (f : α → Reserving β) : Reserving β := fun c =>
  match (m c).2 with
  | .ok (a, c') => ((m c).1 ++ (f a c').1, (f a c').2)
  | .error e => ((m c).1, .error e)

instance : Monad Reserving where
  pure := Reserving.pure
  bind := Reserving.bind

/-- Read without a request. -/
def reading (r : Reader α) : Reserving α := fun c => ([], r c)

/-- Reserve room; a panic when so many bytes are more than an allocation can have. -/
def withCapacity (count size present : ℕ) : Reserving Unit := fun c =>
  ([⟨count, size, present⟩], if count * size ≤ isizeMax then .ok ((), c) else .error .panic)

/-- How many bytes are left to read. -/
def bytesLeft : Reserving ℕ := fun c => ([], .ok (c.bytes.length - c.offset, c))

/-- Read `n` values, with their indices from `i` on. -/
def collect (step : ℕ → Reserving α) : ℕ → ℕ → Reserving (List α)
  | 0, _ => Pure.pure []
  | n + 1, i => do
      let x ← step i
      let xs ← collect step n (i + 1)
      Pure.pure (x :: xs)

variable {m : Reserving α} {f : α → Reserving β} {c c' : Cursor} {a : α} {q : Request}

theorem bind_ok (h : (m c).2 = .ok (a, c')) :
    (m >>= f) c = ((m c).1 ++ (f a c').1, (f a c').2) := by
  show Reserving.bind m f c = _
  unfold Reserving.bind
  rw [h]

theorem bind_error {e : Fault} (h : (m c).2 = .error e) : (m >>= f) c = ((m c).1, .error e) := by
  show Reserving.bind m f c = _
  unfold Reserving.bind
  rw [h]

theorem mem_bind_left (h : q ∈ (m c).1) : q ∈ ((m >>= f) c).1 := by
  cases hm : (m c).2 with
  | ok r =>
      rw [bind_ok hm]
      exact List.mem_append_left _ h
  | error e =>
      rw [bind_error hm]
      exact h

theorem mem_bind_right (hm : (m c).2 = .ok (a, c')) (h : q ∈ (f a c').1) :
    q ∈ ((m >>= f) c).1 := by
  rw [bind_ok hm]
  exact List.mem_append_right _ h

/-- Apart from a panic the requests change nothing. -/
def Reads (m : Reserving α) (r : Reader α) : Prop :=
  ∀ c, (m c).2 = .error .panic ∨ (m c).2 = r c

theorem Reads.pure (a : α) : Reads (Pure.pure a) (Pure.pure a) := fun _ => Or.inr rfl

theorem Reads.reading (r : Reader α) : Reads (reading r) r := fun _ => Or.inr rfl

theorem Reads.bind {r : Reader α} {g : α → Reader β} (hm : Reads m r)
    (hf : ∀ a, Reads (f a) (g a)) : Reads (m >>= f) (r >>= g) := by
  intro c
  have hrun : (r >>= g) c = (r c >>= fun p => g p.1 p.2) := rfl
  rw [hrun]
  cases h : (m c).2 with
  | ok p =>
      rw [bind_ok h]
      rcases hm c with hp | hr
      · rw [h] at hp
        cases hp
      · rw [← hr, h]
        exact hf p.1 p.2
  | error e =>
      rw [bind_error h]
      rcases hm c with hp | hr
      · obtain rfl := Except.error.inj (h.symm.trans hp)
        exact Or.inl rfl
      · rw [← hr, h]
        exact Or.inr rfl

theorem Reads.withCapacity {g : Reader β} {f : Unit → Reserving β} {count size present : ℕ}
    (hf : Reads (f ()) g) : Reads (withCapacity count size present >>= f) g := by
  intro c
  by_cases h : count * size ≤ isizeMax
  · rw [bind_ok (show (Reserving.withCapacity count size present c).2 = .ok ((), c) from if_pos h)]
    exact hf c
  · rw [bind_error
      (show (Reserving.withCapacity count size present c).2 = .error .panic from if_neg h)]
    exact Or.inl rfl

theorem Reads.bytesLeft {g : Reader β} {f : ℕ → Reserving β} (hf : ∀ n, Reads (f n) g) :
    Reads (bytesLeft >>= f) g := by
  intro c
  rw [bind_ok (show (Reserving.bytesLeft c).2 = .ok (c.bytes.length - c.offset, c) from rfl)]
  exact hf _ c

theorem Reads.collect {step : ℕ → Reserving α} {step' : ℕ → Reader α}
    (h : ∀ i, Reads (step i) (step' i)) (n i : ℕ) :
    Reads (collect step n i) (ByteReader.collect step' n i) := by
  induction n generalizing i with
  | zero => exact Reads.pure []
  | succ n ih => exact (h i).bind fun x => (ih (i + 1)).bind fun xs => Reads.pure (x :: xs)

/-- At this cursor the reader does not panic, all its requests are backed, and what it
returns meets a condition. -/
structure Safe (m : Reserving α) (c : Cursor) (Q : α → Cursor → Prop) : Prop where
  no_panic : NoPanic (m c).2
  backed : ∀ q ∈ (m c).1, q.Backed
  returns : ∀ a c', (m c).2 = .ok (a, c') → Q a c'

variable {Q : α → Cursor → Prop} {R : β → Cursor → Prop}

theorem Safe.pure (h : Q a c) : Safe (Pure.pure a) c Q where
  no_panic := NoPanic.ok _
  backed := fun _ hq => absurd hq List.not_mem_nil
  returns := by
    intro b c' hb
    obtain ⟨rfl, rfl⟩ := Prod.mk.inj (Except.ok.inj hb)
    exact h

theorem Safe.reading {r : Reader α} (hn : NoPanic (r c))
    (h : ∀ a c', r c = .ok (a, c') → Q a c') : Safe (reading r) c Q where
  no_panic := hn
  backed := fun _ hq => absurd hq List.not_mem_nil
  returns := h

theorem Safe.bind (hm : Safe m c Q) (hf : ∀ a c', Q a c' → Safe (f a) c' R) :
    Safe (m >>= f) c R := by
  cases h : (m c).2 with
  | error e =>
      have hrun := bind_error (f := f) h
      refine ⟨fun hp => ?_, fun q hq => ?_, fun b c' hb => ?_⟩
      · rw [hrun] at hp
        obtain rfl := Except.error.inj hp
        exact hm.no_panic h
      · rw [hrun] at hq
        exact hm.backed q hq
      · rw [hrun] at hb
        cases hb
  | ok p =>
      have hrest := hf p.1 p.2 (hm.returns p.1 p.2 h)
      have hrun := bind_ok (f := f) h
      refine ⟨?_, fun q hq => ?_, fun b c' hb => ?_⟩
      · rw [hrun]
        exact hrest.no_panic
      · rw [hrun] at hq
        rcases List.mem_append.mp hq with hq | hq
        · exact hm.backed q hq
        · exact hrest.backed q hq
      · rw [hrun] at hb
        exact hrest.returns b c' hb

theorem Safe.mono {Q' : α → Cursor → Prop} (hm : Safe m c Q) (h : ∀ a c', Q a c' → Q' a c') :
    Safe m c Q' :=
  ⟨hm.no_panic, hm.backed, fun a c' ha => h a c' (hm.returns a c' ha)⟩

theorem Safe.withCapacity {f : Unit → Reserving β} {count size present : ℕ}
    (hpresent : count ≤ present) (hsize : count * size ≤ isizeMax) (hf : Safe (f ()) c R) :
    Safe (withCapacity count size present >>= f) c R := by
  refine Safe.bind (Q := fun _ c' => c' = c) ⟨?_, ?_, ?_⟩ ?_
  · show NoPanic (if count * size ≤ isizeMax then _ else _)
    rw [if_pos hsize]
    exact NoPanic.ok _
  · intro q hq
    rw [List.mem_singleton.mp hq]
    exact hpresent
  · intro a c' h
    have h : (if count * size ≤ isizeMax then _ else _) = Except.ok (a, c') := h
    rw [if_pos hsize] at h
    exact (Prod.mk.inj (Except.ok.inj h)).2.symm
  · rintro - c' rfl
    exact hf

theorem Safe.bytesLeft {f : ℕ → Reserving β} (hf : Safe (f (c.bytes.length - c.offset)) c R) :
    Safe (bytesLeft >>= f) c R := by
  refine Safe.bind (Q := fun n c' => n = c.bytes.length - c.offset ∧ c' = c) ⟨?_, ?_, ?_⟩ ?_
  · exact NoPanic.ok _
  · exact fun q hq => absurd hq List.not_mem_nil
  · intro n c' h
    obtain ⟨rfl, rfl⟩ := Prod.mk.inj (Except.ok.inj h)
    exact ⟨rfl, rfl⟩
  · rintro n c' ⟨rfl, rfl⟩
    exact hf

/-- Each turn of a loop keeps the condition under which the turns are safe. -/
theorem Safe.collect {step : ℕ → Reserving α} {P : Cursor → Prop} {n i : ℕ}
    (h : ∀ j, i ≤ j → j < i + n → ∀ c, P c → Safe (step j) c fun _ c' => P c') (hc : P c) :
    Safe (collect step n i) c fun _ c' => P c' := by
  induction n generalizing i c with
  | zero => exact Safe.pure hc
  | succ n ih =>
      refine (h i le_rfl (by omega) c hc).bind fun x c₁ h₁ => ?_
      refine (ih (fun j hj hlt => h j (by omega) (by omega)) h₁).bind fun xs c₂ h₂ => ?_
      exact Safe.pure h₂

/-- A reader that denotes a relation returns what is related to the bytes it passes over. -/
theorem Safe.denotes {r : Reader α} {S : α → List UInt8 → Prop} (h : Denotes r S)
    (hc : c.bytes.length ≤ maxWord) (hn : NoPanic (r c)) :
    Safe (Reserving.reading r) c fun a c' => ∃ bs, S a bs ∧ c.Moves bs c' :=
  Safe.reading hn fun a c' ha => (h c a c' hc).mp ha

end Reserving

end SlhaV2.ReservingReader
