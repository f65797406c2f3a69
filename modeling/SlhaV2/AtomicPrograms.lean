import Mathlib.Logic.Function.Basic
import Mathlib.Logic.Nontrivial.Basic

/-!
# Programs that fail without a trace

The state of such a program outlives its errors, as memory behind a pointer
does. A program is atomic when it leaves the state as it was whenever it fails:
checking first and writing last is enough, and storing results one by one is
atomic only when nothing fails after the first one.
-/
namespace SlhaV2.AtomicPrograms

variable {σ τ ε α β : Type}

/-- The state a program leaves behind, however it ends. -/
def after (p : EStateM ε σ α) (s : σ) : σ :=
  match p s with
  | .ok _ s' => s'
  | .error _ s' => s'

def Fails (p : EStateM ε σ α) (s : σ) : Prop := ∃ e s', p s = .error e s'

def Atomic (p : EStateM ε σ α) : Prop := ∀ s, Fails p s → after p s = s

def ReadOnly (p : EStateM ε σ α) : Prop := ∀ s, after p s = s

def Succeeds (p : EStateM ε σ α) : Prop := ∀ s, ¬ Fails p s

/-- A computation that does not touch the state. -/
def check (x : Except ε α) : EStateM ε σ α := fun s =>
  match x with
  | .ok a => .ok a s
  | .error e => .error e s

def assign (f : σ → σ) : EStateM ε σ Unit := fun s => .ok () (f s)

theorem bind_eq_ok {x : Except ε α} {f : α → Except ε β} {b : β} :
    (x >>= f) = .ok b ↔ ∃ a, x = .ok a ∧ f a = .ok b := by
  cases x with
  | ok a => exact ⟨fun h => ⟨a, rfl, h⟩, fun ⟨_, ha, h⟩ => (Except.ok.inj ha) ▸ h⟩
  | error e => exact ⟨fun h => (nomatch h), fun ⟨_, ha, _⟩ => (nomatch ha)⟩

theorem ReadOnly.atomic {p : EStateM ε σ α} (h : ReadOnly p) : Atomic p := fun s _ => h s

theorem Succeeds.atomic {p : EStateM ε σ α} (h : Succeeds p) : Atomic p :=
  fun s hf => absurd hf (h s)

theorem readOnly_pure (a : α) : ReadOnly (pure a : EStateM ε σ α) := fun _ => rfl

theorem succeeds_assign (f : σ → σ) : Succeeds (assign f : EStateM ε σ Unit) := by
  rintro s ⟨e, s', h⟩
  cases h

theorem bind_ok {p : EStateM ε σ α} {f : α → EStateM ε σ β} {s s' : σ} {a : α}
    (h : p s = .ok a s') : (p >>= f) s = f a s' := by
  change EStateM.bind p f s = _
  unfold EStateM.bind
  rw [h]

theorem check_ok_bind (a : α) (f : α → EStateM ε σ β) : (check (.ok a) >>= f) = f a := rfl

theorem atomic_check_bind {x : Except ε α} {f : α → EStateM ε σ β}
    (hf : ∀ a, x = .ok a → Atomic (f a)) : Atomic (check x >>= f) := by
  cases x with
  | ok a => exact hf a rfl
  | error e =>
      intro s _
      rfl

/-- So does writing last, when what is written next cannot fail. -/
theorem Succeeds.bind {p : EStateM ε σ α} {f : α → EStateM ε σ β} (hp : Succeeds p)
    (hf : ∀ a, Succeeds (f a)) : Succeeds (p >>= f) := by
  intro s hfails
  cases h : p s with
  | ok a s' =>
      unfold Fails at hfails
      rw [bind_ok h] at hfails
      exact hf a s' hfails
  | error e s' => exact hp s ⟨e, s', h⟩

/-- Run a program on a part of a larger state. -/
def onPart (get : τ → σ) (put : σ → τ → τ) (p : EStateM ε σ α) : EStateM ε τ α := fun t =>
  match p (get t) with
  | .ok a s => .ok a (put s t)
  | .error e s => .error e (put s t)

theorem onPart_ok {get : τ → σ} {put : σ → τ → τ} {p : EStateM ε σ α} {t : τ} {a : α} {s : σ}
    (h : p (get t) = .ok a s) : onPart get put p t = .ok a (put s t) := by
  unfold onPart
  rw [h]

theorem onPart_error {get : τ → σ} {put : σ → τ → τ} {p : EStateM ε σ α} {t : τ} {e : ε} {s : σ}
    (h : p (get t) = .error e s) : onPart get put p t = .error e (put s t) := by
  unfold onPart
  rw [h]

theorem fails_onPart {get : τ → σ} {put : σ → τ → τ} {p : EStateM ε σ α} {t : τ} :
    Fails (onPart get put p) t ↔ Fails p (get t) := by
  unfold Fails onPart
  cases p (get t) with
  | ok a s => exact ⟨fun ⟨_, _, h⟩ => (nomatch h), fun ⟨_, _, h⟩ => (nomatch h)⟩
  | error e s => exact ⟨fun _ => ⟨e, s, rfl⟩, fun _ => ⟨e, put s t, rfl⟩⟩

theorem after_onPart {get : τ → σ} {put : σ → τ → τ} {p : EStateM ε σ α} {t : τ} :
    after (onPart get put p) t = put (after p (get t)) t := by
  unfold after onPart
  cases p (get t) <;> rfl

/-- Nothing is lost or gained by looking at a part of the state only. -/
theorem atomic_onPart_iff {get : τ → σ} {put : σ → τ → τ} {p : EStateM ε σ α} [Nonempty τ]
    (hget : ∀ s t, get (put s t) = s) (hput : ∀ t, put (get t) t = t) :
    Atomic (onPart get put p) ↔ Atomic p := by
  constructor
  · intro h s hfails
    obtain ⟨t⟩ := ‹Nonempty τ›
    have hwhole := h (put s t) (fails_onPart.mpr (by rwa [hget]))
    rw [after_onPart, hget] at hwhole
    have hpart := congrArg get hwhole
    rwa [hget, hget] at hpart
  · intro h t hfails
    rw [after_onPart, h (get t) (fails_onPart.mp hfails), hput]

/-- Compute the results from index `i` on and store each before the next is computed. -/
def storeEach (x : ℕ → Except ε α) : ℕ → ℕ → EStateM ε (ℕ → α) Unit
  | 0, _ => pure ()
  | n + 1, i => do
      let a ← check (x i)
      assign fun s => Function.update s i a
      storeEach x n (i + 1)

section StoreEach
variable {x : ℕ → Except ε α}

theorem storeEach_ok {n i : ℕ} {a : α} (h : x i = .ok a) (s : ℕ → α) :
    storeEach x (n + 1) i s = storeEach x n (i + 1) (Function.update s i a) := by
  rw [storeEach, h]
  rfl

theorem storeEach_error {n i : ℕ} {e : ε} (h : x i = .error e) (s : ℕ → α) :
    storeEach x (n + 1) i s = .error e s := by
  unfold storeEach
  rw [h]
  rfl

/-- What is stored stays: only later indices are written. -/
theorem after_storeEach_of_lt {n i j : ℕ} (hj : j < i) (s : ℕ → α) :
    after (storeEach x n i) s j = s j := by
  induction n generalizing i s with
  | zero => rfl
  | succ n ih =>
      unfold after at *
      cases h : x i with
      | ok a =>
          rw [storeEach_ok h, ih (by omega), Function.update_of_ne (by omega)]
      | error e => rw [storeEach_error h]

theorem fails_storeEach_iff {n i : ℕ} {s : ℕ → α} :
    Fails (storeEach x n i) s ↔ ∃ j, i ≤ j ∧ j < i + n ∧ ∃ e, x j = .error e := by
  induction n generalizing i s with
  | zero =>
      constructor
      · rintro ⟨_, _, h⟩
        cases h
      · rintro ⟨j, hle, hlt, _⟩
        omega
  | succ n ih =>
      cases h : x i with
      | ok a =>
          unfold Fails at *
          rw [storeEach_ok h, ih]
          constructor
          · rintro ⟨j, hle, hlt, hj⟩
            exact ⟨j, by omega, by omega, hj⟩
          · rintro ⟨j, hle, hlt, e, hj⟩
            have hne : j ≠ i := by
              rintro rfl
              rw [h] at hj
              cases hj
            exact ⟨j, by omega, by omega, e, hj⟩
      | error e =>
          unfold Fails
          rw [storeEach_error h]
          exact ⟨fun _ => ⟨i, Nat.le_refl i, by omega, e, h⟩, fun _ => ⟨e, s, rfl⟩⟩

theorem error_of_storeEach {n i : ℕ} {e : ε} {s s' : ℕ → α}
    (h : storeEach x n i s = .error e s') : ∃ j, x j = .error e := by
  induction n generalizing i s with
  | zero => cases h
  | succ n ih =>
      cases hx : x i with
      | ok a =>
          rw [storeEach_ok hx] at h
          exact ih h
      | error e' =>
          rw [storeEach_error hx] at h
          cases h
          exact ⟨i, hx⟩

/-- Storing one by one is atomic only when the first result fails, or none does. -/
theorem atomic_storeEach_iff [Nontrivial α] (n : ℕ) :
    Atomic (storeEach x n 0) ↔ (∃ e, x 0 = .error e) ∨ ∀ i < n, ∃ a, x i = .ok a := by
  constructor
  · intro h
    apply or_iff_not_imp_left.mpr
    intro hfirst i hi
    cases hx : x i with
    | ok a => exact ⟨a, rfl⟩
    | error e =>
        -- some other value stood where the first result went
        obtain ⟨m, rfl⟩ := Nat.exists_eq_succ_of_ne_zero (Nat.ne_zero_of_lt hi)
        cases hzero : x 0 with
        | error e => exact absurd ⟨e, hzero⟩ hfirst
        | ok a =>
            obtain ⟨b, hb⟩ := exists_ne a
            have hfails : Fails (storeEach x (m + 1) 0) fun _ => b :=
              fails_storeEach_iff.mpr ⟨i, Nat.zero_le i, by omega, e, hx⟩
            have hsame := congrFun (h _ hfails) 0
            have hstored := after_storeEach_of_lt (x := x) (n := m) (Nat.zero_lt_one)
              (Function.update (fun _ => b) 0 a)
            unfold after at hsame hstored
            rw [storeEach_ok hzero, hstored, Function.update_self] at hsame
            exact absurd hsame.symm hb
  · rintro (⟨e, hzero⟩ | hall)
    · apply ReadOnly.atomic
      intro s
      cases n with
      | zero => rfl
      | succ n =>
          unfold after
          rw [storeEach_error hzero]
    · apply Succeeds.atomic
      intro s hfails
      obtain ⟨j, _, hlt, e, hj⟩ := fails_storeEach_iff.mp hfails
      obtain ⟨a, ha⟩ := hall j (by omega)
      rw [ha] at hj
      cases hj

end StoreEach

end SlhaV2.AtomicPrograms
