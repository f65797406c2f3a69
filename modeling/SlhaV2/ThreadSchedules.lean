import Mathlib.Data.List.Induction
import Mathlib.Logic.Function.Basic

/-!
# Threads that take turns

Every thread has a state of its own, and all of them share one more. A schedule
names the thread that takes each step, so a statement about all schedules is
one about all interleavings. What a step preserves holds after every schedule,
and threads whose steps bring them closer to their end can all be brought there.
-/
namespace SlhaV2.ThreadSchedules

variable {ι L S : Type} [DecidableEq ι]

/-- The states of the threads, and what they share. -/
structure World (ι L S : Type) where
  locals : ι → L
  shared : S

variable (step : ι → L → S → L × S)

def exec (w : World ι L S) (i : ι) : World ι L S :=
  ⟨Function.update w.locals i (step i (w.locals i) w.shared).1, (step i (w.locals i) w.shared).2⟩

def run (w : World ι L S) (schedule : List ι) : World ι L S := schedule.foldl (exec step) w

variable {step}

theorem exec_self (w : World ι L S) (i : ι) :
    (exec step w i).locals i = (step i (w.locals i) w.shared).1 := Function.update_self ..

theorem exec_of_ne (w : World ι L S) {i j : ι} (h : j ≠ i) :
    (exec step w i).locals j = w.locals j := Function.update_of_ne h ..

theorem run_append (w : World ι L S) (xs ys : List ι) :
    run step w (xs ++ ys) = run step (run step w xs) ys := List.foldl_append ..

/-- What every step preserves holds after every schedule. -/
theorem run_invariant {P : World ι L S → Prop} (hstep : ∀ w i, P w → P (exec step w i))
    {w : World ι L S} (h : P w) (schedule : List ι) : P (run step w schedule) := by
  induction schedule generalizing w with
  | nil => exact h
  | cons i schedule ih => exact ih (hstep w i h)

/-- What a thread preserves holds while it is the only one to run. -/
theorem run_invariant_alone {P : World ι L S → Prop} {i : ι}
    (hstep : ∀ w, P w → P (exec step w i)) {w : World ι L S} (h : P w) {schedule : List ι}
    (honly : ∀ j ∈ schedule, j = i) : P (run step w schedule) := by
  induction schedule generalizing w with
  | nil => exact h
  | cons j schedule ih =>
      rw [List.forall_mem_cons] at honly
      obtain ⟨rfl, honly⟩ := honly
      exact ih (hstep w h) honly

section Completion
variable {done : L → Prop} {measure : L → ℕ}

/-- A thread that is done stays so. -/
theorem run_done (hstay : ∀ i l s, done l → done (step i l s).1) {w : World ι L S} {i : ι}
    (h : done (w.locals i)) (schedule : List ι) : done ((run step w schedule).locals i) := by
  apply run_invariant (P := fun w => done (w.locals i)) _ h
  intro w j hdone
  by_cases hij : i = j
  · subst hij
    rw [exec_self]
    exact hstay i _ _ hdone
  · rw [exec_of_ne w hij]
    exact hdone

/-- Alone, a thread gets done. -/
theorem exists_done (hless : ∀ i l s, ¬ done l → measure (step i l s).1 < measure l)
    (w : World ι L S) (i : ι) :
    ∃ schedule, (∀ j ∈ schedule, j = i) ∧ done ((run step w schedule).locals i) := by
  generalize hm : measure (w.locals i) = m
  induction m using Nat.strongRecOn generalizing w with
  | _ m ih =>
      by_cases hdone : done (w.locals i)
      · exact ⟨[], by simp, hdone⟩
      · have hlt := hless i (w.locals i) w.shared hdone
        rw [← exec_self, hm] at hlt
        obtain ⟨schedule, honly, hs⟩ := ih _ hlt (exec step w i) rfl
        exact ⟨i :: schedule, List.forall_mem_cons.mpr ⟨rfl, honly⟩, hs⟩

/-- All threads get done, one after the other. -/
theorem exists_all_done (hless : ∀ i l s, ¬ done l → measure (step i l s).1 < measure l)
    (hstay : ∀ i l s, done l → done (step i l s).1) (w : World ι L S) (threads : List ι) :
    ∃ schedule, ∀ i ∈ threads, done ((run step w schedule).locals i) := by
  induction threads with
  | nil => exact ⟨[], fun i hi => absurd hi List.not_mem_nil⟩
  | cons i threads ih =>
      obtain ⟨xs, hxs⟩ := ih
      obtain ⟨ys, _, hys⟩ := exists_done hless (run step w xs) i
      refine ⟨xs ++ ys, ?_⟩
      intro j hj
      rw [run_append]
      rcases List.mem_cons.mp hj with rfl | hj
      · exact hys
      · exact run_done hstay (hxs j hj) ys

end Completion

end SlhaV2.ThreadSchedules
