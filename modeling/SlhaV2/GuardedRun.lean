import Mathlib.Data.List.Induction

/-!
# Runs of a deterministic machine under a guard on its states

The guard is an assumption about the environment which holds of every state a
run visits. An invariant is proved for one step and then holds along runs.
-/
namespace SlhaV2.GuardedRun

variable {σ ο : Type} {exec : σ → ο → σ} {ok : σ → Prop}

/-- Executing the operations from the first state ends in the last one. -/
inductive Runs (exec : σ → ο → σ) (ok : σ → Prop) : σ → List ο → σ → Prop
  | nil (s : σ) : Runs exec ok s [] s
  | snoc {s t : σ} {ops : List ο} {op : ο} : Runs exec ok s ops t → ok (exec t op) →
      Runs exec ok s (ops ++ [op]) (exec t op)

theorem Runs.single {s : σ} {op : ο} (h : ok (exec s op)) : Runs exec ok s [op] (exec s op) :=
  Runs.snoc (Runs.nil s) h

/-- Along a run restricted to some operations, what one of them preserves holds at the end. -/
theorem Runs.invariant_of_mem {P : σ → Prop} {s t : σ} {ops : List ο}
    (h : Runs exec ok s ops t) (base : P s)
    (step : ∀ u op, op ∈ ops → P u → ok (exec u op) → P (exec u op)) : P t := by
  induction h with
  | nil => exact base
  | @snoc t xs op _ hok ih =>
      have hp := ih fun u a ha => step u a (List.mem_append_left _ ha)
      exact step t op (by simp) hp hok

theorem Runs.invariant {P : σ → Prop} {s t : σ} {ops : List ο} (h : Runs exec ok s ops t)
    (base : P s) (step : ∀ u op, P u → ok (exec u op) → P (exec u op)) : P t :=
  h.invariant_of_mem base fun u op _ => step u op

/-- The run is the fold of its operations. -/
theorem Runs.eq_foldl {s t : σ} {ops : List ο} (h : Runs exec ok s ops t) :
    t = ops.foldl exec s := by
  induction h with
  | nil => rfl
  | snoc _ _ ih => rw [List.foldl_append, ← ih]; rfl

/-- The last step of a run. -/
theorem Runs.of_snoc {s t : σ} {xs : List ο} {op : ο} (h : Runs exec ok s (xs ++ [op]) t) :
    ∃ u, Runs exec ok s xs u ∧ ok (exec u op) ∧ t = exec u op := by
  generalize hys : xs ++ [op] = ys at h
  cases h with
  | nil => simp at hys
  | @snoc u zs last hrun hok =>
      obtain ⟨rfl, hop⟩ := List.append_inj' hys rfl
      obtain rfl : op = last := by simpa using hop
      exact ⟨u, hrun, hok, rfl⟩

theorem Runs.of_single {s t : σ} {op : ο} (h : Runs exec ok s [op] t) :
    ok (exec s op) ∧ t = exec s op := by
  have h' : Runs exec ok s ([] ++ [op]) t := h
  obtain ⟨u, hrun, hok, rfl⟩ := h'.of_snoc
  obtain rfl : u = s := hrun.eq_foldl
  exact ⟨hok, rfl⟩

/-- A run can be cut anywhere. -/
theorem Runs.split {s t : σ} {xs ys : List ο} (h : Runs exec ok s (xs ++ ys) t) :
    ∃ u, Runs exec ok s xs u ∧ Runs exec ok u ys t := by
  induction ys using List.reverseRecOn generalizing t with
  | nil => exact ⟨t, by simpa using h, Runs.nil t⟩
  | append_singleton ys op ih =>
      rw [← List.append_assoc] at h
      obtain ⟨u, hrun, hok, rfl⟩ := h.of_snoc
      obtain ⟨w, hxs, hys⟩ := ih hrun
      exact ⟨w, hxs, hys.snoc hok⟩

/-- A loop repeats its round while it has to go on, and breaks off after a round
that made no progress. The last state is the one it ends in. -/
inductive LoopEnds (goesOn : σ → Prop) (round : σ → σ) (stalled : σ → σ → Prop) : σ → σ → Prop
  | exit {s : σ} : ¬ goesOn s → LoopEnds goesOn round stalled s s
  | stall {s : σ} : goesOn s → stalled s (round s) → LoopEnds goesOn round stalled s (round s)
  | again {s t : σ} : goesOn s → ¬ stalled s (round s) →
      LoopEnds goesOn round stalled (round s) t → LoopEnds goesOn round stalled s t

end SlhaV2.GuardedRun
