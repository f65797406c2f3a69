import Mathlib.Data.List.Infix
import Mathlib.Order.Basic

/-!
# Sessions of an answering machine

A machine takes one input after the other, and answers each or stays silent. A
session is the list of its exchanges; it ends early when an answer cannot be
delivered. What holds of every exchange, and the order in which states are
entered, follows from single exchanges.
-/
namespace SlhaV2.Exchanges

variable {σ ι ο : Type}

/-- The first argument of `answer` is the number of inputs before this one. -/
structure Machine (σ ι ο : Type) where
  answer : ℕ → σ → ι → Option ο × σ

structure Exchange (σ ι ο : Type) where
  before : σ
  input : ι
  output : Option ο
  after : σ

namespace Machine
variable (m : Machine σ ι ο)

def exchange (n : ℕ) (s : σ) (i : ι) : Exchange σ ι ο :=
  ⟨s, i, (m.answer n s i).1, (m.answer n s i).2⟩

/-- The exchanges from the `n`-th input on, after `w` deliveries; `sink` says which
deliveries succeed. -/
def session (sink : ℕ → Bool) : ℕ → ℕ → σ → List ι → List (Exchange σ ι ο)
  | _, _, _, [] => []
  | n, w, s, i :: is =>
      let e := m.exchange n s i
      e :: if e.output.isNone then session sink (n + 1) w e.after is
        else if sink w then session sink (n + 1) (w + 1) e.after is
        else []

end Machine

/-- Each exchange starts in the state that the one before it left. -/
def Linked : σ → List (Exchange σ ι ο) → Prop
  | _, [] => True
  | s, e :: es => e.before = s ∧ Linked e.after es

section Session
variable {m : Machine σ ι ο} {sink : ℕ → Bool}

/-- What remains of a session behind its first exchange. -/
theorem session_cons (m : Machine σ ι ο) (sink : ℕ → Bool) (n w : ℕ) (s : σ) (i : ι) (is : List ι) :
    ∃ rest, m.session sink n w s (i :: is) = m.exchange n s i :: rest ∧
      (rest = [] ∨ ∃ w', rest = m.session sink (n + 1) w' (m.exchange n s i).after is) := by
  refine ⟨_, rfl, ?_⟩
  split_ifs
  · exact .inr ⟨w, rfl⟩
  · exact .inr ⟨w + 1, rfl⟩
  · exact .inl rfl

theorem session_exchange {n w : ℕ} {s : σ} {is : List ι} {e : Exchange σ ι ο}
    (he : e ∈ m.session sink n w s is) : ∃ k, e = m.exchange k e.before e.input := by
  induction is generalizing n w s with
  | nil => cases he
  | cons i is ih =>
      obtain ⟨rest, hsession, hrest⟩ := session_cons m sink n w s i is
      rw [hsession, List.mem_cons] at he
      rcases he with rfl | he
      · exact ⟨n, rfl⟩
      · rcases hrest with rfl | ⟨w', rfl⟩
        · cases he
        · exact ih he

theorem session_linked (n w : ℕ) (s : σ) (is : List ι) :
    Linked s (m.session sink n w s is) := by
  induction is generalizing n w s with
  | nil => trivial
  | cons i is ih =>
      obtain ⟨rest, hsession, hrest⟩ := session_cons m sink n w s i is
      rw [hsession]
      refine ⟨rfl, ?_⟩
      rcases hrest with rfl | ⟨w', rfl⟩
      · trivial
      · exact ih _ _ _

/-- The inputs are taken in their order. -/
theorem session_inputs (n w : ℕ) (s : σ) (is : List ι) :
    (m.session sink n w s is).map Exchange.input <+: is := by
  induction is generalizing n w s with
  | nil => exact List.nil_prefix
  | cons i is ih =>
      obtain ⟨rest, hsession, hrest⟩ := session_cons m sink n w s i is
      rw [hsession, List.map_cons]
      apply List.cons_prefix_cons.mpr
      refine ⟨rfl, ?_⟩
      rcases hrest with rfl | ⟨w', rfl⟩
      · exact List.nil_prefix
      · exact ih _ _ _

/-- While everything is delivered no input is left over. -/
theorem session_all (hsink : ∀ w, sink w = true) (n w : ℕ) (s : σ) (is : List ι) :
    (m.session sink n w s is).map Exchange.input = is := by
  induction is generalizing n w s with
  | nil => rfl
  | cons i is ih =>
      unfold Machine.session
      simp only [hsink, if_true, List.map_cons]
      split_ifs
      · rw [ih]
        rfl
      · rw [ih]
        rfl

end Session

section Order
variable {es : List (Exchange σ ι ο)} {s : σ}

/-- A set of states which does not hold at the start is entered by an earlier exchange. -/
theorem Linked.entered {P : σ → Prop} {a b : List (Exchange σ ι ο)} {e : Exchange σ ι ο}
    (h : Linked s (a ++ e :: b)) (hs : ¬P s) (he : P e.before) :
    ∃ a₁ i a₂, a = a₁ ++ i :: a₂ ∧ ¬P i.before ∧ P i.after := by
  induction a generalizing s with
  | nil => exact absurd (h.1 ▸ he) hs
  | cons i a ih =>
      obtain ⟨rfl, htail⟩ := h
      by_cases hi : P i.after
      · exact ⟨[], i, a, rfl, hs, hi⟩
      · obtain ⟨a₁, j, a₂, rfl, hj⟩ := ih htail hi
        exact ⟨i :: a₁, j, a₂, rfl, hj⟩

variable [Preorder σ]

theorem Linked.le_before (h : Linked s es) (hstep : ∀ e ∈ es, e.before ≤ e.after) :
    ∀ e ∈ es, s ≤ e.before := by
  induction es generalizing s with
  | nil => simp
  | cons i es ih =>
      obtain ⟨rfl, htail⟩ := h
      intro e he
      rcases List.mem_cons.mp he with rfl | he
      · exact le_refl _
      · have hi := hstep i (List.mem_cons_self ..)
        have hrest := ih htail (fun j hj => hstep j (List.mem_cons_of_mem _ hj)) e he
        exact le_trans hi hrest

/-- States that no single exchange moves backwards are never moved backwards. -/
theorem Linked.pairwise (h : Linked s es) (hstep : ∀ e ∈ es, e.before ≤ e.after) :
    es.Pairwise fun e e' => e.after ≤ e'.before := by
  induction es generalizing s with
  | nil => exact List.Pairwise.nil
  | cons i es ih =>
      have htail : ∀ e ∈ es, e.before ≤ e.after := fun j hj => hstep j (List.mem_cons_of_mem _ hj)
      exact List.Pairwise.cons (h.2.le_before htail) (ih h.2 htail)

end Order

end SlhaV2.Exchanges
