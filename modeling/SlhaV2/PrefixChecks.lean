import Mathlib.Data.List.Forall2
import Mathlib.Data.List.Induction
import Mathlib.Data.List.Nodup

/-!
# Checks along a list

A loop that checks every element against the elements before it and stops at
the first check that fails. It passes exactly when every check does, and its
error is the one of the first element that fails.
-/
namespace SlhaV2.PrefixChecks
variable {α β ε : Type*}

def checkEach (check : List α → α → Except ε Unit) : List α → List α → Except ε Unit
  | _, [] => .ok ()
  | seen, x :: xs =>
    match check seen x with
    | .error e => .error e
    | .ok () => checkEach check (seen ++ [x]) xs

variable {check : List α → α → Except ε Unit}

theorem checkEach_eq_ok {xs : List α} : ∀ {seen : List α}, checkEach check seen xs = .ok () ↔
    ∀ before x after, xs = before ++ x :: after → check (seen ++ before) x = .ok () := by
  induction xs with
  | nil => simp [checkEach]
  | cons y ys ih =>
      intro seen
      rw [checkEach]
      cases hc : check seen y with
      | error e =>
          constructor
          · intro h
            cases h
          · intro h
            have hy := h [] y ys rfl
            rw [List.append_nil, hc] at hy
            cases hy
      | ok u =>
          show checkEach check (seen ++ [y]) ys = .ok () ↔ _
          rw [ih]
          constructor
          · intro h before x after hx
            cases before with
            | nil =>
                obtain ⟨rfl, rfl⟩ := List.cons.inj hx
                rwa [List.append_nil]
            | cons z zs =>
                obtain ⟨rfl, hs⟩ := List.cons.inj hx
                simpa using h zs x after hs
          · intro h before x after hx
            simpa using h (y :: before) x after (by rw [hx, List.cons_append])

/-- The error is that of the first element that fails. -/
theorem checkEach_eq_error {e : ε} {xs : List α} : ∀ {seen : List α},
    checkEach check seen xs = .error e → ∃ before x after, xs = before ++ x :: after ∧
      checkEach check seen before = .ok () ∧ check (seen ++ before) x = .error e := by
  induction xs with
  | nil => simp [checkEach]
  | cons y ys ih =>
      intro seen h
      rw [checkEach] at h
      cases hc : check seen y with
      | error e' =>
          rw [hc] at h
          exact ⟨[], y, ys, rfl, rfl, by rw [List.append_nil, hc]; exact h⟩
      | ok u =>
          rw [hc] at h
          obtain ⟨before, x, after, rfl, hb, hx⟩ := ih h
          refine ⟨y :: before, x, after, rfl, ?_, by simpa using hx⟩
          rw [checkEach, hc]
          exact hb

/-- Keys are distinct when none occurs among the keys before it. -/
theorem nodup_map_iff (key : α → β) {xs : List α} : (xs.map key).Nodup ↔
    ∀ before x after, xs = before ++ x :: after → ∀ y ∈ before, key y ≠ key x := by
  induction xs using List.reverseRecOn with
  | nil => simp
  | append_singleton xs z ih =>
      rw [List.map_append, List.map_singleton, List.nodup_append]
      constructor
      · intro h before x after hx y hy
        cases after using List.reverseRecOn with
        | nil =>
            obtain ⟨rfl, hz⟩ := List.append_inj' hx rfl
            obtain rfl := List.singleton_injective hz
            exact h.2.2 _ (List.mem_map_of_mem hy) _ List.mem_cons_self
        | append_singleton after' w _ =>
            rw [← List.cons_append, ← List.append_assoc] at hx
            exact ih.mp h.1 before x after' (List.append_inj' hx rfl).1 y hy
      · intro h
        refine ⟨?_, List.nodup_singleton _, ?_⟩
        · apply ih.mpr
          intro before x after hx
          exact h before x (after ++ [z]) (by rw [hx]; simp)
        · intro a ha b hb
          obtain ⟨y, hy, rfl⟩ := List.mem_map.mp ha
          rw [List.mem_singleton] at hb
          rw [hb]
          exact h xs z [] rfl y hy

section Map
variable {f : α → Except ε β} {xs : List α}

theorem mapM_eq_ok {ys : List β} :
    xs.mapM f = .ok ys ↔ List.Forall₂ (fun x y => f x = .ok y) xs ys := by
  induction xs generalizing ys with
  | nil =>
      rw [List.mapM_nil, List.forall₂_nil_left_iff]
      constructor
      · intro h
        exact (Except.ok.inj h).symm
      · rintro rfl
        rfl
  | cons x xs ih =>
      rw [List.mapM_cons, List.forall₂_cons_left_iff]
      cases hx : f x with
      | error e =>
          constructor
          · intro h
            cases h
          · rintro ⟨y, _, hy, _⟩
            cases hy
      | ok y =>
          cases ht : xs.mapM f with
          | error e =>
              constructor
              · intro h
                cases h
              · rintro ⟨_, zs, _, hs, _⟩
                rw [← ih, ht] at hs
                cases hs
          | ok zs =>
              constructor
              · intro h
                cases h
                exact ⟨y, zs, rfl, ih.mp ht, rfl⟩
              · rintro ⟨y', zs', hy, hs, rfl⟩
                cases hy
                rw [← ih, ht] at hs
                cases hs
                rfl

/-- The error is that of one of the elements. -/
theorem mapM_eq_error {e : ε} (h : xs.mapM f = .error e) : ∃ x ∈ xs, f x = .error e := by
  induction xs with
  | nil => cases h
  | cons x xs ih =>
      rw [List.mapM_cons] at h
      cases hx : f x with
      | error e' =>
          rw [hx] at h
          cases h
          exact ⟨x, List.mem_cons_self, hx⟩
      | ok y =>
          rw [hx] at h
          cases ht : xs.mapM f with
          | error e' =>
              rw [ht] at h
              cases h
              obtain ⟨z, hz, he⟩ := ih ht
              exact ⟨z, List.mem_cons_of_mem x hz, he⟩
          | ok zs =>
              rw [ht] at h
              cases h

end Map
end SlhaV2.PrefixChecks
