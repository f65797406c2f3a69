import Mathlib.Data.List.Basic
import Mathlib.Data.List.Forall2

/-!
# Tree-shaped documents

A document is a scalar, a sequence of documents, or a sequence of named members.
What its numbers and its strings are is left open, so that a parsed value and a
derivation of its text are documents of one shape.
-/
namespace SlhaV2.Documents

/-- Documents over numbers of type `N` and strings of type `S`. -/
inductive Document (N S : Type) where
  | null
  | bool (b : Bool)
  | num (n : N)
  | str (s : S)
  | arr (a : List (Document N S))
  | obj (m : List (S × Document N S))

namespace Document
variable {N S N' S' N'' S'' : Type}

/-- Sequences are nested at most this deep. -/
inductive Within : ℕ → Document N S → Prop
  | null (d : ℕ) : Within d .null
  | bool (d : ℕ) (b : Bool) : Within d (.bool b)
  | num (d : ℕ) (n : N) : Within d (.num n)
  | str (d : ℕ) (s : S) : Within d (.str s)
  | arr (d : ℕ) (a : List (Document N S)) : (∀ v ∈ a, Within d v) → Within (d + 1) (.arr a)
  | obj (d : ℕ) (m : List (S × Document N S)) :
      (∀ e ∈ m, Within d e.2) → Within (d + 1) (.obj m)

/-- Every number, every string and the names of every object meet a condition. -/
inductive All (number : N → Prop) (string : S → Prop) (names : List S → Prop) :
    Document N S → Prop
  | null : All number string names .null
  | bool (b : Bool) : All number string names (.bool b)
  | num (n : N) : number n → All number string names (.num n)
  | str (s : S) : string s → All number string names (.str s)
  | arr (a : List (Document N S)) :
      (∀ v ∈ a, All number string names v) → All number string names (.arr a)
  | obj (m : List (S × Document N S)) :
      (∀ e ∈ m, string e.1) → (∀ e ∈ m, All number string names e.2) →
        names (m.map Prod.fst) → All number string names (.obj m)

/-- The same document with its numbers and strings replaced. -/
def map (f : N → N') (g : S → S') : Document N S → Document N' S'
  | null => null
  | bool b => bool b
  | num n => num (f n)
  | str s => str (g s)
  | arr a => arr (a.map fun v => map f g v)
  | obj m => obj (m.attach.map fun e => (g e.1.1, map f g e.1.2))
decreasing_by
  all_goals simp_wf
  · have := List.sizeOf_lt_of_mem ‹_›
    omega
  · have hm := List.sizeOf_lt_of_mem e.2
    have he : sizeOf e.1 = 1 + sizeOf e.1.1 + sizeOf e.1.2 := by
      cases e.1
      rfl
    omega

/-- Equality of documents from equality of their numbers and strings; members in order. -/
def beq [BEq N] [BEq S] : Document N S → Document N S → Bool
  | null, null => true
  | bool b, bool c => b == c
  | num n, num k => n == k
  | str s, str t => s == t
  | arr a, arr b => a.length == b.length && (a.attach.zip b).all fun e => beq e.1.1 e.2
  | obj m, obj n =>
      m.length == n.length &&
        (m.attach.zip n).all fun e => e.1.1.1 == e.2.1 && beq e.1.1.2 e.2.2
  | _, _ => false
termination_by v => v
decreasing_by
  all_goals simp_wf
  · have := List.sizeOf_lt_of_mem e.1.2
    omega
  · have hm := List.sizeOf_lt_of_mem e.1.2
    have he : sizeOf e.1.1 = 1 + sizeOf e.1.1.1 + sizeOf e.1.1.2 := by
      cases e.1.1
      rfl
    omega

instance [BEq N] [BEq S] : BEq (Document N S) := ⟨beq⟩

theorem map_obj (f : N → N') (g : S → S') (m : List (S × Document N S)) :
    map f g (.obj m) = .obj (m.map fun e => (g e.1, map f g e.2)) := by
  have h := congrArg (List.map fun e : S × Document N S => (g e.1, map f g e.2))
    (List.attach_map_subtype_val m)
  rw [List.map_map] at h
  rw [map, ← h]
  rfl

@[elab_as_elim]
theorem induct {P : Document N S → Prop} (null : P .null) (bool : ∀ b, P (.bool b))
    (num : ∀ n, P (.num n)) (str : ∀ s, P (.str s))
    (arr : ∀ a, (∀ v ∈ a, P v) → P (.arr a))
    (obj : ∀ m, (∀ e ∈ m, P (Prod.snd e)) → P (.obj m)) (v : Document N S) : P v := by
  induction v using map.induct with
  | case1 => exact null
  | case2 b => exact bool b
  | case3 n => exact num n
  | case4 s => exact str s
  | case5 a ih => exact arr a fun v hv => ih v hv
  | case6 m ih => exact obj m fun e he => ih ⟨e, he⟩

theorem map_map (f : N → N') (g : S → S') (f' : N' → N'') (g' : S' → S'')
    (v : Document N S) : map f' g' (map f g v) = map (f' ∘ f) (g' ∘ g) v := by
  induction v using induct with
  | null => simp [map]
  | bool b => simp [map]
  | num n => simp [map]
  | str s => simp [map]
  | arr a ih =>
      simp only [map, List.map_map, arr.injEq]
      exact List.map_congr_left ih
  | obj m ih =>
      simp only [map_obj, List.map_map, obj.injEq]
      apply List.map_congr_left
      intro e he
      exact Prod.ext rfl (ih e he)

theorem Within.map {d : ℕ} {v : Document N S} (f : N → N') (g : S → S') (h : Within d v) :
    Within d (v.map f g) := by
  induction h with
  | null d => simpa [Document.map] using Within.null d
  | bool d b => simpa [Document.map] using Within.bool d b
  | num d n => simpa [Document.map] using Within.num d (f n)
  | str d s => simpa [Document.map] using Within.str d (g s)
  | arr d a _ ih =>
      rw [Document.map]
      apply Within.arr
      simpa using ih
  | obj d m _ ih =>
      rw [map_obj]
      apply Within.obj
      intro e' he'
      obtain ⟨e, he, rfl⟩ := List.mem_map.mp he'
      exact ih e he

theorem All.map {number : N → Prop} {string : S → Prop} {names : List S → Prop}
    {number' : N' → Prop} {string' : S' → Prop} {names' : List S' → Prop}
    {f : N → N'} {g : S → S'} {v : Document N S} (h : All number string names v)
    (hf : ∀ n, number n → number' (f n)) (hg : ∀ s, string s → string' (g s))
    (hnames : ∀ ks, names ks → names' (ks.map g)) : All number' string' names' (v.map f g) := by
  induction h with
  | null => simpa [Document.map] using All.null
  | bool b => simpa [Document.map] using All.bool b
  | num n hn => simpa [Document.map] using All.num _ (hf n hn)
  | str s hs => simpa [Document.map] using All.str _ (hg s hs)
  | arr a _ ih =>
      rw [Document.map]
      apply All.arr
      simpa using ih
  | obj m hs _ hm ih =>
      rw [map_obj]
      apply All.obj
      · intro e' he'
        obtain ⟨e, he, rfl⟩ := List.mem_map.mp he'
        exact hg e.1 (hs e he)
      · intro e' he'
        obtain ⟨e, he, rfl⟩ := List.mem_map.mp he'
        exact ih e he
      · simpa [Function.comp_def] using hnames _ hm

/-- Elements of a list are paired with their images in order. -/
theorem mem_attach_map_zip {α β : Type} {l : List α} {h : α → β}
    {e : {y // y ∈ l.map h} × α} (he : e ∈ (l.map h).attach.zip l) :
    e.2 ∈ l ∧ e.1.1 = h e.2 := by
  obtain ⟨i, hi, rfl⟩ := List.mem_iff_getElem.mp he
  simp

/-- Replacing numbers by equal ones gives an equal document. -/
theorem map_beq [BEq N] [BEq S] [ReflBEq S] {number : N → Prop} {string : S → Prop}
    {names : List S → Prop} {f : N → N} (hf : ∀ n, number n → (f n == n) = true)
    {v : Document N S} (h : All number string names v) : (map f id v == v) = true := by
  change beq _ _ = true
  induction h with
  | null => simp [map, beq]
  | bool b => simp [map, beq]
  | num n hn => simpa [map, beq] using hf n hn
  | str s _ => simp [map, beq]
  | arr a _ ih =>
      rw [map, beq, List.length_map, beq_self_eq_true, Bool.true_and, List.all_eq_true]
      intro e he
      obtain ⟨hmem, heq⟩ := mem_attach_map_zip he
      rw [heq]
      exact ih e.2 hmem
  | obj m _ _ _ ih =>
      rw [map_obj, beq, List.length_map, beq_self_eq_true, Bool.true_and, List.all_eq_true]
      intro e he
      obtain ⟨hmem, heq⟩ := mem_attach_map_zip he
      rw [heq]
      simpa using ih e.2 hmem

end Document
end SlhaV2.Documents
