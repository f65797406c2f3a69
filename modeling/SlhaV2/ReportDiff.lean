import SlhaV2.JsonPrinting

/-!
# Comparing two audit reports

Objects are walked by key in both directions, arrays are compared as a whole and
everything else by equality. One line is returned for each change.
-/
namespace SlhaV2.ReportDiff
open Documents JsonValue

def join (path k : String) : String := if path = "" then k else path ++ "." ++ k

def removed (path : String) (a : Json) : String :=
  "- " ++ path ++ ": removed (" ++ toCompact a ++ ")"

def added (path : String) (b : Json) : String :=
  "+ " ++ path ++ ": added (" ++ toCompact b ++ ")"

def arrayChanged (path : String) : String := "~ " ++ path ++ ": array changed"

def changed (path : String) (a b : Json) : String :=
  "~ " ++ path ++ ": " ++ toCompact a ++ " -> " ++ toCompact b

/-- The lines that one step of the comparison pushes, in order. -/
def diffWalk (path : String) : Json → Json → List String
  | .obj am, .obj bm =>
      (am.attach.flatMap fun e =>
        match bm.find? fun f => f.1 = e.1.1 with
        | some f => diffWalk (join path e.1.1) e.1.2 f.2
        | none => [removed (join path e.1.1) e.1.2]) ++
      (bm.filter fun f => !am.any fun e => e.1 = f.1).map fun f => added (join path f.1) f.2
  | .arr a, .arr b =>
      if (Document.arr a : Json) != .arr b then [arrayChanged path] else []
  | a, b => if a != b then [changed path a b] else []
termination_by a => a
decreasing_by
  simp_wf
  have hm := List.sizeOf_lt_of_mem e.2
  have he : sizeOf e.1 = 1 + sizeOf e.1.1 + sizeOf e.1.2 := by
    cases e.1
    rfl
  omega

/-- Compare two reports field by field, with one line for each change. -/
def diff (prior current : Json) : List String := diffWalk "" prior current

/-- The numbers are finite and no object has a key twice. -/
def Proper : Json → Prop :=
  Document.All (fun x => x.isFinite = true) (fun _ => True) List.Nodup

/-- Equality up to the order of members, in objects outside of arrays. -/
inductive SameUpToOrder : Json → Json → Prop
  | equal {a b : Json} : (a == b) = true → SameUpToOrder a b
  | members {m n n' : List (String × Json)} : n'.Perm n → m.map Prod.fst = n'.map Prod.fst →
      (∀ e ∈ m.zip n', SameUpToOrder e.1.2 e.2.2) → SameUpToOrder (.obj m) (.obj n)

section Equality
variable {N S : Type} [BEq N] [BEq S]

theorem all_attach_zip {α β : Type} (p : α → β → Bool) (l : List α) (l' : List β) :
    ((l.attach.zip l').all fun e => p e.1.1 e.2) = (l.zip l').all fun e => p e.1 e.2 := by
  conv => enter [2]; rw [← List.attach_map_subtype_val l]
  rw [List.zip_map_left, List.all_map]
  rfl

theorem beq_arr (a b : List (Document N S)) :
    ((Document.arr a == Document.arr b) = true) ↔
      List.Forall₂ (fun v w => (v == w) = true) a b := by
  change Document.beq _ _ = true ↔ _
  rw [Document.beq, all_attach_zip Document.beq, List.forall₂_iff_zip]
  simp only [Bool.and_eq_true, beq_iff_eq, List.all_eq_true, Prod.forall]
  rfl

theorem beq_obj [LawfulBEq S] (m n : List (S × Document N S)) :
    ((Document.obj m == Document.obj n) = true) ↔
      List.Forall₂ (fun e f => e.1 = f.1 ∧ (e.2 == f.2) = true) m n := by
  change Document.beq _ _ = true ↔ _
  rw [Document.beq, all_attach_zip fun e f : S × Document N S => e.1 == f.1 && Document.beq e.2 f.2,
    List.forall₂_iff_zip]
  simp only [Bool.and_eq_true, beq_iff_eq, List.all_eq_true, Prod.forall]
  rfl

/-- A relation that is symmetric from the members of the first list is so on lists. -/
theorem forall_swap {α β : Type} {R : α → β → Prop} {R' : β → α → Prop} {l : List α}
    {l' : List β} (h : List.Forall₂ R l l') (hR : ∀ x ∈ l, ∀ y, R x y → R' y x) :
    List.Forall₂ R' l' l := by
  induction h with
  | nil => exact .nil
  | cons hxy _ ih =>
      apply List.Forall₂.cons
      · exact hR _ List.mem_cons_self _ hxy
      · exact ih fun x hx => hR x (List.mem_cons_of_mem _ hx)

theorem beq_swap [PartialEquivBEq N] [LawfulBEq S] {a b : Document N S} (h : (a == b) = true) :
    (b == a) = true := by
  induction a using Document.induct generalizing b with
  | arr a ih =>
      cases b with
      | arr b =>
          rw [beq_arr] at h ⊢
          exact forall_swap h fun v hv w => ih v hv
      | _ => simp [BEq.beq, Document.beq] at h
  | obj m ih =>
      cases b with
      | obj n =>
          rw [beq_obj] at h ⊢
          exact forall_swap h fun e he f hef => ⟨hef.1.symm, ih e he hef.2⟩
      | _ => simp [BEq.beq, Document.beq] at h
  | num x =>
      cases b with
      | num y =>
          have hxy : (x == y) = true := by simpa [BEq.beq, Document.beq] using h
          simpa [BEq.beq, Document.beq] using BEq.symm hxy
      | _ => simp [BEq.beq, Document.beq] at h
  | _ => cases b <;> simp_all [BEq.beq, Document.beq]

theorem beq_comm [PartialEquivBEq N] [LawfulBEq S] (a b : Document N S) :
    (a == b) = (b == a) := Bool.eq_iff_iff.mpr ⟨beq_swap, beq_swap⟩

end Equality

/-- What is not a pair of objects is compared by equality. -/
theorem diffWalk_plain (path : String) {a b : Json}
    (h : ¬∃ m n, a = .obj m ∧ b = .obj n) :
    (diffWalk path a b).length = if (a == b) = true then 0 else 1 := by
  by_cases heq : (a == b) = true
  all_goals cases a with
  | obj m =>
      cases b with
      | obj n => exact absurd ⟨m, n, rfl, rfl⟩ h
      | _ => simp [diffWalk, bne, heq]
  | arr a => cases b <;> simp [diffWalk, bne, heq]
  | _ => simp [diffWalk, bne, heq]

theorem diffWalk_obj (path : String) (m n : List (String × Json)) :
    diffWalk path (.obj m) (.obj n) =
      (m.flatMap fun e =>
        match n.find? fun f => f.1 = e.1 with
        | some f => diffWalk (join path e.1) e.2 f.2
        | none => [removed (join path e.1) e.2]) ++
      (n.filter fun f => !m.any fun e => e.1 = f.1).map fun f => added (join path f.1) f.2 := by
  rw [diffWalk]
  congr 1
  conv => enter [2]; rw [← List.attach_map_subtype_val m]
  rw [List.flatMap_map]
  rfl

theorem find_of_mem {k : String} {n : List (String × Json)} (hn : (n.map Prod.fst).Nodup)
    {f : String × Json} (hf : f ∈ n) (hk : f.1 = k) :
    (n.find? fun g => g.1 = k) = some f := by
  induction n with
  | nil => simp at hf
  | cons g n ih =>
      rw [List.map_cons, List.nodup_cons] at hn
      rcases List.mem_cons.mp hf with rfl | hf
      · simp [hk]
      · have hne : ¬g.1 = k := by
          intro hg
          exact hn.1 (hg ▸ hk ▸ List.mem_map_of_mem hf)
        rw [List.find?_cons_of_neg (by simpa using hne)]
        exact ih hn.2 hf

theorem find_eq_none {k : String} {n : List (String × Json)} (h : k ∉ n.map Prod.fst) :
    (n.find? fun g => g.1 = k) = none := by
  rw [List.find?_eq_none]
  intro g hg hk
  exact h (of_decide_eq_true hk ▸ List.mem_map_of_mem hg)

/-- A sum over the members of one key has at most one summand. -/
theorem sum_matching {k : String} {n : List (String × Json)} (hn : (n.map Prod.fst).Nodup)
    (w : String × Json → ℕ) :
    (n.map fun f => if f.1 = k then w f else 0).sum =
      match n.find? fun f => f.1 = k with
      | some f => w f
      | none => 0 := by
  induction n with
  | nil => rfl
  | cons g n ih =>
      rw [List.map_cons, List.nodup_cons] at hn
      rw [List.map_cons, List.sum_cons, ih hn.2]
      by_cases hg : g.1 = k
      · rw [if_pos hg, find_eq_none (hg ▸ hn.1), List.find?_cons_of_pos (by simpa using hg)]
        rfl
      · rw [if_neg hg, List.find?_cons_of_neg (by simpa using hg), zero_add]

/-- How many keys of the first object the second one lacks. -/
def only (m n : List (String × Json)) : ℕ :=
  (m.map fun e => if e.1 ∈ n.map Prod.fst then 0 else 1).sum

theorem length_filter_only (m n : List (String × Json)) :
    (n.filter fun f => !m.any fun e => e.1 = f.1).length = only n m := by
  unfold only
  generalize hp : (fun f : String × Json => !m.any fun e => e.1 = f.1) = p
  induction n with
  | nil => rfl
  | cons f n ih =>
      have hf : p f = true ↔ f.1 ∉ m.map Prod.fst := by
        rw [← hp, Bool.not_eq_true', ← Bool.not_eq_true, not_iff_not]
        simp only [List.any_eq_true, decide_eq_true_eq, List.mem_map]
      rw [List.map_cons, List.sum_cons, ← ih]
      by_cases hk : f.1 ∈ m.map Prod.fst
      · rw [if_pos hk, List.filter_cons_of_neg fun h => hf.mp h hk, zero_add]
      · rw [if_neg hk, List.filter_cons_of_pos (hf.mpr hk), List.length_cons, add_comm]

section Objects
variable {path : String} {m n : List (String × Json)}

/-- No line is reported for two objects exactly when they have the same keys and no line
is reported for the members of any key. -/
theorem diffWalk_obj_eq_nil (hn : (n.map Prod.fst).Nodup) :
    diffWalk path (.obj m) (.obj n) = [] ↔
      (∀ e ∈ m, ∃ f ∈ n, f.1 = e.1 ∧ diffWalk (join path e.1) e.2 f.2 = []) ∧
      ∀ f ∈ n, f.1 ∈ m.map Prod.fst := by
  rw [diffWalk_obj, List.append_eq_nil_iff]
  apply and_congr
  · rw [List.flatMap_eq_nil_iff]
    apply forall₂_congr
    intro e he
    by_cases hk : e.1 ∈ n.map Prod.fst
    · obtain ⟨f, hf, hfk⟩ := List.mem_map.mp hk
      rw [find_of_mem hn hf hfk]
      constructor
      · intro h
        exact ⟨f, hf, hfk, h⟩
      · rintro ⟨g, hg, hgk, h⟩
        have hfg := find_of_mem hn hg hgk
        rw [find_of_mem hn hf hfk, Option.some.injEq] at hfg
        rwa [hfg]
    · rw [find_eq_none hk]
      constructor
      · intro h
        exact absurd h (List.cons_ne_nil _ _)
      · rintro ⟨f, hf, hfk, _⟩
        exact absurd (hfk ▸ List.mem_map_of_mem hf) hk
  · simp only [List.map_eq_nil_iff, List.filter_eq_nil_iff, Bool.not_eq_true, Bool.not_eq_false',
      List.any_eq_true, decide_eq_true_eq, List.mem_map]

/-- Lines for members of both objects, and for the keys which only one of them has. -/
theorem length_diffWalk_obj (hn : (n.map Prod.fst).Nodup) :
    (diffWalk path (.obj m) (.obj n)).length =
      (m.map fun e => (n.map fun f =>
        if f.1 = e.1 then (diffWalk (join path e.1) e.2 f.2).length else 0).sum).sum +
      (only m n + only n m) := by
  have hcommon : ∀ e : String × Json,
      (match n.find? fun f : String × Json => f.1 = e.1 with
        | some f => diffWalk (join path e.1) e.2 f.2
        | none => [removed (join path e.1) e.2]).length =
      (n.map fun f => if f.1 = e.1 then (diffWalk (join path e.1) e.2 f.2).length else 0).sum +
        if e.1 ∈ n.map Prod.fst then 0 else 1 := by
    intro e
    rw [sum_matching hn]
    by_cases hk : e.1 ∈ n.map Prod.fst
    · obtain ⟨f, hf, hfk⟩ := List.mem_map.mp hk
      rw [if_pos hk, find_of_mem hn hf hfk, add_zero]
    · rw [if_neg hk, find_eq_none hk]
      rfl
  rw [diffWalk_obj, List.length_append, List.length_map, List.length_flatMap, ← Nat.add_assoc,
    length_filter_only]
  simp only [hcommon]
  rw [List.sum_map_add]
  rfl

end Objects

theorem sum_sum_comm {α β : Type} (w : α → β → ℕ) (l : List α) (l' : List β) :
    (l.map fun x => (l'.map fun y => w x y).sum).sum =
      (l'.map fun y => (l.map fun x => w x y).sum).sum := by
  simpa using Multiset.sum_map_sum_map (l : Multiset α) (l' : Multiset β) (f := w)

theorem Proper.keys {m : List (String × Json)} (h : Proper (.obj m)) :
    (m.map Prod.fst).Nodup := by
  cases h with
  | obj _ _ _ hm => exact hm

theorem Proper.member {m : List (String × Json)} (h : Proper (.obj m)) {e : String × Json}
    (he : e ∈ m) : Proper e.2 := by
  cases h with
  | obj _ _ hm _ => exact hm e he

/-- The comparison returns as many lines in either direction. -/
theorem length_diffWalk_comm {a b : Json} (ha : Proper a) (hb : Proper b) (p q : String) :
    (diffWalk p a b).length = (diffWalk q b a).length := by
  induction a using Document.induct generalizing b p q with
  | obj m ih =>
      by_cases hobj : ∃ n, b = .obj n
      · obtain ⟨n, rfl⟩ := hobj
        rw [length_diffWalk_obj hb.keys, length_diffWalk_obj ha.keys, sum_sum_comm,
          Nat.add_comm (only m n)]
        congr 2
        apply List.map_congr_left
        intro f hf
        congr 1
        apply List.map_congr_left
        intro e he
        by_cases hk : f.1 = e.1
        · rw [if_pos hk, if_pos hk.symm]
          exact ih e he (ha.member he) (hb.member hf) _ _
        · rw [if_neg hk, if_neg (Ne.symm hk)]
      · rw [diffWalk_plain p (by simpa using hobj), diffWalk_plain q (by simpa using hobj),
          beq_comm]
  | _ => rw [diffWalk_plain p (by simp), diffWalk_plain q (by simp), beq_comm]

section Pairing
variable {m n n' : List (String × Json)} {R : String × Json → String × Json → Prop}

/-- Partners that are found by key, one for each member, in the order of the members. -/
theorem exists_partners {l : List (String × Json)} (h : ∀ e ∈ l, ∃ f, R e f) :
    ∃ l', List.Forall₂ R l l' := by
  induction l with
  | nil => exact ⟨[], .nil⟩
  | cons e l ih =>
      obtain ⟨f, hf⟩ := h e List.mem_cons_self
      obtain ⟨l', hl'⟩ := ih fun e he => h e (List.mem_cons_of_mem _ he)
      exact ⟨f :: l', .cons hf hl'⟩

theorem keys_of_partners (h : List.Forall₂ (fun e f => f.1 = e.1 ∧ R e f) m n') :
    m.map Prod.fst = n'.map Prod.fst := by
  induction h with
  | nil => rfl
  | cons hef _ ih => rw [List.map_cons, List.map_cons, ih, hef.1]

theorem mem_partner {e : String × Json} (h : List.Forall₂ R m n') (he : e ∈ m) :
    ∃ f ∈ n', R e f := by
  induction h with
  | nil => simp at he
  | cons hef _ ih =>
      rcases List.mem_cons.mp he with rfl | he
      · exact ⟨_, List.mem_cons_self, hef⟩
      · obtain ⟨f, hf, hR⟩ := ih he
        exact ⟨f, List.mem_cons_of_mem _ hf, hR⟩

/-- Each key of either object is met in the other one exactly when the members of one of
them are those of the other in some order. -/
theorem partners_iff (hm : (m.map Prod.fst).Nodup) (hn : (n.map Prod.fst).Nodup) :
    ((∀ e ∈ m, ∃ f ∈ n, f.1 = e.1 ∧ R e f) ∧ ∀ f ∈ n, f.1 ∈ m.map Prod.fst) ↔
      ∃ n', n'.Perm n ∧ List.Forall₂ (fun e f => f.1 = e.1 ∧ R e f) m n' := by
  constructor
  · intro h
    obtain ⟨n', hn'⟩ := exists_partners h.1
    have hpair : List.Forall₂ (fun e f => f.1 = e.1 ∧ R e f) m n' := hn'.imp fun _ _ h => h.2
    have hkeys := keys_of_partners hpair
    have hsub : ∀ f ∈ n', f ∈ n := by
      intro f hf
      have hback : List.Forall₂ (fun f _ => f ∈ n) n' m := forall_swap hn' fun _ _ _ h => h.1
      obtain ⟨e, _, he⟩ := mem_partner hback hf
      exact he
    refine ⟨n', ?_, hpair⟩
    rw [List.perm_ext_iff_of_nodup (hkeys ▸ hm).of_map hn.of_map]
    intro f
    constructor
    · exact hsub f
    · intro hf
      have hkey := h.2 f hf
      rw [hkeys] at hkey
      obtain ⟨g, hg, hgk⟩ := List.mem_map.mp hkey
      have hfg := find_of_mem hn hf hgk.symm
      rw [find_of_mem hn (hsub g hg) rfl, Option.some.injEq] at hfg
      exact hfg ▸ hg
  · rintro ⟨n', hperm, hpair⟩
    constructor
    · intro e he
      obtain ⟨f, hf, hef⟩ := mem_partner hpair he
      exact ⟨f, hperm.mem_iff.mp hf, hef⟩
    · intro f hf
      rw [keys_of_partners hpair]
      exact List.mem_map_of_mem (hperm.mem_iff.mpr hf)

theorem partners_of_zip (hkeys : m.map Prod.fst = n'.map Prod.fst)
    (h : ∀ e ∈ m.zip n', R e.1 e.2) : List.Forall₂ (fun e f => f.1 = e.1 ∧ R e f) m n' := by
  induction m generalizing n' with
  | nil =>
      rw [List.map_nil, eq_comm, List.map_eq_nil_iff] at hkeys
      rw [hkeys]
      exact .nil
  | cons e m ih =>
      cases n' with
      | nil => simp at hkeys
      | cons f n' =>
          rw [List.map_cons, List.map_cons, List.cons.injEq] at hkeys
          apply List.Forall₂.cons
          · exact ⟨hkeys.1.symm, h (e, f) List.mem_cons_self⟩
          · exact ih hkeys.2 fun x hx => h x (List.mem_cons_of_mem _ hx)

theorem partners_congr {R' : String × Json → String × Json → Prop}
    (h : ∀ e ∈ m, ∀ f ∈ n', R e f ↔ R' e f) :
    List.Forall₂ (fun e f => f.1 = e.1 ∧ R e f) m n' ↔
      List.Forall₂ (fun e f => f.1 = e.1 ∧ R' e f) m n' := by
  rw [List.forall₂_iff_zip, List.forall₂_iff_zip]
  apply and_congr_right
  intro _
  constructor
  · intro hpair e f hef
    have hmem := List.of_mem_zip hef
    exact ⟨(hpair hef).1, (h e hmem.1 f hmem.2).mp (hpair hef).2⟩
  · intro hpair e f hef
    have hmem := List.of_mem_zip hef
    exact ⟨(hpair hef).1, (h e hmem.1 f hmem.2).mpr (hpair hef).2⟩

end Pairing

theorem sameUpToOrder_plain {a b : Json} (h : ¬∃ m n, a = .obj m ∧ b = .obj n) :
    SameUpToOrder a b ↔ (a == b) = true := by
  constructor
  · intro hsame
    cases hsame with
    | equal heq => exact heq
    | members hperm hkeys hmem => exact absurd ⟨_, _, rfl, rfl⟩ h
  · exact SameUpToOrder.equal

theorem diffWalk_plain_eq_nil (path : String) {a b : Json}
    (h : ¬∃ m n, a = .obj m ∧ b = .obj n) :
    diffWalk path a b = [] ↔ SameUpToOrder a b := by
  rw [sameUpToOrder_plain h, ← List.length_eq_zero_iff, diffWalk_plain path h]
  by_cases heq : (a == b) = true
  · simp [heq]
  · simp [heq]

/-- Members in the order of their partners have the same keys and are the same up to order. -/
theorem sameUpToOrder_obj {m n : List (String × Json)} :
    SameUpToOrder (.obj m) (.obj n) ↔
      ∃ n' : List (String × Json), n'.Perm n ∧
        List.Forall₂ (fun e f => f.1 = e.1 ∧ SameUpToOrder e.2 f.2) m n' := by
  constructor
  · intro hsame
    cases hsame with
    | equal heq =>
        refine ⟨n, List.Perm.refl n, ((beq_obj m n).mp heq).imp ?_⟩
        intro e f hef
        exact ⟨hef.1.symm, .equal hef.2⟩
    | members hperm hkeys hmem =>
        exact ⟨_, hperm, partners_of_zip hkeys hmem⟩
  · rintro ⟨n', hperm, hpair⟩
    apply SameUpToOrder.members hperm (keys_of_partners hpair)
    intro e he
    exact ((List.forall₂_iff_zip.mp hpair).2 he).2

/-- No line is reported exactly for values that are the same up to the order of members. -/
theorem diffWalk_eq_nil_iff {a b : Json} (ha : Proper a) (hb : Proper b) (path : String) :
    diffWalk path a b = [] ↔ SameUpToOrder a b := by
  induction a using Document.induct generalizing b path with
  | obj m ih =>
      by_cases hobj : ∃ n, b = .obj n
      · obtain ⟨n, rfl⟩ := hobj
        rw [diffWalk_obj_eq_nil hb.keys, sameUpToOrder_obj, partners_iff ha.keys hb.keys]
        apply exists_congr
        intro n'
        apply and_congr_right
        intro hperm
        apply partners_congr
        intro e he f hf
        exact ih e he (ha.member he) (hb.member (hperm.mem_iff.mp hf)) _
      · exact diffWalk_plain_eq_nil path (by simpa using hobj)
  | _ => exact diffWalk_plain_eq_nil path (by simp)

theorem Proper.beq_self {a : Json} (ha : Proper a) : (a == a) = true := by
  induction a using Document.induct with
  | arr a ih =>
      cases ha with
      | arr _ hm =>
          rw [beq_arr, List.forall₂_same]
          exact fun v hv => ih v hv (hm v hv)
  | obj m ih =>
      rw [beq_obj, List.forall₂_same]
      exact fun e he => ⟨rfl, ih e he (ha.member he)⟩
  | num x =>
      cases ha with
      | num _ hx => simpa [BEq.beq, Document.beq] using JsonPrinting.beq_self_of_finite hx
  | _ => simp [BEq.beq, Document.beq]

/-- A comparison is empty exactly for reports which are equal up to the order of members,
so in particular for a report and itself, and it has as many lines in either direction. -/
theorem diff_exact {a b : Json} (ha : Proper a) (hb : Proper b) :
    (diff a b = [] ↔ SameUpToOrder a b) ∧ (diff a b).length = (diff b a).length ∧
      diff a a = [] := by
  refine ⟨diffWalk_eq_nil_iff ha hb "", length_diffWalk_comm ha hb "" "", ?_⟩
  exact (diffWalk_eq_nil_iff ha ha "").mpr (.equal ha.beq_self)

/-- One report with the members of its objects in two orders. -/
def priorReport : Json :=
  .obj [("ok", .bool true), ("run", .obj [("seed", .num 1), ("rows", .arr [.num 2])])]

def currentReport : Json :=
  .obj [("run", .obj [("rows", .arr [.num 2]), ("seed", .num 1)]), ("ok", .bool true)]

theorem proper_number (n : Float) (h : n.isFinite = true) : Proper (.num n) := .num n h

theorem Proper.obj {m : List (String × Json)} (hkeys : (m.map Prod.fst).Nodup)
    (h : ∀ e ∈ m, Proper e.2) : Proper (.obj m) :=
  Document.All.obj m (fun _ _ => trivial) h hkeys

theorem priorReport_proper : Proper priorReport := by
  have hrows : Proper (.arr [.num 2]) :=
    .arr _ (List.forall_mem_singleton.mpr (proper_number 2 (by decide)))
  have hrun : Proper (.obj [("seed", .num 1), ("rows", .arr [.num 2])]) :=
    .obj (by decide) (by simpa using ⟨proper_number 1 (by decide), hrows⟩)
  exact .obj (by decide) (by simpa using ⟨.bool true, hrun⟩)

theorem currentReport_proper : Proper currentReport := by
  have hrows : Proper (.arr [.num 2]) :=
    .arr _ (List.forall_mem_singleton.mpr (proper_number 2 (by decide)))
  have hrun : Proper (.obj [("rows", .arr [.num 2]), ("seed", .num 1)]) :=
    .obj (by decide) (by simpa using ⟨hrows, proper_number 1 (by decide)⟩)
  exact .obj (by decide) (by simpa using ⟨hrun, .bool true⟩)

theorem members_in_any_order : diff priorReport currentReport = [] := by
  apply (diff_exact priorReport_proper currentReport_proper).1.mpr
  unfold priorReport currentReport
  apply SameUpToOrder.members (List.Perm.swap _ _ _)
  · rfl
  have htrue : SameUpToOrder (.bool true) (.bool true) := .equal (Proper.beq_self (.bool true))
  have hseed : SameUpToOrder (.num 1) (.num 1) :=
    .equal (proper_number 1 (by decide)).beq_self
  have hrows : SameUpToOrder (.arr [.num 2]) (.arr [.num 2]) := by
    apply SameUpToOrder.equal
    simpa [beq_arr] using (proper_number 2 (by decide)).beq_self
  have hrun : SameUpToOrder (.obj [("seed", .num 1), ("rows", .arr [.num 2])])
      (.obj [("rows", .arr [.num 2]), ("seed", .num 1)]) := by
    apply SameUpToOrder.members (List.Perm.swap _ _ _)
    · rfl
    simpa using ⟨hseed, hrows⟩
  simpa using ⟨htrue, hrun⟩

end SlhaV2.ReportDiff
