import Mathlib.Algebra.Order.Ring.Nat
import Mathlib.Data.List.TakeWhile
import SlhaV2.RankOrders

/-!
# Groups of ties

Along a sorted row the entries with equal values stand together. A pass over the row
gives all entries of a group the same mark, which depends on where the group starts and
stops; the entries in front of a position are counted from the values alone.
-/
namespace SlhaV2.TieGroups
open RankOrders

section Marks
variable {ι α β : Type} (same : ι → ι → Bool) (mark : ℕ → ℕ → β)

/-- The marks of the entries of a row whose first entry stands at `start`. -/
def groupMarks (start : ℕ) : List ι → List (ι × β)
  | [] => []
  | i :: rest =>
      let tied := rest.takeWhile fun j => same j i
      let stop := start + 1 + tied.length
      (i :: tied).map (fun j => (j, mark start stop)) ++
        groupMarks stop (rest.dropWhile fun j => same j i)
termination_by l => l.length
decreasing_by
  simp_wf
  have hle := (List.dropWhile_suffix (l := rest) fun j => same j i).length_le
  omega

variable {same mark}

theorem groupMarks_cons (start : ℕ) (i : ι) (rest : List ι) :
    groupMarks same mark start (i :: rest) =
      (i :: rest.takeWhile fun j => same j i).map (fun j =>
        (j, mark start (start + 1 + (rest.takeWhile fun j => same j i).length))) ++
      groupMarks same mark (start + 1 + (rest.takeWhile fun j => same j i).length)
        (rest.dropWhile fun j => same j i) := by
  rw [groupMarks]

/-- Every entry gets one mark. -/
theorem groupMarks_fst (start : ℕ) (l : List ι) :
    (groupMarks same mark start l).map Prod.fst = l := by
  induction start, l using groupMarks.induct same with
  | case1 start => simp [groupMarks]
  | case2 start i rest tied stop ih =>
      rw [groupMarks_cons, List.map_append, ih, List.map_map]
      simp [Function.comp_def]

variable [LinearOrder α] {w : ι → α}

/-- In a sorted row everything behind a group is larger. -/
theorem lt_of_mem_dropWhile (hsame : ∀ a b, same a b = true ↔ w a = w b) {i : ι}
    {rest : List ι} (hsorted : (i :: rest).Pairwise fun a b => w a ≤ w b) {j : ι}
    (hj : j ∈ rest.dropWhile fun j => same j i) : w i < w j := by
  induction rest with
  | nil => simp at hj
  | cons a rest ih =>
      rw [List.pairwise_cons, List.pairwise_cons] at hsorted
      by_cases ha : same a i = true
      · rw [List.dropWhile_cons, if_pos ha] at hj
        apply ih _ hj
        rw [List.pairwise_cons]
        exact ⟨fun b hb => hsorted.1 b (List.mem_cons_of_mem _ hb), hsorted.2.2⟩
      · rw [List.dropWhile_cons, if_neg ha] at hj
        have hia : w i < w a := by
          apply lt_of_le_of_ne (hsorted.1 a List.mem_cons_self)
          intro heq
          exact ha ((hsame a i).mpr heq.symm)
        rcases List.mem_cons.mp hj with rfl | hj
        · exact hia
        · exact hia.trans_le (hsorted.2.1 j hj)

/-- In a sorted row the group of an entry starts behind the smaller values and stops behind
the equal ones. -/
theorem mem_groupMarks (hsame : ∀ a b, same a b = true ↔ w a = w b) {start : ℕ} {l : List ι}
    (hsorted : l.Pairwise fun a b => w a ≤ w b) {e : ι × β}
    (he : e ∈ groupMarks same mark start l) :
    e.2 = mark (start + l.countP fun j => w j < w e.1)
      (start + (l.countP fun j => w j < w e.1) + l.countP fun j => w j = w e.1) := by
  induction start, l using groupMarks.induct same with
  | case1 start => simp [groupMarks] at he
  | case2 start i rest tied stop ih =>
      have hsplit : rest = tied ++ rest.dropWhile fun j => same j i :=
        (List.takeWhile_append_dropWhile).symm
      have htied : ∀ j ∈ tied, w j = w i := by
        intro j hj
        exact (hsame j i).mp (List.mem_takeWhile_imp (p := fun j => same j i) hj)
      have hlater : ∀ j ∈ rest.dropWhile fun j => same j i, w i < w j :=
        fun j hj => lt_of_mem_dropWhile hsame hsorted hj
      have hrest : (rest.dropWhile fun j => same j i).Pairwise fun a b => w a ≤ w b :=
        (List.pairwise_cons.mp hsorted).2.sublist (List.dropWhile_sublist _)
      rw [groupMarks_cons] at he
      generalize rest.dropWhile (fun j => same j i) = later at *
      rw [hsplit]
      rcases List.mem_append.mp he with he | he
      · obtain ⟨j, hj, rfl⟩ := List.mem_map.mp he
        have hji : w j = w i := by
          rcases List.mem_cons.mp hj with rfl | hj
          · rfl
          · exact htied j hj
        have hbelow : (i :: (tied ++ later)).countP (fun a => w a < w j) = 0 := by
          rw [List.countP_eq_zero, hji]
          intro a ha
          rcases List.mem_cons.mp ha with rfl | ha
          · simp
          · rcases List.mem_append.mp ha with ha | ha
            · simp [htied a ha]
            · simpa using (hlater a ha).le
        have hequal : (i :: (tied ++ later)).countP (fun a => w a = w j) = tied.length + 1 := by
          have hlaterZero : later.countP (fun a => w a = w i) = 0 := by
            rw [List.countP_eq_zero]
            intro a ha
            simpa using (hlater a ha).ne'
          have htiedAll : tied.countP (fun a => w a = w i) = tied.length := by
            rw [List.countP_eq_length]
            intro a ha
            simpa using htied a ha
          rw [hji, List.countP_cons_of_pos (by simp), List.countP_append, htiedAll, hlaterZero]
        rw [hbelow, hequal]
        change mark start (start + 1 + tied.length) = _
        congr 1
        omega
      · have hlt : w i < w e.1 := by
          apply hlater
          have hmem := List.mem_map_of_mem (f := Prod.fst) he
          rwa [groupMarks_fst] at hmem
        have hbelow : (i :: (tied ++ later)).countP (fun a => w a < w e.1) =
            tied.length + 1 + later.countP fun a => w a < w e.1 := by
          have htiedAll : tied.countP (fun a => w a < w e.1) = tied.length := by
            rw [List.countP_eq_length]
            intro a ha
            simpa [htied a ha] using hlt
          rw [List.countP_cons_of_pos (by simpa using hlt), List.countP_append, htiedAll]
          omega
        have hequal : (i :: (tied ++ later)).countP (fun a => w a = w e.1) =
            later.countP fun a => w a = w e.1 := by
          have htiedZero : tied.countP (fun a => w a = w e.1) = 0 := by
            rw [List.countP_eq_zero]
            intro a ha
            simpa [htied a ha] using hlt.ne
          rw [List.countP_cons_of_neg (by simpa using hlt.ne), List.countP_append, htiedZero,
            Nat.zero_add]
        rw [ih hrest he, hbelow, hequal]
        congr 1 <;> omega

end Marks

/-- In a row in which every entry stands in front of those it is related to, an entry is
among the first `k` exactly when fewer than `k` entries stand in front of it. -/
theorem mem_take_iff {ι : Type} {before : ι → ι → Prop} [DecidableRel before]
    (hasymm : ∀ a b, before a b → ¬before b a) {l : List ι} (hl : l.Pairwise before) {k : ℕ}
    {a : ι} (ha : a ∈ l) : a ∈ l.take k ↔ (l.countP fun j => before j a) < k := by
  have hirrefl : ∀ a, ¬before a a := fun a h => hasymm a a h h
  induction l generalizing k with
  | nil => simp at ha
  | cons x l ih =>
      rw [List.pairwise_cons] at hl
      cases k with
      | zero => simp
      | succ k =>
          rw [List.take_succ_cons, List.mem_cons]
          rcases List.mem_cons.mp ha with rfl | hmem
          · have hzero : l.countP (fun j => before j a) = 0 := by
              rw [List.countP_eq_zero]
              intro j hj
              simpa using hasymm _ _ (hl.1 j hj)
            rw [List.countP_cons_of_neg (by simpa using hirrefl a), hzero]
            simp
          · have hx : before x a := hl.1 a hmem
            have hne : a ≠ x := by
              rintro rfl
              exact hirrefl a hx
            have hrest := ih hl.2 (k := k) hmem
            rw [List.countP_cons_of_pos (by simpa using hx), Nat.add_lt_add_iff_right]
            exact (or_iff_right hne).trans hrest

section Places
variable {α : Type} [LinearOrder α] {w : ℕ → α} {n : ℕ}

/-- A position stands in front of another one. -/
def Before (w : ℕ → α) (j a : ℕ) : Prop := w a < w j ∨ w a = w j ∧ j < a

instance (w : ℕ → α) : DecidableRel (Before w) := fun _ _ => instDecidableOr

theorem Before.asymm {a b : ℕ} (h : Before w a b) : ¬Before w b a := by
  rcases h with h | ⟨h, hlt⟩
  · rintro (h' | ⟨h', _⟩)
    · exact h.asymm h'
    · exact h.ne h'.symm
  · rintro (h' | ⟨_, h'⟩)
    · exact h'.ne h.symm
    · exact hlt.asymm h'

theorem pairwise_before : (ranking w n).Pairwise (Before w) := by
  apply (pairwise_ranking.and nodup_ranking).imp
  rintro a b ⟨h | ⟨heq, hle⟩, hne⟩
  · exact .inl h
  · exact .inr ⟨heq.symm, lt_of_le_of_ne hle hne⟩

/-- The places of a ranking are counted from the values. -/
theorem mem_take_ranking {a k : ℕ} (ha : a < n) :
    a ∈ (ranking w n).take k ↔ ((List.range n).countP fun j => Before w j a) < k := by
  rw [mem_take_iff (fun _ _ => Before.asymm) pairwise_before (mem_ranking.mpr ha),
    ranking_perm.countP_eq]

end Places

section Reading
variable {α β : Type} [LinearOrder α] {w : ℕ → α} {same : ℕ → ℕ → Bool} {mark : ℕ → ℕ → β}
  {n : ℕ} {l : List ℕ}

/-- What is written once to a position is read there. -/
theorem scatter_read {out : List β} {writes : List (ℕ × β)}
    (hnodup : (writes.map Prod.fst).Nodup) (hin : ∀ e ∈ writes, e.1 < out.length)
    {e : ℕ × β} (he : e ∈ writes) : (scatter out writes)[e.1]? = some e.2 := by
  have hmap := scatter_map hnodup hin
  rw [List.map_map] at hmap
  exact List.map_inj_left.mp hmap e he

/-- Marks that are written by position are those of the groups, counted over the row. -/
theorem marks_read (hsame : ∀ a b, same a b = true ↔ w a = w b) (hl : l.Perm (List.range n))
    (hsorted : l.Pairwise fun a b => w a ≤ w b) (z : β) {i : ℕ} (hi : i < n) :
    (scatter (List.replicate n z) (groupMarks same mark 0 l))[i]? =
      some (mark ((List.range n).countP fun j => w j < w i)
        (((List.range n).countP fun j => w j < w i) +
          (List.range n).countP fun j => w j = w i)) := by
  have hfst := @groupMarks_fst ℕ β same mark 0 l
  have hmem : i ∈ (groupMarks same mark 0 l).map Prod.fst := by
    rw [hfst, hl.mem_iff]
    exact List.mem_range.mpr hi
  obtain ⟨e, he, rfl⟩ := List.mem_map.mp hmem
  have hread : (scatter (List.replicate n z) (groupMarks same mark 0 l))[e.1]? = some e.2 := by
    apply scatter_read _ _ he
    · rw [hfst]
      exact hl.nodup_iff.mpr List.nodup_range
    · intro u hu
      rw [List.length_replicate]
      have hmem := List.mem_map_of_mem (f := Prod.fst) hu
      rw [hfst, hl.mem_iff] at hmem
      exact List.mem_range.mp hmem
  rw [hread, mem_groupMarks hsame hsorted he, hl.countP_eq, hl.countP_eq, Nat.zero_add]

end Reading

end SlhaV2.TieGroups
