import Mathlib.Data.List.Sort

/-!
# The first ranks of a list

In a list sorted by a linear order the first `k` entries are those with fewer
than `k` entries ahead of them. So whether the best `k` of a list survive in a
prefix of it is decided by what is ahead of the entries cut off.
-/
namespace SlhaV2.TopRanks

variable {α : Type} [DecidableEq α] (r : α → α → Prop) [DecidableRel r]

/-- The number of entries ahead of `i`. -/
def ahead (l : List α) (i : α) : ℕ := (l.filter fun j => r j i ∧ j ≠ i).length

/-- The first `k` of the sorted list. -/
def top (k : ℕ) (l : List α) : List α := (l.insertionSort r).take k

variable {r} {l kept rest : List α} {i j : α} {k : ℕ}

theorem ahead_perm {l' : List α} (h : l.Perm l') (i : α) : ahead r l i = ahead r l' i :=
  (h.filter _).length_eq

theorem ahead_append (kept rest : List α) (i : α) :
    ahead r (kept ++ rest) i = ahead r kept i + ahead r rest i := by
  unfold ahead
  rw [List.filter_append, List.length_append]

theorem ahead_congr {r' : α → α → Prop} [DecidableRel r']
    (h : ∀ j ∈ l, r j i ↔ r' j i) : ahead r l i = ahead r' l i := by
  unfold ahead
  congr 1
  apply List.filter_congr
  intro j hj
  rw [decide_eq_decide, h j hj]

theorem ahead_le_length (l : List α) (i : α) : ahead r l i ≤ l.length := List.length_filter_le _ _

/-- Each entry precedes those after it, so ranks are counted from the front. -/
theorem mem_take_iff [Std.Antisymm r] (hs : l.Pairwise r) (hn : l.Nodup) (k : ℕ) (hi : i ∈ l) :
    i ∈ l.take k ↔ ahead r l i < k := by
  induction l generalizing k with
  | nil => cases hi
  | cons a l ih =>
      obtain ⟨hhead, htail⟩ := List.pairwise_cons.mp hs
      obtain ⟨hnot, hnodup⟩ := List.nodup_cons.mp hn
      cases k with
      | zero => simp
      | succ k =>
          rw [List.take_succ_cons, List.mem_cons]
          rcases List.mem_cons.mp hi with rfl | hmem
          · have hnone : ahead r (i :: l) i = 0 := by
              unfold ahead
              rw [List.length_eq_zero_iff, List.filter_eq_nil_iff]
              intro j hj hcond
              obtain ⟨hji, hne⟩ := of_decide_eq_true hcond
              rcases List.mem_cons.mp hj with hself | hj
              · exact hne hself
              · exact hne (Std.Antisymm.antisymm j i hji (hhead j hj))
            rw [hnone]
            exact ⟨fun _ => Nat.succ_pos k, fun _ => .inl rfl⟩
          · have hne : a ≠ i := fun h => hnot (h ▸ hmem)
            have hcount : ahead r (a :: l) i = ahead r l i + 1 := by
              have hpos : decide (r a i ∧ a ≠ i) = true := decide_eq_true ⟨hhead i hmem, hne⟩
              unfold ahead
              rw [List.filter_cons_of_pos (p := fun j => decide (r j i ∧ j ≠ i)) hpos,
                List.length_cons]
            rw [hcount, ih htail hnodup k hmem]
            constructor
            · rintro (hself | hlt)
              · exact absurd hself.symm hne
              · omega
            · intro hlt
              exact .inr (by omega)

variable [IsTrans α r] [Std.Total r] [Std.Antisymm r]

theorem mem_top_iff (hn : l.Nodup) : i ∈ top r k l ↔ i ∈ l ∧ ahead r l i < k := by
  have hperm := List.perm_insertionSort r l
  have hsorted := List.pairwise_insertionSort r l
  have hnodup : (l.insertionSort r).Nodup := hperm.nodup_iff.mpr hn
  rw [← ahead_perm hperm]
  constructor
  · intro h
    have hmem := List.mem_of_mem_take h
    exact ⟨(List.mem_insertionSort r).mp hmem, (mem_take_iff hsorted hnodup k hmem).mp h⟩
  · rintro ⟨hmem, hlt⟩
    exact (mem_take_iff hsorted hnodup k ((List.mem_insertionSort r).mpr hmem)).mpr hlt

/-- What is kept of the best is among the best of what is kept. -/
theorem mem_top_prefix (hn : (kept ++ rest).Nodup) (h : i ∈ top r k (kept ++ rest))
    (hi : i ∈ kept) : i ∈ top r k kept := by
  have hlt := ((mem_top_iff hn).mp h).2
  rw [ahead_append] at hlt
  exact (mem_top_iff (List.nodup_append.mp hn).1).mpr ⟨hi, by omega⟩

/-- All of the first ranks are ahead of an entry that is not among them. -/
theorem le_ahead_of_top_subset (hn : (kept ++ rest).Nodup)
    (h : ∀ i, i ∈ top r k (kept ++ rest) → i ∈ kept) (hj : j ∈ rest) : k ≤ ahead r kept j := by
  have hmem : j ∈ kept ++ rest := List.mem_append_right _ hj
  have hperm := List.perm_insertionSort r (kept ++ rest)
  have hnodup : ((kept ++ rest).insertionSort r).Nodup := hperm.nodup_iff.mpr hn
  have hout : j ∉ top r k (kept ++ rest) := fun hin =>
    List.disjoint_of_nodup_append hn (h j hin) hj
  have hmany : k ≤ ahead r (kept ++ rest) j := by
    apply Nat.le_of_not_lt
    intro hlt
    exact hout ((mem_top_iff hn).mpr ⟨hmem, hlt⟩)
  have hlen : (top r k (kept ++ rest)).length = k := by
    have hle := hmany.trans (ahead_le_length (kept ++ rest) j)
    unfold top
    rw [List.length_take, hperm.length_eq]
    omega
  have hdrop : j ∈ ((kept ++ rest).insertionSort r).drop k := by
    have hin := (List.mem_insertionSort r).mpr hmem
    rw [← List.take_append_drop k ((kept ++ rest).insertionSort r)] at hin
    exact (List.mem_append.mp hin).resolve_left hout
  have hsub : top r k (kept ++ rest) ⊆ kept.filter fun i => r i j ∧ i ≠ j := by
    intro i hi
    have hsplit := List.pairwise_insertionSort r (kept ++ rest)
    rw [← List.take_append_drop k ((kept ++ rest).insertionSort r)] at hsplit
    have hrel := (List.pairwise_append.mp hsplit).2.2 i hi j hdrop
    refine List.mem_filter.mpr ⟨h i hi, decide_eq_true ⟨hrel, ?_⟩⟩
    rintro rfl
    exact hout hi
  have hle := (List.subperm_of_subset (hnodup.sublist (List.take_sublist k _)) hsub).length_le
  exact hlen.symm.le.trans hle

/-- The best `k` survive in the prefix exactly when each entry cut off has `k`
entries of the prefix ahead of it. -/
theorem top_subset_iff (hn : (kept ++ rest).Nodup) :
    (∀ i, i ∈ top r k (kept ++ rest) → i ∈ kept) ↔ ∀ j, j ∈ rest → k ≤ ahead r kept j := by
  constructor
  · intro h j hj
    exact le_ahead_of_top_subset hn h hj
  · intro h i hi
    obtain ⟨hmem, hlt⟩ := (mem_top_iff hn).mp hi
    rcases List.mem_append.mp hmem with hkept | hrest
    · exact hkept
    · have hle := h i hrest
      rw [ahead_append] at hlt
      omega

omit [Std.Total r] in
/-- An entry that is ahead has no more entries ahead of it. -/
theorem ahead_mono (h : r j i) (hne : j ≠ i) (l : List α) : ahead r l j ≤ ahead r l i := by
  unfold ahead
  apply List.Sublist.length_le
  apply List.monotone_filter_right
  intro x hx
  obtain ⟨hxj, hxne⟩ := of_decide_eq_true hx
  refine decide_eq_true ⟨IsTrans.trans x j i hxj h, ?_⟩
  rintro rfl
  exact hne (Std.Antisymm.antisymm j x h hxj)

/-- Once they survive, the best of the prefix are the best of all. -/
theorem mem_top_iff_prefix (hn : (kept ++ rest).Nodup)
    (h : ∀ j, j ∈ rest → k ≤ ahead r kept j) (i : α) :
    i ∈ top r k (kept ++ rest) ↔ i ∈ top r k kept := by
  constructor
  · intro hi
    exact mem_top_prefix hn hi ((top_subset_iff hn).mpr h i hi)
  · intro hi
    obtain ⟨hmem, hlt⟩ := (mem_top_iff (List.nodup_append.mp hn).1).mp hi
    have hnone : ahead r rest i = 0 := by
      unfold ahead
      rw [List.length_eq_zero_iff, List.filter_eq_nil_iff]
      intro j hj hcond
      obtain ⟨hji, hne⟩ := of_decide_eq_true hcond
      have hle := (h j hj).trans (ahead_mono hji hne kept)
      omega
    rw [mem_top_iff hn, ahead_append, hnone]
    exact ⟨List.mem_append_left _ hmem, by omega⟩

end SlhaV2.TopRanks
