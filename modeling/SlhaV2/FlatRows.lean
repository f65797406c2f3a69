import Mathlib.Data.List.Basic
import Mathlib.Data.List.Range
import Mathlib.Data.List.Flatten

/-!
# Row-major matrices in flat lists

The rows of a matrix lie one after the other. A loop collects the numbers of
the rows to leave out, and a second loop copies the others while it walks the
collected numbers with a cursor. Together they filter the list of rows.
-/
namespace SlhaV2.FlatRows

variable {α : Type}

def rowAt (data : List α) (cols r : ℕ) : List α := (data.drop (r * cols)).take cols

def rowsOf (data : List α) (cols rows : ℕ) : List (List α) :=
  (List.range rows).map (rowAt data cols)

/-- One turn of the copying loop: the row under the cursor is left out. -/
def copyStep (data : List α) (cols : ℕ) (skipped : List ℕ) (s : ℕ × List α) (r : ℕ) :
    ℕ × List α :=
  if skipped[s.1]? = some r then (s.1 + 1, s.2) else (s.1, s.2 ++ rowAt data cols r)

def copyLoop (data : List α) (cols rows : ℕ) (skipped : List ℕ) : List α :=
  ((List.range rows).foldl (copyStep data cols skipped) (0, [])).2

/-- The cursor stands on the next number to skip, and on it exactly when it is reached. -/
theorem filter_range_getElem? (p : ℕ → Bool) {k n : ℕ} (h : k < n) :
    ((List.range n).filter p)[((List.range k).filter p).length]? = some k ↔ p k = true := by
  have hsplit : List.range n = List.range k ++ k :: (List.range (n - k - 1)).map (k + 1 + ·) := by
    have hn : n = k + (1 + (n - k - 1)) := by omega
    conv_lhs => rw [hn]
    rw [List.range_add, List.range_add]
    simp [Function.comp_def, Nat.add_assoc]
  rw [hsplit, List.filter_append, List.getElem?_append_right le_rfl, Nat.sub_self,
    List.filter_cons]
  split_ifs with hp
  · exact iff_of_true rfl hp
  · apply iff_of_false _ hp
    intro hk
    have hm := List.mem_of_getElem? hk
    rw [List.mem_filter, List.mem_map] at hm
    obtain ⟨⟨i, -, hi⟩, -⟩ := hm
    omega

theorem copyLoop_upTo (data : List α) (cols rows : ℕ) (p : ℕ → Bool) {k : ℕ} (h : k ≤ rows) :
    (List.range k).foldl (copyStep data cols ((List.range rows).filter p)) (0, []) =
      (((List.range k).filter p).length,
        ((List.range k).filter fun r => !p r).flatMap (rowAt data cols)) := by
  induction k with
  | zero => rfl
  | succ k ih =>
      have hk := filter_range_getElem? p (show k < rows by omega)
      rw [List.range_succ, List.foldl_append, ih (by omega)]
      simp only [List.foldl_cons, List.foldl_nil, List.filter_append, List.length_append,
        List.flatMap_append]
      unfold copyStep
      cases hp : p k with
      | true =>
          rw [if_pos (hk.mpr hp)]
          simp [hp]
      | false =>
          rw [if_neg (by rw [hk, hp]; exact Bool.false_ne_true)]
          simp [hp]

/-- The copying loop leaves the rows that were not to be skipped. -/
theorem copyLoop_eq (data : List α) (cols rows : ℕ) (bad : List α → Bool) :
    copyLoop data cols rows ((List.range rows).filter fun r => bad (rowAt data cols r)) =
      ((rowsOf data cols rows).filter fun row => !bad row).flatten := by
  unfold copyLoop rowsOf
  rw [copyLoop_upTo data cols rows _ le_rfl, List.filter_map]
  exact List.flatMap_def

theorem length_rowsOf (data : List α) (cols rows : ℕ) : (rowsOf data cols rows).length = rows := by
  unfold rowsOf
  rw [List.length_map, List.length_range]

/-- Data that is rows of one width is cut into these rows. -/
theorem rowsOf_flatten {rs : List (List α)} {cols : ℕ} (h : ∀ r ∈ rs, r.length = cols) :
    rowsOf rs.flatten cols rs.length = rs := by
  induction rs with
  | nil => rfl
  | cons r rs ih =>
      have hr : r.length = cols := h r List.mem_cons_self
      have hrs : ∀ x ∈ rs, x.length = cols := fun x hx => h x (List.mem_cons_of_mem r hx)
      unfold rowsOf at ih ⊢
      rw [List.length_cons, List.range_succ_eq_map, List.map_cons, List.map_map, List.flatten_cons]
      congr 1
      · unfold rowAt
        rw [Nat.zero_mul, List.drop_zero, List.take_left' hr]
      · conv_rhs => rw [← ih hrs]
        apply List.map_congr_left
        intro i _
        unfold rowAt
        dsimp only [Function.comp_apply]
        rw [Nat.succ_mul, Nat.add_comm, ← hr, ← List.drop_drop, List.drop_left]

/-- Cutting flat data into rows loses nothing. -/
theorem flatten_rowsOf (data : List α) {cols rows : ℕ} (h : data.length = rows * cols) :
    (rowsOf data cols rows).flatten = data := by
  have hpre : ∀ k, (rowsOf data cols k).flatten = data.take (k * cols) := by
    intro k
    induction k with
    | zero => simp [rowsOf]
    | succ k ih =>
        unfold rowsOf at ih ⊢
        rw [List.range_succ, List.map_append, List.flatten_append, ih, Nat.succ_mul, List.take_add]
        simp [rowAt]
  rw [hpre, ← h, List.take_length]

theorem length_of_mem_rowsOf {data : List α} {cols rows : ℕ} (h : data.length = rows * cols)
    {row : List α} (hm : row ∈ rowsOf data cols rows) : row.length = cols := by
  unfold rowsOf at hm
  obtain ⟨r, hr, he⟩ := List.mem_map.mp hm
  have hle := Nat.mul_le_mul_right cols (Nat.succ_le_of_lt (List.mem_range.mp hr))
  rw [Nat.succ_mul] at hle
  rw [← he]
  unfold rowAt
  rw [List.length_take, List.length_drop, h]
  omega

end SlhaV2.FlatRows
