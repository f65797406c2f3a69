import SlhaV2.Calibration

/-!
# Layer files as lists of rows

A file the structural check accepts is the image of a list of rows of one
width, and of only one. The scan counts the rows that hold a non-finite
scalar, and the rewrite is the image of the others.
-/
namespace SlhaV2.CalibrationFiles
open MachineWord ByteBuffer FlatRows FloatingPoint Calibration

def layerBytes (cols : ℕ) (rows : List (List F32)) : List UInt8 :=
  leBytes 4 kCalibMagic ++ leBytes 4 rows.length ++ leBytes 4 cols ++
    rows.flatten.flatMap scalarBytes

/-- The bytes are those of a nonempty matrix with these rows. -/
structure Holds (bytes : List UInt8) (cols : ℕ) (rows : List (List F32)) : Prop where
  image : bytes = layerBytes cols rows
  nonempty : rows ≠ []
  colsPos : 0 < cols
  rowsWord : rows.length < 2 ^ 32
  colsWord : cols < 2 ^ 32
  width : ∀ r ∈ rows, r.length = cols

/-- The size of the file is a signed 64-bit offset, and the one its header asks for a word. -/
structure Fits (bytes : List UInt8) : Prop where
  size : bytes.length < 2 ^ 63
  word : 12 + leNat (slice bytes 4 4) * leNat (slice bytes 8 4) * 4 < 2 ^ 64

theorem length_scalars (data : List F32) : (data.flatMap scalarBytes).length = data.length * 4 := by
  induction data with
  | nil => rfl
  | cons x data ih =>
      rw [List.flatMap_cons, List.length_append, ih, List.length_cons]
      unfold scalarBytes
      rw [length_leBytes]
      omega

theorem scalarAt_cons (x : F32) (rest : List UInt8) (i : ℕ) :
    scalarAt (scalarBytes x ++ rest) (i + 1) = scalarAt rest i := by
  unfold scalarAt
  rw [slice_append_right (by unfold scalarBytes; rw [length_leBytes]; omega)]
  unfold scalarBytes
  rw [length_leBytes, show 4 * (i + 1) - 4 = 4 * i by omega]

theorem scalarAt_zero (x : F32) (rest : List UInt8) : scalarAt (scalarBytes x ++ rest) 0 = x := by
  have hx : x.bits.toNat < 256 ^ 4 := x.bits.toNat_lt
  unfold scalarAt
  rw [Nat.mul_zero, slice_append_left (by unfold scalarBytes; rw [length_leBytes])]
  unfold scalarBytes
  rw [leNat_leBytes_of_lt hx, UInt32.ofNat_toNat]

/-- Scalars written are the scalars read. -/
theorem scalars_flatMap (data : List F32) :
    (List.range data.length).map (scalarAt (data.flatMap scalarBytes)) = data := by
  induction data with
  | nil => rfl
  | cons x data ih =>
      have hrest : (List.range data.length).map
          (scalarAt (scalarBytes x ++ data.flatMap scalarBytes) ∘ Nat.succ) =
          (List.range data.length).map (scalarAt (data.flatMap scalarBytes)) := by
        apply List.map_congr_left
        intro i _
        exact scalarAt_cons x _ i
      rw [List.length_cons, List.range_succ_eq_map, List.map_cons, List.map_map,
        List.flatMap_cons, scalarAt_zero, hrest, ih]

/-- Scalars read are the scalars written. -/
theorem flatMap_scalars {payload : List UInt8} {n : ℕ} (h : payload.length = n * 4) :
    ((List.range n).map (scalarAt payload)).flatMap scalarBytes = payload := by
  induction n generalizing payload with
  | zero =>
      rw [List.eq_nil_of_length_eq_zero (by omega : payload.length = 0)]
      rfl
  | succ n ih =>
      have hhead : (payload.take 4).length = 4 := by
        rw [List.length_take]
        omega
      have hlt := leNat_lt (payload.take 4)
      rw [hhead] at hlt
      have hfirst : scalarBytes (scalarAt payload 0) = payload.take 4 := by
        unfold scalarBytes scalarAt slice
        rw [Nat.mul_zero, List.drop_zero, UInt32.toNat_ofNat', Nat.mod_eq_of_lt (show _ < 2 ^ 32 from hlt),
          leBytes_leNat_of_length hhead]
      have hrest : (List.range n).map (scalarAt payload ∘ Nat.succ) =
          (List.range n).map (scalarAt (payload.drop 4)) := by
        apply List.map_congr_left
        intro i _
        unfold scalarAt slice
        dsimp only [Function.comp_apply]
        rw [List.drop_drop, show 4 + 4 * i = 4 * i.succ by omega]
      rw [List.range_succ_eq_map, List.map_cons, List.map_map, List.flatMap_cons, hfirst, hrest,
        ih (by rw [List.length_drop]; omega), List.take_append_drop]

theorem header_layerBytes {cols : ℕ} {rows : List (List F32)} (hr : rows.length < 2 ^ 32)
    (hc : cols < 2 ^ 32) :
    leNat (slice (layerBytes cols rows) 0 4) = kCalibMagic ∧
      leNat (slice (layerBytes cols rows) 4 4) = rows.length ∧
      leNat (slice (layerBytes cols rows) 8 4) = cols ∧
      (layerBytes cols rows).drop 12 = rows.flatten.flatMap scalarBytes := by
  unfold layerBytes
  refine ⟨?_, ?_, ?_, ?_⟩
  · rw [List.append_assoc, List.append_assoc, slice_append_left (by rw [length_leBytes])]
    exact leNat_leBytes_of_lt (by decide)
  · rw [List.append_assoc, List.append_assoc, slice_append_right (by rw [length_leBytes]),
      length_leBytes, Nat.sub_self, slice_append_left (by rw [length_leBytes])]
    exact leNat_leBytes_of_lt hr
  · rw [List.append_assoc,
      slice_append_right (by rw [List.length_append, length_leBytes, length_leBytes]),
      List.length_append, length_leBytes, length_leBytes,
      slice_append_left (by rw [length_leBytes])]
    exact leNat_leBytes_of_lt hc
  · rw [List.drop_left']
    simp only [List.length_append, length_leBytes]

theorem length_layerBytes (cols : ℕ) (rows : List (List F32)) :
    (layerBytes cols rows).length = 12 + rows.flatten.length * 4 := by
  unfold layerBytes
  simp only [List.length_append, length_leBytes, length_scalars]

theorem length_flatten {rows : List (List F32)} {cols : ℕ} (h : ∀ r ∈ rows, r.length = cols) :
    rows.flatten.length = rows.length * cols := by
  induction rows with
  | nil => simp
  | cons r rows ih =>
      rw [List.flatten_cons, List.length_append, ih fun x hx => h x (List.mem_cons_of_mem r hx),
        h r List.mem_cons_self, List.length_cons]
      ring

/-- Any bytes with a header and a payload of the right length are the image of their rows. -/
theorem layerBytes_of_header {bytes : List UInt8} {rows cols : ℕ}
    (hm : leNat (slice bytes 0 4) = kCalibMagic) (hr : leNat (slice bytes 4 4) = rows)
    (hc : leNat (slice bytes 8 4) = cols) (hl : bytes.length = 12 + rows * cols * 4) :
    bytes = layerBytes cols
      (rowsOf ((List.range (rows * cols)).map (scalarAt (bytes.drop 12))) cols rows) := by
  unfold layerBytes
  rw [flatten_rowsOf _ (by rw [List.length_map, List.length_range]), length_rowsOf,
    flatMap_scalars (by rw [List.length_drop]; omega), ← hm, ← hr, ← hc,
    leBytes_leNat_of_length (length_slice (by omega)),
    leBytes_leNat_of_length (length_slice (by omega)),
    leBytes_leNat_of_length (length_slice (by omega)),
    slice_append_slice (by omega), slice_append_slice (by omega)]
  exact (List.take_append_drop 12 bytes).symm

/-- The dimension check, which zero turns off. -/
def DimOk (expectedCols cols : ℕ) : Prop := expectedCols ≠ 0 → cols = expectedCols

/-- Reading accepts exactly the images of matrices, and never unwinds. -/
theorem readCalibFile_cases {bytes : List UInt8} (hf : Fits bytes) (dim : ℕ) :
    (∃ cols rows n, Holds bytes cols rows ∧ DimOk dim cols ∧
      readCalibFile (some bytes) dim =
        some ⟨.ok, kCalibMagic, rows.length, cols, rows.flatten, "", n⟩) ∨
    (∃ r, readCalibFile (some bytes) dim = some r ∧ r.status ≠ .ok ∧
      ∀ cols rows, Holds bytes cols rows → ¬ DimOk dim cols) := by
  have hmod : (12 + leNat (slice bytes 4 4) * leNat (slice bytes 8 4) * 4) % 2 ^ 64 =
      12 + leNat (slice bytes 4 4) * leNat (slice bytes 8 4) * 4 := Nat.mod_eq_of_lt hf.word
  have hheader : ∀ cols rows, Holds bytes cols rows →
      leNat (slice bytes 0 4) = kCalibMagic ∧ leNat (slice bytes 4 4) = rows.length ∧
        leNat (slice bytes 8 4) = cols ∧ bytes.length = 12 + rows.length * cols * 4 := by
    intro cols rows h
    obtain ⟨h₁, h₂, h₃, -⟩ := header_layerBytes h.rowsWord h.colsWord
    rw [← h.image] at h₁ h₂ h₃
    refine ⟨h₁, h₂, h₃, ?_⟩
    rw [h.image, length_layerBytes, length_flatten h.width]
  have hword : ∀ off, leNat (slice bytes off 4) < 2 ^ 32 := by
    intro off
    have hl : (slice bytes off 4).length ≤ 4 := by
      rw [length_slice_eq]
      exact Nat.min_le_left _ _
    exact lt_of_lt_of_le (leNat_lt _) (Nat.pow_le_pow_right (by decide) hl)
  unfold readCalibFile
  dsimp only
  rw [hmod]
  by_cases h₁ : bytes.length < 12
  · rw [if_pos h₁]
    right
    refine ⟨_, rfl, (fun hx => by cases hx), ?_⟩
    intro cols rows h
    have := (hheader cols rows h).2.2.2
    omega
  · rw [if_neg h₁]
    by_cases h₂ : leNat (slice bytes 0 4) ≠ kCalibMagic
    · rw [if_pos h₂]
      right
      exact ⟨_, rfl, (fun hx => by cases hx), fun cols rows h => absurd (hheader cols rows h).1 h₂⟩
    · rw [if_neg h₂]
      by_cases h₃ : leNat (slice bytes 8 4) = 0
      · rw [if_pos h₃]
        right
        refine ⟨_, rfl, (fun hx => by cases hx), ?_⟩
        intro cols rows h
        have hc := (hheader cols rows h).2.2.1
        have hpos := h.colsPos
        omega
      · rw [if_neg h₃]
        by_cases h₄ : bytes.length ≠ 12 + leNat (slice bytes 4 4) * leNat (slice bytes 8 4) * 4
        · rw [if_pos h₄]
          right
          refine ⟨_, rfl, (fun hx => by cases hx), ?_⟩
          intro cols rows h
          obtain ⟨-, hr, hc, hl⟩ := hheader cols rows h
          rw [hr, hc] at h₄
          exact absurd hl h₄
        · rw [if_neg h₄]
          by_cases h₅ : leNat (slice bytes 4 4) = 0
          · rw [if_pos h₅]
            right
            refine ⟨_, rfl, (fun hx => by cases hx), ?_⟩
            intro cols rows h
            have hr := (hheader cols rows h).2.1
            rw [h₅] at hr
            exact absurd (List.eq_nil_of_length_eq_zero hr.symm) h.nonempty
          · rw [if_neg h₅]
            by_cases h₆ : dim ≠ 0 ∧ leNat (slice bytes 8 4) ≠ dim
            · rw [if_pos h₆]
              right
              refine ⟨_, rfl, (fun hx => by cases hx), ?_⟩
              intro cols rows h hd
              rw [(hheader cols rows h).2.2.1] at h₆
              exact h₆.2 (hd h₆.1)
            · rw [not_not] at h₂ h₄
              have hsize := hf.size
              rw [if_neg h₆, if_neg (by unfold maxSize; omega),
                if_neg (by rw [List.length_drop]; omega)]
              left
              have himage := layerBytes_of_header h₂ rfl rfl h₄
              refine ⟨leNat (slice bytes 8 4), _, leNat (slice bytes 4 4) * leNat (slice bytes 8 4) * 4,
                ⟨himage, ?_, ?_, ?_, hword 8, ?_⟩, ?_, ?_⟩
              · intro hn
                have hl := congrArg List.length hn
                rw [length_rowsOf, List.length_nil] at hl
                exact h₅ hl
              · exact Nat.pos_of_ne_zero h₃
              · rw [length_rowsOf]
                exact hword 4
              · intro r hr
                exact length_of_mem_rowsOf (by rw [List.length_map, List.length_range]) hr
              · intro hd
                by_contra hne
                exact h₆ ⟨hd, hne⟩
              · rw [length_rowsOf, flatten_rowsOf _ (by rw [List.length_map, List.length_range]),
                  h₂]

/-- A file is the image of one matrix only. -/
theorem Holds.unique {bytes : List UInt8} {cols cols' : ℕ} {rows rows' : List (List F32)}
    (h : Holds bytes cols rows) (h' : Holds bytes cols' rows') : cols = cols' ∧ rows = rows' := by
  obtain ⟨-, hr, hc, hd⟩ := header_layerBytes h.rowsWord h.colsWord
  obtain ⟨-, hr', hc', hd'⟩ := header_layerBytes h'.rowsWord h'.colsWord
  rw [← h.image] at hr hc hd
  rw [← h'.image] at hr' hc' hd'
  have hcols : cols = cols' := hc.symm.trans hc'
  have hrows : rows.length = rows'.length := hr.symm.trans hr'
  refine ⟨hcols, ?_⟩
  have hlen : rows.flatten.length = rows'.flatten.length := by
    rw [length_flatten h.width, length_flatten h'.width, hrows, hcols]
  have hflat : rows.flatten = rows'.flatten := by
    rw [← scalars_flatMap rows.flatten, ← scalars_flatMap rows'.flatten, hlen, ← hd, ← hd']
  rw [← rowsOf_flatten h.width, ← rowsOf_flatten h'.width, hflat, hcols, hrows]

/-- An image without rows is not accepted as a matrix. -/
theorem not_holds_nil {cols : ℕ} (hc : cols < 2 ^ 32) (cols' : ℕ) (rows : List (List F32)) :
    ¬ Holds (layerBytes cols []) cols' rows := by
  intro h
  have hr := (@header_layerBytes cols [] (by decide) hc).2.1
  have hr' := (header_layerBytes h.rowsWord h.colsWord).2.1
  rw [← h.image, hr] at hr'
  exact h.nonempty (List.eq_nil_of_length_eq_zero hr'.symm)

def finiteRow (row : List F32) : Bool := row.all F32.isFinite

theorem isFinite_eq (x : F32) : x.isFinite = (!isnan x && !isinf x) := by
  unfold F32.isFinite isnan isinf
  generalize x.bits.toNat / 2 ^ 23 % 256 = e
  generalize x.bits.toNat % 2 ^ 23 = m
  by_cases he : e = 255
  · by_cases hm : m = 0 <;> simp [he, hm]
  · simp [he]

theorem hasNonfinite_scanScalar (f : RowFlags) (v : F32) :
    (scanScalar f v).hasNonfinite = (f.hasNonfinite || !v.isFinite) := by
  rw [isFinite_eq]
  unfold scanScalar
  cases isnan v with
  | true => simp
  | false =>
      cases isinf v with
      | true => cases signClear v <;> simp
      | false => simp

theorem hasNonfinite_scanRow (row : List F32) : (scanRow row).hasNonfinite = !finiteRow row := by
  have hfold : ∀ f : RowFlags, (row.foldl scanScalar f).hasNonfinite =
      (f.hasNonfinite || !finiteRow row) := by
    unfold finiteRow
    induction row with
    | nil => simp
    | cons v row ih =>
        intro f
        rw [List.foldl_cons, ih, hasNonfinite_scanScalar, List.all_cons, Bool.not_and,
          Bool.or_assoc]
  exact hfold _

/-- The numbers of the rows so far that are finite, or not. -/
def numbers (data : List F32) (cols k : ℕ) (finite : Bool) : List ℕ :=
  (List.range k).filter fun r => finiteRow (rowAt data cols r) == finite

theorem numbers_succ (data : List F32) (cols k : ℕ) (finite : Bool) :
    numbers data cols (k + 1) finite = numbers data cols k finite ++
      if finiteRow (rowAt data cols k) == finite then [k] else [] := by
  unfold numbers
  rw [List.range_succ, List.filter_append, List.filter_singleton, Bool.cond_eq_ite]

theorem scanMatrix_spec (data : List F32) (rows cols : ℕ) :
    (scanMatrix data rows cols).finiteRows = (numbers data cols rows true).length ∧
      (scanMatrix data rows cols).nonfiniteRows = (numbers data cols rows false).length ∧
      (scanMatrix data rows cols).nonfiniteRowIndices = numbers data cols rows false := by
  have hfold : ∀ k (s : RowScan), s.cols = cols → s.finiteRows = 0 → s.nonfiniteRows = 0 →
      s.nonfiniteRowIndices = [] →
      ((List.range k).foldl (scanStep data) s).cols = cols ∧
        ((List.range k).foldl (scanStep data) s).finiteRows = (numbers data cols k true).length ∧
        ((List.range k).foldl (scanStep data) s).nonfiniteRows =
          (numbers data cols k false).length ∧
        ((List.range k).foldl (scanStep data) s).nonfiniteRowIndices =
          numbers data cols k false := by
    intro k
    induction k with
    | zero => exact fun s hc hf hn hi => ⟨hc, hf, hn, hi⟩
    | succ k ih =>
        intro s hc hf hn hi
        obtain ⟨h₁, h₂, h₃, h₄⟩ := ih s hc hf hn hi
        rw [List.range_succ, List.foldl_append, List.foldl_cons, List.foldl_nil, numbers_succ,
          numbers_succ]
        generalize (List.range k).foldl (scanStep data) s = t at h₁ h₂ h₃ h₄ ⊢
        unfold scanStep
        dsimp only
        rw [h₁, hasNonfinite_scanRow]
        cases finiteRow (rowAt data cols k) with
        | true => simp [h₂, h₃, h₄]
        | false => simp [h₂, h₃, h₄]
  exact (hfold rows ⟨rows, cols, 0, 0, 0, 0, 0, 0, []⟩ rfl rfl rfl rfl).2

theorem length_numbers (data : List F32) (cols rows : ℕ) (finite : Bool) :
    (numbers data cols rows finite).length =
      ((rowsOf data cols rows).filter fun row => finiteRow row == finite).length := by
  unfold numbers rowsOf
  rw [List.filter_map, List.length_map]
  rfl

theorem beq_true_eq (rows : List (List F32)) :
    (rows.filter fun row => finiteRow row == true) = rows.filter finiteRow := by
  apply List.filter_congr
  intro row _
  cases finiteRow row <;> rfl

variable {bytes : List UInt8} {cols : ℕ} {rows : List (List F32)}

/-- The scan counts finite rows and the others. -/
theorem Holds.scan (h : Holds bytes cols rows) :
    (scanMatrix rows.flatten rows.length cols).finiteRows = (rows.filter finiteRow).length ∧
      (scanMatrix rows.flatten rows.length cols).nonfiniteRows =
        rows.length - (rows.filter finiteRow).length := by
  obtain ⟨h₁, h₂, -⟩ := scanMatrix_spec rows.flatten rows.length cols
  rw [h₁, h₂, length_numbers, length_numbers, rowsOf_flatten h.width, beq_true_eq]
  refine ⟨rfl, ?_⟩
  have hsum := List.length_eq_length_filter_add finiteRow (l := rows)
  have hneg : (rows.filter fun row => finiteRow row == false) =
      rows.filter fun row => !finiteRow row := by
    apply List.filter_congr
    intro row _
    cases finiteRow row <;> rfl
  rw [hneg]
  omega

theorem Holds.scan_eq_zero (h : Holds bytes cols rows) :
    (scanMatrix rows.flatten rows.length cols).nonfiniteRows = 0 ↔
      ∀ row ∈ rows, finiteRow row = true := by
  have hle := List.length_filter_le finiteRow rows
  rw [h.scan.2, ← List.filter_eq_self]
  constructor
  · intro hz
    exact List.filter_sublist.eq_of_length (by omega)
  · intro he
    rw [he]
    exact Nat.sub_self _

/-- The copy that is written keeps the finite rows. -/
theorem Holds.drop (h : Holds bytes cols rows) :
    dropNonfiniteRows rows.flatten rows.length cols
      (scanMatrix rows.flatten rows.length cols) = (rows.filter finiteRow).flatten := by
  unfold dropNonfiniteRows
  by_cases hz : (scanMatrix rows.flatten rows.length cols).nonfiniteRows = 0
  · rw [if_pos hz, List.filter_eq_self.mpr (h.scan_eq_zero.mp hz)]
  · rw [if_neg hz, (scanMatrix_spec rows.flatten rows.length cols).2.2]
    have hc := copyLoop_eq rows.flatten cols rows.length fun row => finiteRow row == false
    rw [rowsOf_flatten h.width] at hc
    unfold numbers
    rw [hc]
    congr 1
    apply List.filter_congr
    intro row _
    cases finiteRow row <;> rfl

theorem Holds.write (h : Holds bytes cols rows) :
    writeCalibFile kCalibMagic cols (rows.filter finiteRow).flatten =
      .ok (layerBytes cols (rows.filter finiteRow)) := by
  have hpos := h.colsPos
  have hlen := @length_flatten (rows.filter finiteRow) cols
    fun r hr => h.width r (List.mem_of_mem_filter hr)
  unfold writeCalibFile
  rw [hlen, Nat.mul_mod_left, Nat.mul_div_cancel _ hpos, if_neg (by omega)]
  rfl

/-- A file that keeps a row is again the image of a matrix. -/
theorem Holds.filter (h : Holds bytes cols rows) (hne : rows.filter finiteRow ≠ []) :
    Holds (layerBytes cols (rows.filter finiteRow)) cols (rows.filter finiteRow) where
  image := rfl
  nonempty := hne
  colsPos := h.colsPos
  rowsWord := lt_of_le_of_lt (List.length_filter_le _ _) h.rowsWord
  colsWord := h.colsWord
  width r hr := h.width r (List.mem_of_mem_filter hr)

theorem Holds.fits_filter (h : Holds bytes cols rows) (hf : Fits bytes) :
    Fits (layerBytes cols (rows.filter finiteRow)) := by
  have hle := List.length_filter_le finiteRow rows
  obtain ⟨-, h₂, h₃, -⟩ := header_layerBytes h.rowsWord h.colsWord
  obtain ⟨-, k₂, k₃, -⟩ := header_layerBytes (lt_of_le_of_lt hle h.rowsWord) h.colsWord
  rw [← h.image] at h₂ h₃
  have hm := Nat.mul_le_mul_right cols hle
  have hword := hf.word
  have hsize := hf.size
  rw [h₂, h₃] at hword
  rw [h.image, length_layerBytes, length_flatten h.width] at hsize
  constructor
  · rw [length_layerBytes, length_flatten fun r hr => h.width r (List.mem_of_mem_filter hr)]
    omega
  · rw [k₂, k₃]
    omega

end SlhaV2.CalibrationFiles
