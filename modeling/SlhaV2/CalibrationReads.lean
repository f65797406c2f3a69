import SlhaV2.CalibrationFiles

/-!
# Reading one calibration file

The size of the payload is checked before the vector is resized to it, in 64-bit
arithmetic. What the reader answers, hands out and asks for is compared with the
contract of its header.
-/
namespace SlhaV2.CalibrationReads
open MachineWord ByteBuffer FloatingPoint Calibration CalibrationFiles

/-- The bytes of a file; its size is counted by a signed 64-bit offset. -/
abbrev Content := { bytes : List UInt8 // bytes.length < 2 ^ 63 }

namespace Content

def magic (c : Content) : ℕ := leNat (slice c.1 0 4)
def rows (c : Content) : ℕ := leNat (slice c.1 4 4)
def cols (c : Content) : ℕ := leNat (slice c.1 8 4)
def payload (c : Content) : List UInt8 := c.1.drop 12

end Content

/-- A matrix of the expected width, with a payload of exactly its size. -/
structure Good (c : Content) (expectedCols : ℕ) : Prop where
  magic : c.magic = kCalibMagic
  rows : 1 ≤ c.rows
  cols : 1 ≤ c.cols
  dim : DimOk expectedCols c.cols
  size : c.1.length = 12 + 4 * c.rows * c.cols

/-- The call returns, asks for no more than the size of the file, answers `Ok` for the good
files alone, and hands out their payload and otherwise nothing. -/
def Meets (c : Content) (expectedCols : ℕ) : Prop :=
  ∃ r, readCalibFile (some c.1) expectedCols = some r ∧ r.allocated ≤ c.1.length ∧
    (r.status = .ok ↔ Good c expectedCols) ∧
    (r.status = .ok → r.rows = c.rows ∧ r.cols = c.cols ∧ r.data.length = c.rows * c.cols ∧
      r.data.flatMap scalarBytes = c.payload) ∧
    (r.status ≠ .ok → r.data = [])

/-- The header of a matrix that is wide enough for its size to wrap to that of the file. -/
structure Wraps (c : Content) (expectedCols : ℕ) : Prop where
  magic : c.magic = kCalibMagic
  dim : DimOk expectedCols c.cols
  header : 12 ≤ c.1.length
  large : 2 ^ 64 ≤ 12 + 4 * c.rows * c.cols
  size : c.1.length = (12 + 4 * c.rows * c.cols) % 2 ^ 64

section Reads
variable {c : Content} {expectedCols : ℕ}

/-- A refusal meets the contract for a file that is not good. -/
theorem meets_of_refusal {status : FileStatus} {magic rows cols : ℕ} {err : String}
    (h : readCalibFile (some c.1) expectedCols = some ⟨status, magic, rows, cols, [], err, 0⟩)
    (hstatus : status ≠ .ok) (hbad : ¬Good c expectedCols) : Meets c expectedCols :=
  ⟨_, h, Nat.zero_le _, iff_of_false hstatus hbad, fun hok => absurd hok hstatus, fun _ => rfl⟩

/-- A file that passes all checks has either the exact size or a wrapped one. -/
theorem size_cases (h12 : 12 ≤ c.1.length) (hmagic : c.magic = kCalibMagic)
    (hdim : DimOk expectedCols c.cols)
    (hsize : c.1.length = (12 + c.rows * c.cols * 4) % 2 ^ 64) :
    Wraps c expectedCols ∨ c.1.length = 12 + c.rows * c.cols * 4 := by
  have hcomm : 4 * c.rows * c.cols = c.rows * c.cols * 4 := by ring
  by_cases hlarge : 2 ^ 64 ≤ 12 + c.rows * c.cols * 4
  · exact .inl ⟨hmagic, hdim, h12, hcomm ▸ hlarge, hcomm ▸ hsize⟩
  · rw [Nat.mod_eq_of_lt (not_le.mp hlarge)] at hsize
    exact .inr hsize

/-- A wrapped size is passed by a count above what a vector can hold. -/
theorem readCalibFile_of_wraps (h : Wraps c expectedCols) : readCalibFile (some c.1) expectedCols = none := by
  have hcomm : 4 * c.rows * c.cols = c.rows * c.cols * 4 := by ring
  have hlarge := h.large
  have hsize := h.size
  rw [hcomm] at hlarge hsize
  have hrows : c.rows ≠ 0 := by
    intro h0
    rw [h0] at hlarge
    omega
  have hcols : c.cols ≠ 0 := by
    intro h0
    rw [h0] at hlarge
    omega
  have hdim : ¬(expectedCols ≠ 0 ∧ c.cols ≠ expectedCols) := fun hd => hd.2 (h.dim hd.1)
  have hmax : c.rows * c.cols > maxSize := by
    unfold maxSize
    omega
  unfold readCalibFile
  dsimp only
  change (if c.1.length < 12 then _ else if c.magic ≠ kCalibMagic then _ else
    if c.cols = 0 then _ else if c.1.length ≠ (12 + c.rows * c.cols * 4) % 2 ^ 64 then _ else
    if c.rows = 0 then _ else if expectedCols ≠ 0 ∧ c.cols ≠ expectedCols then _ else
    if c.rows * c.cols > maxSize then _ else _) = _
  rw [if_neg (not_lt.mpr h.header), if_neg (not_not.mpr h.magic), if_neg hcols,
    if_neg (not_not.mpr hsize), if_neg hrows, if_neg hdim, if_pos hmax]

/-- A file of exactly its size is read whole. -/
theorem meets_of_good (hgood : Good c expectedCols)
    (hcall : readCalibFile (some c.1) expectedCols = some ⟨.ok, c.magic, c.rows, c.cols,
      (List.range (c.rows * c.cols)).map (scalarAt c.payload), "",
      c.rows * c.cols * 4⟩) : Meets c expectedCols := by
  have hsize := hgood.size
  have hcomm : 4 * c.rows * c.cols = c.rows * c.cols * 4 := by ring
  have hpayload : c.payload.length = c.rows * c.cols * 4 := by
    unfold Content.payload
    rw [List.length_drop]
    omega
  refine ⟨_, hcall, ?_, iff_of_true rfl hgood, ?_, fun hne => absurd rfl hne⟩
  · dsimp only
    omega
  · intro _
    refine ⟨rfl, rfl, ?_, flatMap_scalars hpayload⟩
    rw [List.length_map, List.length_range]

theorem meets_of_not_wraps (hwraps : ¬Wraps c expectedCols) : Meets c expectedCols := by
  have hcomm : 4 * c.rows * c.cols = c.rows * c.cols * 4 := by ring
  have hcall := readCalibFile.eq_def (some c.1) expectedCols
  dsimp only at hcall
  change readCalibFile (some c.1) expectedCols = (if c.1.length < 12 then _ else
    if c.magic ≠ kCalibMagic then _ else if c.cols = 0 then _ else
    if c.1.length ≠ (12 + c.rows * c.cols * 4) % 2 ^ 64 then _ else
    if c.rows = 0 then _ else if expectedCols ≠ 0 ∧ c.cols ≠ expectedCols then _ else
    if c.rows * c.cols > maxSize then _ else
    if c.payload.length < c.rows * c.cols * 4 then _ else
      some ⟨.ok, c.magic, c.rows, c.cols, (List.range (c.rows * c.cols)).map (scalarAt c.payload),
        "", c.rows * c.cols * 4⟩) at hcall
  by_cases h12 : c.1.length < 12
  · apply meets_of_refusal (hcall.trans (if_pos h12)) (by decide)
    intro hgood
    have := hgood.size
    omega
  rw [if_neg h12] at hcall
  by_cases hmagic : c.magic = kCalibMagic
  swap
  · exact meets_of_refusal (hcall.trans (if_pos hmagic)) (by decide) fun h => hmagic h.magic
  rw [if_neg (not_not.mpr hmagic)] at hcall
  by_cases hcols : c.cols = 0
  · apply meets_of_refusal (hcall.trans (if_pos hcols)) (by decide)
    intro hgood
    have := hgood.cols
    omega
  rw [if_neg hcols] at hcall
  by_cases hsize : c.1.length = (12 + c.rows * c.cols * 4) % 2 ^ 64
  swap
  · apply meets_of_refusal (hcall.trans (if_pos hsize)) (by decide)
    intro hgood
    have hexact := hgood.size
    have hlt := c.2
    apply hsize
    rw [Nat.mod_eq_of_lt (by omega)]
    omega
  rw [if_neg (not_not.mpr hsize)] at hcall
  by_cases hrows : c.rows = 0
  · apply meets_of_refusal (hcall.trans (if_pos hrows)) (by decide)
    intro hgood
    have := hgood.rows
    omega
  rw [if_neg hrows] at hcall
  by_cases hdim : expectedCols ≠ 0 ∧ c.cols ≠ expectedCols
  · apply meets_of_refusal (hcall.trans (if_pos hdim)) (by decide)
    exact fun hgood => hdim.2 (hgood.dim hdim.1)
  rw [if_neg hdim] at hcall
  have hdimOk : DimOk expectedCols c.cols := fun h0 => by_contra fun hne => hdim ⟨h0, hne⟩
  have hexact := (size_cases (not_lt.mp h12) hmagic hdimOk hsize).resolve_left hwraps
  have hlt := c.2
  have hmax : ¬c.rows * c.cols > maxSize := by
    unfold maxSize
    omega
  have hpayload : ¬c.payload.length < c.rows * c.cols * 4 := by
    unfold Content.payload
    rw [List.length_drop]
    omega
  rw [if_neg hmax, if_neg hpayload] at hcall
  apply meets_of_good _ hcall
  exact ⟨hmagic, by omega, by omega, hdimOk, by omega⟩

/-- Scalars are known from their bytes. -/
theorem data_of_bytes {data data' : List F32} (hlen : data.length = data'.length)
    (h : data.flatMap scalarBytes = data'.flatMap scalarBytes) : data = data' := by
  rw [← scalars_flatMap data, ← scalars_flatMap data', hlen, h]

/-- Whole rows are written as the image of a matrix. -/
theorem writeCalibFile_eq {cols : ℕ} {data : List F32} (hpos : 1 ≤ cols)
    (hwhole : data.length % cols = 0) : writeCalibFile kCalibMagic cols data =
      .ok (layerBytes cols (FlatRows.rowsOf data cols (data.length / cols))) := by
  have hlen : data.length = data.length / cols * cols :=
    (Nat.div_mul_cancel (Nat.dvd_of_mod_eq_zero hwhole)).symm
  unfold writeCalibFile layerBytes
  rw [if_neg (by omega), FlatRows.flatten_rowsOf _ hlen, FlatRows.length_rowsOf]

/-- A payload of whole rows is read back from its file. -/
theorem read_written {cols : ℕ} {data : List F32} (hpos : 1 ≤ cols) (hcols : cols < 2 ^ 32)
    (hne : data ≠ []) (hwhole : data.length % cols = 0) (hrows : data.length / cols < 2 ^ 32)
    (hc : writeCalibFile kCalibMagic cols data = .ok c.1) (hdim : DimOk expectedCols cols) :
    ∃ r, readCalibFile (some c.1) expectedCols = some r ∧ r.status = .ok ∧
      r.rows = data.length / cols ∧ r.cols = cols ∧ r.data = data := by
  have hlen : data.length = data.length / cols * cols :=
    (Nat.div_mul_cancel (Nat.dvd_of_mod_eq_zero hwhole)).symm
  rw [writeCalibFile_eq hpos hwhole, Except.ok.injEq] at hc
  have hlength : (FlatRows.rowsOf data cols (data.length / cols)).length = data.length / cols :=
    FlatRows.length_rowsOf _ _ _
  have hflatten := FlatRows.flatten_rowsOf data hlen
  obtain ⟨h₁, h₂, h₃, h₄⟩ := header_layerBytes (hlength ▸ hrows) hcols
  rw [hc] at h₁ h₂ h₃ h₄
  rw [hlength] at h₂
  rw [hflatten] at h₄
  have hsize := length_layerBytes cols (FlatRows.rowsOf data cols (data.length / cols))
  rw [hc, hflatten] at hsize
  have hcrows : c.rows = data.length / cols := h₂
  have hccols : c.cols = cols := h₃
  have hproduct : 4 * c.rows * c.cols = data.length * 4 := by
    rw [hcrows, hccols, Nat.mul_assoc, ← hlen, Nat.mul_comm]
  have hdata : 0 < data.length := List.length_pos_iff.mpr hne
  have hgood : Good c expectedCols := by
    refine ⟨h₁, ?_, ?_, ?_, ?_⟩
    · rw [hcrows]
      by_contra h0
      rw [Nat.lt_one_iff.mp (not_le.mp h0), Nat.zero_mul] at hlen
      omega
    · rwa [hccols]
    · rwa [hccols]
    · omega
  have hwraps : ¬Wraps c expectedCols := by
    intro h
    have := h.large
    have := c.2
    omega
  obtain ⟨r, hr, -, hstatus, hok, -⟩ := meets_of_not_wraps hwraps
  obtain ⟨hrr, hrc, hrl, hrd⟩ := hok (hstatus.mpr hgood)
  refine ⟨r, hr, hstatus.mpr hgood, hrr.trans hcrows, hrc.trans hccols, ?_⟩
  apply data_of_bytes
  · rw [hrl, hcrows, hccols, ← hlen]
  · rw [hrd]
    exact h₄

end Reads

/-- The contract of the reader holds exactly for the files whose header does not wrap to their
size, and whatever whole rows are written are read back. -/
theorem read_exact (c : Content) (expectedCols : ℕ) :
    (Meets c expectedCols ↔ ¬Wraps c expectedCols) ∧
    ∀ (cols : ℕ) (data : List F32), 1 ≤ cols → cols < 2 ^ 32 → data ≠ [] →
      data.length % cols = 0 → data.length / cols < 2 ^ 32 →
      ∃ bytes, writeCalibFile kCalibMagic cols data = .ok bytes ∧
        (bytes.length < 2 ^ 63 → ∀ expectedCols : ℕ, DimOk expectedCols cols →
          ∃ r, readCalibFile (some bytes) expectedCols = some r ∧ r.status = .ok ∧
            r.rows = data.length / cols ∧ r.cols = cols ∧ r.data = data) := by
  constructor
  · constructor
    · rintro ⟨r, hr, _⟩ hwraps
      rw [readCalibFile_of_wraps hwraps] at hr
      exact Option.some_ne_none r hr.symm
    · exact meets_of_not_wraps
  · intro cols data hpos hcols hne hwhole hrows
    refine ⟨_, writeCalibFile_eq hpos hwhole, ?_⟩
    intro h expectedCols hdim
    have hwritten := writeCalibFile_eq hpos hwhole
    exact @read_written ⟨_, h⟩ expectedCols cols data hpos hcols hne hwhole hrows hwritten hdim

/-- Twelve bytes whose header announces `2 ^ 31` rows and columns. -/
def wrappingFile : Content :=
  ⟨leBytes 4 kCalibMagic ++ leBytes 4 (2 ^ 31) ++ leBytes 4 (2 ^ 31), by decide⟩

theorem wrappingFile_throws : ¬Meets wrappingFile 0 := by
  rintro ⟨r, hr, _⟩
  rw [readCalibFile_of_wraps] at hr
  · exact Option.some_ne_none r hr.symm
  · exact ⟨by decide, fun h => absurd rfl h, by decide, by decide, by decide⟩

end SlhaV2.CalibrationReads
