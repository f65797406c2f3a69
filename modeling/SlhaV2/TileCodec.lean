import SlhaV2.ByteBuffer

/-!
# Serialized tiles and their packed WARM form

A tile is 128 bytes: 64 latent, 32 residual, then scalar fields of which the
flag word is the only one the cache rewrites. The packed form drops the
residual plane. Dropping it and keeping it aside loses nothing: the plane, the
packed bytes and a cleared flag determine the tile.
-/
namespace SlhaV2.TileCodec
open ByteBuffer

abbrev tileBytes : ℕ := 128
abbrev latentBytes : ℕ := 64
abbrev residualWords : ℕ := 4
abbrev residualBytes : ℕ := residualWords * 8
abbrev residualOffset : ℕ := latentBytes
abbrev flagsOffset : ℕ := 118
abbrev warmPackedBytes : ℕ := tileBytes - residualWords * 8

abbrev Tile := Bytes tileBytes
abbrev Packed := Bytes warmPackedBytes
abbrev Residual := Bytes residualBytes
abbrev Flags := BitVec 16

def flagWarm : Flags := 1 <<< 0
def flagNf4 : Flags := 1 <<< 1
def flagMixed : Flags := 1 <<< 2
def flagTq3 : Flags := 1 <<< 3
def flagTq3Nocorr : Flags := 1 <<< 4
def flagMix3 : Flags := 1 <<< 5

def hasFlag (flags mask : Flags) : Bool := flags &&& mask = mask

/-- The flag word, `u16::from_le_bytes`. -/
def readFlags (tile : Tile) : Flags := BitVec.ofNat 16 (leNat (slice tile.1 flagsOffset 2))

def writeFlags (tile : Tile) (flags : Flags) : Tile :=
  ⟨splice tile.1 flagsOffset (leBytes 2 flags.toNat), by
    rw [length_splice (by rw [length_leBytes, tile.2]; decide), tile.2]⟩

def setWarmFlag (tile : Tile) (warm : Bool) : Tile :=
  let flags := readFlags tile
  writeFlags tile (if warm then flags ||| flagWarm else flags &&& ~~~flagWarm)

def residualPlane (tile : Tile) : Residual :=
  ⟨slice tile.1 residualOffset residualBytes, length_slice (by rw [tile.2]; decide)⟩

def withResidual (tile : Tile) (residual : Residual) : Tile :=
  ⟨splice tile.1 residualOffset residual.1, by
    rw [length_splice (by rw [residual.2, tile.2]; decide), tile.2]⟩

/-- Everything except the residual plane, in a zeroed 96-byte buffer. -/
def packWarm (tile : Tile) : Packed :=
  ⟨splice (splice (zeros warmPackedBytes).1 0 (slice tile.1 0 residualOffset)) residualOffset
      (slice tile.1 (residualOffset + residualWords * 8) (warmPackedBytes - residualOffset)), by
    have h₁ : (slice tile.1 0 residualOffset).length = residualOffset :=
      length_slice (by rw [tile.2]; decide)
    have h₂ : (slice tile.1 (residualOffset + residualWords * 8)
        (warmPackedBytes - residualOffset)).length = warmPackedBytes - residualOffset :=
      length_slice (by rw [tile.2]; decide)
    have h₃ : (splice (zeros warmPackedBytes).1 0 (slice tile.1 0 residualOffset)).length =
        warmPackedBytes := by
      rw [length_splice (by rw [h₁, (zeros _).2]; decide), (zeros _).2]
    rw [length_splice (by rw [h₂, h₃]; decide), h₃]⟩

/-- A full tile with the packed fields and a zero residual plane. -/
def unpackWarm (packed : Packed) : Tile :=
  ⟨splice (splice (zeros tileBytes).1 0 (slice packed.1 0 residualOffset))
      (residualOffset + residualWords * 8)
      (slice packed.1 residualOffset (warmPackedBytes - residualOffset)), by
    have h₁ : (slice packed.1 0 residualOffset).length = residualOffset :=
      length_slice (by rw [packed.2]; decide)
    have h₂ : (slice packed.1 residualOffset (warmPackedBytes - residualOffset)).length =
        warmPackedBytes - residualOffset := length_slice (by rw [packed.2]; decide)
    have h₃ : (splice (zeros tileBytes).1 0 (slice packed.1 0 residualOffset)).length =
        tileBytes := by
      rw [length_splice (by rw [h₁, (zeros _).2]; decide), (zeros _).2]
    rw [length_splice (by rw [h₂, h₃]; decide), h₃]⟩

/-- The full tile behind a packed form and its retained plane. -/
def unpackWithResidual (packed : Packed) (residual : Residual) : Tile :=
  setWarmFlag (withResidual (unpackWarm packed) residual) false

theorem getElem?_packWarm (tile : Tile) (i : ℕ) : (packWarm tile).1[i]? =
    if i < residualOffset then tile.1[i]?
    else if i < warmPackedBytes then tile.1[i + 32]? else none := by
  have h₁ : (slice tile.1 0 residualOffset).length = residualOffset :=
    length_slice (by rw [tile.2]; decide)
  have h₂ : (slice tile.1 (residualOffset + residualWords * 8)
      (warmPackedBytes - residualOffset)).length = warmPackedBytes - residualOffset :=
    length_slice (by rw [tile.2]; decide)
  have h₃ : (splice (zeros warmPackedBytes).1 0 (slice tile.1 0 residualOffset)).length =
      warmPackedBytes := by
    rw [length_splice (by rw [h₁, (zeros _).2]; decide), (zeros _).2]
  unfold packWarm
  rw [getElem?_splice (by rw [h₂, h₃]; decide), getElem?_splice (by rw [h₁, (zeros _).2]; decide),
    h₁, h₂, getElem?_slice, getElem?_slice]
  simp only [residualOffset, latentBytes, warmPackedBytes, tileBytes, residualWords, zeros]
  have hr : i < 64 ∨ 64 ≤ i ∧ i < 96 ∨ 96 ≤ i := by omega
  rcases hr with h | h | h
  · simp (disch := omega) only [if_pos, if_neg]
    simp
  · simp (disch := omega) only [if_pos, if_neg]
    congr 1
    omega
  · simp (disch := omega) only [if_pos, if_neg]
    exact List.getElem?_eq_none (by rw [List.length_replicate]; omega)

theorem unpackWarm_packWarm (tile : Tile) :
    unpackWarm (packWarm tile) = withResidual tile (zeros residualBytes) := by
  apply Subtype.ext
  apply List.ext_getElem?
  intro i
  have h₁ : (slice (packWarm tile).1 0 residualOffset).length = residualOffset :=
    length_slice (by rw [(packWarm tile).2]; decide)
  have h₂ : (slice (packWarm tile).1 residualOffset (warmPackedBytes - residualOffset)).length =
      warmPackedBytes - residualOffset := length_slice (by rw [(packWarm tile).2]; decide)
  have h₃ : (splice (zeros tileBytes).1 0 (slice (packWarm tile).1 0 residualOffset)).length =
      tileBytes := by
    rw [length_splice (by rw [h₁, (zeros _).2]; decide), (zeros _).2]
  unfold unpackWarm withResidual
  rw [getElem?_splice (by rw [h₂, h₃]; decide), getElem?_splice (by rw [h₁, (zeros _).2]; decide),
    getElem?_splice (by rw [(zeros _).2, tile.2]; decide), h₁, h₂, (zeros residualBytes).2,
    getElem?_slice, getElem?_slice, getElem?_packWarm, getElem?_packWarm]
  simp only [residualOffset, latentBytes, warmPackedBytes, tileBytes, residualWords, residualBytes,
    zeros, List.getElem?_replicate]
  -- The four ranges are the latent, the dropped plane, the fields and beyond.
  have ht : tile.1.length = 128 := tile.2
  have hr : i < 64 ∨ 64 ≤ i ∧ i < 96 ∨ 96 ≤ i ∧ i < 128 ∨ 128 ≤ i := by omega
  rcases hr with h | h | h | h
  · simp (disch := omega) only [if_pos, if_neg]
    simp
  · simp (disch := omega) only [if_pos, if_neg]
  · simp (disch := omega) only [if_pos, if_neg]
    congr 1
    omega
  · simp (disch := omega) only [if_pos, if_neg]
    exact (List.getElem?_eq_none (by omega)).symm

theorem withResidual_withResidual (tile : Tile) (a b : Residual) :
    withResidual (withResidual tile a) b = withResidual tile b :=
  Subtype.ext (splice_splice_same (by rw [a.2, tile.2]; decide) (by rw [a.2, b.2]))

theorem withResidual_residualPlane (tile : Tile) :
    withResidual tile (residualPlane tile) = tile :=
  Subtype.ext (splice_slice_self (by rw [tile.2]; decide))

/-- The flag word and the residual plane are disjoint fields. -/
theorem withResidual_writeFlags (tile : Tile) (flags : Flags) (r : Residual) :
    withResidual (writeFlags tile flags) r = writeFlags (withResidual tile r) flags :=
  Subtype.ext (splice_comm (by rw [r.2]; decide) (by rw [length_leBytes, tile.2]; decide)).symm

theorem readFlags_withResidual (tile : Tile) (r : Residual) :
    readFlags (withResidual tile r) = readFlags tile := by
  unfold readFlags withResidual
  rw [slice_splice_of_disjoint (by rw [r.2, tile.2]; decide) (by rw [r.2]; decide)]

theorem readFlags_writeFlags (tile : Tile) (flags : Flags) :
    readFlags (writeFlags tile flags) = flags := by
  have h : slice (writeFlags tile flags).1 flagsOffset (leBytes 2 flags.toNat).length =
      leBytes 2 flags.toNat :=
    slice_splice_same (by rw [length_leBytes, tile.2]; decide)
  rw [length_leBytes] at h
  unfold readFlags
  rw [h, leNat_leBytes_of_lt flags.isLt, BitVec.ofNat_toNat, BitVec.setWidth_eq]

theorem writeFlags_writeFlags (tile : Tile) (a b : Flags) :
    writeFlags (writeFlags tile a) b = writeFlags tile b :=
  Subtype.ext (splice_splice_same (by rw [length_leBytes, tile.2]; decide) (by simp))

/-- Clearing the WARM bit forgets whether it was set before. -/
theorem setWarmFlag_false (tile : Tile) (warm : Bool) :
    setWarmFlag (setWarmFlag tile warm) false = setWarmFlag tile false := by
  have h : ∀ f : Flags, (if warm then f ||| flagWarm else f &&& ~~~flagWarm) &&& ~~~flagWarm =
      f &&& ~~~flagWarm := by
    intro f
    cases warm with
    | true =>
        ext i
        simp only [if_true, BitVec.getElem_and, BitVec.getElem_or, BitVec.getElem_not]
        cases f[i] <;> cases flagWarm[i] <;> rfl
    | false => simp [BitVec.and_assoc]
  simp only [setWarmFlag, readFlags_writeFlags, writeFlags_writeFlags, Bool.false_eq_true,
    if_false, h]

theorem withResidual_setWarmFlag (tile : Tile) (warm : Bool) (r : Residual) :
    withResidual (setWarmFlag tile warm) r = setWarmFlag (withResidual tile r) warm := by
  simp only [setWarmFlag, withResidual_writeFlags, readFlags_withResidual]

/-- Packing after the flag is set, and keeping the plane, is reversible. -/
theorem unpackWithResidual_packWarm (tile : Tile) :
    unpackWithResidual (packWarm (setWarmFlag tile true)) (residualPlane tile) =
      setWarmFlag tile false := by
  unfold unpackWithResidual
  rw [unpackWarm_packWarm, withResidual_withResidual, withResidual_setWarmFlag,
    withResidual_residualPlane, setWarmFlag_false]

end SlhaV2.TileCodec
