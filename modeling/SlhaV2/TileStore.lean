import SlhaV2.ArenaSteps
import SlhaV2.ByteBuffer
import SlhaV2.MachineWord
import Mathlib.Tactic.Linarith

/-!
# The tile store of the llama.cpp shim

One tile per layer and cache position in one byte vector, with a byte map of
the positions that hold one. Sizes and indices are sixty-four-bit words and
wrap; a copy or a fill outside its vector is undefined, and is an answer of
its own here, so that it can be shown never to occur. Allocations may fail.
-/
namespace SlhaV2.TileStore
open MachineWord ByteBuffer

def tileAlign : ℕ := 128

def wordAdd (a b : ℕ) : ℕ := (a + b) % 2 ^ 64

def wordMul (a b : ℕ) : ℕ := a * b % 2 ^ 64

/-- What an allocator gives for `size` bytes: no memory, or a block that does not wrap. -/
abbrev Alloc := (size : ℕ) → Option { raw : ℕ // raw + size ≤ 2 ^ 64 }

structure Store where
  nLayers : ℕ
  capacity : ℕ
  tileBytes : ℕ
  tiles : List UInt8
  valid : List UInt8
  tileBaseOffset : ℕ
deriving DecidableEq, Repr

def Store.empty : Store := ⟨0, 0, 0, [], [], 0⟩

/-- What a call returns, or how it ends otherwise. -/
inductive Answer where
  | done
  | accepted (b : Bool)
  | snapshot (bytes : Option (List UInt8))
  | badAlloc
  | undefined
deriving DecidableEq, Repr

/-- The slots and the allocation of a geometry, unless a product or the slack overflows. -/
def slhaCheckedStoreGeometry (nLayers capacity tileBytes : ℕ) : Option (ℕ × ℕ) :=
  if nLayers = 0 ∨ tileBytes = 0 then none
  else if capacity ≠ 0 ∧ nLayers > maxWord / capacity then none
  else
    let slots := wordMul nLayers capacity
    if slots ≠ 0 ∧ tileBytes > maxWord / slots then none
    else
      let payload := wordMul slots tileBytes
      if payload > maxWord - (tileAlign - 1) then none
      else some (slots, wordAdd payload (tileAlign - 1))

/-- The distance from `raw` to the next aligned address. -/
def padding (raw : ℕ) : ℕ := (tileAlign - raw % tileAlign) % tileAlign

namespace Store

def anyValid (s : Store) : Bool := s.valid.any fun value => value ≠ 0

/-- Two zero-filled vectors of the geometry, or the store as it was. -/
def rebuild (s : Store) (nLayers capacity tileBytes : ℕ) (alloc : Alloc) : Store × Answer :=
  match slhaCheckedStoreGeometry nLayers capacity tileBytes with
  | none => (s, .accepted false)
  | some (slots, allocation) => match alloc allocation, alloc slots with
    | some raw, some _ =>
      ({ nLayers := nLayers
         capacity := capacity
         tileBytes := tileBytes
         tiles := List.replicate allocation 0
         valid := List.replicate slots 0
         tileBaseOffset := padding raw.1 }, .accepted true)
    | _, _ => (s, .accepted false)

def init (s : Store) (nLayers capacity tileBytes : ℕ) (alloc : Alloc) : Store × Answer :=
  if s.anyValid then (s, .accepted false) else s.rebuild nLayers capacity tileBytes alloc

/-- The store already has this geometry, or room for more positions. -/
def Fits (s : Store) (nLayers capacity tileBytes : ℕ) : Prop :=
  s.nLayers = nLayers ∧ s.tileBytes = tileBytes ∧ s.capacity ≥ capacity

instance (s : Store) (nLayers capacity tileBytes : ℕ) :
    Decidable (s.Fits nLayers capacity tileBytes) := inferInstanceAs (Decidable (_ ∧ _ ∧ _))

def slhaResizeEmptyTileStore (s : Store) (nLayers capacity tileBytes : ℕ) (alloc : Alloc) :
    Store × Answer :=
  if s.Fits nLayers capacity tileBytes then (s, .accepted true)
  else if s.anyValid then (s, .accepted false)
  else s.rebuild nLayers capacity tileBytes alloc

def reset (s : Store) : Store × Answer :=
  ({ s with
      tiles := List.replicate s.tiles.length 0
      valid := List.replicate s.valid.length 0 }, .done)

/-- A layer id as an unsigned word, when it is not negative. -/
def layerOf (layerId : ℤ) : Option ℕ := if layerId < 0 then none else some layerId.toNat

/-- The byte where a tile of this position starts. -/
def tileIndex (s : Store) (layer position : ℕ) : ℕ :=
  wordAdd s.tileBaseOffset (wordMul (wordAdd (wordMul layer s.capacity) position) s.tileBytes)

def validIndex (s : Store) (layer position : ℕ) : ℕ := wordAdd (wordMul layer s.capacity) position

/-- A copy of `src` into a vector, defined inside the vector only. -/
def copyInto (l : List UInt8) (off : ℕ) (src : List UInt8) : Option (List UInt8) :=
  if off + src.length ≤ l.length then some (splice l off src) else none

def clearLayer (s : Store) (layerId : ℤ) : Store × Answer :=
  match layerOf layerId with
  | none => (s, .done)
  | some layer =>
    if layer ≥ s.nLayers ∨ s.capacity = 0 ∨ s.tileBytes = 0 then (s, .done)
    else
      let validBase := wordMul layer s.capacity
      let tileByteOffset :=
        wordAdd s.tileBaseOffset (wordMul (wordMul layer s.capacity) s.tileBytes)
      match copyInto s.valid validBase (List.replicate s.capacity 0),
          copyInto s.tiles tileByteOffset
            (List.replicate (wordMul s.capacity s.tileBytes) 0) with
      | some valid, some tiles => ({ s with valid := valid, tiles := tiles }, .done)
      | _, _ => (s, .undefined)

/-- The caller's pointer is null, or has the bytes of a tile behind it. -/
def write (s : Store) (layerId : ℤ) (position : ℕ) (tile : Option (ℕ → UInt8)) :
    Store × Answer :=
  match tile, layerOf layerId with
  | some bytes, some layer =>
    if layer ≥ s.nLayers ∨ position ≥ s.capacity ∨ s.tileBytes = 0 then (s, .accepted false)
    else
      match copyInto s.tiles (s.tileIndex layer position) ((List.range s.tileBytes).map bytes),
          copyInto s.valid (s.validIndex layer position) [1] with
      | some tiles, some valid => ({ s with tiles := tiles, valid := valid }, .accepted true)
      | _, _ => (s, .undefined)
  | _, _ => (s, .accepted false)

/-- The offset of the aligned snapshot in storage that starts at `raw`. -/
def snapshotOffset (raw : ℕ) : ℕ :=
  (wordAdd raw (tileAlign - 1) &&& (maxWord - (tileAlign - 1))) - raw

/-- A snapshot of `count` tiles; growing its storage may throw, and is `alloc` here. -/
def readRange (s : Store) (layerId : ℤ) (position count : ℕ) (alloc : Alloc) : Answer :=
  match layerOf layerId with
  | none => .snapshot none
  | some layer =>
    if count = 0 then .snapshot none
    else if s.tileBytes ≠ 128 ∨ layer ≥ s.nLayers ∨ position ≥ s.capacity ∨
        count > s.capacity - position then .snapshot none
    else if count > maxWord / s.tileBytes then .snapshot none
    else
      let byteCount := wordMul count s.tileBytes
      if byteCount > maxWord - (tileAlign - 1) then .snapshot none
      else
        let validBase := s.validIndex layer position
        if validBase > s.valid.length ∨ count > s.valid.length - validBase then .snapshot none
        else if (slice s.valid validBase count).any (fun value => value = 0) then .snapshot none
        else
          let offset := s.tileIndex layer position
          if offset > s.tiles.length ∨ byteCount > s.tiles.length - offset then .snapshot none
          else match alloc (byteCount + tileAlign - 1) with
            | none => .badAlloc
            | some raw =>
              if snapshotOffset raw.1 + byteCount ≤ byteCount + tileAlign - 1 then
                .snapshot (some (slice s.tiles offset byteCount))
              else .undefined

def read (s : Store) (layerId : ℤ) (position : ℕ) (alloc : Alloc) : Answer :=
  s.readRange layerId position 1 alloc

end Store

inductive Op where
  | init (nLayers capacity tileBytes : ℕ) (alloc : Alloc)
  | resize (nLayers capacity tileBytes : ℕ) (alloc : Alloc)
  | reset
  | clearLayer (layerId : ℤ)
  | write (layerId : ℤ) (position : ℕ) (tile : Option (ℕ → UInt8))
  | read (layerId : ℤ) (position : ℕ) (alloc : Alloc)
  | readRange (layerId : ℤ) (position count : ℕ) (alloc : Alloc)

def Op.apply (s : Store) : Op → Store × Answer
  | .init nLayers capacity tileBytes alloc => s.init nLayers capacity tileBytes alloc
  | .resize nLayers capacity tileBytes alloc =>
    s.slhaResizeEmptyTileStore nLayers capacity tileBytes alloc
  | .reset => s.reset
  | .clearLayer layerId => s.clearLayer layerId
  | .write layerId position tile => s.write layerId position tile
  | .read layerId position alloc => (s, s.read layerId position alloc)
  | .readRange layerId position count alloc => (s, s.readRange layerId position count alloc)

/-- The tile last written at each layer and position since it was last cleared. -/
abbrev Written := ℕ → ℕ → Option (List UInt8)

def Written.none : Written := fun _ _ => Option.none

/-- What an answered call does to the written tiles. A resize that finds the store large
enough leaves it alone. -/
def Op.record (s : Store) (w : Written) : Op → Answer → Written
  | .init .., .accepted true => Written.none
  | .resize nLayers capacity tileBytes _, .accepted true =>
    if s.Fits nLayers capacity tileBytes then w else Written.none
  | .reset, _ => Written.none
  | .clearLayer layerId, _ => fun l p => if (l : ℤ) = layerId then Option.none else w l p
  | .write layerId position (some bytes), .accepted true => fun l p =>
    if (l : ℤ) = layerId ∧ p = position then some ((List.range s.tileBytes).map bytes) else w l p
  | _, _ => w

structure Observed where
  store : Store
  written : Written

def Observed.start : Observed := ⟨.empty, Written.none⟩

def Observed.step (o : Observed) (op : Op) : Observed :=
  ⟨(op.apply o.store).1, op.record o.store o.written (op.apply o.store).2⟩

def Observed.run (o : Observed) (ops : List Op) : Observed := ops.foldl Observed.step o

theorem wordAdd_eq {a b : ℕ} (h : a + b ≤ maxWord) : wordAdd a b = a + b := by
  unfold wordAdd
  unfold maxWord at h
  omega

theorem wordMul_eq {a b : ℕ} (h : a * b ≤ maxWord) : wordMul a b = a * b := by
  unfold wordMul
  unfold maxWord at h
  omega

/-- The rows of a grid follow each other. -/
theorem grid_le {l n c p k : ℕ} (hl : l < n) (hp : p + k ≤ c) : l * c + p + k ≤ n * c := by
  have h : (l + 1) * c ≤ n * c := Nat.mul_le_mul_right c hl
  rw [Nat.add_mul, Nat.one_mul] at h
  omega

theorem grid_inj {l l' c p p' : ℕ} (hp : p < c) (hp' : p' < c)
    (h : l * c + p = l' * c + p') : l = l' ∧ p = p' := by
  have hc : 0 < c := by omega
  have hd := congrArg (· / c) h
  have hm := congrArg (· % c) h
  simp only [Nat.mul_comm _ c, Nat.mul_add_div hc, Nat.mul_add_mod, Nat.div_eq_of_lt hp,
    Nat.div_eq_of_lt hp', Nat.mod_eq_of_lt hp, Nat.mod_eq_of_lt hp', Nat.add_zero] at hd hm
  exact ⟨hd, hm⟩

/-- Cells of one width at different numbers do not overlap. -/
theorem cells_disjoint {i j b : ℕ} (h : i ≠ j) : i * b + b ≤ j * b ∨ j * b + b ≤ i * b := by
  rcases Nat.lt_or_gt_of_ne h with h | h
  · left
    have hm := Nat.mul_le_mul_right b (show i + 1 ≤ j from h)
    rw [Nat.add_mul, Nat.one_mul] at hm
    exact hm
  · right
    have hm := Nat.mul_le_mul_right b (show j + 1 ≤ i from h)
    rw [Nat.add_mul, Nat.one_mul] at hm
    exact hm

theorem geometry_eq_some {n c b slots allocation : ℕ}
    (h : slhaCheckedStoreGeometry n c b = some (slots, allocation)) :
    slots = n * c ∧ allocation = n * c * b + (tileAlign - 1) ∧ n * c ≤ maxWord ∧
      n * c * b + (tileAlign - 1) ≤ maxWord := by
  have halign : tileAlign - 1 ≤ maxWord := by decide
  have hslots : ∀ h : ¬ (c ≠ 0 ∧ n > maxWord / c), n * c ≤ maxWord := by
    intro h
    by_cases hc : c = 0
    · rw [hc, Nat.mul_zero]
      exact Nat.zero_le _
    · rw [← Nat.le_div_iff_mul_le (Nat.pos_of_ne_zero hc)]
      omega
  unfold slhaCheckedStoreGeometry at h
  split_ifs at h with h₁ h₂
  have hs := hslots h₂
  dsimp only at h
  rw [wordMul_eq hs] at h
  split_ifs at h with h₃ h₄
  have hb : n * c * b ≤ maxWord := by
    by_cases hz : n * c = 0
    · rw [hz, Nat.zero_mul]
      exact Nat.zero_le _
    · rw [Nat.mul_comm, ← Nat.le_div_iff_mul_le (Nat.pos_of_ne_zero hz)]
      omega
  rw [wordMul_eq hb] at h h₄
  have hsum : n * c * b + (tileAlign - 1) ≤ maxWord := by omega
  rw [wordAdd_eq hsum] at h
  cases h
  exact ⟨rfl, rfl, hs, hsum⟩

end SlhaV2.TileStore
