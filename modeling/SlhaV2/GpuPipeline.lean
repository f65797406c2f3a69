import SlhaV2.MachineWord
import SlhaV2.MirroredCells
import SlhaV2.PageTransition

/-!
# The resident tiles of the GPU scoring pipeline

Serialised tiles stay in one device allocation. The host keeps a mirror of its
bytes and skips a copy whose bytes the mirror already shows. The device bytes
are part of the state here, and each copy is given its outcome: the text of the
driver's error, or nothing. Allocation does not clear device memory.
-/
namespace SlhaV2.GpuPipeline
open MachineWord ByteBuffer TileCodec PageTransition MirroredCells

/-- What the driver answers to one copy. -/
abbrev Link := Except String Unit

structure Pipeline where
  hostTiles : List UInt8
  resident : ℕ
  device : List UInt8
deriving DecidableEq, Repr

/-- Either some call of the engine fails, or the allocation holds what `memory` says. -/
def new (capacityBytes : ℕ) (engine : Except String (ℕ → UInt8)) : Except String Pipeline :=
  let maxTiles := capacityBytes / tileBytes
  if maxTiles = 0 then .error "GpuScoringPipeline: capacity too small for one tile"
  else match checkedMul maxTiles tileBytes with
    | none => .error "tile capacity overflow"
    | some usableTileBytes => match engine with
      | .error e => .error e
      | .ok memory => .ok
          { hostTiles := List.replicate usableTileBytes 0
            resident := 0
            device := (List.range usableTileBytes).map memory }

/-- The copy is atomic: the bytes arrive, or the device is left alone. -/
def copyToDeviceAt (link : Link) (src dst : List UInt8) (dstOffsetBytes : ℕ) :
    Except String (List UInt8) :=
  match checkedAdd dstOffsetBytes src.length with
  | none => .error "copy_to_device_at: offset + length overflow"
  | some e =>
    if e > dst.length then
      .error ("copy_to_device_at: offset " ++ toString dstOffsetBytes ++ " + size " ++
        toString src.length ++ " exceeds allocation size " ++ toString dst.length)
    else match link with
      | .error e => .error e
      | .ok _ => .ok (splice dst dstOffsetBytes src)

namespace Pipeline

def capacityTiles (p : Pipeline) : ℕ := p.hostTiles.length / tileBytes

def validateTile (slot : ℕ) (tile : Tile) : Except String Unit :=
  match validateCodec (readFlags tile) with
  | .error e => .error ("GpuScoringPipeline: invalid codec flags for slot " ++ toString slot ++
      ": " ++ e)
  | .ok _ => .ok ()

/-- The loop of `validate_tiles`: the first bad tile is reported under its slot. -/
def validateTiles (slot : ℕ) : List Tile → Except String Unit
  | [] => .ok ()
  | tile :: rest => match validateTile slot tile with
    | .error e => .error e
    | .ok _ => validateTiles (slot + 1) rest

def writeSlot (p : Pipeline) (slot : ℕ) (tile : Tile) (link : Link) :
    Pipeline × Except String Unit :=
  match checkedMul slot tileBytes with
  | none => (p, .error "tile offset overflow")
  | some offset => match checkedAdd offset tileBytes with
    | none => (p, .error "tile end overflow")
    | some e =>
      if e > p.hostTiles.length then
        (p, .error ("GpuScoringPipeline: slot " ++ toString slot ++ " exceeds arena capacity " ++
          toString p.capacityTiles))
      else if slice p.hostTiles offset tileBytes = tile.1 then (p, .ok ())
      else match copyToDeviceAt link tile.1 p.device offset with
        | .error e => (p, .error e)
        | .ok device => ({ p with
            device := device
            hostTiles := splice p.hostTiles offset tile.1 }, .ok ())

/-- The copies of a batch: it stops at the first one that fails. -/
def writeTiles (p : Pipeline) (slot : ℕ) (links : ℕ → Link) :
    List Tile → Pipeline × Except String Unit
  | [] => (p, .ok ())
  | tile :: rest => match p.writeSlot slot tile (links slot) with
    | (q, .error e) => (q, .error e)
    | (q, .ok _) => q.writeTiles (slot + 1) links rest

/-- Append validated tiles and return the first assigned slot. The copy to a slot is
answered by the link of that slot. -/
def upload (p : Pipeline) (tiles : List Tile) (links : ℕ → Link) : Pipeline × Except String ℕ :=
  if tiles.isEmpty then (p, .ok p.resident)
  else match validateTiles p.resident tiles with
    | .error e => (p, .error e)
    | .ok _ =>
      let start := p.resident
      match checkedAdd start tiles.length with
      | none => (p, .error "resident tile count overflow")
      | some needed =>
        if needed > p.capacityTiles then
          (p, .error ("GpuScoringPipeline: arena holds " ++ toString p.capacityTiles ++
            " tiles, need " ++ toString needed))
        else match p.writeTiles start links tiles with
          | (q, .error e) => (q, .error e)
          | (q, .ok _) => ({ q with resident := needed }, .ok start)

def updateSlot (p : Pipeline) (slot : ℕ) (tile : Tile) (link : Link) :
    Pipeline × Except String Unit :=
  if slot ≥ p.resident then
    (p, .error ("GpuScoringPipeline: slot " ++ toString slot ++ " is not resident (resident=" ++
      toString p.resident ++ ")"))
  else match validateTile slot tile with
    | .error e => (p, .error e)
    | .ok _ => p.writeSlot slot tile link

end Pipeline

inductive Call where
  | upload (tiles : List Tile) (links : ℕ → Link)
  | updateSlot (slot : ℕ) (tile : Tile) (link : Link)

/-- A pipeline with the tile each slot was last given by a call that succeeded. -/
structure Observed where
  pipeline : Pipeline
  written : ℕ → Option Tile

def Call.after (p : Pipeline) : Call → Pipeline
  | .upload tiles links => (p.upload tiles links).1
  | .updateSlot slot tile link => (p.updateSlot slot tile link).1

def Call.succeeds (p : Pipeline) : Call → Bool
  | .upload tiles links => (p.upload tiles links).2.isOk
  | .updateSlot slot tile link => (p.updateSlot slot tile link).2.isOk

/-- The tile a call writes to a slot, when it succeeds. -/
def Call.writes (p : Pipeline) (i : ℕ) : Call → Option Tile
  | .upload tiles _ => if p.resident ≤ i then tiles[i - p.resident]? else none
  | .updateSlot slot tile _ => if i = slot then some tile else none

def Observed.observe (o : Observed) (c : Call) : Observed where
  pipeline := c.after o.pipeline
  written := fun i =>
    if c.succeeds o.pipeline then (c.writes o.pipeline i).or (o.written i) else o.written i

def Observed.run (o : Observed) (cs : List Call) : Observed :=
  cs.foldl Observed.observe o

def Observed.start (p : Pipeline) : Observed := ⟨p, fun _ => none⟩

/-- The bytes of a slot in a byte array. -/
def slotBytes (l : List UInt8) (i : ℕ) : List UInt8 := slice l (i * tileBytes) tileBytes

/-- Every resident slot holds on the device the tile last written to it. -/
def Observed.Faithful (o : Observed) : Prop :=
  ∀ i < o.pipeline.resident, ∃ tile,
    o.written i = some tile ∧ slotBytes o.pipeline.device i = tile.1

def zeroTile : Tile := zeros tileBytes

def Pipeline.view (p : Pipeline) : Mirrored ℕ (List UInt8) :=
  ⟨slotBytes p.hostTiles, slotBytes p.device⟩

structure Pipeline.Sound (p : Pipeline) : Prop where
  sameLength : p.device.length = p.hostTiles.length
  addressable : p.hostTiles.length ≤ maxWord

theorem slotBytes_splice {l : List UInt8} {i : ℕ} {tile : Tile}
    (h : i * tileBytes + tileBytes ≤ l.length) :
    slotBytes (splice l (i * tileBytes) tile.1) = Function.update (slotBytes l) i tile.1 := by
  have hl : i * tileBytes + tile.1.length ≤ l.length := by
    rw [tile.2]
    exact h
  funext j
  by_cases hj : j = i
  · subst hj
    rw [Function.update_self]
    have hs := slice_splice_same hl
    rw [tile.2] at hs
    exact hs
  · rw [Function.update_of_ne hj]
    apply slice_splice_of_disjoint hl
    rw [tile.2]
    unfold tileBytes
    omega

theorem copyToDeviceAt_eq {link : Link} {tile : Tile} {dst : List UInt8} {off : ℕ}
    (h : off + tileBytes ≤ dst.length) (hw : dst.length ≤ maxWord) :
    copyToDeviceAt link tile.1 dst off = link.map fun _ => splice dst off tile.1 := by
  have hc : checkedAdd off tile.1.length = some (off + tileBytes) := by
    rw [checkedAdd_eq_some, tile.2]
    exact ⟨h.trans hw, rfl⟩
  unfold copyToDeviceAt
  rw [hc]
  simp only [gt_iff_lt, Nat.not_lt.mpr h, if_false]
  cases link with
  | error e => rfl
  | ok u => rfl

namespace Pipeline

/-- A slot past the end of the arena is refused, and so is one whose offset overflows. -/
theorem writeSlot_refused {p : Pipeline} {slot : ℕ} {tile : Tile} {link : Link}
    (h : p.hostTiles.length < slot * tileBytes + tileBytes) :
    (p.writeSlot slot tile link).1 = p ∧ (p.writeSlot slot tile link).2.isOk = false := by
  unfold writeSlot
  cases hm : checkedMul slot tileBytes with
  | none => exact ⟨rfl, rfl⟩
  | some offset =>
      rw [checkedMul_eq_some] at hm
      cases ha : checkedAdd offset tileBytes with
      | none =>
          dsimp only
          rw [ha]
          exact ⟨rfl, rfl⟩
      | some e =>
          dsimp only
          rw [ha]
          rw [checkedAdd_eq_some] at ha
          dsimp only
          rw [if_pos (by rw [ha.2, hm.2]; exact h)]
          exact ⟨rfl, rfl⟩

theorem writeSlot_eq {p : Pipeline} (hs : p.Sound) {slot : ℕ} {tile : Tile} {link : Link}
    (h : slot * tileBytes + tileBytes ≤ p.hostTiles.length) :
    p.writeSlot slot tile link =
      if slotBytes p.hostTiles slot = tile.1 then (p, .ok ())
      else match link with
        | .error e => (p, .error e)
        | .ok _ => ({ p with
            device := splice p.device (slot * tileBytes) tile.1
            hostTiles := splice p.hostTiles (slot * tileBytes) tile.1 }, .ok ()) := by
  have hm : checkedMul slot tileBytes = some (slot * tileBytes) := by
    rw [checkedMul_eq_some]
    exact ⟨by have := hs.addressable; omega, rfl⟩
  have ha : checkedAdd (slot * tileBytes) tileBytes = some (slot * tileBytes + tileBytes) := by
    rw [checkedAdd_eq_some]
    exact ⟨h.trans hs.addressable, rfl⟩
  unfold writeSlot
  simp only [hm, ha, gt_iff_lt, Nat.not_lt.mpr h, if_false]
  rw [copyToDeviceAt_eq (by rw [hs.sameLength]; exact h)
    (by rw [hs.sameLength]; exact hs.addressable)]
  cases link with
  | error e => rfl
  | ok u => rfl

/-- In the arena, a write is the write of the mirrored cell. -/
theorem view_writeSlot {p : Pipeline} (hs : p.Sound) {slot : ℕ} {tile : Tile} {link : Link}
    (h : slot * tileBytes + tileBytes ≤ p.hostTiles.length) :
    (p.writeSlot slot tile link).1.view = (p.view.write slot tile.1 link.isOk).1 ∧
      (p.writeSlot slot tile link).2.isOk = (p.view.write slot tile.1 link.isOk).2 := by
  rw [writeSlot_eq hs h]
  unfold Mirrored.write
  by_cases he : slotBytes p.hostTiles slot = tile.1
  · rw [if_pos he, if_pos (show p.view.host slot = tile.1 from he)]
    exact ⟨rfl, rfl⟩
  · rw [if_neg he, if_neg (show ¬ p.view.host slot = tile.1 from he)]
    cases link with
    | error e => exact ⟨rfl, rfl⟩
    | ok u =>
        constructor
        · unfold view
          dsimp only
          rw [slotBytes_splice h, slotBytes_splice (by rw [hs.sameLength]; exact h)]
          rfl
        · rfl

/-- A write keeps the shape of the pipeline, whatever becomes of it. -/
theorem writeSlot_sound {p : Pipeline} (hs : p.Sound) (slot : ℕ) (tile : Tile) (link : Link) :
    (p.writeSlot slot tile link).1.Sound ∧
      (p.writeSlot slot tile link).1.resident = p.resident := by
  by_cases h : slot * tileBytes + tileBytes ≤ p.hostTiles.length
  · rw [writeSlot_eq hs h]
    have hh : slot * tileBytes + tile.1.length ≤ p.hostTiles.length := by
      rw [tile.2]
      exact h
    split_ifs
    · exact ⟨hs, rfl⟩
    · cases link with
      | error e => exact ⟨hs, rfl⟩
      | ok u =>
          constructor
          · constructor
            · dsimp only
              rw [length_splice hh, length_splice (by rw [hs.sameLength]; exact hh)]
              exact hs.sameLength
            · dsimp only
              rw [length_splice hh]
              exact hs.addressable
          · rfl
  · rw [(writeSlot_refused (Nat.lt_of_not_le h)).1]
    exact ⟨hs, rfl⟩

/-- The mirror lies at most about slots it still shows blank. -/
structure Kept (p : Pipeline) : Prop extends p.Sound where
  honest : p.view.Honest zeroTile.1

theorem writeSlot_kept {p : Pipeline} (hk : p.Kept) (slot : ℕ) (tile : Tile) (link : Link) :
    (p.writeSlot slot tile link).1.Kept := by
  constructor
  · exact (writeSlot_sound hk.toSound slot tile link).1
  · by_cases h : slot * tileBytes + tileBytes ≤ p.hostTiles.length
    · rw [(view_writeSlot hk.toSound h).1]
      exact hk.honest.write slot tile.1 link.isOk
    · rw [(writeSlot_refused (Nat.lt_of_not_le h)).1]
      exact hk.honest

theorem writeSlot_other {p : Pipeline} (hs : p.Sound) {slot j : ℕ} (tile : Tile) (link : Link)
    (hj : j ≠ slot) :
    (p.writeSlot slot tile link).1.view.host j = p.view.host j ∧
      (p.writeSlot slot tile link).1.view.device j = p.view.device j := by
  by_cases h : slot * tileBytes + tileBytes ≤ p.hostTiles.length
  · rw [(view_writeSlot hs h).1]
    exact Mirrored.write_other hj
  · rw [(writeSlot_refused (Nat.lt_of_not_le h)).1]
    exact ⟨rfl, rfl⟩

/-- A write that fails has changed nothing. -/
theorem writeSlot_failed {p : Pipeline} (hs : p.Sound) {slot : ℕ} {tile : Tile} {link : Link}
    (hf : (p.writeSlot slot tile link).2.isOk = false) : (p.writeSlot slot tile link).1 = p := by
  by_cases h : slot * tileBytes + tileBytes ≤ p.hostTiles.length
  · rw [writeSlot_eq hs h] at hf ⊢
    split_ifs at hf ⊢
    · cases hf
    · cases link with
      | error e => rfl
      | ok u => cases hf
  · exact (writeSlot_refused (Nat.lt_of_not_le h)).1

/-- A completed write reached the slot exactly when the mirror did not wrongly spare it. -/
theorem writeSlot_device {p : Pipeline} (hs : p.Sound) {slot : ℕ} {tile : Tile} {link : Link}
    (hok : (p.writeSlot slot tile link).2.isOk = true) :
    (p.writeSlot slot tile link).1.view.device slot = tile.1 ↔ p.view.Unspared slot tile.1 := by
  by_cases h : slot * tileBytes + tileBytes ≤ p.hostTiles.length
  · rw [(view_writeSlot hs h).2] at hok
    rw [(view_writeSlot hs h).1]
    exact Mirrored.write_device hok
  · rw [(writeSlot_refused (Nat.lt_of_not_le h)).2] at hok
    cases hok

theorem writeTiles_kept {p : Pipeline} (hk : p.Kept) (slot : ℕ) (links : ℕ → Link)
    (tiles : List Tile) :
    (p.writeTiles slot links tiles).1.Kept ∧
      (p.writeTiles slot links tiles).1.resident = p.resident := by
  induction tiles generalizing p slot with
  | nil => exact ⟨hk, rfl⟩
  | cons tile rest ih =>
      have hr := (writeSlot_sound hk.toSound slot tile (links slot)).2
      have hq := writeSlot_kept hk slot tile (links slot)
      unfold writeTiles
      rcases hw : p.writeSlot slot tile (links slot) with ⟨q, e | u⟩ <;>
        rw [hw] at hr hq
      · exact ⟨hq, hr⟩
      · dsimp only
        rw [← hr]
        exact ih hq (slot + 1)

theorem writeTiles_other {p : Pipeline} (hk : p.Kept) {slot j : ℕ} (links : ℕ → Link)
    (tiles : List Tile) (hj : j < slot ∨ slot + tiles.length ≤ j) :
    (p.writeTiles slot links tiles).1.view.host j = p.view.host j ∧
      (p.writeTiles slot links tiles).1.view.device j = p.view.device j := by
  induction tiles generalizing p slot with
  | nil => exact ⟨rfl, rfl⟩
  | cons tile rest ih =>
      rw [List.length_cons] at hj
      have hq := writeSlot_kept hk slot tile (links slot)
      have hone := writeSlot_other hk.toSound tile (links slot) (show j ≠ slot by omega)
      unfold writeTiles
      rcases hw : p.writeSlot slot tile (links slot) with ⟨q, e | u⟩ <;>
        rw [hw] at hone hq
      · exact hone
      · dsimp only
        rw [← hone.1, ← hone.2]
        exact ih hq (by omega)

/-- What a completed batch left in its slots: no later write of the batch touches a slot. -/
theorem writeTiles_device {p : Pipeline} (hk : p.Kept) {slot : ℕ} {links : ℕ → Link}
    {tiles : List Tile} (hok : (p.writeTiles slot links tiles).2.isOk = true) {i : ℕ}
    {tile : Tile} (hi : tiles[i]? = some tile) :
    (p.writeTiles slot links tiles).1.view.device (slot + i) = tile.1 ↔
      p.view.Unspared (slot + i) tile.1 := by
  induction tiles generalizing p slot i with
  | nil =>
      rw [List.getElem?_nil] at hi
      cases hi
  | cons t rest ih =>
      have hq := writeSlot_kept hk slot t (links slot)
      have hdev := @writeSlot_device p hk.toSound slot t (links slot)
      have hother := fun j hj => @writeSlot_other p hk.toSound slot j t (links slot) hj
      unfold writeTiles at hok ⊢
      rcases hw : p.writeSlot slot t (links slot) with ⟨q, e | u⟩ <;>
        rw [hw] at hq hdev hother hok
      · cases hok
      · dsimp only at hok hdev hother ⊢
        cases i with
        | zero =>
            rw [List.getElem?_cons_zero, Option.some.injEq] at hi
            subst hi
            rw [Nat.add_zero, (writeTiles_other hq links rest (by omega)).2]
            exact hdev rfl
        | succ i =>
            rw [List.getElem?_cons_succ] at hi
            have hne : slot + (i + 1) ≠ slot := by omega
            rw [show slot + (i + 1) = slot + 1 + i by omega] at hne ⊢
            rw [ih hq hok hi]
            unfold Mirrored.Unspared
            rw [(hother _ hne).1, (hother _ hne).2]

/-- An upload is refused as a whole, breaks off in its copies, or appends its tiles. -/
theorem upload_cases (p : Pipeline) (tiles : List Tile) (links : ℕ → Link) :
    (∃ r, p.upload tiles links = (p, r) ∧ (r.isOk = true → tiles = [])) ∨
      (∃ e, p.upload tiles links = ((p.writeTiles p.resident links tiles).1, .error e)) ∨
      (p.writeTiles p.resident links tiles).2.isOk = true ∧
        p.upload tiles links =
          ({ (p.writeTiles p.resident links tiles).1 with
              resident := p.resident + tiles.length }, .ok p.resident) := by
  unfold upload
  by_cases hn : tiles.isEmpty = true
  · rw [if_pos hn]
    left
    exact ⟨.ok p.resident, rfl, fun _ => List.isEmpty_iff.mp hn⟩
  · rw [if_neg hn]
    rcases hv : validateTiles p.resident tiles with e | u
    · left
      exact ⟨.error e, rfl, fun h => by cases h⟩
    · dsimp only
      rcases ha : checkedAdd p.resident tiles.length with _ | needed
      · left
        exact ⟨_, rfl, fun h => by cases h⟩
      · rw [checkedAdd_eq_some] at ha
        dsimp only
        rw [ha.2]
        by_cases hc : p.resident + tiles.length > p.capacityTiles
        · rw [if_pos hc]
          left
          exact ⟨_, rfl, fun h => by cases h⟩
        · rw [if_neg hc]
          right
          rcases hw : p.writeTiles p.resident links tiles with ⟨q, e | u⟩
          · left
            exact ⟨e, rfl⟩
          · right
            exact ⟨rfl, rfl⟩

theorem updateSlot_cases (p : Pipeline) (slot : ℕ) (tile : Tile) (link : Link) :
    (∃ e, p.updateSlot slot tile link = (p, .error e)) ∨
      slot < p.resident ∧ p.updateSlot slot tile link = p.writeSlot slot tile link := by
  unfold updateSlot
  by_cases hr : slot ≥ p.resident
  · rw [if_pos hr]
    left
    exact ⟨_, rfl⟩
  · rw [if_neg hr]
    rcases hv : validateTile slot tile with e | u
    · left
      exact ⟨e, rfl⟩
    · right
      exact ⟨Nat.lt_of_not_le hr, rfl⟩

/-- A tile its codec rejects is named with the slot it was meant for. -/
theorem validateTiles_error {slot : ℕ} {tiles : List Tile}
    (h : ∃ tile ∈ tiles, (validateCodec (readFlags tile)).isOk = false) :
    ∃ i tile why, tiles[i]? = some tile ∧ validateCodec (readFlags tile) = .error why ∧
      validateTiles slot tiles = .error ("GpuScoringPipeline: invalid codec flags for slot " ++
        toString (slot + i) ++ ": " ++ why) := by
  induction tiles generalizing slot with
  | nil =>
      obtain ⟨tile, hm, -⟩ := h
      cases hm
  | cons t rest ih =>
      unfold validateTiles validateTile
      rcases hv : validateCodec (readFlags t) with why | u
      · exact ⟨0, t, why, List.getElem?_cons_zero, hv, rfl⟩
      · have hrest : ∃ tile ∈ rest, (validateCodec (readFlags tile)).isOk = false := by
          obtain ⟨tile, hm, hf⟩ := h
          cases List.mem_cons.mp hm with
          | inl he =>
              rw [he, hv] at hf
              cases hf
          | inr hm => exact ⟨tile, hm, hf⟩
        obtain ⟨i, tile, why, hi, hw, he⟩ := @ih (slot + 1) hrest
        rw [Nat.add_right_comm] at he
        exact ⟨i + 1, tile, why, by rw [List.getElem?_cons_succ]; exact hi, hw, he⟩

end Pipeline

/-- A call that fails leaves the resident slots as they were. -/
theorem Call.after_failed {p : Pipeline} (hk : p.Kept) {c : Call} (hf : c.succeeds p = false) :
    (c.after p).resident = p.resident ∧
      ∀ i < p.resident, (c.after p).view.device i = p.view.device i := by
  cases c with
  | upload tiles links =>
      unfold Call.succeeds at hf
      unfold Call.after
      dsimp only at hf ⊢
      rcases p.upload_cases tiles links with ⟨r, he, -⟩ | ⟨e, he⟩ | ⟨-, he⟩ <;> rw [he] at hf ⊢
      · exact ⟨rfl, fun i _ => rfl⟩
      · constructor
        · exact (Pipeline.writeTiles_kept hk _ links tiles).2
        · intro i hi
          exact (Pipeline.writeTiles_other hk links tiles (Or.inl hi)).2
      · cases hf
  | updateSlot slot tile link =>
      unfold Call.succeeds at hf
      unfold Call.after
      dsimp only at hf ⊢
      rcases p.updateSlot_cases slot tile link with ⟨e, he⟩ | ⟨-, he⟩ <;> rw [he] at hf ⊢
      · exact ⟨rfl, fun i _ => rfl⟩
      · rw [Pipeline.writeSlot_failed hk.toSound hf]
        exact ⟨rfl, fun i _ => rfl⟩

/-- A slot is resident after a call that succeeds when it was before or is written by it. -/
theorem Call.resident_after {p : Pipeline} (hk : p.Kept) {c : Call} (hs : c.succeeds p = true)
    (i : ℕ) : i < (c.after p).resident ↔ i < p.resident ∨ (c.writes p i).isSome = true := by
  cases c with
  | upload tiles links =>
      unfold Call.succeeds at hs
      unfold Call.after Call.writes
      dsimp only at hs ⊢
      rcases p.upload_cases tiles links with ⟨r, he, hn⟩ | ⟨e, he⟩ | ⟨-, he⟩ <;> rw [he] at hs ⊢
      · rw [hn hs]
        simp
      · cases hs
      · by_cases hi : p.resident ≤ i
        · rw [if_pos hi, isSome_getElem?]
          dsimp only
          omega
        · rw [if_neg hi]
          simp only [Option.isSome_none, Bool.false_eq_true, or_false]
          omega
  | updateSlot slot tile link =>
      unfold Call.succeeds at hs
      unfold Call.after Call.writes
      dsimp only at hs ⊢
      rcases p.updateSlot_cases slot tile link with ⟨e, he⟩ | ⟨hr, he⟩ <;> rw [he] at hs ⊢
      · cases hs
      · rw [(Pipeline.writeSlot_sound hk.toSound slot tile link).2]
        split_ifs with hi
        · simp only [Option.isSome_some, or_true, iff_true]
          omega
        · simp only [Option.isSome_none, Bool.false_eq_true, or_false]

/-- A call that succeeds leaves the slots it does not write. -/
theorem Call.device_kept {p : Pipeline} (hk : p.Kept) {c : Call} (hs : c.succeeds p = true)
    {i : ℕ} (hi : i < p.resident) (hw : c.writes p i = none) :
    (c.after p).view.device i = p.view.device i := by
  cases c with
  | upload tiles links =>
      unfold Call.succeeds at hs
      unfold Call.after
      dsimp only at hs ⊢
      rcases p.upload_cases tiles links with ⟨r, he, hn⟩ | ⟨e, he⟩ | ⟨-, he⟩ <;> rw [he] at hs ⊢
      · cases hs
      · exact (Pipeline.writeTiles_other hk links tiles (Or.inl hi)).2
  | updateSlot slot tile link =>
      unfold Call.succeeds at hs
      unfold Call.writes at hw
      unfold Call.after
      dsimp only at hs hw ⊢
      rcases p.updateSlot_cases slot tile link with ⟨e, he⟩ | ⟨hr, he⟩ <;> rw [he]
      split_ifs at hw with hi
      exact (Pipeline.writeSlot_other hk.toSound tile link hi).2

/-- A call that succeeds puts a tile on the device exactly when no mirror wrongly spares it. -/
theorem Call.device_written {p : Pipeline} (hk : p.Kept) {c : Call} (hs : c.succeeds p = true)
    {i : ℕ} {tile : Tile} (hw : c.writes p i = some tile) :
    (c.after p).view.device i = tile.1 ↔ p.view.Unspared i tile.1 := by
  cases c with
  | upload tiles links =>
      unfold Call.succeeds at hs
      unfold Call.writes at hw
      unfold Call.after
      dsimp only at hs hw ⊢
      rcases p.upload_cases tiles links with ⟨r, he, hn⟩ | ⟨e, he⟩ | ⟨hok, he⟩ <;>
        rw [he] at hs ⊢
      · rw [hn hs] at hw
        simp at hw
      · cases hs
      · split_ifs at hw with hi
        have hd := Pipeline.writeTiles_device hk hok hw
        rw [Nat.add_sub_cancel' hi] at hd
        exact hd
  | updateSlot slot t link =>
      unfold Call.succeeds at hs
      unfold Call.writes at hw
      unfold Call.after
      dsimp only at hs hw ⊢
      rcases p.updateSlot_cases slot t link with ⟨e, he⟩ | ⟨hr, he⟩ <;> rw [he] at hs ⊢
      · cases hs
      · split_ifs at hw with hi
        rw [hi]
        rw [Option.some.injEq] at hw
        rw [← hw]
        exact Pipeline.writeSlot_device hk.toSound hs

theorem Call.after_kept {p : Pipeline} (hk : p.Kept) (c : Call) : (c.after p).Kept := by
  cases c with
  | upload tiles links =>
      unfold Call.after
      dsimp only
      rcases p.upload_cases tiles links with ⟨r, he, -⟩ | ⟨e, he⟩ | ⟨-, he⟩ <;> rw [he]
      · exact hk
      · exact (Pipeline.writeTiles_kept hk _ links tiles).1
      · have hw := (Pipeline.writeTiles_kept hk p.resident links tiles).1
        exact ⟨⟨hw.sameLength, hw.addressable⟩, hw.honest⟩
  | updateSlot slot tile link =>
      unfold Call.after
      dsimp only
      rcases p.updateSlot_cases slot tile link with ⟨e, he⟩ | ⟨-, he⟩ <;> rw [he]
      · exact hk
      · exact Pipeline.writeSlot_kept hk slot tile link

/-- A zero tile goes only to slots whose mirror is not blank, or blank on the device too. -/
def Call.ZeroCovered (p : Pipeline) (c : Call) : Prop :=
  ∀ i, c.writes p i = some zeroTile → slotBytes p.hostTiles i = zeroTile.1 →
    slotBytes p.device i = zeroTile.1

/-- The condition on every call of a run that succeeds, in the state the call finds. -/
def ZeroCoveredAlong : Observed → List Call → Prop
  | _, [] => True
  | o, c :: cs => (c.succeeds o.pipeline = true → c.ZeroCovered o.pipeline) ∧
      ZeroCoveredAlong (o.observe c) cs

theorem Call.zeroCovered_iff {p : Pipeline} (hk : p.Kept) (c : Call) :
    c.ZeroCovered p ↔ ∀ i tile, c.writes p i = some tile → p.view.Unspared i tile.1 := by
  constructor
  · intro h i tile hw
    apply hk.honest.unspared
    intro hz
    rw [Subtype.ext hz] at hw ⊢
    exact h i hw
  · intro h i hw
    exact h i zeroTile hw

theorem Observed.faithful_failed {o : Observed} (hk : o.pipeline.Kept) {c : Call}
    (hf : c.succeeds o.pipeline = false) (h : o.Faithful) : (o.observe c).Faithful := by
  intro i hi
  obtain ⟨hr, hd⟩ := Call.after_failed hk hf
  have hi' : i < o.pipeline.resident := by
    rw [← hr]
    exact hi
  obtain ⟨tile, hw, hb⟩ := h i hi'
  refine ⟨tile, ?_, ?_⟩
  · have hn : ¬ c.succeeds o.pipeline = true := by
      rw [hf]
      exact Bool.false_ne_true
    exact (if_neg hn).trans hw
  · exact (hd i hi').trans hb

theorem Observed.written_succeeded {o : Observed} {c : Call}
    (hs : c.succeeds o.pipeline = true) (i : ℕ) :
    (o.observe c).written i = (c.writes o.pipeline i).or (o.written i) :=
  if_pos hs

/-- After a call that succeeds every slot is right exactly when the condition held. -/
theorem Observed.faithful_succeeded {o : Observed} (hk : o.pipeline.Kept) {c : Call}
    (hs : c.succeeds o.pipeline = true) (h : o.Faithful) :
    (o.observe c).Faithful ↔ c.ZeroCovered o.pipeline := by
  have hwritten := Observed.written_succeeded hs
  rw [Call.zeroCovered_iff hk]
  constructor
  · intro hf i tile hw
    have hi : i < (c.after o.pipeline).resident := by
      rw [Call.resident_after hk hs, hw]
      exact Or.inr rfl
    obtain ⟨t, ht, hb⟩ := hf i hi
    rw [hwritten, hw, Option.some_or, Option.some.injEq] at ht
    subst ht
    exact (Call.device_written hk hs hw).mp hb
  · intro hu i hi
    cases hw : c.writes o.pipeline i with
    | some tile =>
        refine ⟨tile, ?_, ?_⟩
        · rw [hwritten, hw]
          rfl
        · exact (Call.device_written hk hs hw).mpr (hu i tile hw)
    | none =>
        have hi' : i < o.pipeline.resident := by
          have hr := (Call.resident_after hk hs i).mp hi
          rw [hw] at hr
          cases hr with
          | inl hr => exact hr
          | inr hr => cases hr
        obtain ⟨tile, ht, hb⟩ := h i hi'
        refine ⟨tile, ?_, ?_⟩
        · rw [hwritten, hw]
          exact ht
        · exact (Call.device_kept hk hs hi' hw).trans hb

theorem Observed.faithful_observe {o : Observed} (hk : o.pipeline.Kept) {c : Call}
    (h : o.Faithful) (hc : c.succeeds o.pipeline = true → c.ZeroCovered o.pipeline) :
    (o.observe c).Faithful := by
  cases hs : c.succeeds o.pipeline with
  | false => exact o.faithful_failed hk hs h
  | true => exact (o.faithful_succeeded hk hs h).mpr (hc hs)

theorem Observed.run_kept {o : Observed} (hk : o.pipeline.Kept) (cs : List Call) :
    (o.run cs).pipeline.Kept := by
  induction cs generalizing o with
  | nil => exact hk
  | cons c cs ih => exact ih (o := o.observe c) (Call.after_kept hk c)

theorem Observed.run_faithful {o : Observed} (hk : o.pipeline.Kept) (h : o.Faithful)
    {cs : List Call} (hc : ZeroCoveredAlong o cs) : (o.run cs).Faithful := by
  induction cs generalizing o with
  | nil => exact h
  | cons c cs ih =>
      apply ih (o := o.observe c)
      · exact Call.after_kept hk c
      · exact o.faithful_observe hk h hc.1
      · exact hc.2

theorem new_kept {capacityBytes : ℕ} {memory : ℕ → UInt8} {p : Pipeline}
    (h : new capacityBytes (.ok memory) = .ok p) : p.Kept ∧ p.resident = 0 := by
  unfold new at h
  dsimp only at h
  split_ifs at h with hz
  rcases hm : checkedMul (capacityBytes / tileBytes) tileBytes with _ | usable <;>
    rw [hm] at h
  · cases h
  · rw [checkedMul_eq_some] at hm
    cases h
    constructor
    · constructor
      · constructor
        · simp
        · rw [List.length_replicate, hm.2]
          exact hm.1
      · intro i
        unfold Pipeline.view
        dsimp only
        by_cases hi : i < capacityBytes / tileBytes
        · right
          have hle : i * tileBytes + tileBytes ≤ usable := by
            rw [hm.2, ← Nat.succ_mul]
            exact Nat.mul_le_mul_right tileBytes hi
          unfold slotBytes slice zeroTile zeros
          rw [List.drop_replicate, List.take_replicate]
          rw [Nat.min_eq_left (by omega)]
        · left
          have hle : usable ≤ i * tileBytes := by
            rw [hm.2]
            exact Nat.mul_le_mul_right tileBytes (Nat.le_of_not_lt hi)
          unfold slotBytes slice
          rw [List.drop_eq_nil_of_le (by simpa using hle),
            List.drop_eq_nil_of_le (by simpa using hle)]
    · rfl

/-- A call that one of the checks before the first copy turns away. -/
def Call.Rejected (p : Pipeline) : Call → Prop
  | .upload tiles _ => (∃ tile ∈ tiles, (validateCodec (readFlags tile)).isOk = false) ∨
      (tiles ≠ [] ∧ p.capacityTiles < p.resident + tiles.length)
  | .updateSlot slot tile _ => p.resident ≤ slot ∨ (validateCodec (readFlags tile)).isOk = false

theorem Pipeline.upload_invalid {p : Pipeline} {tiles : List Tile} {links : ℕ → Link}
    (h : ∃ tile ∈ tiles, (validateCodec (readFlags tile)).isOk = false) :
    ∃ e, p.upload tiles links = (p, .error e) := by
  obtain ⟨i, tile, why, hi, -, hv⟩ := @Pipeline.validateTiles_error p.resident tiles h
  have hne : ¬ tiles.isEmpty = true := by
    intro he
    rw [List.isEmpty_iff.mp he, List.getElem?_nil] at hi
    cases hi
  unfold Pipeline.upload
  rw [if_neg hne, hv]
  exact ⟨_, rfl⟩

theorem Pipeline.upload_full {p : Pipeline} {tiles : List Tile} {links : ℕ → Link}
    (hne : tiles ≠ []) (h : p.capacityTiles < p.resident + tiles.length) :
    ∃ e, p.upload tiles links = (p, .error e) := by
  unfold Pipeline.upload
  rw [if_neg (by rw [List.isEmpty_iff]; exact hne)]
  rcases hv : validateTiles p.resident tiles with e | u
  · exact ⟨e, rfl⟩
  · dsimp only
    rcases ha : checkedAdd p.resident tiles.length with _ | needed
    · exact ⟨_, rfl⟩
    · rw [checkedAdd_eq_some] at ha
      dsimp only
      rw [ha.2, if_pos h]
      exact ⟨_, rfl⟩

theorem Pipeline.updateSlot_rejected {p : Pipeline} {slot : ℕ} {tile : Tile} {link : Link}
    (h : p.resident ≤ slot ∨ (validateCodec (readFlags tile)).isOk = false) :
    ∃ e, p.updateSlot slot tile link = (p, .error e) := by
  unfold Pipeline.updateSlot
  by_cases hr : slot ≥ p.resident
  · rw [if_pos hr]
    exact ⟨_, rfl⟩
  · rw [if_neg hr]
    unfold Pipeline.validateTile
    cases h with
    | inl h => exact absurd h hr
    | inr h =>
        rcases hc : validateCodec (readFlags tile) with e | u
        · exact ⟨_, rfl⟩
        · rw [hc] at h
          cases h

theorem Call.rejected_unchanged {p : Pipeline} {c : Call} (h : c.Rejected p) :
    c.after p = p ∧ c.succeeds p = false := by
  cases c with
  | upload tiles links =>
      have hu : ∃ e, p.upload tiles links = (p, .error e) := by
        cases h with
        | inl h => exact Pipeline.upload_invalid h
        | inr h => exact Pipeline.upload_full h.1 h.2
      obtain ⟨e, he⟩ := hu
      unfold Call.after Call.succeeds
      dsimp only
      rw [he]
      exact ⟨rfl, rfl⟩
  | updateSlot slot tile link =>
      obtain ⟨e, he⟩ := @Pipeline.updateSlot_rejected p slot tile link h
      unfold Call.after Call.succeeds
      dsimp only
      rw [he]
      exact ⟨rfl, rfl⟩

/-- From arbitrary device memory: rejected calls change nothing; while the condition holds
every resident slot stays right; and the first call that succeeds without it is the first
to leave a slot wrong. -/
theorem resident_slots_written (capacityBytes : ℕ) (memory : ℕ → UInt8) (p : Pipeline)
    (hp : new capacityBytes (.ok memory) = .ok p) (cs : List Call)
    (hc : ZeroCoveredAlong (.start p) cs) :
    ((Observed.start p).run cs).Faithful ∧
      (∀ c : Call, c.succeeds ((Observed.start p).run cs).pipeline = true →
        ((((Observed.start p).run cs).observe c).Faithful ↔
          c.ZeroCovered ((Observed.start p).run cs).pipeline)) ∧
      ∀ (q : Pipeline) (c : Call), c.Rejected q → c.after q = q ∧ c.succeeds q = false := by
  obtain ⟨hk, hr⟩ := new_kept hp
  have h₀ : (Observed.start p).Faithful := by
    intro i hi
    rw [show (Observed.start p).pipeline.resident = 0 from hr] at hi
    omega
  have hrun := Observed.run_faithful (o := .start p) hk h₀ hc
  refine ⟨hrun, ?_, ?_⟩
  · intro c hs
    exact Observed.faithful_succeeded (Observed.run_kept (o := .start p) hk cs) hs hrun
  · intro q c hq
    exact Call.rejected_unchanged hq

/-- Without a zero tile in it no run depends on what the device memory held. -/
theorem Call.zeroCovered_of_ne {p : Pipeline} {c : Call}
    (h : ∀ i tile, c.writes p i = some tile → tile ≠ zeroTile) : c.ZeroCovered p := by
  intro i hw
  exact absurd rfl (h i zeroTile hw)

/-- The zero tile with its first latent byte set. -/
def markedTile : Tile := ⟨splice zeroTile.1 0 [1], by decide +kernel⟩

theorem markedTile_ne : markedTile ≠ zeroTile := by decide +kernel

/-- One slot of device memory full of ones. -/
def onesPipeline : Pipeline := ⟨List.replicate 128 0, 0, List.replicate 128 255⟩

/-- The slot is filled and then replaced by the same tile, which the mirror spares. -/
def markedRun : List Call :=
  [.upload [markedTile] fun _ => .ok (), .updateSlot 0 markedTile (.error "cuMemcpyHtoD_v2")]

theorem resident_slots_written_marked :
    ((Observed.start onesPipeline).run markedRun).Faithful ∧
      ((Observed.start onesPipeline).run markedRun).pipeline.resident = 1 := by
  constructor
  · apply (resident_slots_written 128 (fun _ => 255) onesPipeline (by decide +kernel) markedRun ?_).1
    refine ⟨fun _ => ?_, fun _ => ?_, trivial⟩
    · apply Call.zeroCovered_of_ne
      intro i tile hw
      have hm := List.mem_of_getElem? (show [markedTile][i]? = some tile from hw)
      rw [List.mem_singleton.mp hm]
      exact markedTile_ne
    · apply Call.zeroCovered_of_ne
      intro i tile hw
      unfold Call.writes at hw
      dsimp only at hw
      split_ifs at hw
      rw [← Option.some.inj hw]
      exact markedTile_ne
  · decide +kernel

/-- The first upload of a zero tile succeeds and leaves the slot as allocation left it. -/
theorem zero_tile_never_copied :
    new 128 (.ok fun _ => 255) = .ok onesPipeline ∧
      (onesPipeline.upload [zeroTile] fun _ => .ok ()).2 = .ok 0 ∧
      (onesPipeline.upload [zeroTile] fun _ => .ok ()).1.resident = 1 ∧
      slotBytes (onesPipeline.upload [zeroTile] fun _ => .ok ()).1.device 0 =
        List.replicate 128 255 ∧
      ¬ ((Observed.start onesPipeline).observe
        (.upload [zeroTile] fun _ => .ok ())).Faithful := by
  refine ⟨by decide +kernel, by decide +kernel, by decide +kernel, by decide +kernel, ?_⟩
  intro h
  obtain ⟨tile, hw, hb⟩ := h 0 (by decide +kernel)
  have hs : (Call.upload [zeroTile] fun _ => .ok ()).succeeds onesPipeline = true := by
    decide +kernel
  have hz : (Call.upload [zeroTile] fun _ => .ok ()).writes onesPipeline 0 = some zeroTile := by
    decide +kernel
  rw [Observed.written_succeeded (o := .start onesPipeline) hs] at hw
  rw [show (Observed.start onesPipeline).pipeline = onesPipeline from rfl, hz, Option.some_or,
    Option.some.injEq] at hw
  rw [← hw] at hb
  revert hb
  decide +kernel

end SlhaV2.GpuPipeline
