import SlhaV2.PhysicalCache

/-!
# The residency graph of one slot

What a slot is for: it holds one tile, in one of five forms. A COLD slot has
two of them, because an image evicted from WARM lacks the residual plane and
keeps it beside the image. Form and tile determine every stored byte, so a slot
that represents a tile cannot mix the stores of two tiles.
-/
namespace SlhaV2.ResidencyGraph
open MachineWord ByteBuffer TileCodec SlotVector FloatingPoint PhysicalCache

inductive Form where
  | hot | warm | coldFull | coldPacked | pinned
deriving DecidableEq, Repr

namespace Form

def tier : Form → PhysicalTier
  | hot => .hot
  | warm => .warm
  | coldFull | coldPacked => .cold
  | pinned => .pinned

/-- Resident bytes of the form. -/
def resident : Form → Tile → List UInt8
  | hot, t | pinned, t => t.1
  | warm, t => (packWarm (setWarmFlag t true)).1
  | coldFull, _ | coldPacked, _ => []

def image : Form → Tile → Option (List UInt8)
  | coldFull, t => some t.1
  | coldPacked, t => some (packWarm (setWarmFlag t true)).1
  | _, _ => none

def residual : Form → Tile → Option Residual
  | warm, t | coldPacked, t => some (residualPlane t)
  | _, _ => none

def residentBytes : Form → ℕ
  | hot | pinned => tileBytes
  | warm => warmPackedBytes
  | coldFull | coldPacked => 0

def backingBytes : Form → ℕ
  | hot | pinned => 0
  | warm => residualBytes
  | coldFull | coldPacked => tileBytes

/-- The edges of the graph. PINNED is a sink: nothing adapts it. -/
inductive Move : Form → Form → Prop
  | demote : Move hot warm
  | promote : Move warm hot
  | evictHot : Move hot coldFull
  | evictWarm : Move warm coldPacked
  | restoreFull : Move coldFull hot
  | restorePacked : Move coldPacked warm
  | pin : Move hot pinned

theorem residentBytes_le (f : Form) : f.residentBytes ≤ tileBytes := by
  cases f <;> decide

/-- Resident and backing bytes always add up to one tile. -/
theorem residentBytes_add_backingBytes (f : Form) :
    f.residentBytes + f.backingBytes = tileBytes := by
  cases f <;> rfl

end Form

/-- The slot stores this tile in this form. -/
structure Represents (s : PhysicalSlot) (t : Tile) (f : Form) : Prop where
  tier : s.tier = f.tier
  bytes : s.bytes = f.resident t
  offloaded : s.offloaded = f.image t
  warmResidual : s.warmResidual = f.residual t

/-- Stored tiles carry no WARM flag; only packed images do. -/
def Clean (t : Tile) : Prop := setWarmFlag t false = t

theorem clean_setWarmFlag (t : Tile) : Clean (setWarmFlag t false) := setWarmFlag_false t false

def WellFormed (s : PhysicalSlot) : Prop := ∃ t f, Clean t ∧ Represents s t f

namespace Represents
variable {s : PhysicalSlot} {t : Tile} {f : Form}

theorem wellFormed (h : Represents s t f) (hc : Clean t) : WellFormed s := ⟨t, f, hc, h⟩

theorem allocatedBytes (h : Represents s t f) : s.allocatedBytes = f.residentBytes := by
  rw [PhysicalSlot.allocatedBytes, h.bytes]
  cases f with
  | hot | pinned => exact t.2
  | warm => exact (packWarm _).2
  | coldFull | coldPacked => rfl

theorem offloadedBytes (h : Represents s t f) : s.offloadedBytes = f.backingBytes := by
  rw [PhysicalSlot.offloadedBytes, h.offloaded, h.warmResidual]
  cases f with
  | hot | pinned | warm => rfl
  | coldFull => exact t.2
  | coldPacked =>
      simp only [Form.image, Form.residual, Option.elim, (packWarm (setWarmFlag t true)).2]
      decide

/-- Importance is not part of the stored representation. -/
theorem withImportance (h : Represents s t f) (x : F32) :
    Represents { s with importance := x } t f :=
  ⟨h.tier, h.bytes, h.offloaded, h.warmResidual⟩

theorem verifySlot (h : Represents s t f) : ElasticKvCache.verifySlot s = true := by
  have hb := h.allocatedBytes
  unfold PhysicalSlot.allocatedBytes at hb
  unfold ElasticKvCache.verifySlot
  rw [h.tier, h.offloaded, h.warmResidual]
  cases f with
  | hot | pinned => simp [Form.tier, Form.image, hb, Form.residentBytes]
  | warm => simp [Form.tier, Form.image, Form.residual, hb, Form.residentBytes]
  | coldFull | coldPacked =>
      simp [Form.tier, Form.image, h.bytes, Form.resident]

end Represents

theorem tier_hot_iff {f : Form} : f.tier = .hot ↔ f = .hot := by
  cases f <;> simp [Form.tier]

theorem tier_warm_iff {f : Form} : f.tier = .warm ↔ f = .warm := by
  cases f <;> simp [Form.tier]

theorem tier_pinned_iff {f : Form} : f.tier = .pinned ↔ f = .pinned := by
  cases f <;> simp [Form.tier]

/-- The tile behind a slot: what the resident tiers determine, and for COLD
what restoring and then promoting leaves in the slot. -/
def recover (s : PhysicalSlot) : Option Tile :=
  match s.tier, s.offloaded with
  | .cold, some image => ((s.restore image).2).restorableHotTile
  | .cold, none => none
  | _, _ => s.restorableHotTile

/-- Whatever the form, the tile comes back exactly. -/
theorem Represents.recover {s : PhysicalSlot} {t : Tile} {f : Form} (h : Represents s t f)
    (hc : Clean t) : recover s = some t := by
  have hp : unpackWithResidual (packWarm (setWarmFlag t true)) (residualPlane t) = t :=
    (unpackWithResidual_packWarm t).trans hc
  have h96 : (packWarm (setWarmFlag t true)).1.length = 96 := (packWarm (setWarmFlag t true)).2
  have h128 : t.1.length = 128 := t.2
  unfold ResidencyGraph.recover
  rw [h.tier, h.offloaded]
  cases f with
  | hot | pinned =>
      simp only [Form.tier, Form.image, PhysicalSlot.restorableHotTile, h.tier, h.bytes,
        Form.resident, tryInto_val]
  | warm =>
      simp only [Form.tier, Form.image, PhysicalSlot.restorableHotTile, h.tier, h.bytes,
        Form.resident, h.warmResidual, Form.residual, tryInto_val, hp]
  | coldFull =>
      simp only [Form.tier, Form.image, PhysicalSlot.restore, h128, if_true,
        PhysicalSlot.restorableHotTile, tryInto_val]
  | coldPacked =>
      simp only [Form.tier, Form.image, PhysicalSlot.restore, h96, tileBytes, warmPackedBytes,
        residualWords, Nat.reduceEqDiff, if_false, Nat.reduceMul, Nat.reduceSub, if_true,
        PhysicalSlot.restorableHotTile, h.warmResidual, Form.residual]
      rw [show tryInto 96 (packWarm (setWarmFlag t true)).1 = some (packWarm (setWarmFlag t true))
        from tryInto_val _]
      simp only [hp]

end SlhaV2.ResidencyGraph
