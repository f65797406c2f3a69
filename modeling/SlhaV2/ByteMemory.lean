import Mathlib.Data.List.GetD
import Mathlib.Tactic.SplitIfs

/-!
# Memory behind a pointer

A memory gives the byte at each offset from a pointer. Ranges are read as lists
and written from lists, and what a write does not cover stays as it was.
-/
namespace SlhaV2.ByteMemory

abbrev Memory := ℕ → UInt8

def readBytes (m : Memory) (off len : ℕ) : List UInt8 := (List.range len).map fun k => m (off + k)

def writeBytes (m : Memory) (off : ℕ) (bytes : List UInt8) : Memory := fun a =>
  if off ≤ a ∧ a < off + bytes.length then bytes.getD (a - off) 0 else m a

variable {m m' : Memory} {off off' len len' a k : ℕ} {bytes : List UInt8}

@[simp] theorem length_readBytes : (readBytes m off len).length = len := by simp [readBytes]

theorem getD_readBytes (hk : k < len) : (readBytes m off len).getD k 0 = m (off + k) := by
  simp [readBytes, hk]

theorem writeBytes_of_mem (hk : k < bytes.length) :
    writeBytes m off bytes (off + k) = bytes.getD k 0 := by
  unfold writeBytes
  rw [if_pos ⟨Nat.le_add_right _ _, by omega⟩, Nat.add_sub_cancel_left]

theorem writeBytes_of_lt (ha : a < off) : writeBytes m off bytes a = m a := by
  unfold writeBytes
  rw [if_neg (by omega)]

theorem writeBytes_of_le (ha : off + bytes.length ≤ a) : writeBytes m off bytes a = m a := by
  unfold writeBytes
  rw [if_neg (by omega)]

theorem readBytes_congr (h : ∀ k < len, m (off + k) = m' (off' + k)) :
    readBytes m off len = readBytes m' off' len := by
  unfold readBytes
  apply List.map_congr_left
  intro k hk
  exact h k (List.mem_range.mp hk)

theorem readBytes_eq_iff : readBytes m off len = readBytes m' off' len ↔
    ∀ k < len, m (off + k) = m' (off' + k) := by
  constructor
  · intro h k hk
    rw [← getD_readBytes (m := m) hk, h, getD_readBytes hk]
  · exact readBytes_congr

theorem readBytes_writeBytes : readBytes (writeBytes m off bytes) off bytes.length = bytes := by
  apply List.ext_getElem
  · simp
  · intro k hk hk'
    have hread : (readBytes (writeBytes m off bytes) off bytes.length).getD k 0 =
        writeBytes m off bytes (off + k) := getD_readBytes hk'
    rw [writeBytes_of_mem hk', List.getD_eq_getElem _ _ hk', List.getD_eq_getElem _ _ hk] at hread
    exact hread

/-- A write leaves a range that it does not touch as it was. -/
theorem readBytes_writeBytes_of_disjoint
    (h : off' + len ≤ off ∨ off + bytes.length ≤ off') :
    readBytes (writeBytes m off bytes) off' len = readBytes m off' len := by
  apply readBytes_congr
  intro k hk
  rcases h with h | h
  · exact writeBytes_of_lt (by omega)
  · exact writeBytes_of_le (by omega)

/-- Copying a range moves each of its bytes. -/
theorem writeBytes_readBytes (src : Memory) :
    writeBytes m off (readBytes src off' len) a =
      if off ≤ a ∧ a < off + len then src (off' + (a - off)) else m a := by
  unfold writeBytes
  rw [length_readBytes]
  split
  · rw [getD_readBytes (by omega)]
  · rfl

/-- A memory whose first bytes are those of another one. -/
def FlatCopy (src before after : Memory) (len : ℕ) : Prop :=
  ∀ a, after a = if a < len then src a else before a

/-- A flat copy moves a range to its place only when that is where it was. -/
theorem readBytes_flatCopy_iff (total len off off' : ℕ) :
    (∀ src before after, FlatCopy src before after total →
        readBytes after off len = readBytes src off' len) ↔
      (0 < len → off = off' ∧ off + len ≤ total) := by
  constructor
  · intro h hlen
    -- a source with a single one in it, at the byte in question
    have hbyte : ∀ k < len, off + k < total ∧ off + k = off' + k := by
      intro k hk
      have hread := h (fun a => if a = off' + k then 1 else 0) (fun _ => 0)
        (fun a => if a < total then (if a = off' + k then 1 else 0) else 0) (fun _ => rfl)
      have hk' := readBytes_eq_iff.mp hread k hk
      rw [if_pos (rfl : off' + k = off' + k)] at hk'
      split_ifs at hk' with htotal hsame
      · exact ⟨htotal, hsame⟩
      · exact absurd hk' (by decide)
      · exact absurd hk' (by decide)
    have hfirst := hbyte 0 hlen
    have hlast := hbyte (len - 1) (by omega)
    omega
  · intro h src before after hcopy
    apply readBytes_congr
    intro k hk
    obtain ⟨rfl, hle⟩ := h (by omega)
    rw [hcopy, if_pos (by omega)]

end SlhaV2.ByteMemory
