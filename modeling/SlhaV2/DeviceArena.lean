import SlhaV2.BlockMap
import SlhaV2.MachineWord

/-!
# The device arena

Sub-allocations of one backing allocation. The free map and the allocation map
are the host's ordered and hashed maps; the order of the second one is never
observed. The cookie counter wraps, as its atomic does.
-/
namespace SlhaV2.DeviceArena
open MachineWord OrderedMap BlockMap

/-- Natural alignment of a serialized tile. -/
def align : ℕ := 128

/-- The complement of a word. -/
def wordNot (a : ℕ) : ℕ := maxWord - a

def alignUp (offset : ℕ) : Option ℕ :=
  (checkedAdd offset (align - 1)).map fun v => v &&& wordNot (align - 1)

structure ArenaSlice where
  offset : ℕ
  size : ℕ
  cookie : ℕ
deriving DecidableEq, Repr

structure AllocBlock where
  offset : ℕ
  size : ℕ
deriving DecidableEq, Repr

structure Arena (A : Type) where
  backing : A
  capacity : ℕ
  free : Blocks
  allocMap : Table ℕ AllocBlock
  used : ℕ
  nextCookie : ℕ

variable {A : Type}

/-- The free map of an arena without allocations. -/
def wholeBlock (capacity : ℕ) : Blocks :=
  if capacity ≠ 0 then Table.empty.insert 0 capacity else Table.empty

def new (backing : A) (capacity : ℕ) : Arena A where
  backing := backing
  capacity := capacity
  free := wholeBlock capacity
  allocMap := Table.empty
  used := 0
  nextCookie := 1

namespace Arena

/-- Bytes represented by actual free blocks. -/
def freeBytes (a : Arena A) : Outcome ℕ := checkedSum (a.free.entries.map Prod.snd)

def accountingIsConserved (a : Arena A) : Outcome Bool := do
  let freeBytes ← a.freeBytes
  return (checkedAdd a.used freeBytes).any fun v => v == a.capacity

/-- A free block with the aligned place the request would take in it. -/
structure Fit where
  offset : ℕ
  blockSize : ℕ
  aligned : ℕ
  allocEnd : ℕ
  blockEnd : ℕ
deriving DecidableEq, Repr

def fits (size : ℕ) (e : ℕ × ℕ) : Option Fit := do
  let aligned ← alignUp e.1
  let blockEnd ← checkedAdd e.1 e.2
  let allocEnd ← checkedAdd aligned size
  if allocEnd ≤ blockEnd then some ⟨e.1, e.2, aligned, allocEnd, blockEnd⟩ else none

/-- The neighbour that ends at the offset leaves the map and joins the block. -/
def mergeLeft (free : Blocks) (off sz : ℕ) : Blocks × ℕ × ℕ :=
  match free.lastBelow off with
  | some (prevOff, prevSize) =>
      if checkedAdd prevOff prevSize = some off then
        (free.erase prevOff, prevOff, satAdd sz prevSize)
      else (free, off, sz)
  | none => (free, off, sz)

/-- The neighbour that starts at the end leaves the map and joins the block. -/
def mergeRight (free : Blocks) (off sz : ℕ) : Blocks × ℕ :=
  match free.firstFrom (satAdd off 1) with
  | some (nextOff, nextSize) =>
      if checkedAdd off sz = some nextOff then
        (free.erase nextOff, satAdd sz nextSize)
      else (free, sz)
  | none => (free, sz)

/-- Insert and coalesce with immediately adjacent free blocks. -/
def insertFree (free : Blocks) (offset size : ℕ) : Blocks :=
  if size = 0 then free else
    let (free, off, sz) := mergeLeft free offset size
    let (free, sz) := mergeRight free off sz
    free.insert off sz

/-- The free map after a request has taken its place in a block. -/
def carve (free : Blocks) (f : Fit) : Blocks :=
  let free := free.erase f.offset
  let free :=
    if f.offset < f.aligned then insertFree free f.offset (f.aligned - f.offset) else free
  if f.allocEnd < f.blockEnd then insertFree free f.allocEnd (f.blockEnd - f.allocEnd) else free

/-- The counter before the increment, and the counter after it. -/
def fetchAdd (n : ℕ) : ℕ × ℕ := (n, (n + 1) % 2 ^ 64)

/-- Cookie zero is reserved for invalid slices. -/
def takeCookie (nextCookie : ℕ) : ℕ × ℕ :=
  let (cookie, next) := fetchAdd nextCookie
  if cookie = 0 then fetchAdd next else (cookie, next)

/-- Allocate at an aligned offset in the first block with room. -/
def allocate (a : Arena A) (size : ℕ) : Option ArenaSlice × Arena A :=
  if size = 0 ∨ a.capacity < size then (none, a) else
  match a.free.entries.findSome? (fits size) with
  | none => (none, a)
  | some f =>
      let free := carve a.free f
      let (cookie, next) := takeCookie a.nextCookie
      if cookie = 0 then (none, { a with free := free, nextCookie := next }) else
      let allocMap := a.allocMap.insert cookie ⟨f.aligned, size⟩
      match checkedAdd a.used size with
      | none => (none, { a with free := free, allocMap := allocMap, nextCookie := next })
      | some used =>
          (some ⟨f.aligned, size, cookie⟩,
            { a with free := free, allocMap := allocMap, used := used, nextCookie := next })

/-- Free a live slice; only its cookie is looked at. -/
def freeSlice (a : Arena A) (slice : ArenaSlice) : Arena A :=
  if slice.cookie = 0 then a else
  match a.allocMap.find slice.cookie with
  | none => a
  | some block =>
      { a with
        allocMap := a.allocMap.erase slice.cookie
        used := a.used - block.size
        free := insertFree a.free block.offset block.size }

def reset (a : Arena A) : Arena A :=
  { a with free := wholeBlock a.capacity, allocMap := Table.empty, used := 0 }

end Arena

end SlhaV2.DeviceArena
