import SlhaV2.MachineWord

/-!
# Hierarchical byte budgets

A forest in one flat vector; a node names its parent by index. Soft targets and
reservations are clamped to the hard limit when a node is added.
-/
namespace SlhaV2.ByteBudget
open MachineWord

structure BudgetNode where
  parent : Option ℕ
  priority : UInt8
  hardLimit : ℕ
  softTarget : ℕ
  reservation : ℕ
  committed : ℕ
deriving DecidableEq, Repr

inductive BudgetError where
  | noSuchNode
  | hardLimitExceeded
  | reservationViolated
  | parentExhausted
  | cycle
  | priorityViolated
deriving DecidableEq, Repr

structure BudgetTree where
  nodes : List BudgetNode
deriving DecidableEq, Repr

namespace BudgetTree

def new : BudgetTree := ⟨[]⟩

/-- Add a root and return its index. -/
def addRoot (t : BudgetTree) (priority : UInt8) (hardLimit softTarget reservation : ℕ) :
    ℕ × BudgetTree :=
  (t.nodes.length, ⟨t.nodes ++ [{
    parent := none
    priority := priority
    hardLimit := hardLimit
    softTarget := min softTarget hardLimit
    reservation := min reservation hardLimit
    committed := 0 }]⟩)

/-- Add a child and return its index. -/
def addChild (t : BudgetTree) (parent : ℕ) (priority : UInt8)
    (hardLimit softTarget reservation : ℕ) : Except BudgetError ℕ × BudgetTree :=
  if t.nodes.length ≤ parent then (.error .noSuchNode, t)
  else
    (.ok t.nodes.length, ⟨t.nodes ++ [{
      parent := some parent
      priority := priority
      hardLimit := hardLimit
      softTarget := min softTarget hardLimit
      reservation := min reservation hardLimit
      committed := 0 }]⟩)

def node (t : BudgetTree) (index : ℕ) : Except BudgetError BudgetNode :=
  match t.nodes[index]? with
  | some n => .ok n
  | none => .error .noSuchNode

/-- Direct commitments, without descendant totals. -/
def totalCommitted (t : BudgetTree) : ℕ :=
  t.nodes.foldl (fun total n => satAdd total n.committed) 0

/-- The walk to the ancestors; it gives up after so many hops. -/
def climbs (t : BudgetTree) (ancestor : ℕ) : ℕ → ℕ → Bool
  | 0, _ => false
  | hops + 1, index =>
      match t.nodes[index]?.bind BudgetNode.parent with
      | none => false
      | some parent => if parent = ancestor then true else t.climbs ancestor hops parent

def isDescendant (t : BudgetTree) (index ancestor : ℕ) : Bool :=
  t.climbs ancestor (t.nodes.length + 1) index

/-- Commitments of a node and of its descendants. -/
def committedWithDescendants (t : BudgetTree) (index : ℕ) : Except BudgetError ℕ :=
  if t.nodes.length ≤ index then .error .noSuchNode
  else
    .ok (t.nodes.zipIdx.foldl (fun total (node, candidate) =>
      if candidate = index ∨ t.isDescendant candidate index then satAdd total node.committed
      else total) 0)

def headroom (t : BudgetTree) (index : ℕ) : Except BudgetError ℕ := do
  let used ← t.committedWithDescendants index
  let node ← t.node index
  return node.hardLimit - used

/-- Unused reservations of the siblings of a node on the path. -/
def protectedBytes (t : BudgetTree) (parent pathChild : ℕ) : Except BudgetError ℕ :=
  t.nodes.zipIdx.foldlM (fun total (sibling, i) =>
    if sibling.parent = some parent ∧ i ≠ pathChild then do
      let used ← t.committedWithDescendants i
      return satAdd total (sibling.reservation - used)
    else return total) 0

/-- The checks at every ancestor, from the child upwards. -/
def checkAncestors (t : BudgetTree) (bytes : ℕ) : ℕ → ℕ → Option ℕ → Except BudgetError Unit
  | _, _, none => .ok ()
  | 0, _, some _ => .error .cycle
  | hops + 1, pathChild, some parent => do
      let node ← t.node parent
      let used ← t.committedWithDescendants parent
      if node.hardLimit - used < bytes then .error .parentExhausted
      else
        let total ← t.protectedBytes parent pathChild
        if node.hardLimit - satAdd used bytes < total then .error .reservationViolated
        else t.checkAncestors bytes hops parent node.parent

/-- All the checks of a commit; nothing is changed before they pass. -/
def checkCommit (t : BudgetTree) (index bytes : ℕ) : Except BudgetError Unit := do
  let used ← t.committedWithDescendants index
  let node ← t.node index
  if node.hardLimit - used < bytes then .error .hardLimitExceeded
  else t.checkAncestors bytes t.nodes.length index node.parent

/-- Change what a node has committed directly. -/
def mapCommitted (t : BudgetTree) (index : ℕ) (f : ℕ → ℕ) : BudgetTree :=
  ⟨t.nodes.modify index fun n => { n with committed := f n.committed }⟩

def tryCommit (t : BudgetTree) (index bytes : ℕ) : Except BudgetError Unit × BudgetTree :=
  if t.nodes.length ≤ index then (.error .noSuchNode, t)
  else if bytes = 0 then (.ok (), t)
  else
    match t.checkCommit index bytes with
    | .error e => (.error e, t)
    | .ok _ => (.ok (), t.mapCommitted index fun committed => satAdd committed bytes)

/-- Release direct commitments; what was not committed is not released. -/
def release (t : BudgetTree) (index bytes : ℕ) : Except BudgetError Unit × BudgetTree :=
  match t.node index with
  | .error e => (.error e, t)
  | .ok _ => (.ok (), t.mapCommitted index fun committed => committed - bytes)

end BudgetTree

/-- The one-node forest both caches are built over. -/
def rootOnly (limit : ℕ) : BudgetTree := (BudgetTree.new.addRoot 0 limit limit 0).2

@[simp] theorem rootOnly_node (limit : ℕ) : (rootOnly limit).node 0 =
    .ok ⟨none, 0, limit, limit, 0, 0⟩ := by
  simp [rootOnly, BudgetTree.addRoot, BudgetTree.new, BudgetTree.node]

end SlhaV2.ByteBudget
