import SlhaV2.BudgetRuns

/-!
# Several resources over one budget forest

Each resource has a ledger of its own and commits to a node which it may share.
Both ledgers are kept by separate steps: the sum over the resources of a node is
what the node has committed directly, in every state that calls reach.
-/
namespace SlhaV2.Coordinator
open MachineWord ByteBudget BudgetRuns ParentForest

inductive CoordinatorError where
  | budget (e : BudgetError)
  | duplicateResource (id : String)
  | unknownResource (id : String)
  | releaseExceedsCommitment (resourceId : String) (requested committed : ℕ)
  | accountingOverflow (id : String)
deriving DecidableEq, Repr

structure RegisteredResource where
  resourceId : String
  node : ℕ
  priority : UInt8
  committed : ℕ
deriving DecidableEq, Repr

structure ElasticCoordinator where
  tree : BudgetTree
  resources : List RegisteredResource
deriving DecidableEq, Repr

namespace ElasticCoordinator

def new : ElasticCoordinator := ⟨BudgetTree.new, []⟩

def find (c : ElasticCoordinator) (resourceId : String) : Option RegisteredResource :=
  c.resources.find? fun r => r.resourceId = resourceId

/-- The index of a resource, with the resource found there. -/
def findIndex (c : ElasticCoordinator) (resourceId : String) :
    Except CoordinatorError (ℕ × RegisteredResource) :=
  match c.resources.zipIdx.find? fun e => e.1.resourceId = resourceId with
  | some (r, i) => .ok (i, r)
  | none => .error (.unknownResource resourceId)

/-- Register a unique resource under an existing node and return its index. -/
def register (c : ElasticCoordinator) (resourceId : String) (node : ℕ) (priority : UInt8) :
    Except CoordinatorError ℕ × ElasticCoordinator :=
  match c.tree.node node with
  | .error e => (.error (.budget e), c)
  | .ok _ =>
      if (c.find resourceId).isSome then (.error (.duplicateResource resourceId), c)
      else (.ok c.resources.length,
        { c with resources := c.resources ++ [⟨resourceId, node, priority, 0⟩] })

/-- Bytes currently owned by one registered resource. -/
def committed (c : ElasticCoordinator) (resourceId : String) : Except CoordinatorError ℕ :=
  (c.findIndex resourceId).map fun e => e.2.committed

def setCommitted (c : ElasticCoordinator) (index next : ℕ) : List RegisteredResource :=
  c.resources.modify index fun r => { r with committed := next }

/-- Admit bytes for one resource through the shared forest. -/
def commit (c : ElasticCoordinator) (resourceId : String) (bytes : ℕ) :
    Except CoordinatorError Unit × ElasticCoordinator :=
  match c.findIndex resourceId with
  | .error e => (.error e, c)
  | .ok (index, r) =>
      match checkedAdd r.committed bytes with
      | none => (.error (.accountingOverflow resourceId), c)
      | some next =>
          match c.tree.tryCommit r.node bytes with
          | (.error e, tree) => (.error (.budget e), { c with tree := tree })
          | (.ok _, tree) => (.ok (), ⟨tree, c.setCommitted index next⟩)

/-- Release bytes owned by one resource. -/
def release (c : ElasticCoordinator) (resourceId : String) (bytes : ℕ) :
    Except CoordinatorError Unit × ElasticCoordinator :=
  match c.findIndex resourceId with
  | .error e => (.error e, c)
  | .ok (index, r) =>
      if r.committed < bytes then
        (.error (.releaseExceedsCommitment resourceId bytes r.committed), c)
      else
        match c.tree.release r.node bytes with
        | (.error e, tree) => (.error (.budget e), { c with tree := tree })
        | (.ok _, tree) => (.ok (), ⟨tree, c.setCommitted index (r.committed - bytes)⟩)

def totalCommitted (c : ElasticCoordinator) : ℕ := c.tree.totalCommitted

end ElasticCoordinator

/-- The calls; nodes are added through `tree_mut`. -/
inductive Op where
  | addRoot (priority : UInt8) (hardLimit softTarget reservation : UInt64)
  | addChild (parent : ℕ) (priority : UInt8) (hardLimit softTarget reservation : UInt64)
  | register (resourceId : String) (node : ℕ) (priority : UInt8)
  | commit (resourceId : String) (bytes : UInt64)
  | release (resourceId : String) (bytes : UInt64)
deriving DecidableEq, Repr

/-- A call that extends the forest. -/
def extend (c : ElasticCoordinator) (op : BudgetRuns.Op) :
    Except CoordinatorError Unit × ElasticCoordinator :=
  let (result, tree) := BudgetRuns.exec c.tree op
  (result.mapError .budget, { c with tree := tree })

/-- One call: whether it fails, and the coordinator afterwards. -/
def exec (c : ElasticCoordinator) : Op → Except CoordinatorError Unit × ElasticCoordinator
  | .addRoot priority hard soft reservation => extend c (.addRoot priority hard soft reservation)
  | .addChild parent priority hard soft reservation =>
      extend c (.addChild parent priority hard soft reservation)
  | .register resourceId node priority =>
      let (result, after) := c.register resourceId node priority
      (result.map fun _ => (), after)
  | .commit resourceId bytes => c.commit resourceId bytes.toNat
  | .release resourceId bytes => c.release resourceId bytes.toNat

def run (c : ElasticCoordinator) (ops : List Op) : ElasticCoordinator :=
  ops.foldl (fun c op => (exec c op).2) c

section Tally
variable {α κ : Type} [DecidableEq κ] (key : α → κ) (amount : α → ℕ)

/-- The amounts of one key. -/
def tally (k : κ) (l : List α) : ℕ := (l.map fun a => if key a = k then amount a else 0).sum

theorem tally_append (k : κ) (l r : List α) :
    tally key amount k (l ++ r) = tally key amount k l + tally key amount k r := by
  unfold tally
  rw [List.map_append, List.sum_append]

/-- An element may be no more than the amount of its key. -/
theorem le_tally {l : List α} {a : α} (ha : a ∈ l) : amount a ≤ tally key amount (key a) l := by
  unfold tally
  have hmem : amount a ∈ l.map fun b => if key b = key a then amount b else 0 :=
    List.mem_map.mpr ⟨a, ha, if_pos rfl⟩
  exact List.le_sum_of_mem hmem

/-- A change of one amount changes the tally of its key by as much, and no other. -/
theorem tally_modify {f : α → α} {a : α} {l : List α} {i : ℕ} (hi : l[i]? = some a)
    (hkey : key (f a) = key a) (k : κ) :
    tally key amount k (l.modify i f) + (if key a = k then amount a else 0) =
      tally key amount k l + (if key a = k then amount (f a) else 0) := by
  induction l generalizing i with
  | nil => cases hi
  | cons b l ih =>
      cases i with
      | zero =>
          cases hi
          simp only [tally, List.modify_zero_cons, List.map_cons, List.sum_cons, hkey]
          omega
      | succ i =>
          have hrest := ih (i := i) hi
          simp only [tally, List.modify_succ_cons, List.map_cons, List.sum_cons] at hrest ⊢
          omega

end Tally

section Find
variable {α : Type}

theorem find?_zipIdx (p : α → Bool) (l : List α) (k : ℕ) :
    ((l.zipIdx k).find? fun e => p e.1).map Prod.fst = l.find? p := by
  induction l generalizing k with
  | nil => rfl
  | cons a l ih =>
      rw [List.zipIdx_cons, List.find?_cons, List.find?_cons]
      cases hp : p a with
      | true => rfl
      | false => exact ih (k + 1)

/-- Changing an element that is not looked for, to another such element. -/
theorem find?_modify {p : α → Bool} {f : α → α} {a : α} {l : List α} {i : ℕ}
    (hi : l[i]? = some a) (ha : p a = false) (hf : p (f a) = false) :
    (l.modify i f).find? p = l.find? p := by
  induction l generalizing i with
  | nil => cases hi
  | cons b l ih =>
      cases i with
      | zero =>
          cases hi
          rw [List.modify_zero_cons, List.find?_cons, List.find?_cons, ha, hf]
      | succ i =>
          rw [List.modify_succ_cons, List.find?_cons, List.find?_cons, ih hi]

end Find

/-- What a resource owns, if it is registered. -/
def owned (c : ElasticCoordinator) (resourceId : String) : Option ℕ :=
  (c.find resourceId).map RegisteredResource.committed

/-- What the resources of a node own together. -/
def ledger (c : ElasticCoordinator) (node : ℕ) : ℕ :=
  tally RegisteredResource.node RegisteredResource.committed node c.resources

structure Consistent (c : ElasticCoordinator) : Prop where
  valid : Valid c.tree
  located : ∀ r ∈ c.resources, r.node < c.tree.nodes.length
  ledgers : ∀ i, committedAt c.tree i = ledger c i
  unique : (c.resources.map RegisteredResource.resourceId).Nodup

section Lookup
variable {c : ElasticCoordinator} {resourceId : String}

theorem findIndex_eq_ok {i : ℕ} {r : RegisteredResource}
    (h : c.findIndex resourceId = .ok (i, r)) :
    c.resources[i]? = some r ∧ r.resourceId = resourceId ∧ c.find resourceId = some r := by
  have hfind := find?_zipIdx (fun r : RegisteredResource => decide (r.resourceId = resourceId))
    c.resources 0
  unfold ElasticCoordinator.findIndex at h
  unfold ElasticCoordinator.find
  cases hz : c.resources.zipIdx.find? fun e => decide (e.1.resourceId = resourceId) with
  | none =>
      rw [hz] at h
      cases h
  | some e =>
      rw [hz] at h hfind
      cases h
      have hmem := List.mem_of_find?_eq_some hz
      have hid := List.find?_some hz
      exact ⟨List.mem_zipIdx_iff_getElem?.mp hmem, of_decide_eq_true hid, hfind.symm⟩

theorem findIndex_of_find {r : RegisteredResource} (h : c.find resourceId = some r) :
    ∃ i, c.findIndex resourceId = .ok (i, r) := by
  have hfind := find?_zipIdx (fun r : RegisteredResource => decide (r.resourceId = resourceId))
    c.resources 0
  unfold ElasticCoordinator.find at h
  unfold ElasticCoordinator.findIndex
  rw [h] at hfind
  obtain ⟨e, he, rfl⟩ := Option.map_eq_some_iff.mp hfind
  rw [he]
  exact ⟨e.2, rfl⟩

theorem find_eq_none (h : c.find resourceId = none) :
    resourceId ∉ c.resources.map RegisteredResource.resourceId := by
  intro hmem
  obtain ⟨r, hr, rfl⟩ := List.mem_map.mp hmem
  exact absurd (List.find?_eq_none.mp h r hr) (by simp)

end Lookup

/-- A forest in which one node has another direct commitment. -/
structure Recommitted (t t' : BudgetTree) (i amount : ℕ) : Prop where
  valid : Valid t'
  length_eq : t'.nodes.length = t.nodes.length
  self : committedAt t' i = amount
  others : ∀ j, j ≠ i → committedAt t' j = committedAt t j

section Forest
variable {t : BudgetTree} {i bytes : ℕ} {n : BudgetNode}

theorem length_mapCommitted (f : ℕ → ℕ) :
    (t.mapCommitted i f).nodes.length = t.nodes.length := List.length_modify ..

/-- A commit fails without effect, or adds exactly the bytes. -/
theorem tryCommit_cases (h : Valid t) (hi : t.nodes[i]? = some n) (bytes : ℕ) :
    (∃ e, t.tryCommit i bytes = (.error e, t)) ∨
      ∃ t', t.tryCommit i bytes = (.ok (), t') ∧
        Recommitted t t' i (committedAt t i + bytes) := by
  have hlen := (List.getElem?_eq_some_iff.mp hi).1
  unfold BudgetTree.tryCommit
  rw [if_neg (Nat.not_le.mpr hlen)]
  by_cases hzero : bytes = 0
  · rw [if_pos hzero]
    exact .inr ⟨t, rfl, h, rfl, by rw [hzero, Nat.add_zero], fun _ _ => rfl⟩
  rw [if_neg hzero]
  rcases h.checkCommit hi with ⟨e, heq, -⟩ | ⟨heq, hfits⟩
  · rw [heq]
    exact .inl ⟨e, rfl⟩
  · rw [heq]
    obtain ⟨hself, hother⟩ := committedAt_mapCommitted (f := fun c => satAdd c bytes) hi
    have hword : committedAt t i + bytes ≤ maxWord := by
      have hle : committedAt t i ≤ subtree t i := le_weight _ hlen
      have hroom := hfits i n (Or.inl rfl) hi
      have hlimit := h.limit i n hi
      omega
    rw [satAdd_eq hword] at hself
    exact .inr ⟨_, rfl, h.commit hi hfits, length_mapCommitted _, hself, hother⟩

/-- What a node has committed can be released. -/
theorem release_cases (h : Valid t) (hi : t.nodes[i]? = some n) (bytes : ℕ) :
    ∃ t', t.release i bytes = (.ok (), t') ∧
      Recommitted t t' i (committedAt t i - bytes) := by
  obtain ⟨hself, hother⟩ := committedAt_mapCommitted (f := fun c => c - bytes) hi
  unfold BudgetTree.release
  rw [node_eq hi]
  exact ⟨_, rfl, h.release hi, length_mapCommitted _, hself, hother⟩

end Forest

theorem map_setCommitted {β : Type} (c : ElasticCoordinator) (index next : ℕ)
    (f : RegisteredResource → β) (hf : ∀ r, f { r with committed := next } = f r) :
    (c.setCommitted index next).map f = c.resources.map f := by
  unfold ElasticCoordinator.setCommitted
  apply List.ext_getElem?
  intro i
  rw [List.getElem?_map, List.getElem?_map, List.getElem?_modify]
  cases c.resources[i]? with
  | none => rfl
  | some r => by_cases hi : index = i <;> simp [hi, hf]

/-- Both ledgers move together. -/
theorem Consistent.recommit {c : ElasticCoordinator} (h : Consistent c) {index next : ℕ}
    {r : RegisteredResource} (hr : c.resources[index]? = some r) {t' : BudgetTree}
    (ht : Recommitted c.tree t' r.node (committedAt c.tree r.node - r.committed + next)) :
    Consistent ⟨t', c.setCommitted index next⟩ := by
  have hmem := List.mem_of_getElem? hr
  have hle : r.committed ≤ ledger c r.node := le_tally RegisteredResource.node _ hmem
  constructor
  · exact ht.valid
  · intro q hq
    obtain ⟨r', hr', heq⟩ : ∃ r' ∈ c.resources, r'.node = q.node := by
      have hnodes := map_setCommitted c index next RegisteredResource.node fun _ => rfl
      have hqn := List.mem_map_of_mem (f := RegisteredResource.node) hq
      rw [hnodes] at hqn
      exact List.mem_map.mp hqn
    change q.node < t'.nodes.length
    rw [ht.length_eq, ← heq]
    exact h.located r' hr'
  · intro i
    have htally := tally_modify RegisteredResource.node RegisteredResource.committed hr
      (f := fun r => { r with committed := next }) rfl i
    change committedAt t' i = tally _ _ i (c.setCommitted index next)
    unfold ElasticCoordinator.setCommitted
    have hi := h.ledgers i
    unfold ledger at hi hle
    by_cases hnode : r.node = i
    · subst hnode
      have hself := ht.self
      simp only [if_true] at htally
      omega
    · have hother := ht.others i (Ne.symm hnode)
      simp only [if_neg hnode] at htally
      omega
  · change ((c.setCommitted index next).map RegisteredResource.resourceId).Nodup
    rw [map_setCommitted c index next _ fun _ => rfl]
    exact h.unique

/-- The resource that a call is about. -/
def Op.resource : Op → Option String
  | .register resourceId _ _ | .commit resourceId _ | .release resourceId _ => some resourceId
  | _ => none

/-- What a call does: it keeps both ledgers equal, failing it changes nothing, and it leaves
what every other resource owns. -/
structure Steps (c : ElasticCoordinator) (resource : Option String)
    (r : Except CoordinatorError Unit × ElasticCoordinator) : Prop where
  consistent : Consistent r.2
  unchanged : ∀ e, r.1 = .error e → r.2 = c
  others : ∀ id, resource ≠ some id → owned r.2 id = owned c id

section Step
variable {c : ElasticCoordinator} {resource : Option String}

theorem steps_error (h : Consistent c) (e : CoordinatorError) : Steps c resource (.error e, c) :=
  ⟨h, fun _ _ => rfl, fun _ _ => rfl⟩

theorem steps_ok {after : ElasticCoordinator} (h : Consistent after)
    (hothers : ∀ id, resource ≠ some id → owned after id = owned c id) :
    Steps c resource (.ok (), after) := ⟨h, fun e heq => (by cases heq), hothers⟩

/-- A new node has committed nothing. -/
theorem committedAt_append (t : BudgetTree) {n : BudgetNode} (hn : n.committed = 0) (i : ℕ) :
    committedAt ⟨t.nodes ++ [n]⟩ i = committedAt t i := by
  unfold committedAt
  rw [List.getElem?_append]
  split_ifs with hi
  · rfl
  · rw [List.getElem?_eq_none (not_lt.mp hi)]
    cases i - t.nodes.length with
    | zero => simp [hn]
    | succ k => rfl

theorem Consistent.grow (h : Consistent c) {n : BudgetNode} (hn : n.committed = 0)
    (hvalid : Valid ⟨c.tree.nodes ++ [n]⟩) :
    Consistent { c with tree := ⟨c.tree.nodes ++ [n]⟩ } := by
  constructor
  · exact hvalid
  · intro r hr
    have hlt := h.located r hr
    change r.node < (c.tree.nodes ++ [n]).length
    rw [List.length_append]
    omega
  · exact fun i => (committedAt_append c.tree hn i).trans (h.ledgers i)
  · exact h.unique

theorem extend_addRoot (h : Consistent c) (priority : UInt8) (hard soft reservation : UInt64) :
    Steps c resource (extend c (.addRoot priority hard soft reservation)) := by
  have hvalid := (exec_steps h.valid (.addRoot priority hard soft reservation)).valid
  exact steps_ok (h.grow rfl hvalid) fun _ _ => rfl

theorem extend_addChild (h : Consistent c) (parent : ℕ) (priority : UInt8)
    (hard soft reservation : UInt64) :
    Steps c resource (extend c (.addChild parent priority hard soft reservation)) := by
  have hvalid := (exec_steps h.valid (.addChild parent priority hard soft reservation)).valid
  unfold extend
  simp only [BudgetRuns.exec, BudgetTree.addChild] at hvalid ⊢
  split_ifs at hvalid ⊢ with hmissing
  · exact steps_error h _
  · exact steps_ok (h.grow rfl hvalid) fun _ _ => rfl

theorem register_steps (h : Consistent c) (id : String) (node : ℕ) (priority : UInt8) :
    Steps c (some id) (((c.register id node priority).1.map fun _ => ()),
      (c.register id node priority).2) := by
  unfold ElasticCoordinator.register
  cases hnode : c.tree.nodes[node]? with
  | none =>
      have hmissing : c.tree.node node = .error .noSuchNode := by
        rw [BudgetTree.node, hnode]
      rw [hmissing]
      exact steps_error h _
  | some n =>
      rw [node_eq hnode]
      dsimp only
      cases hfind : c.find id with
      | some r => exact steps_error h _
      | none =>
          refine steps_ok ⟨h.valid, ?_, ?_, ?_⟩ ?_
          · intro r hr
            rcases List.mem_append.mp hr with hr | hr
            · exact h.located r hr
            · rw [List.mem_singleton.mp hr]
              exact (List.getElem?_eq_some_iff.mp hnode).1
          · intro i
            change committedAt c.tree i = tally _ _ i (c.resources ++ _)
            rw [tally_append, h.ledgers i]
            simp [ledger, tally]
          · change ((c.resources ++ [_]).map RegisteredResource.resourceId).Nodup
            rw [List.map_append, List.nodup_append]
            refine ⟨h.unique, List.nodup_singleton _, ?_⟩
            rintro _ ha _ hb rfl
            have hid := List.mem_singleton.mp hb
            dsimp only at hid
            exact find_eq_none hfind (hid ▸ ha)
          · intro other hother
            have hne : id ≠ other := fun heq => hother (congrArg some heq)
            unfold owned ElasticCoordinator.find
            change (List.find? _ (c.resources ++ _)).map _ = _
            rw [List.find?_append]
            simp [hne]

/-- What a resource owns is found where it was, unless it is the one that changed. -/
theorem owned_setCommitted {index next : ℕ} {r : RegisteredResource} {t' : BudgetTree}
    (hr : c.resources[index]? = some r) {id : String} (hne : r.resourceId ≠ id) :
    owned ⟨t', c.setCommitted index next⟩ id = owned c id := by
  have hfalse : decide (r.resourceId = id) = false := decide_eq_false hne
  unfold owned ElasticCoordinator.find
  change (List.find? _ (c.setCommitted index next)).map _ = _
  unfold ElasticCoordinator.setCommitted
  rw [find?_modify hr hfalse hfalse]

theorem commit_steps (h : Consistent c) (id : String) (bytes : ℕ) :
    Steps c (some id) (c.commit id bytes) := by
  unfold ElasticCoordinator.commit
  cases hindex : c.findIndex id with
  | error e => exact steps_error h e
  | ok e =>
      obtain ⟨index, r⟩ := e
      obtain ⟨hr, hid, -⟩ := findIndex_eq_ok hindex
      have hn := List.getElem?_eq_getElem (h.located r (List.mem_of_getElem? hr))
      dsimp only
      cases hnext : checkedAdd r.committed bytes with
      | none => exact steps_error h _
      | some next =>
          rcases tryCommit_cases h.valid hn bytes with ⟨e, hcommit⟩ | ⟨t', hcommit, ht⟩
          · dsimp only
            rw [hcommit]
            exact steps_error h _
          · have hsum : next = r.committed + bytes := by
              unfold checkedAdd at hnext
              split_ifs at hnext
              exact (Option.some.inj hnext).symm
            have hle : r.committed ≤ committedAt c.tree r.node := by
              rw [h.ledgers]
              exact le_tally RegisteredResource.node _ (List.mem_of_getElem? hr)
            have hamount : committedAt c.tree r.node + bytes =
                committedAt c.tree r.node - r.committed + next := by omega
            rw [hamount] at ht
            dsimp only
            rw [hcommit]
            refine steps_ok (h.recommit hr ht) fun other hother => owned_setCommitted hr ?_
            exact fun heq => hother (congrArg some (hid.symm.trans heq))

/-- A release succeeds up to what the resource owns. -/
theorem release_cases_owned (h : Consistent c) (id : String) (bytes : ℕ) :
    Steps c (some id) (c.release id bytes) ∧
      ((c.release id bytes).1 = .ok () ↔ ∃ own, owned c id = some own ∧ bytes ≤ own) := by
  unfold ElasticCoordinator.release
  cases hindex : c.findIndex id with
  | error e =>
      refine ⟨steps_error h e, fun heq => (by cases heq), ?_⟩
      rintro ⟨own, hown, -⟩
      obtain ⟨r, hr, -⟩ := Option.map_eq_some_iff.mp hown
      obtain ⟨i, hi⟩ := findIndex_of_find hr
      rw [hindex] at hi
      cases hi
  | ok e =>
      obtain ⟨index, r⟩ := e
      obtain ⟨hr, hid, hfind⟩ := findIndex_eq_ok hindex
      have hown : owned c id = some r.committed := congrArg _ hfind
      have hn := List.getElem?_eq_getElem (h.located r (List.mem_of_getElem? hr))
      dsimp only
      by_cases hmuch : r.committed < bytes
      · rw [if_pos hmuch]
        refine ⟨steps_error h _, fun heq => (by cases heq), ?_⟩
        rintro ⟨own, hown', hle⟩
        rw [hown] at hown'
        cases hown'
        exact absurd hle (Nat.not_le.mpr hmuch)
      · rw [if_neg hmuch]
        obtain ⟨t', hrelease, ht⟩ := release_cases h.valid hn bytes
        have hle : r.committed ≤ committedAt c.tree r.node := by
          rw [h.ledgers]
          exact le_tally RegisteredResource.node _ (List.mem_of_getElem? hr)
        have hamount : committedAt c.tree r.node - bytes =
            committedAt c.tree r.node - r.committed + (r.committed - bytes) := by omega
        rw [hamount] at ht
        rw [hrelease]
        refine ⟨steps_ok (h.recommit hr ht) fun other hother => owned_setCommitted hr ?_, ?_⟩
        · exact fun heq => hother (congrArg some (hid.symm.trans heq))
        · exact ⟨fun _ => ⟨r.committed, hown, Nat.not_lt.mp hmuch⟩, fun _ => rfl⟩

end Step

theorem exec_steps {c : ElasticCoordinator} (h : Consistent c) (op : Op) :
    Steps c op.resource (exec c op) := by
  cases op with
  | addRoot priority hard soft reservation => exact extend_addRoot h priority hard soft reservation
  | addChild parent priority hard soft reservation =>
      exact extend_addChild h parent priority hard soft reservation
  | register id node priority => exact register_steps h id node priority
  | commit id bytes => exact commit_steps h id bytes.toNat
  | release id bytes => exact (release_cases_owned h id bytes.toNat).1

theorem consistent_new : Consistent ElasticCoordinator.new := by
  constructor
  · exact Valid.new
  · exact fun r hr => by cases hr
  · exact fun i => rfl
  · exact List.nodup_nil

theorem run_consistent {c : ElasticCoordinator} (h : Consistent c) (ops : List Op) :
    Consistent (run c ops) := by
  induction ops generalizing c with
  | nil => exact h
  | cons op ops ih => exact ih (exec_steps h op).consistent

/-- In every state that calls reach: each node has committed directly what its resources own
together, ids are unique, and a further call leaves the other resources alone, releases
exactly up to what the resource owns, and changes nothing when it fails. -/
theorem coordinator_contract (ops : List Op) :
    (∀ (i : ℕ) (n : BudgetNode), (run .new ops).tree.nodes[i]? = some n →
      n.committed = ledger (run .new ops) i) ∧
    ((run .new ops).resources.map RegisteredResource.resourceId).Nodup ∧
    (∀ op id, op.resource ≠ some id →
      owned (exec (run .new ops) op).2 id = owned (run .new ops) id) ∧
    (∀ (id : String) (bytes : UInt64), (exec (run .new ops) (.release id bytes)).1 = .ok () ↔
      ∃ own, owned (run .new ops) id = some own ∧ bytes.toNat ≤ own) ∧
    ∀ op e, (exec (run .new ops) op).1 = .error e →
      (exec (run .new ops) op).2 = run .new ops := by
  have h : Consistent (run .new ops) := run_consistent consistent_new ops
  refine ⟨?_, h.unique, fun op => (exec_steps h op).others, ?_,
    fun op => (exec_steps h op).unchanged⟩
  · intro i n hn
    rw [← h.ledgers i]
    unfold committedAt
    rw [hn]
    rfl
  · exact fun id bytes => (release_cases_owned h id bytes.toNat).2

end SlhaV2.Coordinator
