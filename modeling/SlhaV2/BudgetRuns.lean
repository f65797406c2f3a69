import SlhaV2.ByteBudget
import SlhaV2.ParentForest

/-!
# Budgets over whole runs

In every forest the operations build, parents come before their children, so
walks end before they run out of hops and the scan adds up exactly the subtree.
No subtree ever passes its hard limit: a commit is checked against the node and
all its ancestors, and nothing else adds commitments.
-/
namespace SlhaV2.BudgetRuns
open MachineWord ByteBudget BudgetTree ParentForest

def parentOf (t : BudgetTree) (i : ℕ) : Option ℕ := t.nodes[i]?.bind BudgetNode.parent

/-- Direct commitment of a node, and nothing where there is no node. -/
def committedAt (t : BudgetTree) (i : ℕ) : ℕ := (t.nodes[i]?.map BudgetNode.committed).getD 0

/-- The sum of the direct commitments in the subtree of a node. -/
noncomputable def subtree (t : BudgetTree) (a : ℕ) : ℕ :=
  weight (parentOf t) t.nodes.length (committedAt t) a

structure Valid (t : BudgetTree) : Prop where
  ordered : Ordered (parentOf t)
  limit : ∀ (i : ℕ) (n : BudgetNode), t.nodes[i]? = some n → n.hardLimit ≤ maxWord
  bound : ∀ (i : ℕ) (n : BudgetNode), t.nodes[i]? = some n → subtree t i ≤ n.hardLimit

section Climbs
variable {t : BudgetTree} {i a p hops : ℕ}

theorem climbs_root (h : parentOf t i = none) : t.climbs a (hops + 1) i = false := by
  unfold parentOf at h
  simp only [climbs, h]

theorem climbs_child (h : parentOf t i = some p) :
    t.climbs a (hops + 1) i = if p = a then true else t.climbs a hops p := by
  unfold parentOf at h
  simp only [climbs, h]

theorem not_descends_root (h : parentOf t i = none) : ¬ Descends (parentOf t) i a := by
  rw [descends_iff]
  rintro ⟨p, hp, -⟩
  rw [h] at hp
  cases hp

theorem climbs_iff (h : Ordered (parentOf t)) (hi : i < hops) :
    t.climbs a hops i = true ↔ Descends (parentOf t) i a := by
  induction hops generalizing i with
  | zero => exact absurd hi (Nat.not_lt_zero i)
  | succ hops ih =>
      cases hp : parentOf t i with
      | none => simp [climbs_root hp, not_descends_root hp]
      | some p =>
          have hlt := h i p hp
          have hrest := ih (by omega : p < hops)
          rw [climbs_child hp, descends_iff, hp]
          by_cases hpa : p = a
          · simp [hpa]
          · simp [hpa, hrest]

end Climbs

theorem isDescendant_iff {t : BudgetTree} (h : Ordered (parentOf t)) (i a : ℕ) :
    t.isDescendant i a = true ↔ Descends (parentOf t) i a := by
  rcases lt_or_ge i (t.nodes.length + 1) with hi | hi
  · exact climbs_iff h hi
  · have hnone : parentOf t i = none := by
      rw [parentOf, List.getElem?_eq_none (by omega), Option.bind_none]
    simp [isDescendant, climbs_root hnone, not_descends_root hnone]

theorem sum_zipIdx {α : Type} (l : List α) (f : α → ℕ → ℕ) :
    (l.zipIdx.map fun e => f e.1 e.2).sum =
      ∑ j ∈ Finset.range l.length, (l[j]?.map fun x => f x j).getD 0 := by
  induction l using List.reverseRecOn with
  | nil => rfl
  | append_singleton l x ih =>
      have hold : ∀ j ∈ Finset.range l.length,
          ((l ++ [x])[j]?.map fun x => f x j).getD 0 = (l[j]?.map fun x => f x j).getD 0 := by
        intro j hj
        rw [List.getElem?_append_left (Finset.mem_range.mp hj)]
      rw [List.zipIdx_append, List.map_append, List.sum_append, ih, List.length_append,
        List.length_singleton, Finset.sum_range_succ, Finset.sum_congr rfl hold]
      simp

/-- A saturating scan adds exactly when the whole sum fits a word. -/
theorem foldl_satAdd {α : Type} (l : List α) (p : α → Prop) [DecidablePred p] (f : α → ℕ) {k : ℕ}
    (h : k + (l.map fun x => if p x then f x else 0).sum ≤ maxWord) :
    l.foldl (fun total x => if p x then satAdd total (f x) else total) k =
      k + (l.map fun x => if p x then f x else 0).sum := by
  induction l generalizing k with
  | nil => simp
  | cons x l ih =>
      rw [List.map_cons, List.sum_cons] at h ⊢
      rw [List.foldl_cons]
      by_cases hx : p x
      · simp only [hx, if_true] at h ⊢
        rw [satAdd_eq (by omega), ih (by omega)]
        omega
      · simp only [hx, if_false, Nat.zero_add] at h ⊢
        exact ih h

theorem subtree_eq {t : BudgetTree} (h : Ordered (parentOf t)) (a : ℕ) :
    subtree t a = (t.nodes.zipIdx.map fun e =>
      if e.2 = a ∨ t.isDescendant e.2 a = true then e.1.committed else 0).sum := by
  classical
  rw [sum_zipIdx t.nodes fun n j =>
    if j = a ∨ t.isDescendant j a = true then n.committed else 0]
  unfold subtree weight
  rw [Finset.sum_filter]
  refine Finset.sum_congr rfl fun j hj => ?_
  rw [List.getElem?_eq_getElem (Finset.mem_range.mp hj)]
  simp only [committedAt, List.getElem?_eq_getElem (Finset.mem_range.mp hj), Option.map_some,
    Option.getD_some]
  exact if_congr (or_congr_right (isDescendant_iff h j a).symm) rfl rfl

namespace Valid
variable {t : BudgetTree} {i : ℕ} {n : BudgetNode}

theorem subtree_le (h : Valid t) (hi : t.nodes[i]? = some n) : subtree t i ≤ maxWord :=
  (h.bound i n hi).trans (h.limit i n hi)

/-- The scan over all nodes finds the sum of the subtree. -/
theorem committedWithDescendants (h : Valid t) (hi : t.nodes[i]? = some n) :
    t.committedWithDescendants i = .ok (subtree t i) := by
  have hle := h.subtree_le hi
  rw [subtree_eq h.ordered] at hle ⊢
  have hlen : ¬ t.nodes.length ≤ i := not_le.mpr (List.getElem?_eq_some_iff.mp hi).1
  have hscan := foldl_satAdd t.nodes.zipIdx
    (fun e => e.2 = i ∨ t.isDescendant e.2 i = true) (fun e => e.1.committed)
    (k := 0) (by rwa [Nat.zero_add])
  rw [Nat.zero_add] at hscan
  unfold BudgetTree.committedWithDescendants
  rw [if_neg hlen, ← hscan]

theorem exists_parent (h : Valid t) {p : ℕ} (hp : parentOf t i = some p) :
    ∃ n, t.nodes[p]? = some n := by
  have hi : i < t.nodes.length := by
    by_contra hge
    rw [parentOf, List.getElem?_eq_none (not_lt.mp hge), Option.bind_none] at hp
    cases hp
  exact ⟨_, List.getElem?_eq_getElem ((h.ordered i p hp).trans hi)⟩

end Valid

theorem foldlM_ok {α β ε : Type} {step : β → α → Except ε β} {l : List α}
    (h : ∀ b, ∀ x ∈ l, ∃ c, step b x = .ok c) (b : β) : ∃ c, l.foldlM step b = .ok c := by
  induction l generalizing b with
  | nil => exact ⟨b, rfl⟩
  | cons x l ih =>
      obtain ⟨c, hc⟩ := h b x List.mem_cons_self
      rw [List.foldlM_cons, hc]
      exact ih (fun b y hy => h b y (List.mem_cons_of_mem x hy)) c

theorem node_eq {t : BudgetTree} {i : ℕ} {n : BudgetNode} (hi : t.nodes[i]? = some n) :
    t.node i = .ok n := by
  rw [node, hi]

/-- Looking at the siblings finds no missing node. -/
theorem Valid.protectedBytes {t : BudgetTree} (h : Valid t) (parent pathChild : ℕ) :
    ∃ total, t.protectedBytes parent pathChild = .ok total := by
  refine foldlM_ok (fun total e he => ?_) 0
  have hlt := List.snd_lt_of_mem_zipIdx he
  rw [Nat.add_zero] at hlt
  dsimp only
  split_ifs
  · rw [h.committedWithDescendants (List.getElem?_eq_getElem hlt)]
    exact ⟨_, rfl⟩
  · exact ⟨_, rfl⟩

/-- Room for so many bytes more at a node and at all its ancestors. -/
def Fits (t : BudgetTree) (bytes i : ℕ) : Prop :=
  ∀ a (n : BudgetNode), (i = a ∨ Descends (parentOf t) i a) → t.nodes[a]? = some n →
    subtree t a + bytes ≤ n.hardLimit

theorem fits_of_parent {t : BudgetTree} {bytes i : ℕ} {n : BudgetNode} (hi : t.nodes[i]? = some n)
    (hroom : subtree t i + bytes ≤ n.hardLimit)
    (hup : ∀ p, parentOf t i = some p → Fits t bytes p) : Fits t bytes i := by
  rintro a m (rfl | hdesc) ha
  · obtain rfl : n = m := Option.some.inj (hi.symm.trans ha)
    exact hroom
  · obtain ⟨p, hp, hpa⟩ := descends_iff.mp hdesc
    exact hup p hp a m hpa ha

/-- With hops for the whole path, the checks pass only if every ancestor has room, and
they never run out. -/
theorem Valid.checkAncestors {t : BudgetTree} (h : Valid t) {bytes hops pathChild : ℕ}
    (hhops : ∀ p, parentOf t pathChild = some p → p < hops) :
    (∃ e, t.checkAncestors bytes hops pathChild (parentOf t pathChild) = .error e ∧ e ≠ .cycle) ∨
      (t.checkAncestors bytes hops pathChild (parentOf t pathChild) = .ok () ∧
        ∀ p, parentOf t pathChild = some p → Fits t bytes p) := by
  induction hops generalizing pathChild with
  | zero =>
      cases hp : parentOf t pathChild with
      | none => exact Or.inr ⟨rfl, fun p hp => by cases hp⟩
      | some p => exact absurd (hhops p hp) (Nat.not_lt_zero p)
  | succ hops ih =>
      cases hp : parentOf t pathChild with
      | none => exact Or.inr ⟨rfl, fun p hp => by cases hp⟩
      | some p =>
          obtain ⟨n, hn⟩ := h.exists_parent hp
          obtain ⟨total, htotal⟩ := h.protectedBytes p pathChild
          have hbound := h.bound p n hn
          have hparent : n.parent = parentOf t p := by rw [parentOf, hn, Option.bind_some]
          have hrest := @ih p fun q hq =>
            (h.ordered p q hq).trans_le (Nat.le_of_lt_succ (hhops p hp))
          unfold BudgetTree.checkAncestors
          simp only [node_eq hn, h.committedWithDescendants hn, htotal, hparent, bind, Except.bind]
          split_ifs with hfull hkept
          · exact Or.inl ⟨_, rfl, by decide⟩
          · exact Or.inl ⟨_, rfl, by decide⟩
          · rcases hrest with herr | ⟨hok, hup⟩
            · exact Or.inl herr
            · refine Or.inr ⟨hok, fun q hq => ?_⟩
              obtain rfl : p = q := Option.some.inj hq
              exact fits_of_parent hn (by omega) hup

/-- A commit is admitted only where it fits, and refusing it never means a cycle. -/
theorem Valid.checkCommit {t : BudgetTree} (h : Valid t) {i bytes : ℕ} {n : BudgetNode}
    (hi : t.nodes[i]? = some n) :
    (∃ e, t.checkCommit i bytes = .error e ∧ e ≠ .cycle) ∨
      (t.checkCommit i bytes = .ok () ∧ Fits t bytes i) := by
  have hparent : n.parent = parentOf t i := by rw [parentOf, hi, Option.bind_some]
  have hbound := h.bound i n hi
  have hlen := (List.getElem?_eq_some_iff.mp hi).1
  have hup := @Valid.checkAncestors t h bytes t.nodes.length i
    fun p hp => (h.ordered i p hp).trans hlen
  unfold BudgetTree.checkCommit
  simp only [node_eq hi, h.committedWithDescendants hi, hparent, bind, Except.bind]
  split_ifs with hfull
  · exact Or.inl ⟨_, rfl, by decide⟩
  · rcases hup with herr | ⟨hok, hup⟩
    · exact Or.inl herr
    · exact Or.inr ⟨hok, fits_of_parent hi (by omega) hup⟩

theorem Valid.new : Valid BudgetTree.new := by
  constructor
  · intro i p hp
    simp [parentOf, BudgetTree.new] at hp
  · intro i n hn
    simp [BudgetTree.new] at hn
  · intro i n hn
    simp [BudgetTree.new] at hn

/-- A new node has no commitments, and its parent is older. -/
theorem Valid.added {t : BudgetTree} (h : Valid t) {n : BudgetNode}
    (hlimit : n.hardLimit ≤ maxWord) (hzero : n.committed = 0)
    (hparent : ∀ p, n.parent = some p → p < t.nodes.length) : Valid ⟨t.nodes ++ [n]⟩ := by
  have hold : ∀ i < t.nodes.length, (t.nodes ++ [n])[i]? = t.nodes[i]? := fun i hi =>
    List.getElem?_append_left hi
  have hnew : (t.nodes ++ [n])[t.nodes.length]? = some n := List.getElem?_concat_length
  have hsame : ∀ i < t.nodes.length, parentOf ⟨t.nodes ++ [n]⟩ i = parentOf t i := fun i hi => by
    simp only [parentOf, hold i hi]
  have hcases : ∀ (i : ℕ) (m : BudgetNode), (t.nodes ++ [n])[i]? = some m →
      (i < t.nodes.length ∧ t.nodes[i]? = some m) ∨ (i = t.nodes.length ∧ m = n) := by
    intro i m hm
    have hlt := (List.getElem?_eq_some_iff.mp hm).1
    rw [List.length_append, List.length_singleton] at hlt
    rcases Nat.lt_succ_iff_lt_or_eq.mp hlt with hi | rfl
    · exact Or.inl ⟨hi, (hold i hi).symm.trans hm⟩
    · exact Or.inr ⟨rfl, (Option.some.inj (hnew.symm.trans hm)).symm⟩
  have hordered : Ordered (parentOf ⟨t.nodes ++ [n]⟩) := by
    intro i p hp
    rcases hm : (t.nodes ++ [n])[i]? with _ | m
    · simp [parentOf, hm] at hp
    · rcases hcases i m hm with ⟨hi, -⟩ | ⟨rfl, rfl⟩
      · exact h.ordered i p ((hsame i hi).symm.trans hp)
      · rw [parentOf, hnew, Option.bind_some] at hp
        exact hparent p hp
  have hsubtree : ∀ i, subtree ⟨t.nodes ++ [n]⟩ i =
      if i < t.nodes.length then subtree t i else 0 := by
    intro i
    have hlast : committedAt ⟨t.nodes ++ [n]⟩ t.nodes.length = 0 := by
      rw [committedAt, hnew, Option.map_some, Option.getD_some, hzero]
    have hweight : ∀ j < t.nodes.length,
        committedAt ⟨t.nodes ++ [n]⟩ j = committedAt t j := fun j hj => by
      simp only [committedAt, hold j hj]
    unfold subtree
    rw [List.length_append, List.length_singleton]
    exact weight_succ h.ordered hordered hsame hweight hlast
  refine ⟨hordered, fun i m hm => ?_, fun i m hm => ?_⟩
  · rcases hcases i m hm with ⟨-, hi⟩ | ⟨-, rfl⟩
    · exact h.limit i m hi
    · exact hlimit
  · rw [hsubtree]
    rcases hcases i m hm with ⟨hlt, hi⟩ | ⟨rfl, rfl⟩
    · rw [if_pos hlt]
      exact h.bound i m hi
    · rw [if_neg (lt_irrefl _)]
      exact Nat.zero_le _

section MapCommitted
variable {t : BudgetTree} {i : ℕ} {f : ℕ → ℕ}

theorem getElem?_mapCommitted (j : ℕ) : (t.mapCommitted i f).nodes[j]? =
    t.nodes[j]?.map fun n => if i = j then { n with committed := f n.committed } else n := by
  rw [mapCommitted, List.getElem?_modify]
  rfl

theorem parentOf_mapCommitted : parentOf (t.mapCommitted i f) = parentOf t := by
  funext j
  rw [parentOf, parentOf, getElem?_mapCommitted]
  cases t.nodes[j]? with
  | none => rfl
  | some n => by_cases hij : i = j <;> simp [hij]

theorem subtree_mapCommitted (a : ℕ) : subtree (t.mapCommitted i f) a =
    weight (parentOf t) t.nodes.length (committedAt (t.mapCommitted i f)) a := by
  rw [subtree, parentOf_mapCommitted, mapCommitted, List.length_modify]

theorem committedAt_mapCommitted {n : BudgetNode} (hi : t.nodes[i]? = some n) :
    committedAt (t.mapCommitted i f) i = f (committedAt t i) ∧
      ∀ j, j ≠ i → committedAt (t.mapCommitted i f) j = committedAt t j := by
  refine ⟨?_, fun j hj => ?_⟩
  · simp [committedAt, getElem?_mapCommitted, hi]
  · simp [committedAt, getElem?_mapCommitted, Ne.symm hj]

/-- Commitments may change in any way that keeps the subtrees in their limits. -/
theorem Valid.mapCommitted (h : Valid t)
    (hbound : ∀ a (m : BudgetNode), t.nodes[a]? = some m →
      subtree (t.mapCommitted i f) a ≤ m.hardLimit) : Valid (t.mapCommitted i f) := by
  have hnode : ∀ (a : ℕ) (m : BudgetNode), (t.mapCommitted i f).nodes[a]? = some m →
      ∃ n : BudgetNode, t.nodes[a]? = some n ∧ m.hardLimit = n.hardLimit := by
    intro a m hm
    rw [getElem?_mapCommitted] at hm
    obtain ⟨n, hn, rfl⟩ := Option.map_eq_some_iff.mp hm
    exact ⟨n, hn, by split_ifs <;> rfl⟩
  refine ⟨?_, fun a m hm => ?_, fun a m hm => ?_⟩
  · rw [parentOf_mapCommitted]
    exact h.ordered
  · obtain ⟨n, hn, heq⟩ := hnode a m hm
    exact heq ▸ h.limit a n hn
  · obtain ⟨n, hn, heq⟩ := hnode a m hm
    exact heq ▸ hbound a n hn

end MapCommitted

theorem Valid.commit {t : BudgetTree} (h : Valid t) {i bytes : ℕ} {n : BudgetNode}
    (hi : t.nodes[i]? = some n) (hfits : Fits t bytes i) :
    Valid (t.mapCommitted i fun committed => satAdd committed bytes) := by
  have hlen := (List.getElem?_eq_some_iff.mp hi).1
  obtain ⟨hself, hother⟩ := committedAt_mapCommitted (f := fun c => satAdd c bytes) hi
  have hword : committedAt t i + bytes ≤ maxWord := by
    have hle : committedAt t i ≤ subtree t i := le_weight _ hlen
    have hroom := hfits i n (Or.inl rfl) hi
    have hlimit := h.limit i n hi
    omega
  rw [satAdd_eq hword] at hself
  classical
  refine h.mapCommitted fun a m ha => ?_
  rw [subtree_mapCommitted, weight_add hlen hself hother]
  split_ifs with hup
  · exact hfits a m hup ha
  · exact h.bound a m ha

theorem Valid.release {t : BudgetTree} (h : Valid t) {i bytes : ℕ} {n : BudgetNode}
    (hi : t.nodes[i]? = some n) :
    Valid (t.mapCommitted i fun committed => committed - bytes) := by
  obtain ⟨hself, hother⟩ := committedAt_mapCommitted (f := fun c => c - bytes) hi
  refine h.mapCommitted fun a m ha => ?_
  rw [subtree_mapCommitted]
  refine (weight_le_weight fun j => ?_).trans (h.bound a m ha)
  by_cases hj : j = i
  · rw [hj, hself]
    exact Nat.sub_le _ _
  · exact (hother j hj).le

inductive Op where
  | addRoot (priority : UInt8) (hardLimit softTarget reservation : UInt64)
  | addChild (parent : ℕ) (priority : UInt8) (hardLimit softTarget reservation : UInt64)
  | tryCommit (index : ℕ) (bytes : UInt64)
  | release (index : ℕ) (bytes : UInt64)
deriving DecidableEq, Repr

/-- One call: whether it fails, and the forest afterwards. -/
def exec (t : BudgetTree) : Op → Except BudgetError Unit × BudgetTree
  | .addRoot priority hard soft reservation =>
      (.ok (), (t.addRoot priority hard.toNat soft.toNat reservation.toNat).2)
  | .addChild parent priority hard soft reservation =>
      let (result, after) := t.addChild parent priority hard.toNat soft.toNat reservation.toNat
      (result.map fun _ => (), after)
  | .tryCommit index bytes => t.tryCommit index bytes.toNat
  | .release index bytes => t.release index bytes.toNat

/-- What a call does to a forest: it keeps the invariant, it never finds a cycle, and
failing it changes nothing. -/
structure Steps (t : BudgetTree) (r : Except BudgetError Unit × BudgetTree) : Prop where
  valid : Valid r.2
  no_cycle : r.1 ≠ .error .cycle
  unchanged : ∀ e, r.1 = .error e → r.2 = t

theorem steps_ok {t after : BudgetTree} (h : Valid after) : Steps t (.ok (), after) :=
  ⟨h, fun heq => (by cases heq), fun e heq => (by cases heq)⟩

theorem steps_error {t : BudgetTree} (h : Valid t) {e : BudgetError} (hne : e ≠ .cycle) :
    Steps t (.error e, t) :=
  ⟨h, fun heq => hne (Except.error.inj heq), fun _ _ => rfl⟩

theorem exec_steps {t : BudgetTree} (h : Valid t) (op : Op) : Steps t (exec t op) := by
  have hword : ∀ x : UInt64, x.toNat ≤ maxWord := fun x => Nat.le_pred_of_lt x.toNat_lt
  cases op with
  | addRoot priority hard soft reservation =>
      exact steps_ok (h.added (hword hard) rfl fun p hp => by cases hp)
  | addChild parent priority hard soft reservation =>
      simp only [exec, addChild]
      split_ifs with hmissing
      · exact steps_error h (by decide)
      · refine steps_ok (h.added (hword hard) rfl fun p hp => ?_)
        obtain rfl : parent = p := Option.some.inj hp
        exact not_le.mp hmissing
  | tryCommit index bytes =>
      simp only [exec, tryCommit]
      split_ifs with hmissing hzero
      · exact steps_error h (by decide)
      · exact steps_ok h
      · have hn := List.getElem?_eq_getElem (not_le.mp hmissing)
        rcases @Valid.checkCommit t h index bytes.toNat _ hn with ⟨e, heq, hne⟩ | ⟨heq, hfits⟩
        · rw [heq]
          exact steps_error h hne
        · rw [heq]
          exact steps_ok (h.commit hn hfits)
  | release index bytes =>
      simp only [exec, BudgetTree.release]
      cases hn : t.nodes[index]? with
      | none =>
          have hnode : t.node index = .error .noSuchNode := by rw [BudgetTree.node, hn]
          rw [hnode]
          exact steps_error h (by decide)
      | some n =>
          rw [node_eq hn]
          exact steps_ok (h.release hn)

def run (t : BudgetTree) (ops : List Op) : BudgetTree := ops.foldl (fun t op => (exec t op).2) t

theorem run_valid {t : BudgetTree} (h : Valid t) (ops : List Op) : Valid (run t ops) := by
  induction ops generalizing t with
  | nil => exact h
  | cons op ops ih => exact ih (exec_steps h op).valid

/-- In every forest that calls build, each node's total is the sum of its subtree and within
its limit, the walk decides descent, and further calls fail without effect and never for a
cycle. -/
theorem forest_contract (ops : List Op) :
    let t := run BudgetTree.new ops
    (∀ (i : ℕ) (n : BudgetNode), t.nodes[i]? = some n →
      t.committedWithDescendants i = .ok (subtree t i) ∧ subtree t i ≤ n.hardLimit) ∧
    (∀ i a, t.isDescendant i a = true ↔ Descends (parentOf t) i a) ∧
    ∀ op, (exec t op).1 ≠ .error .cycle ∧
      ∀ e, (exec t op).1 = .error e → (exec t op).2 = t := by
  intro t
  have h : Valid t := run_valid Valid.new ops
  refine ⟨fun i n hn => ⟨h.committedWithDescendants hn, h.bound i n hn⟩, isDescendant_iff h.ordered,
    fun op => ⟨(exec_steps h op).no_cycle, (exec_steps h op).unchanged⟩⟩

end SlhaV2.BudgetRuns
