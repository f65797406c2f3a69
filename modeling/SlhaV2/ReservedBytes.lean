import SlhaV2.BudgetRuns

/-!
# Reserved bytes

A node keeps its reservations when it has room for all that its children may
still claim of theirs. A commit below the node leaves this so: the check at the
node charges every child but the one on the path, and that child claims from its
own. A commit to the node itself is checked against its limit only.
-/
namespace SlhaV2.ReservedBytes
open MachineWord ByteBudget BudgetTree ParentForest BudgetRuns

/-- The total the forest reports for a node. -/
def usedOf (t : BudgetTree) (i : ℕ) : ℕ := (t.committedWithDescendants i).toOption.getD 0

/-- What the children of a node have reserved and not used, added exactly. -/
def unusedReservations (t : BudgetTree) (p : ℕ) : ℕ :=
  (t.nodes.zipIdx.map fun e =>
    if e.1.parent = some p then e.1.reservation - usedOf t e.2 else 0).sum

/-- The node has room for the unused reservations of its children. -/
def Protected (t : BudgetTree) (p : ℕ) : Prop :=
  ∃ n, t.nodes[p]? = some n ∧ usedOf t p + unusedReservations t p ≤ n.hardLimit

/-- What one child has reserved and not used. -/
noncomputable def spare (t : BudgetTree) (p j : ℕ) : ℕ :=
  if parentOf t j = some p then (t.nodes[j]?.map BudgetNode.reservation).getD 0 - subtree t j
  else 0

section Sums
variable {t : BudgetTree} {i p : ℕ} {n : BudgetNode}

theorem usedOf_eq (h : Valid t) (hi : t.nodes[i]? = some n) : usedOf t i = subtree t i := by
  rw [usedOf, h.committedWithDescendants hi]
  rfl

theorem spare_eq (h : Valid t) (hi : t.nodes[i]? = some n) :
    spare t p i = if n.parent = some p then n.reservation - usedOf t i else 0 := by
  rw [spare, usedOf_eq h hi, parentOf, hi]
  rfl

theorem unusedReservations_eq (h : Valid t) :
    unusedReservations t p = ∑ j ∈ Finset.range t.nodes.length, spare t p j := by
  unfold unusedReservations
  rw [sum_zipIdx t.nodes fun n j => if n.parent = some p then n.reservation - usedOf t j else 0]
  refine Finset.sum_congr rfl fun j hj => ?_
  have hn := List.getElem?_eq_getElem (Finset.mem_range.mp hj)
  rw [spare_eq h hn, hn]
  rfl

theorem protected_iff (h : Valid t) (hp : t.nodes[p]? = some n) : Protected t p ↔
    subtree t p + ∑ j ∈ Finset.range t.nodes.length, spare t p j ≤ n.hardLimit := by
  rw [← usedOf_eq h hp, ← unusedReservations_eq h]
  constructor
  · rintro ⟨m, hm, hle⟩
    obtain rfl : n = m := Option.some.inj (hp.symm.trans hm)
    exact hle
  · exact fun hle => ⟨n, hp, hle⟩

end Sums

/-- A saturating scan that may fail stops at the word or adds everything. -/
theorem foldlM_satAdd {α ε : Type} {l : List α} {step : ℕ → α → Except ε ℕ} {f : α → ℕ} {k : ℕ}
    (h : ∀ total ≤ maxWord, ∀ x ∈ l, step total x = .ok (satAdd total (f x)))
    (hk : k ≤ maxWord) : l.foldlM step k = .ok (min (k + (l.map f).sum) maxWord) := by
  induction l generalizing k with
  | nil =>
      rw [List.map_nil, List.sum_nil, Nat.add_zero, min_eq_left hk]
      rfl
  | cons x l ih =>
      rw [List.foldlM_cons, h k hk x List.mem_cons_self]
      have hrest := ih (k := satAdd k (f x))
        (fun total ht y hy => h total ht y (List.mem_cons_of_mem x hy)) (min_le_right _ _)
      refine hrest.trans (congrArg Except.ok ?_)
      unfold satAdd
      rw [List.map_cons, List.sum_cons]
      omega

/-- What the children but one have reserved and not used. -/
noncomputable def others (t : BudgetTree) (p c : ℕ) : ℕ :=
  ∑ j ∈ (Finset.range t.nodes.length).erase c, spare t p j

theorem protectedBytes_eq {t : BudgetTree} (h : Valid t) (p c : ℕ) :
    t.protectedBytes p c = .ok (min (others t p c) maxWord) := by
  have hstep : ∀ total ≤ maxWord, ∀ e ∈ t.nodes.zipIdx,
      (if e.1.parent = some p ∧ e.2 ≠ c then do
        let used ← t.committedWithDescendants e.2
        return satAdd total (e.1.reservation - used)
      else return total : Except BudgetError ℕ) =
      .ok (satAdd total (if e.2 ≠ c then spare t p e.2 else 0)) := by
    intro total ht e he
    have hn : t.nodes[e.2]? = some e.1 := List.mem_zipIdx_iff_getElem?.mp he
    rw [spare_eq h hn, usedOf_eq h hn, h.committedWithDescendants hn]
    by_cases hpar : e.1.parent = some p <;> by_cases hc : e.2 = c
    all_goals simp only [hpar, hc, ne_eq, not_true_eq_false, not_false_eq_true, and_self,
      and_false, false_and, if_true, if_false, satAdd_eq (Nat.add_zero total ▸ ht), Nat.add_zero]
    all_goals rfl
  unfold BudgetTree.protectedBytes
  rw [foldlM_satAdd hstep (Nat.zero_le _), Nat.zero_add,
    sum_zipIdx t.nodes fun _ j => if j ≠ c then spare t p j else 0]
  unfold others
  rw [← Finset.filter_ne', Finset.sum_filter]
  congr 2
  refine Finset.sum_congr rfl fun j hj => ?_
  rw [List.getElem?_eq_getElem (Finset.mem_range.mp hj)]
  rfl

/-- A parent has room for so many bytes more beside its other children. -/
def Kept (t : BudgetTree) (bytes c p : ℕ) : Prop :=
  ∀ n, t.nodes[p]? = some n → subtree t p + bytes + others t p c ≤ n.hardLimit

section Path
variable {t : BudgetTree} {bytes hops i c d p : ℕ} {n : BudgetNode}

theorem not_on_path (hc : parentOf t c = none) (hpath : c = d ∨ Descends (parentOf t) c d) :
    parentOf t d = none := by
  rcases hpath with rfl | hdesc
  · exact hc
  · exact absurd hdesc (not_descends_root hc)

/-- What the checks at one ancestor establish. -/
theorem kept_of_check (h : Valid t) (hb : 0 < bytes) (hn : t.nodes[p]? = some n)
    (hroom : ¬ n.hardLimit - subtree t p < bytes)
    (hkept : ¬ n.hardLimit - satAdd (subtree t p) bytes < min (others t p c) maxWord) :
    Kept t bytes c p := by
  intro m hm
  obtain rfl : n = m := Option.some.inj (hn.symm.trans hm)
  have hbound := h.bound p n hn
  have hlimit := h.limit p n hn
  rw [satAdd_eq (by omega)] at hkept
  omega

/-- Along the whole path each parent has room beside its other children. -/
theorem checkAncestors_kept (h : Valid t) (hb : 0 < bytes)
    (hok : t.checkAncestors bytes hops c (parentOf t c) = .ok ())
    (hpath : c = d ∨ Descends (parentOf t) c d) (hd : parentOf t d = some p) :
    Kept t bytes d p := by
  induction hops generalizing c with
  | zero =>
      cases hc : parentOf t c with
      | none => simp [not_on_path hc hpath] at hd
      | some q =>
          rw [hc] at hok
          cases hok
  | succ hops ih =>
      cases hc : parentOf t c with
      | none => simp [not_on_path hc hpath] at hd
      | some q =>
          obtain ⟨n, hn⟩ := h.exists_parent hc
          have hparent : n.parent = parentOf t q := by rw [parentOf, hn, Option.bind_some]
          rw [hc] at hok
          unfold BudgetTree.checkAncestors at hok
          simp only [node_eq hn, h.committedWithDescendants hn, protectedBytes_eq h, hparent,
            bind, Except.bind] at hok
          split_ifs at hok with hroom hkept
          rcases hpath with rfl | hdesc
          · obtain rfl : q = p := Option.some.inj (hc.symm.trans hd)
            exact kept_of_check h hb hn hroom hkept
          · -- the rest of the path starts at the parent
            obtain ⟨q', hq', hrest⟩ := descends_iff.mp hdesc
            obtain rfl : q = q' := Option.some.inj (hc.symm.trans hq')
            exact ih hok hrest

/-- An admitted commit leaves room at each parent on the way up. -/
theorem checkCommit_kept (h : Valid t) (hb : 0 < bytes) (hi : t.nodes[i]? = some n)
    (hok : t.checkCommit i bytes = .ok ()) (hpath : i = d ∨ Descends (parentOf t) i d)
    (hd : parentOf t d = some p) : Kept t bytes d p := by
  have hparent : n.parent = parentOf t i := by rw [parentOf, hi, Option.bind_some]
  unfold BudgetTree.checkCommit at hok
  simp only [node_eq hi, h.committedWithDescendants hi, hparent, bind, Except.bind] at hok
  split_ifs at hok with hfull
  exact checkAncestors_kept h hb hok hpath hd

end Path

section Commit
variable {t : BudgetTree} {bytes i p c : ℕ} {n m : BudgetNode}

/-- The forest after a commit that passed its checks. -/
def committed (t : BudgetTree) (i bytes : ℕ) : BudgetTree :=
  t.mapCommitted i fun committed => satAdd committed bytes

open Classical in
theorem subtree_committed (h : Valid t) (hi : t.nodes[i]? = some n) (hfits : Fits t bytes i)
    (a : ℕ) : subtree (committed t i bytes) a =
      subtree t a + if i = a ∨ Descends (parentOf t) i a then bytes else 0 := by
  have hlen := (List.getElem?_eq_some_iff.mp hi).1
  obtain ⟨hself, hother⟩ := committedAt_mapCommitted (f := fun c => satAdd c bytes) hi
  have hword : committedAt t i + bytes ≤ maxWord := by
    have hle : committedAt t i ≤ subtree t i := le_weight _ hlen
    have hroom := hfits i n (Or.inl rfl) hi
    have hlimit := h.limit i n hi
    omega
  rw [satAdd_eq hword] at hself
  rw [committed, subtree_mapCommitted, weight_add hlen hself hother]
  rfl

theorem length_committed : (committed t i bytes).nodes.length = t.nodes.length :=
  List.length_modify _ _ _

theorem spare_committed (j : ℕ) : spare (committed t i bytes) p j =
    if parentOf t j = some p then
      (t.nodes[j]?.map BudgetNode.reservation).getD 0 - subtree (committed t i bytes) j
    else 0 := by
  have hres : ((committed t i bytes).nodes[j]?.map BudgetNode.reservation) =
      t.nodes[j]?.map BudgetNode.reservation := by
    rw [committed, getElem?_mapCommitted, Option.map_map]
    congr 1
    funext node
    simp only [Function.comp_apply]
    split_ifs <;> rfl
  rw [spare, hres, committed, parentOf_mapCommitted]

/-- Committing never adds to what is unused of a reservation. -/
theorem spare_committed_le (h : Valid t) (hi : t.nodes[i]? = some n) (hfits : Fits t bytes i)
    (j : ℕ) : spare (committed t i bytes) p j ≤ spare t p j := by
  rw [spare_committed, spare, subtree_committed h hi hfits]
  split_ifs <;> omega

/-- A child that takes the bytes takes them from its own reservation first. -/
theorem spare_committed_path (h : Valid t) (hi : t.nodes[i]? = some n) (hfits : Fits t bytes i)
    (hpath : i = c ∨ Descends (parentOf t) i c) :
    spare (committed t i bytes) p c = spare t p c - bytes := by
  rw [spare_committed, spare, subtree_committed h hi hfits, if_pos hpath]
  split_ifs <;> omega

/-- A commit outside the subtrees of the children leaves what they have unused. -/
theorem spare_committed_self (h : Valid t) (hi : t.nodes[i]? = some n) (hfits : Fits t bytes i)
    (j : ℕ) : spare (committed t i bytes) i j = spare t i j := by
  rw [spare_committed, spare, subtree_committed h hi hfits]
  split_ifs with hj hdown
  · -- a node does not descend from its own child
    have hlt := h.ordered j i hj
    rcases hdown with rfl | hdesc
    · exact absurd hlt (lt_irrefl _)
    · exact absurd (hdesc.lt h.ordered) hlt.not_gt
  · rfl
  · rfl

/-- Below the parent the bytes come from the child's own reservation or from free room. -/
theorem protected_below (h : Valid t) (hi : t.nodes[i]? = some n) (hfits : Fits t bytes i)
    (hpath : i = c ∨ Descends (parentOf t) i c) (hc : parentOf t c = some p)
    (hkept : Kept t bytes c p) (hm : t.nodes[p]? = some m)
    (hprot : subtree t p + ∑ j ∈ Finset.range t.nodes.length, spare t p j ≤ m.hardLimit) :
    subtree t p + bytes +
      ∑ j ∈ Finset.range t.nodes.length, spare (committed t i bytes) p j ≤ m.hardLimit := by
  have hlen : c ∈ Finset.range t.nodes.length := by
    refine Finset.mem_range.mpr (not_le.mp fun hle => ?_)
    rw [parentOf, List.getElem?_eq_none hle] at hc
    cases hc
  have hothers : ∑ j ∈ (Finset.range t.nodes.length).erase c,
      spare (committed t i bytes) p j ≤ others t p c :=
    Finset.sum_le_sum fun j _ => spare_committed_le h hi hfits j
  have hroom : subtree t p + bytes + others t p c ≤ m.hardLimit := hkept m hm
  have hafter := Finset.add_sum_erase _ (spare (committed t i bytes) p) hlen
  have hbefore : spare t p c + others t p c = ∑ j ∈ Finset.range t.nodes.length, spare t p j :=
    Finset.add_sum_erase _ (spare t p) hlen
  rw [spare_committed_path h hi hfits hpath] at hafter
  omega

end Commit

section Step
variable {t : BudgetTree} {bytes i p : ℕ} {n m : BudgetNode}

theorem valid_committed (h : Valid t) (hi : t.nodes[i]? = some n) (hfits : Fits t bytes i) :
    Valid (committed t i bytes) :=
  h.commit hi hfits

theorem protected_committed_iff (h : Valid t) (hi : t.nodes[i]? = some n)
    (hfits : Fits t bytes i) (hm : t.nodes[p]? = some m) :
    Protected (committed t i bytes) p ↔
      subtree (committed t i bytes) p +
        ∑ j ∈ Finset.range t.nodes.length, spare (committed t i bytes) p j ≤ m.hardLimit := by
  have hnode := getElem?_mapCommitted (t := t) (i := i) (f := fun c => satAdd c bytes) p
  rw [hm, Option.map_some] at hnode
  rw [protected_iff (valid_committed h hi hfits) hnode, length_committed]
  split_ifs <;> rfl

/-- A commit anywhere but at the node itself keeps its reservations. -/
theorem protected_elsewhere (h : Valid t) (hb : 0 < bytes) (hi : t.nodes[i]? = some n)
    (hok : t.checkCommit i bytes = .ok ()) (hfits : Fits t bytes i) (hip : i ≠ p)
    (hprot : Protected t p) : Protected (committed t i bytes) p := by
  obtain ⟨m, hm, -⟩ := id hprot
  rw [protected_iff h hm] at hprot
  rw [protected_committed_iff h hi hfits hm, subtree_committed h hi hfits]
  split_ifs with hdown
  · rcases hdown with rfl | hdesc
    · exact absurd rfl hip
    · obtain ⟨c, hpath, hc⟩ := Relation.TransGen.tail'_iff.mp hdesc
      have hdown : i = c ∨ Descends (parentOf t) i c :=
        (Relation.reflTransGen_iff_eq_or_transGen.mp hpath).imp Eq.symm id
      exact protected_below h hi hfits hdown hc (checkCommit_kept h hb hi hok hdown hc) hm hprot
  · have hspare := Finset.sum_le_sum fun j (_ : j ∈ Finset.range t.nodes.length) =>
      spare_committed_le (p := p) h hi hfits j
    omega

/-- A commit at the node itself keeps them when it leaves room for them. -/
theorem protected_self_iff (h : Valid t) (hi : t.nodes[i]? = some n) (hfits : Fits t bytes i) :
    Protected (committed t i bytes) i ↔
      usedOf t i + bytes + unusedReservations t i ≤ n.hardLimit := by
  rw [protected_committed_iff h hi hfits hi, subtree_committed h hi hfits, if_pos (Or.inl rfl),
    Finset.sum_congr rfl fun j _ => spare_committed_self h hi hfits j, usedOf_eq h hi,
    unusedReservations_eq h]

end Step

/-- In every forest that calls build, a commit leaves the reservations under a node protected
exactly when it is made elsewhere, or fits the node beside what its children may still claim. -/
theorem reservations_protected_iff (ops : List Op) (p i : ℕ) (bytes : UInt64)
    (hprot : Protected (run BudgetTree.new ops) p)
    (hok : ((run BudgetTree.new ops).tryCommit i bytes.toNat).1 = .ok ()) :
    Protected ((run BudgetTree.new ops).tryCommit i bytes.toNat).2 p ↔
      (i = p → ∀ n, (run BudgetTree.new ops).nodes[p]? = some n →
        usedOf (run BudgetTree.new ops) p + bytes.toNat +
          unusedReservations (run BudgetTree.new ops) p ≤ n.hardLimit) := by
  have h : Valid (run BudgetTree.new ops) := run_valid Valid.new ops
  generalize run BudgetTree.new ops = t at *
  generalize bytes.toNat = b at *
  unfold tryCommit at hok ⊢
  split_ifs at hok ⊢ with hmissing hzero
  · -- an empty commit leaves the forest as it is
    refine ⟨fun _ _ n hn => ?_, fun _ => hprot⟩
    obtain ⟨m, hm, hle⟩ := hprot
    obtain rfl : n = m := Option.some.inj (hn.symm.trans hm)
    rwa [hzero, Nat.add_zero]
  · have hi := List.getElem?_eq_getElem (not_le.mp hmissing)
    rcases @Valid.checkCommit t h i b _ hi with ⟨e, heq, -⟩ | ⟨heq, hfits⟩
    · rw [heq] at hok
      cases hok
    · rw [heq]
      by_cases hip : i = p
      · subst hip
        refine (protected_self_iff h hi hfits).trans ⟨fun hle _ n hn => ?_, fun hle => ?_⟩
        · obtain rfl := Option.some.inj (hi.symm.trans hn)
          exact hle
        · exact hle rfl _ hi
      · exact iff_of_true
          (protected_elsewhere h (Nat.pos_of_ne_zero hzero) hi heq hfits hip hprot)
          fun heq => absurd heq hip

/-- A root with a limit of 100 bytes and a child with 60 of them reserved. -/
def rootAndChild : List Op := [.addRoot 0 100 100 0, .addChild 0 0 100 100 60]

theorem reservations_protected_iff_child :
    (run BudgetTree.new rootAndChild).tryCommit 1 30 =
      (.ok (), run BudgetTree.new (rootAndChild ++ [.tryCommit 1 30])) ∧
    Protected (run BudgetTree.new (rootAndChild ++ [.tryCommit 1 30])) 0 := by
  have hrun : (run BudgetTree.new rootAndChild).tryCommit 1 30 =
      (.ok (), run BudgetTree.new (rootAndChild ++ [.tryCommit 1 30])) := by decide
  have hprot : Protected (run BudgetTree.new rootAndChild) 0 := ⟨_, rfl, by decide⟩
  have hafter := (reservations_protected_iff rootAndChild 0 1 30 hprot (by decide)).mpr
    fun h => by cases h
  exact ⟨hrun, by rwa [show (30 : UInt64).toNat = 30 from rfl, hrun] at hafter⟩

/-- The root takes all its bytes itself, and nothing is left of the child's reservation. -/
theorem root_takes_reservation :
    Protected (run BudgetTree.new rootAndChild) 0 ∧
    ((run BudgetTree.new rootAndChild).tryCommit 0 100).1 = .ok () ∧
    ¬ Protected ((run BudgetTree.new rootAndChild).tryCommit 0 100).2 0 := by
  refine ⟨⟨_, rfl, by decide⟩, by decide, ?_⟩
  rintro ⟨n, hn, hle⟩
  obtain rfl := Option.some.inj hn
  revert hle
  decide

end SlhaV2.ReservedBytes
