import Mathlib.Data.List.GetD
import SlhaV2.FloatingPoint
import SlhaV2.RankOrders

/-!
# The score oracles

An oracle rewrites one row of attention scores from the baseline row and the compressed
row: it gives the values of the one to the positions in the order of the other. The scratch
buffers are kept from row to row and only grow. Positions are stored as signed 32-bit keys.
-/
namespace SlhaV2.ScoreOracle
open FloatingPoint RankOrders

inductive Mode where
  | off
  | baselineIdentity
  | slhaIdentity
  | baselineRankSlhaValues
  | slhaRankBaselineValues
  | baselineTopKRank
deriving DecidableEq

inductive ApplyStatus where
  | ok
  | nonFiniteInput
  | emptyRow
  | invalidPermutation
deriving DecidableEq

structure Workspace where
  permB : List ℕ
  permS : List ℕ
  selected : List ℕ
  tail : List ℕ
deriving DecidableEq

/-- `std::vector::resize`. -/
def resize (l : List ℕ) (n : ℕ) : List ℕ := l.take n ++ List.replicate (n - l.length) 0

def Workspace.ensure (ws : Workspace) (n : ℕ) : Workspace :=
  if ws.permB.length < n then
    ⟨resize ws.permB n, resize ws.permS n, resize ws.selected n, resize ws.tail n⟩
  else ws

/-- The integer that orders finite values as `<` on `float` does: both zeros are zero. -/
def floatOrder (x : F32) : ℤ :=
  if x.bits.toNat < 2 ^ 31 then x.bits.toNat else -((x.bits.toNat - 2 ^ 31 : ℕ) : ℤ)

/-- `static_cast<int32_t>`. -/
def int32Of (i : ℕ) : ℤ := (i : ℤ).bmod (2 ^ 32)

/-- Every key is a position of the row. -/
def KeysInRow (n : ℕ) : Prop := ∀ i < n, 0 ≤ int32Of i ∧ int32Of i < n

instance (n : ℕ) : Decidable (KeysInRow n) := Nat.decidableBallLT n _

/-- The positions of a row, ranked. -/
def rankOf (v : ℕ → F32) (n : ℕ) : List ℕ := ranking (fun i => floatOrder (v i)) n

/-- Adjacent equal values along a ranking. -/
def tiesOf (v : ℕ → F32) (order : List ℕ) : ℕ :=
  (order.zip order.tail).countP fun p => floatOrder (v p.2) = floatOrder (v p.1)

/-- Ranking into the first `n` entries of `perm`, with the ties; comparing reads the row at the
keys, and a read beside the row is undefined. -/
def rankPermutation (v : ℕ → F32) (n : ℕ) (perm : List ℕ) : Option (List ℕ × ℕ) :=
  let perm := if perm.length < n then resize perm n else perm
  if KeysInRow n then some (rankOf v n ++ perm.drop n, tiesOf v (rankOf v n)) else none

/-- `std::fill` of the first `n` entries. -/
def fillZero (l : List ℕ) (n : ℕ) : Option (List ℕ) :=
  if n ≤ l.length then some (List.replicate n 0 ++ l.drop n) else none

/-- Writing `values` to the front of a buffer. -/
def writeFront (l values : List ℕ) : Option (List ℕ) :=
  if values.length ≤ l.length then some (values ++ l.drop values.length) else none

def allFinite (v : ℕ → F32) (n : ℕ) : Bool := (List.range n).all fun i => (v i).isFinite

/-- What a call answers, the entries of `out` that it writes in their order, and the rest. -/
structure Applied where
  status : ApplyStatus
  writes : List (ℕ × F32)
  ties : ℕ
  ws : Workspace

def memcpy (v : ℕ → F32) (n : ℕ) : List (ℕ × F32) := (List.range n).map fun i => (i, v i)

/-- Both rankings. -/
def rankBoth (b s : ℕ → F32) (n : ℕ) (ws : Workspace) : Option (Workspace × ℕ) := do
  let (permB, tiesB) ← rankPermutation b n ws.permB
  let (permS, tiesS) ← rankPermutation s n ws.permS
  return ({ ws with permB := permB, permS := permS }, tiesB + tiesS)

/-- The values at `sources` go to `targets`, one after the other. -/
def transplant (targets sources : List ℕ) (v : ℕ → F32) : List (ℕ × F32) :=
  targets.zip (sources.map v)

/-- Marking the entries of the given keys. -/
def markAll (keys l : List ℕ) : List ℕ := keys.foldl (fun l key => l.set key 1) l

def topKRank (topk : ℤ) (s : ℕ → F32) (n : ℕ) (ws : Workspace) (ties : ℕ) : Option Applied := do
  let k := min topk.toNat n
  let cleared ← fillZero ws.selected n
  let selected := markAll (ws.permB.take k) cleared
  let rest := (ws.permS.take n).filter fun key => selected.getD key 0 = 0
  let tail ← writeFront ws.tail rest
  let ws := { ws with selected := selected, tail := tail }
  if rest.length + k ≠ n then return ⟨.invalidPermutation, [], ties, ws⟩
  else
    return ⟨.ok, transplant (ws.permB.take k) (ws.permS.take k) s ++
      transplant (ws.tail.take rest.length) ((ws.permS.take n).drop k) s, ties, ws⟩

/-- The modes on rows that have passed the checks. -/
def applyChecked (mode : Mode) (topk : ℤ) (b s : ℕ → F32) (n : ℕ) (ws : Workspace) :
    Option Applied :=
  match mode with
  | .off => some ⟨.ok, [], 0, ws⟩
  | .baselineIdentity => some ⟨.ok, memcpy b n, 0, ws⟩
  | .slhaIdentity => some ⟨.ok, memcpy s n, 0, ws⟩
  | .baselineRankSlhaValues => do
    let (ws, ties) ← rankBoth b s n ws
    return ⟨.ok, transplant (ws.permB.take n) (ws.permS.take n) s, ties, ws⟩
  | .slhaRankBaselineValues => do
    let (ws, ties) ← rankBoth b s n ws
    return ⟨.ok, transplant (ws.permS.take n) (ws.permB.take n) b, ties, ws⟩
  | .baselineTopKRank =>
    if topk < 1 then some ⟨.invalidPermutation, [], 0, ws⟩
    else do
      let (ws, ties) ← rankBoth b s n ws
      topKRank topk s n ws ties

/-- The rows and the destination may be null. -/
def apply (mode : Mode) (topk : ℤ) (b s : Option (ℕ → F32)) (n : ℕ) (out : Bool)
    (ws : Workspace) : Option Applied :=
  if mode = .off then some ⟨.ok, [], 0, ws⟩
  else if n = 0 then some ⟨.emptyRow, [], 0, ws⟩
  else
    match b, s, out with
    | some b, some s, true =>
      if !allFinite b n || !allFinite s n then some ⟨.nonFiniteInput, [], 0, ws⟩
      else applyChecked mode topk b s n (ws.ensure n)
    | _, _, _ => some ⟨.invalidPermutation, [], 0, ws⟩

def sameRanking (x y : ℕ → F32) (n : ℕ) (ws : Workspace) : Option (Bool × Workspace) := do
  let (ws, _) ← rankBoth x y n (ws.ensure n)
  return (ws.permB.take n = ws.permS.take n, ws)

def respectsRanking (out ref : ℕ → F32) (n : ℕ) (ws : Workspace) : Option (Bool × Workspace) :=
  if n = 0 then some (true, ws)
  else do
    let ws := ws.ensure n
    let (permB, _) ← rankPermutation ref n ws.permB
    let order := permB.take n
    return ((order.zip order.tail).all fun p => ¬ floatOrder (out p.2) > floatOrder (out p.1),
      { ws with permB := permB })

/-- Sorted by their bits, the rows are the same. -/
def sameValueMultiset (x y : List F32) : Bool :=
  x.insertionSort (fun a b => a.bits.toNat ≤ b.bits.toNat) =
    y.insertionSort (fun a b => a.bits.toNat ≤ b.bits.toNat)

/-- Zeros of different signs stay different values. -/
theorem sameValueMultiset_iff {x y : List F32} : sameValueMultiset x y = true ↔ x.Perm y := by
  let le : F32 → F32 → Prop := fun a b => a.bits.toNat ≤ b.bits.toNat
  have : Std.Total le := ⟨fun a b => le_total a.bits.toNat b.bits.toNat⟩
  have : IsTrans F32 le := ⟨fun _ _ _ => le_trans⟩
  have : Std.Antisymm le := ⟨fun a b hab hba =>
    congrArg F32.mk (UInt32.toNat_inj.mp (le_antisymm hab hba))⟩
  have hx := List.perm_insertionSort le x
  have hy := List.perm_insertionSort le y
  unfold sameValueMultiset
  rw [decide_eq_true_iff]
  constructor
  · intro h
    exact hx.symm.trans ((List.Perm.of_eq h).trans hy)
  · intro h
    apply @List.Perm.eq_of_pairwise' F32 le
    · exact List.pairwise_insertionSort le x
    · exact List.pairwise_insertionSort le y
    · exact hx.trans (h.trans hy.symm)

/-- The buffers grow together. -/
structure Uniform (ws : Workspace) : Prop where
  permS : ws.permS.length = ws.permB.length
  selected : ws.selected.length = ws.permB.length
  tail : ws.tail.length = ws.permB.length

theorem length_resize (l : List ℕ) (n : ℕ) : (resize l n).length = n := by
  unfold resize
  rw [List.length_append, List.length_take, List.length_replicate]
  omega

theorem Uniform.ensure {ws : Workspace} (h : Uniform ws) (n : ℕ) : Uniform (ws.ensure n) := by
  unfold Workspace.ensure
  split_ifs
  · exact ⟨(length_resize _ n).trans (length_resize _ n).symm,
      (length_resize _ n).trans (length_resize _ n).symm,
      (length_resize _ n).trans (length_resize _ n).symm⟩
  · exact h

theorem le_length_ensure (ws : Workspace) (n : ℕ) : n ≤ (ws.ensure n).permB.length := by
  unfold Workspace.ensure
  split_ifs with h
  · exact (length_resize _ n).ge
  · exact not_lt.mp h

theorem length_rankOf (v : ℕ → F32) (n : ℕ) : (rankOf v n).length = n := length_ranking

/-- With room for the row a ranking takes the front of its buffer. -/
theorem rankPermutation_eq {v : ℕ → F32} {n : ℕ} {perm : List ℕ} (hkeys : KeysInRow n)
    (hroom : n ≤ perm.length) :
    rankPermutation v n perm = some (rankOf v n ++ perm.drop n, tiesOf v (rankOf v n)) := by
  unfold rankPermutation
  dsimp only
  rw [if_pos hkeys, if_neg (not_lt.mpr hroom)]

/-- The workspace with both rankings in front. -/
def ranked (b s : ℕ → F32) (n : ℕ) (ws : Workspace) : Workspace :=
  { ws with permB := rankOf b n ++ ws.permB.drop n, permS := rankOf s n ++ ws.permS.drop n }

theorem rankBoth_eq {b s : ℕ → F32} {n : ℕ} {ws : Workspace} (hkeys : KeysInRow n)
    (hws : Uniform ws) (hroom : n ≤ ws.permB.length) :
    rankBoth b s n ws =
      some (ranked b s n ws, tiesOf b (rankOf b n) + tiesOf s (rankOf s n)) := by
  unfold rankBoth
  rw [rankPermutation_eq hkeys hroom]
  rw [rankPermutation_eq hkeys (hws.permS ▸ hroom)]
  rfl

theorem Uniform.ranked {ws : Workspace} (h : Uniform ws) (b s : ℕ → F32) {n : ℕ}
    (hroom : n ≤ ws.permB.length) : Uniform (ranked b s n ws) := by
  have hB : (rankOf b n ++ ws.permB.drop n).length = ws.permB.length := by
    rw [List.length_append, length_rankOf, List.length_drop]
    omega
  have hS : (rankOf s n ++ ws.permS.drop n).length = ws.permB.length := by
    have hroomS := h.permS
    rw [List.length_append, length_rankOf, List.length_drop]
    omega
  exact ⟨hS.trans hB.symm, h.selected.trans hB.symm, h.tail.trans hB.symm⟩

theorem take_ranked (b s : ℕ → F32) (n : ℕ) (ws : Workspace) :
    (ranked b s n ws).permB.take n = rankOf b n ∧ (ranked b s n ws).permS.take n = rankOf s n := by
  constructor
  · exact List.take_left' (length_rankOf b n)
  · exact List.take_left' (length_rankOf s n)

section Placing
variable {w : ℕ → F32} {n : ℕ} {order : List ℕ} {out : List F32} {writes : List (ℕ × F32)}

theorem rankOf_values (v : ℕ → F32) (n : ℕ) :
    (rankOf v n).Pairwise fun i j => floatOrder (v j) ≤ floatOrder (v i) := ranking_values

theorem rankOf_perm (v : ℕ → F32) (n : ℕ) : (rankOf v n).Perm (List.range n) := ranking_perm

/-- The values of `w` are all placed, the larger ones earlier in the order. -/
structure Placed (w : ℕ → F32) (n : ℕ) (order : List ℕ) (out : List F32) : Prop where
  values : out.Perm ((List.range n).map w)
  read : order.map (fun i => out.getD i .zero) = (rankOf w n).map w
  sorted : order.Pairwise fun i j => floatOrder (out.getD j .zero) ≤ floatOrder (out.getD i .zero)

theorem placed_scatter (hfst : writes.map Prod.fst = order)
    (hsnd : writes.map Prod.snd = (rankOf w n).map w) (horder : order.Perm (List.range n))
    (hout : out.length = n) : Placed w n order (scatter out writes) := by
  have hkeys : (writes.map Prod.fst).Perm (List.range out.length) := by
    rw [hfst, hout]
    exact horder
  have hread : order.map (fun i => (scatter out writes).getD i .zero) = (rankOf w n).map w := by
    have hmap := @scatter_map _ out writes (hkeys.nodup_iff.mpr List.nodup_range) fun u hu =>
      List.mem_range.mp (hkeys.mem_iff.mp (List.mem_map_of_mem hu))
    rw [hfst] at hmap
    have hget := congrArg (List.map fun x : Option F32 => x.getD .zero) hmap
    simp only [List.map_map] at hget
    rw [← hsnd]
    calc order.map (fun i => (scatter out writes).getD i .zero)
        = order.map ((fun x => x.getD .zero) ∘ fun k => (scatter out writes)[k]?) := by
          apply List.map_congr_left
          intro i _
          exact List.getD_eq_getElem?_getD
      _ = writes.map Prod.snd := hget
  constructor
  · apply (scatter_perm hkeys).trans
    rw [hsnd]
    exact (rankOf_perm w n).map w
  · exact hread
  · have hvalues : (order.map fun i => (scatter out writes).getD i .zero).Pairwise
        fun x y => floatOrder y ≤ floatOrder x := by
      rw [hread, List.pairwise_map]
      exact rankOf_values w n
    rwa [List.pairwise_map] at hvalues

theorem transplant_fst {targets sources : List ℕ} {v : ℕ → F32}
    (h : targets.length = sources.length) :
    (transplant targets sources v).map Prod.fst = targets := by
  apply List.map_fst_zip
  rw [List.length_map, h]

theorem transplant_snd {targets sources : List ℕ} {v : ℕ → F32}
    (h : targets.length = sources.length) :
    (transplant targets sources v).map Prod.snd = sources.map v := by
  apply List.map_snd_zip
  rw [List.length_map, h]

end Placing

theorem getD_markAll (keys l : List ℕ) (j : ℕ) (hj : j < l.length) :
    (markAll keys l).getD j 0 = if j ∈ keys then 1 else l.getD j 0 := by
  induction keys generalizing l with
  | nil => rfl
  | cons key keys ih =>
      change (markAll keys (l.set key 1)).getD j 0 = _
      rw [ih (l.set key 1) (by rwa [List.length_set])]
      by_cases hin : j ∈ keys
      · rw [if_pos hin, if_pos (List.mem_cons_of_mem key hin)]
      · rw [if_neg hin]
        by_cases hkey : j = key
        · subst hkey
          rw [if_pos List.mem_cons_self, List.getD_eq_getElem?_getD, List.getElem?_set_self hj]
          rfl
        · rw [if_neg (by rw [List.mem_cons]; exact not_or.mpr ⟨hkey, hin⟩),
            List.getD_eq_getElem?_getD, List.getElem?_set_ne (Ne.symm hkey),
            List.getD_eq_getElem?_getD]

theorem length_markAll (keys l : List ℕ) :
    (markAll keys l).length = l.length := by
  induction keys generalizing l with
  | nil => rfl
  | cons key keys ih =>
      change (markAll keys (l.set key 1)).length = _
      rw [ih, List.length_set]

/-- The keys that are not promoted, in the order of the compressed row. -/
def others (b s : ℕ → F32) (n k : ℕ) : List ℕ :=
  (rankOf s n).filter fun key => key ∉ (rankOf b n).take k

theorem others_perm (b s : ℕ → F32) (n k : ℕ) :
    (others b s n k).Perm ((rankOf b n).drop k) := by
  unfold others
  have hperm : (rankOf s n).Perm (rankOf b n) :=
    (rankOf_perm s n).trans (rankOf_perm b n).symm
  apply (hperm.filter _).trans
  -- of the other ranking, exactly the keys behind the first `k` stay
  have hnodup : ((rankOf b n).take k ++ (rankOf b n).drop k).Nodup := by
    rw [List.take_append_drop]
    exact nodup_ranking
  have hdisjoint := (List.nodup_append.mp hnodup).2.2
  have hfilter : (rankOf b n).filter (fun key => key ∉ (rankOf b n).take k) =
      (rankOf b n).drop k := by
    have hsplit := List.filter_append (p := fun key => decide (key ∉ (rankOf b n).take k))
      ((rankOf b n).take k) ((rankOf b n).drop k)
    rw [List.take_append_drop] at hsplit
    rw [hsplit, List.filter_eq_nil_iff.mpr, List.nil_append, List.filter_eq_self.mpr]
    · intro key hkey
      rw [decide_eq_true_eq]
      exact fun hin => hdisjoint key hin key hkey rfl
    · intro key hkey
      rw [decide_eq_true_eq]
      exact not_not.mpr hkey
  rw [hfilter]

theorem length_others (b s : ℕ → F32) (n k : ℕ) : (others b s n k).length = n - k := by
  rw [(others_perm b s n k).length_eq, List.length_drop, length_rankOf]

theorem others_order (b s : ℕ → F32) (n k : ℕ) :
    ((rankOf b n).take k ++ others b s n k).Perm (List.range n) := by
  have hperm := ((others_perm b s n k).append_left ((rankOf b n).take k)).trans
    (List.Perm.of_eq (List.take_append_drop k (rankOf b n)))
  exact hperm.trans (rankOf_perm b n)

/-- The result of a call that writes: every position once, with the values in the given orders. -/
structure Wrote (w : ℕ → F32) (n : ℕ) (order : List ℕ) (r : Applied) : Prop where
  status : r.status = .ok
  keys : r.writes.map Prod.fst = order
  values : r.writes.map Prod.snd = (rankOf w n).map w
  ws : Uniform r.ws

theorem topKRank_wrote {b s : ℕ → F32} {n : ℕ} {ws : Workspace} (topk : ℤ) (ties : ℕ)
    (hws : Uniform ws) (hroom : n ≤ ws.permB.length) :
    ∃ r, topKRank topk s n (ranked b s n ws) ties = some r ∧
      Wrote s n ((rankOf b n).take (min topk.toNat n) ++ others b s n (min topk.toNat n)) r := by
  generalize hk : min topk.toNat n = k
  have hle : k ≤ n := hk ▸ min_le_right _ _
  have hB : (ranked b s n ws).permB.take k = (rankOf b n).take k := by
    rw [← (take_ranked b s n ws).1, List.take_take, min_eq_left hle]
  have hselected : n ≤ (ranked b s n ws).selected.length := hroom.trans_eq hws.selected.symm
  have htail : n ≤ (ranked b s n ws).tail.length := hroom.trans_eq hws.tail.symm
  have hcleared : fillZero (ranked b s n ws).selected n =
      some (List.replicate n 0 ++ (ranked b s n ws).selected.drop n) := if_pos hselected
  have hlength : (List.replicate n 0 ++ (ranked b s n ws).selected.drop n).length =
      (ranked b s n ws).selected.length := by
    rw [List.length_append, List.length_replicate, List.length_drop]
    omega
  have hmarked : ∀ key ∈ rankOf s n, (markAll ((rankOf b n).take k)
      (List.replicate n 0 ++ (ranked b s n ws).selected.drop n)).getD key 0 =
        if key ∈ (rankOf b n).take k then 1 else 0 := by
    intro key hkey
    have hlt : key < n := mem_ranking.mp hkey
    rw [getD_markAll _ _ _ (by rw [hlength]; omega), List.getD_append _ _ _ _ (by simpa using hlt),
      List.getD_replicate 0 hlt]
  have hrest : (rankOf s n).filter (fun key => (markAll ((rankOf b n).take k)
      (List.replicate n 0 ++ (ranked b s n ws).selected.drop n)).getD key 0 = 0) =
        others b s n k := by
    apply List.filter_congr
    intro key hkey
    rw [hmarked key hkey]
    by_cases hin : key ∈ (rankOf b n).take k <;> simp [hin]
  have hlen := length_others b s n k
  have hwrite : writeFront (ranked b s n ws).tail (others b s n k) =
      some (others b s n k ++ (ranked b s n ws).tail.drop (n - k)) := by
    unfold writeFront
    rw [hlen, if_pos (by omega)]
  unfold topKRank
  dsimp only
  rw [hk, hcleared]
  dsimp only [Option.bind_eq_bind, Option.bind_some]
  rw [hB, (take_ranked b s n ws).2, hrest, hwrite]
  dsimp only [Option.bind_eq_bind, Option.bind_some]
  rw [if_neg (by omega)]
  have hS : (ranked b s n ws).permS.take k = (rankOf s n).take k := by
    rw [← (take_ranked b s n ws).2, List.take_take, min_eq_left hle]
  have htake : (others b s n k ++ (ranked b s n ws).tail.drop (n - k)).take
      (others b s n k).length = others b s n k := List.take_left' rfl
  have htop : ((rankOf b n).take k).length = ((rankOf s n).take k).length := by
    rw [List.length_take, List.length_take, length_rankOf, length_rankOf]
  have hlow : (others b s n k).length = ((rankOf s n).drop k).length := by
    rw [hlen, List.length_drop, length_rankOf]
  refine ⟨_, rfl, rfl, ?_, ?_, ?_⟩
  · rw [List.map_append, hS, htake, transplant_fst htop, transplant_fst hlow]
  · rw [List.map_append, hS, htake, transplant_snd htop, transplant_snd hlow, ← List.map_append,
      List.take_append_drop]
  · have huniform := hws.ranked b s hroom
    constructor
    · exact huniform.permS
    · change (markAll _ _).length = _
      rw [length_markAll, hlength]
      exact huniform.selected
    · change (others b s n k ++ _).length = _
      rw [List.length_append, hlen, List.length_drop, ← huniform.tail]
      omega

theorem allFinite_iff {v : ℕ → F32} {n : ℕ} :
    allFinite v n = true ↔ ∀ i < n, (v i).isFinite = true := by
  unfold allFinite
  rw [List.all_eq_true]
  simp only [List.mem_range]

/-- A row that is ready: not empty, with both rows finite and its keys in range. -/
structure Ready (b s : ℕ → F32) (n : ℕ) : Prop where
  pos : n ≠ 0
  finiteB : allFinite b n = true
  finiteS : allFinite s n = true
  keys : KeysInRow n

variable {b s : ℕ → F32} {n : ℕ} {ws : Workspace}

theorem apply_ready (h : Ready b s n) (mode : Mode) (topk : ℤ) (hmode : mode ≠ .off) :
    apply mode topk (some b) (some s) n true ws = applyChecked mode topk b s n (ws.ensure n) := by
  unfold apply
  rw [if_neg hmode, if_neg h.pos]
  dsimp only
  rw [h.finiteB, h.finiteS]
  rfl

theorem apply_baselineRank (h : Ready b s n) (hws : Uniform ws) (topk : ℤ) :
    ∃ r, apply .baselineRankSlhaValues topk (some b) (some s) n true ws = some r ∧
      Wrote s n (rankOf b n) r := by
  have hroom := le_length_ensure ws n
  have huniform := hws.ensure n
  rw [apply_ready h _ _ (by decide)]
  unfold applyChecked
  dsimp only
  rw [rankBoth_eq h.keys huniform hroom]
  have hlength : (rankOf b n).length = (rankOf s n).length := by
    rw [length_rankOf, length_rankOf]
  refine ⟨_, rfl, rfl, ?_, ?_, huniform.ranked b s hroom⟩
  · dsimp only
    rw [(take_ranked b s n _).1, (take_ranked b s n _).2, transplant_fst hlength]
  · dsimp only
    rw [(take_ranked b s n _).1, (take_ranked b s n _).2, transplant_snd hlength]

theorem apply_slhaRank (h : Ready b s n) (hws : Uniform ws) (topk : ℤ) :
    ∃ r, apply .slhaRankBaselineValues topk (some b) (some s) n true ws = some r ∧
      Wrote b n (rankOf s n) r := by
  have hroom := le_length_ensure ws n
  have huniform := hws.ensure n
  rw [apply_ready h _ _ (by decide)]
  unfold applyChecked
  dsimp only
  rw [rankBoth_eq h.keys huniform hroom]
  have hlength : (rankOf s n).length = (rankOf b n).length := by
    rw [length_rankOf, length_rankOf]
  refine ⟨_, rfl, rfl, ?_, ?_, huniform.ranked b s hroom⟩
  · dsimp only
    rw [(take_ranked b s n _).1, (take_ranked b s n _).2, transplant_fst hlength]
  · dsimp only
    rw [(take_ranked b s n _).1, (take_ranked b s n _).2, transplant_snd hlength]

theorem apply_topK (h : Ready b s n) (hws : Uniform ws) {topk : ℤ} (hk : 1 ≤ topk) :
    ∃ r, apply .baselineTopKRank topk (some b) (some s) n true ws = some r ∧
      Wrote s n ((rankOf b n).take (min topk.toNat n) ++ others b s n (min topk.toNat n)) r := by
  have hroom := le_length_ensure ws n
  have huniform := hws.ensure n
  rw [apply_ready h _ _ (by decide)]
  unfold applyChecked
  dsimp only
  rw [if_neg (not_lt.mpr hk), rankBoth_eq h.keys huniform hroom]
  exact topKRank_wrote topk _ huniform hroom

theorem keysInRow_of_rankBoth {r : Workspace × ℕ} (h : rankBoth b s n ws = some r) :
    KeysInRow n := by
  by_contra hkeys
  unfold rankBoth rankPermutation at h
  rw [if_neg hkeys] at h
  cases h

/-- Nothing is written unless the answer is `ok`, and the buffers stay equally long. -/
theorem applyChecked_frame (hws : Uniform ws) (hroom : n ≤ ws.permB.length) {mode : Mode}
    {topk : ℤ} {r : Applied} (h : applyChecked mode topk b s n ws = some r) :
    (r.status ≠ .ok → r.writes = []) ∧ Uniform r.ws := by
  unfold applyChecked at h
  cases mode with
  | off =>
      cases h
      exact ⟨fun _ => rfl, hws⟩
  | baselineIdentity =>
      cases h
      exact ⟨fun hne => absurd rfl hne, hws⟩
  | slhaIdentity =>
      cases h
      exact ⟨fun hne => absurd rfl hne, hws⟩
  | baselineRankSlhaValues =>
      obtain ⟨x, hx, hr⟩ := Option.bind_eq_some_iff.mp h
      have hkeys := keysInRow_of_rankBoth hx
      rw [rankBoth_eq hkeys hws hroom] at hx
      cases hx
      cases hr
      exact ⟨fun hne => absurd rfl hne, hws.ranked b s hroom⟩
  | slhaRankBaselineValues =>
      obtain ⟨x, hx, hr⟩ := Option.bind_eq_some_iff.mp h
      have hkeys := keysInRow_of_rankBoth hx
      rw [rankBoth_eq hkeys hws hroom] at hx
      cases hx
      cases hr
      exact ⟨fun hne => absurd rfl hne, hws.ranked b s hroom⟩
  | baselineTopKRank =>
      dsimp only at h
      split_ifs at h
      · cases h
        exact ⟨fun _ => rfl, hws⟩
      · obtain ⟨x, hx, hr⟩ := Option.bind_eq_some_iff.mp h
        have hkeys := keysInRow_of_rankBoth hx
        rw [rankBoth_eq hkeys hws hroom] at hx
        cases hx
        obtain ⟨r', hr', hwrote⟩ := topKRank_wrote (b := b) (s := s) topk
          (tiesOf b (rankOf b n) + tiesOf s (rankOf s n)) hws hroom
        have hsame : r = r' := Option.some.inj (hr.symm.trans hr')
        rw [hsame]
        exact ⟨fun hne => absurd hwrote.status hne, hwrote.ws⟩

theorem apply_frame (hws : Uniform ws) {mode : Mode} {topk : ℤ} {rowB rowS : Option (ℕ → F32)}
    {out : Bool} {r : Applied} (h : apply mode topk rowB rowS n out ws = some r) :
    (r.status ≠ .ok → r.writes = []) ∧ Uniform r.ws := by
  unfold apply at h
  split_ifs at h
  · cases h
    exact ⟨fun _ => rfl, hws⟩
  · cases h
    exact ⟨fun _ => rfl, hws⟩
  · split at h
    · split_ifs at h
      · cases h
        exact ⟨fun _ => rfl, hws⟩
      · exact applyChecked_frame (hws.ensure n) (le_length_ensure ws n) h
    · cases h
      exact ⟨fun _ => rfl, hws⟩

theorem uniform_rankBoth (hws : Uniform ws) (hroom : n ≤ ws.permB.length) {r : Workspace × ℕ}
    (h : rankBoth b s n ws = some r) : Uniform r.1 := by
  rw [rankBoth_eq (keysInRow_of_rankBoth h) hws hroom] at h
  cases h
  exact hws.ranked b s hroom

/-- The workspaces that rows, whatever their lengths, leave behind. -/
inductive Reached : Workspace → Prop where
  | fresh : Reached ⟨[], [], [], []⟩
  | apply {ws : Workspace} {mode : Mode} {topk : ℤ} {rowB rowS : Option (ℕ → F32)} {n : ℕ}
      {out : Bool} {r : Applied} (h : Reached ws)
      (hr : apply mode topk rowB rowS n out ws = some r) : Reached r.ws
  | sameRanking {ws next : Workspace} {x y : ℕ → F32} {n : ℕ} {answer : Bool} (h : Reached ws)
      (hr : sameRanking x y n ws = some (answer, next)) : Reached next
  | respectsRanking {ws next : Workspace} {x ref : ℕ → F32} {n : ℕ} {answer : Bool}
      (h : Reached ws) (hr : respectsRanking x ref n ws = some (answer, next)) : Reached next

theorem Reached.uniform (h : Reached ws) : Uniform ws := by
  induction h with
  | fresh => exact ⟨rfl, rfl, rfl⟩
  | apply h hr ih => exact (apply_frame ih hr).2
  | sameRanking h hr ih =>
      obtain ⟨x, hx, hnext⟩ := Option.bind_eq_some_iff.mp hr
      cases hnext
      exact uniform_rankBoth (ih.ensure _) (le_length_ensure _ _) hx
  | @respectsRanking ws next x ref n answer h hr ih =>
      unfold ScoreOracle.respectsRanking at hr
      split_ifs at hr
      · cases hr
        exact ih
      · obtain ⟨perm, hperm, hnext⟩ := Option.bind_eq_some_iff.mp hr
        have hroom := le_length_ensure ws n
        have hkeys : KeysInRow n := by
          by_contra hno
          unfold rankPermutation at hperm
          rw [if_neg hno] at hperm
          cases hperm
        rw [rankPermutation_eq hkeys hroom] at hperm
        cases hperm
        cases hnext
        have hlength : (rankOf ref n ++ (ws.ensure n).permB.drop n).length =
            (ws.ensure n).permB.length := by
          rw [List.length_append, length_rankOf, List.length_drop]
          omega
        have hensured := ih.ensure n
        exact ⟨hensured.permS.trans hlength.symm, hensured.selected.trans hlength.symm,
          hensured.tail.trans hlength.symm⟩

/-- Beyond the signed 32-bit range a key is negative. -/
theorem keysInRow_iff : KeysInRow n ↔ n ≤ 2 ^ 31 := by
  constructor
  · intro h
    by_contra hlong
    have hkey := (h (2 ^ 31) (by omega)).1
    revert hkey
    decide
  · intro h i hi
    unfold int32Of
    rw [Int.bmod_def]
    split_ifs <;> omega

/-- The call answers `ok` and writes every position once, so that a destination holds the values
of `w` placed in the given order. -/
def Fills (mode : Mode) (topk : ℤ) (b s : ℕ → F32) (n : ℕ) (ws : Workspace) (w : ℕ → F32)
    (order : List ℕ) : Prop :=
  ∃ r, apply mode topk (some b) (some s) n true ws = some r ∧ r.status = .ok ∧
    (r.writes.map Prod.fst).Perm (List.range n) ∧
    ∀ out : List F32, out.length = n → Placed w n order (scatter out r.writes)

theorem fills_of_wrote {mode : Mode} {topk : ℤ} {w : ℕ → F32} {order : List ℕ} {r : Applied}
    (hr : apply mode topk (some b) (some s) n true ws = some r) (h : Wrote w n order r)
    (horder : order.Perm (List.range n)) : Fills mode topk b s n ws w order := by
  refine ⟨r, hr, h.status, ?_, ?_⟩
  · rw [h.keys]
    exact horder
  · intro out hout
    exact placed_scatter h.keys h.values horder hout

/-- The order of the top-k mode: the first keys of the baseline, then the others. -/
def topKOrder (topk : ℤ) (b s : ℕ → F32) (n : ℕ) : List ℕ :=
  (rankOf b n).take (min topk.toNat n) ++ others b s n (min topk.toNat n)

/-- Rows of up to `2 ^ 31` finite scores are rewritten as the modes say, in whatever state
earlier rows have left the workspace; and what is not `ok` has written nothing. -/
theorem apply_exact (b s : ℕ → F32) (n : ℕ) (ws : Workspace) (hws : Reached ws) :
    (1 ≤ n → n ≤ 2 ^ 31 → (∀ i < n, (b i).isFinite = true ∧ (s i).isFinite = true) → ∀ topk,
      Fills .baselineRankSlhaValues topk b s n ws s (rankOf b n) ∧
      Fills .slhaRankBaselineValues topk b s n ws b (rankOf s n) ∧
      (1 ≤ topk → Fills .baselineTopKRank topk b s n ws s (topKOrder topk b s n))) ∧
    ∀ mode topk rowB rowS out r, apply mode topk rowB rowS n out ws = some r →
      r.status ≠ .ok → r.writes = [] := by
  constructor
  · intro hpos hmax hfinite topk
    have hready : Ready b s n := ⟨by omega, allFinite_iff.mpr fun i hi => (hfinite i hi).1,
      allFinite_iff.mpr fun i hi => (hfinite i hi).2, keysInRow_iff.mpr hmax⟩
    refine ⟨?_, ?_, ?_⟩
    · obtain ⟨r, hr, hwrote⟩ := apply_baselineRank hready hws.uniform topk
      exact fills_of_wrote hr hwrote (rankOf_perm b n)
    · obtain ⟨r, hr, hwrote⟩ := apply_slhaRank hready hws.uniform topk
      exact fills_of_wrote hr hwrote (rankOf_perm s n)
    · intro hk
      obtain ⟨r, hr, hwrote⟩ := apply_topK hready hws.uniform hk
      exact fills_of_wrote hr hwrote (others_order b s n _)
  · intro mode topk rowB rowS out r hr
    exact (apply_frame hws.uniform hr).1

-- A short row with a tie between the zeros, and a row with a key too many.
def signedZeros (i : ℕ) : F32 := if i = 0 then ⟨0x80000000⟩ else .zero

theorem apply_signedZeros : Reached ⟨[], [], [], []⟩ ∧
    Fills .baselineTopKRank 1 signedZeros signedZeros 3 ⟨[], [], [], []⟩ signedZeros
      (topKOrder 1 signedZeros signedZeros 3) := by
  have hrow := (apply_exact signedZeros signedZeros 3 _ .fresh).1 (by decide) (by decide)
    (by decide) 1
  exact ⟨.fresh, hrow.2.2 (by decide)⟩

/-- Ranking a longer row compares at a negative key. -/
theorem apply_long (h : 2 ^ 31 < n) (hfinite : ∀ i < n, (b i).isFinite = true ∧
    (s i).isFinite = true) (topk : ℤ) :
    apply .baselineRankSlhaValues topk (some b) (some s) n true ws = none := by
  have hb : allFinite b n = true := allFinite_iff.mpr fun i hi => (hfinite i hi).1
  have hs : allFinite s n = true := allFinite_iff.mpr fun i hi => (hfinite i hi).2
  have hkeys : ¬ KeysInRow n := fun hkeys => absurd (keysInRow_iff.mp hkeys) (not_le.mpr h)
  unfold apply
  rw [if_neg (by decide), if_neg (by omega)]
  dsimp only
  rw [hb, hs, if_neg (by decide)]
  unfold applyChecked rankBoth rankPermutation
  dsimp only
  rw [if_neg hkeys]
  rfl

theorem long_row_undefined : (∀ i < 2 ^ 31 + 1, (F32.zero).isFinite = true) ∧
    ¬ ∃ r, apply .baselineRankSlhaValues 0 (some fun _ => .zero) (some fun _ => .zero)
      (2 ^ 31 + 1) true ⟨[], [], [], []⟩ = some r := by
  refine ⟨fun _ _ => rfl, ?_⟩
  rw [apply_long (by decide) (fun _ _ => ⟨rfl, rfl⟩)]
  rintro ⟨r, hr⟩
  cases hr

end SlhaV2.ScoreOracle
