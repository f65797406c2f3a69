import SlhaV2.RankObjective

/-!
# Training runs of the ranking trainer

The trainer draws rows, scores their keys through the shared projection, adds up
the gradients of a batch and moves the projection against them. Over the reals a
run is a sequence of gradient steps: each subtracts from every entry the step
length times the derivative of the loss of the rows the step drew.
-/
namespace SlhaV2.RankDescent
open FloatingPoint Incoherence SingleFloat Single RankObjective

/-- A training row. The lengths and the logits are kept with its labels. -/
structure Row (F : Type) where
  q : ℕ → F
  key : ℕ → ℕ → F
  labels : RankTraining.Row

/-- The conversions between the single and the double numbers of a run. -/
structure Numbers (F G : Type) where
  value : F32 → F
  widen : F → G
  narrow : G → F

structure Batch (F : Type) where
  grad : ℕ → ℕ → F
  loss : F
  rowsSeen : ℕ
  comparisons : ℕ
  rng : Rng

structure History (F : Type) where
  epochLoss : List F
  rowsSeen : ℕ
  comparisons : ℕ

/-- The projection between two steps, and what the history counts. -/
structure Trainer (F : Type) where
  p : ℕ → ℕ → F
  rowsSeen : ℕ
  comparisons : ℕ
  rng : Rng

section Program
variable {F G : Type} [Analytic F] [Single G]

/-- `P v`. -/
def project (d : ℕ) (p : ℕ → ℕ → F) (v : ℕ → F) (r : ℕ) : F := sumTo d fun m => p r m * v m

def scores (d : ℕ) (p : ℕ → ℕ → F) (row : Row F) (j : ℕ) : F :=
  sumTo SlhaTile.dC fun r => project d p row.q r * project d p (row.key j) r

/-- A key of weight zero is passed over. -/
def accumulate (row : Row F) (n : ℕ) (a : ℕ → F) (bcols : ℕ → ℕ → F) (w : ℕ → F)
    (grad : ℕ → ℕ → F) : ℕ → ℕ → F :=
  (List.range n).foldl (fun grad j =>
    if Analytic.eq (w j) (lit 0) then grad
    else fun r m => grad r m + w j * (row.q m * bcols j r + row.key j m * a r)) grad

def visible (cfg : TrainConfig F) (row : RankTraining.Row) : ℕ := min row.nVisible cfg.maxKeys

def baseline (value : F32 → F) (row : RankTraining.Row) (j : ℕ) : F :=
  value (row.baseline.getD j F32.zero)

/-- The body of the row loop. A row with fewer logits than keys panics. -/
def trainRow (value : F32 → F) (cfg : TrainConfig F) (fuel d : ℕ) (p : ℕ → ℕ → F) (row : Row F)
    (b : Batch F) : Option (Batch F) :=
  let n := visible cfg row.labels
  if n = 0 then some b
  else if row.labels.baseline.length < n then none
  else do
    let (pairs, rng) ←
      RankTraining.rowPairs cfg.labels fuel (row.labels.baseline.take n) b.rng
    let weights := rowWeights cfg pairs n (baseline value row.labels) (scores d p row)
    return {
      grad := accumulate row n (project d p row.q) (fun j => project d p (row.key j)) weights.1
        b.grad
      loss := b.loss + weights.2
      rowsSeen := b.rowsSeen + 1
      comparisons := b.comparisons + (flatten pairs).length
      rng := rng }

def trainBatch (value : F32 → F) (cfg : TrainConfig F) (fuel d : ℕ) (rows : List (Row F))
    (p : ℕ → ℕ → F) : ℕ → Batch F → Option (Batch F)
  | 0, b => some b
  | turns + 1, b => do
      let (draw, rng) := b.rng.nextU64
      let row ← rows[draw.toNat % rows.length]?
      let b ← trainRow value cfg fuel d p row { b with rng := rng }
      trainBatch value cfg fuel d rows p turns b

/-- One step, with the loss of its batch. -/
def trainStep (value : F32 → F) (cfg : TrainConfig F) (fuel d : ℕ) (rows : List (Row F))
    (curLr : F) (t : Trainer F) : Option (Trainer F × F) := do
  let b ← trainBatch value cfg fuel d rows t.p cfg.batch
    ⟨fun _ _ => lit 0, lit 0, t.rowsSeen, t.comparisons, t.rng⟩
  let scale := curLr / ofNat cfg.batch
  return (⟨fun r m => t.p r m - scale * b.grad r m, b.rowsSeen, b.comparisons, b.rng⟩, b.loss)

def trainSteps (nums : Numbers F G) (cfg : TrainConfig F) (fuel d : ℕ) (rows : List (Row F))
    (curLr : F) : ℕ → Trainer F → G → Option (Trainer F × G)
  | 0, t, epochLoss => some (t, epochLoss)
  | steps + 1, t, epochLoss => do
      let (t, loss) ← trainStep nums.value cfg fuel d rows curLr t
      trainSteps nums cfg fuel d rows curLr steps t
        (epochLoss + nums.widen loss / ofNat cfg.batch)

def stepsOf (cfg : TrainConfig F) (rows : List (Row F)) : ℕ := max (rows.length / cfg.batch) 1

/-- The step length falls from epoch to epoch. -/
def curLr (cfg : TrainConfig F) (ep : ℕ) : F := cfg.lr * (lit 1 - ofNat ep / ofNat cfg.epochs)

def trainEpochs (nums : Numbers F G) (cfg : TrainConfig F) (fuel d : ℕ) (rows : List (Row F)) :
    List ℕ → Trainer F → Option (Trainer F × List F)
  | [], t => some (t, [])
  | ep :: eps, t => do
      let (t, epochLoss) ←
        trainSteps nums cfg fuel d rows (curLr cfg ep) (stepsOf cfg rows) t (lit 0)
      let (t, losses) ← trainEpochs nums cfg fuel d rows eps t
      return (t, nums.narrow (epochLoss / ofNat (stepsOf cfg rows)) :: losses)

/-- The trained projection and the history. An empty batch divides by zero. -/
def trainRanking (nums : Numbers F G) (cfg : TrainConfig F) (fuel d : ℕ) (rows : List (Row F))
    (p : ℕ → ℕ → F) : Option ((ℕ → ℕ → F) × History F) :=
  if rows = [] then some (p, ⟨[], 0, 0⟩)
  else if cfg.batch = 0 then none
  else do
    let (t, losses) ← trainEpochs nums cfg fuel d rows (List.range cfg.epochs)
      ⟨p, 0, 0, Rng.new cfg.seed⟩
    return (t.p, ⟨losses, t.rowsSeen, t.comparisons⟩)

end Program

/-- The projection with one entry replaced. -/
def setEntry (p : ℕ → ℕ → ℝ) (r m : ℕ) (y : ℝ) : ℕ → ℕ → ℝ :=
  fun r' m' => if r' = r ∧ m' = m then y else p r' m'

theorem setEntry_self (p : ℕ → ℕ → ℝ) (r m : ℕ) : setEntry p r m (p r m) = p := by
  funext r' m'
  unfold setEntry
  split
  · rename_i h
    rw [h.1, h.2]
  · rfl

section Entry
variable {d r m : ℕ} {p : ℕ → ℕ → ℝ}

theorem hasDerivAt_project (p : ℕ → ℕ → ℝ) (r : ℕ) (hm : m < d) (v : ℕ → ℝ) (r' : ℕ) :
    HasDerivAt (fun y => project d (setEntry p r m y) v r') (if r' = r then v m else 0)
      (p r m) := by
  have hterm : ∀ m' ∈ Finset.range d, HasDerivAt (fun y => setEntry p r m y r' m' * v m')
      (if m' = m then if r' = r then v m else 0 else 0) (p r m) := by
    intro m' _
    by_cases hentry : r' = r ∧ m' = m
    · have hfun : (fun y => setEntry p r m y r' m' * v m') = fun y => y * v m' := by
        funext y
        unfold setEntry
        rw [if_pos hentry]
      rw [hfun, if_pos hentry.2, if_pos hentry.1, hentry.2]
      exact ((hasDerivAt_id' _).mul_const (v m)).congr_deriv (one_mul _)
    · have hfun : (fun y => setEntry p r m y r' m' * v m') = fun _ => p r' m' * v m' := by
        funext y
        unfold setEntry
        rw [if_neg hentry]
      rw [hfun]
      apply (hasDerivAt_const (p r m) _).congr_deriv
      by_cases hmm : m' = m
      · rw [if_pos hmm, if_neg fun hr => hentry ⟨hr, hmm⟩]
      · rw [if_neg hmm]
  unfold project
  simp_rw [sumTo_eq]
  apply (HasDerivAt.fun_sum hterm).congr_deriv
  rw [Finset.sum_ite_eq', if_pos (Finset.mem_range.mpr hm)]

/-- The rate at which an entry moves the score of a key. -/
noncomputable def rate (d : ℕ) (p : ℕ → ℕ → ℝ) (row : Row ℝ) (r m j : ℕ) : ℝ :=
  row.q m * project d p (row.key j) r + row.key j m * project d p row.q r

theorem hasDerivAt_scores (hr : r < SlhaTile.dC) (hm : m < d) (row : Row ℝ) (j : ℕ) :
    HasDerivAt (fun y => scores d (setEntry p r m y) row j) (rate d p row r m j) (p r m) := by
  have hterm : ∀ r' ∈ Finset.range SlhaTile.dC, HasDerivAt
      (fun y => project d (setEntry p r m y) row.q r' *
        project d (setEntry p r m y) (row.key j) r')
      (if r' = r then rate d p row r m j else 0) (p r m) := by
    intro r' _
    have hprod := (hasDerivAt_project p r hm row.q r').mul
      (hasDerivAt_project p r hm (row.key j) r')
    apply hprod.congr_deriv
    rw [setEntry_self]
    by_cases hrr : r' = r
    · rw [if_pos hrr, if_pos hrr, if_pos hrr, hrr]
      unfold rate
      ring
    · rw [if_neg hrr, if_neg hrr, if_neg hrr]
      ring
  unfold scores
  simp_rw [sumTo_eq]
  apply (HasDerivAt.fun_sum hterm).congr_deriv
  rw [Finset.sum_ite_eq', if_pos (Finset.mem_range.mpr hr)]

end Entry

/-- A row that was trained on, with its comparisons. -/
structure Visit where
  row : Row ℝ
  pairs : List (ℕ × List ℕ)

def Visit.labels (v : Visit) : RankTraining.Visit := ⟨v.row.labels, v.pairs⟩

section Losses
variable (value : F32 → ℝ) (cfg : TrainConfig ℝ) (d : ℕ)

/-- The weights and the loss that the trainer computes for a row under a projection. -/
noncomputable def Visit.weights (v : Visit) (p : ℕ → ℕ → ℝ) : (ℕ → ℝ) × ℝ :=
  rowWeights cfg v.pairs (visible cfg v.row.labels) (baseline value v.row.labels)
    (scores d p v.row)

noncomputable def batchLoss (visits : List Visit) (p : ℕ → ℕ → ℝ) : ℝ :=
  (visits.map fun v => (v.weights value cfg d p).2).sum

/-- What the row loop adds to an entry of the gradient. -/
noncomputable def Visit.slope (v : Visit) (p : ℕ → ℕ → ℝ) (r m : ℕ) : ℝ :=
  dot (visible cfg v.row.labels) (v.weights value cfg d p).1 (rate d p v.row r m)

/-- No guard of the losses is active in the row. -/
def Visit.Unclamped (v : Visit) (p : ℕ → ℕ → ℝ) : Prop :=
  RankObjective.Unclamped cfg (visible cfg v.row.labels) (scores d p v.row)

/-- Keys are compared only where both are visible. -/
def Visit.Inside (v : Visit) : Prop :=
  ∀ pair ∈ flatten v.pairs, pair.1 < visible cfg v.row.labels ∧ pair.2 < visible cfg v.row.labels

end Losses

section Slopes
variable {value : F32 → ℝ} {cfg : TrainConfig ℝ} {d r m : ℕ} {p : ℕ → ℕ → ℝ}

theorem Visit.hasDerivAt {v : Visit} (hv : v.Inside cfg) (hclamp : v.Unclamped cfg d p)
    (hr : r < SlhaTile.dC) (hm : m < d) :
    HasDerivAt (fun y => (v.weights value cfg d (setEntry p r m y)).2)
      (v.slope value cfg d p r m) (p r m) := by
  have hswap := scoresAt_swap fun y => scores d (setEntry p r m y) v.row
  have hmoves : Moves (visible cfg v.row.labels)
      (fun j y => scores d (setEntry p r m y) v.row j) (rate d p v.row r m) (p r m) :=
    fun j _ => hasDerivAt_scores hr hm v.row j
  have hat := hswap (p r m)
  rw [setEntry_self] at hat
  have h := hasDerivAt_rowWeights hmoves hv (baseline value v.row.labels)
    (by rw [hat]; exact hclamp)
  rw [hat] at h
  simp only [hswap] at h
  exact h

theorem hasDerivAt_batchLoss {visits : List Visit} (hin : ∀ v ∈ visits, v.Inside cfg)
    (hclamp : ∀ v ∈ visits, v.Unclamped cfg d p) (hr : r < SlhaTile.dC) (hm : m < d) :
    HasDerivAt (fun y => batchLoss value cfg d visits (setEntry p r m y))
      (visits.map fun v => v.slope value cfg d p r m).sum (p r m) := by
  unfold batchLoss
  induction visits with
  | nil => exact hasDerivAt_const _ _
  | cons v visits ih =>
      simp only [List.map_cons, List.sum_cons]
      apply HasDerivAt.add
      · exact Visit.hasDerivAt (hin v List.mem_cons_self) (hclamp v List.mem_cons_self) hr hm
      · apply ih
        · exact fun u hu => hin u (List.mem_cons_of_mem _ hu)
        · exact fun u hu => hclamp u (List.mem_cons_of_mem _ hu)

end Slopes

theorem accumulate_eq (row : Row ℝ) (n : ℕ) (a : ℕ → ℝ) (bcols : ℕ → ℕ → ℝ) (w : ℕ → ℝ)
    (grad : ℕ → ℕ → ℝ) (r m : ℕ) : accumulate row n a bcols w grad r m =
      grad r m + dot n w fun j => row.q m * bcols j r + row.key j m * a r := by
  unfold accumulate dot
  induction n with
  | zero => simp
  | succ n ih =>
      rw [List.range_succ, List.foldl_append, Finset.sum_range_succ, ← add_assoc, ← ih,
        List.foldl_cons, List.foldl_nil]
      split
      · rename_i hzero
        have hw : w n = 0 := (of_decide_eq_true hzero).trans Rat.cast_zero
        rw [hw, zero_mul, add_zero]
      · rfl

theorem rowPairs_inside {cfg : RankTraining.TrainConfig} {fuel : ℕ} {logits : List F32}
    {rng rng' : Rng} {pairs : List (ℕ × List ℕ)}
    (h : RankTraining.rowPairs cfg fuel logits rng = some (pairs, rng')) :
    ∀ pair ∈ flatten pairs, pair.1 < logits.length ∧ pair.2 < logits.length := by
  intro pair hpair
  obtain ⟨p, hp, hin⟩ := List.mem_flatMap.mp hpair
  obtain ⟨j, hj, rfl⟩ := List.mem_map.mp hin
  unfold RankTraining.rowPairs at h
  have hrange : ∀ i ∈ RankTraining.baselineTopk logits logits.length, i < logits.length := by
    intro i hi
    exact List.mem_range.mp ((RankTraining.ranked_perm logits).mem_iff.mp hi)
  cases hobj : cfg.objective.pairwise with
  | none =>
      rw [hobj] at h
      cases h
      exact absurd hp List.not_mem_nil
  | some labels =>
      rw [hobj] at h
      obtain ⟨hfst, hdrawn⟩ := RankTraining.addPairwise_drawn h
      constructor
      · apply hrange
        have hmem : p.1 ∈ RankTraining.baselineTopk logits labels.1 :=
          hfst ▸ List.mem_map_of_mem hp
        rw [← RankTraining.take_ranked] at hmem
        exact List.mem_of_mem_take hmem
      · exact hrange j (List.mem_of_mem_drop ((hdrawn p hp).beyond j hj))

/-- What the visited rows add to a batch. -/
structure Adds (value : F32 → ℝ) (cfg : TrainConfig ℝ) (d : ℕ) (p : ℕ → ℕ → ℝ)
    (visits : List Visit) (b b' : Batch ℝ) : Prop where
  grad : ∀ r m, b'.grad r m =
    b.grad r m + (visits.map fun v => v.slope value cfg d p r m).sum
  loss : b'.loss = b.loss + batchLoss value cfg d visits p
  rowsSeen : b'.rowsSeen = b.rowsSeen + visits.length
  comparisons : b'.comparisons =
    b.comparisons + (visits.map fun v => (flatten v.pairs).length).sum

section Batches
variable {value : F32 → ℝ} {cfg : TrainConfig ℝ} {fuel d : ℕ} {p : ℕ → ℕ → ℝ}

theorem Adds.nil (b : Batch ℝ) : Adds value cfg d p [] b b := by
  constructor
  · exact fun r m => (add_zero _).symm
  · exact (add_zero _).symm
  · rfl
  · rfl

theorem Adds.append {vs us : List Visit} {b b1 b2 : Batch ℝ} (h : Adds value cfg d p vs b b1)
    (h' : Adds value cfg d p us b1 b2) : Adds value cfg d p (vs ++ us) b b2 := by
  constructor
  · intro r m
    rw [h'.grad, h.grad, List.map_append, List.sum_append, add_assoc]
  · rw [h'.loss, h.loss, add_assoc]
    unfold batchLoss
    rw [List.map_append, List.sum_append]
  · rw [h'.rowsSeen, h.rowsSeen, List.length_append, add_assoc]
  · rw [h'.comparisons, h.comparisons, List.map_append, List.sum_append, add_assoc]

theorem trainRow_adds {row : Row ℝ} {b b' : Batch ℝ}
    (h : trainRow value cfg fuel d p row b = some b') :
    ∃ visits, Adds value cfg d p visits b b' ∧ (∀ v ∈ visits, v.row = row ∧ v.Inside cfg) ∧
      RankTraining.trainRow cfg.labels fuel row.labels b.rng =
        some (visits.map Visit.labels, b'.rng) := by
  unfold trainRow at h
  unfold RankTraining.trainRow
  dsimp only at h ⊢
  have hvis : min row.labels.nVisible cfg.labels.maxKeys = visible cfg row.labels := rfl
  rw [hvis]
  split at h
  · rename_i hzero
    cases h
    refine ⟨[], Adds.nil b, fun v hv => absurd hv List.not_mem_nil, ?_⟩
    rw [if_pos hzero]
    rfl
  · rename_i hpos
    split at h
    · cases h
    · rename_i hlen
      obtain ⟨⟨pairs, rng⟩, hpairs, h⟩ := Option.bind_eq_some_iff.mp h
      cases h
      refine ⟨[⟨row, pairs⟩], ?_, ?_, ?_⟩
      · constructor
        · intro r m
          rw [List.map_singleton, List.sum_singleton]
          exact accumulate_eq _ _ _ _ _ _ _ _
        · unfold batchLoss
          rw [List.map_singleton, List.sum_singleton]
          rfl
        · rfl
        · rfl
      · intro v hv
        rw [List.mem_singleton.mp hv]
        constructor
        · rfl
        · intro pair hpair
          have hin := rowPairs_inside hpairs pair hpair
          rw [List.length_take, min_eq_left (Nat.le_of_not_lt hlen)] at hin
          exact hin
      · rw [if_neg hpos, if_neg hlen, hpairs]
        rfl

/-- The rows and the comparisons of the next turns, and the generator behind them. -/
def drawRows (cfg : RankTraining.TrainConfig) (fuel : ℕ) (rows : List RankTraining.Row) :
    ℕ → Rng → Option (List RankTraining.Visit × Rng)
  | 0, rng => some ([], rng)
  | turns + 1, rng => do
      let row ← rows[rng.nextU64.1.toNat % rows.length]?
      let (visits, rng) ← RankTraining.trainRow cfg fuel row rng.nextU64.2
      let (later, rng) ← drawRows cfg fuel rows turns rng
      return (visits ++ later, rng)

theorem trainRows_of_drawRows {cfg : RankTraining.TrainConfig} {rows : List RankTraining.Row}
    {turns : ℕ} {rng rng' : Rng} {visits : List RankTraining.Visit}
    (h : drawRows cfg fuel rows turns rng = some (visits, rng')) :
    RankTraining.trainRows cfg fuel rows turns rng = some visits := by
  induction turns generalizing rng visits with
  | zero =>
      cases h
      rfl
  | succ turns ih =>
      obtain ⟨row, hrow, h⟩ := Option.bind_eq_some_iff.mp h
      obtain ⟨⟨vs, rng1⟩, hvs, h⟩ := Option.bind_eq_some_iff.mp h
      obtain ⟨⟨us, rng2⟩, hus, h⟩ := Option.bind_eq_some_iff.mp h
      cases h
      unfold RankTraining.trainRows
      dsimp only
      rw [hrow, Option.bind_eq_bind, Option.bind_some, hvs, Option.bind_eq_bind, Option.bind_some,
        ih hus]
      rfl

theorem drawRows_add {cfg : RankTraining.TrainConfig} {rows : List RankTraining.Row}
    {i j : ℕ} {rng rng1 rng2 : Rng} {vs us : List RankTraining.Visit}
    (hvs : drawRows cfg fuel rows i rng = some (vs, rng1))
    (hus : drawRows cfg fuel rows j rng1 = some (us, rng2)) :
    drawRows cfg fuel rows (i + j) rng = some (vs ++ us, rng2) := by
  induction i generalizing rng vs with
  | zero =>
      cases hvs
      rw [Nat.zero_add]
      exact hus
  | succ i ih =>
      obtain ⟨row, hrow, h⟩ := Option.bind_eq_some_iff.mp hvs
      obtain ⟨⟨ws, rng3⟩, hws, h⟩ := Option.bind_eq_some_iff.mp h
      obtain ⟨⟨xs, rng4⟩, hxs, h⟩ := Option.bind_eq_some_iff.mp h
      cases h
      rw [Nat.succ_add]
      unfold drawRows
      rw [hrow, Option.bind_eq_bind, Option.bind_some, hws, Option.bind_eq_bind, Option.bind_some]
      dsimp only
      rw [ih hxs, List.append_assoc]
      rfl

theorem trainBatch_adds {rows : List (Row ℝ)} {turns : ℕ} {b b' : Batch ℝ}
    (h : trainBatch value cfg fuel d rows p turns b = some b') :
    ∃ visits, Adds value cfg d p visits b b' ∧ (∀ v ∈ visits, v.row ∈ rows ∧ v.Inside cfg) ∧
      drawRows cfg.labels fuel (rows.map Row.labels) turns b.rng =
        some (visits.map Visit.labels, b'.rng) := by
  induction turns generalizing b with
  | zero =>
      cases h
      exact ⟨[], Adds.nil _, fun v hv => absurd hv List.not_mem_nil, rfl⟩
  | succ turns ih =>
      obtain ⟨row, hrow, h⟩ := Option.bind_eq_some_iff.mp h
      obtain ⟨b1, hb1, h⟩ := Option.bind_eq_some_iff.mp h
      obtain ⟨vs, hadds, hvs, hdraw⟩ := trainRow_adds hb1
      obtain ⟨us, hadds', hus, hdraw'⟩ := ih h
      have hget : rows[b.rng.nextU64.1.toNat % rows.length]? = some row := hrow
      have hlabels : (rows.map Row.labels)[b.rng.nextU64.1.toNat %
          (rows.map Row.labels).length]? = some row.labels := by
        rw [List.length_map, List.getElem?_map, hget]
        rfl
      refine ⟨vs ++ us, ?_, ?_, ?_⟩
      · exact Adds.append ⟨hadds.grad, hadds.loss, hadds.rowsSeen, hadds.comparisons⟩ hadds'
      · intro v hv
        rcases List.mem_append.mp hv with hv | hv
        · obtain ⟨hmem, hin⟩ := hvs v hv
          exact ⟨hmem ▸ List.mem_of_getElem? hrow, hin⟩
        · exact hus v hv
      · have hnext : RankTraining.trainRow cfg.labels fuel row.labels b.rng.nextU64.2 =
            some (vs.map Visit.labels, b1.rng) := hdraw
        unfold drawRows
        rw [hlabels, Option.bind_eq_bind, Option.bind_some, hnext, Option.bind_eq_bind,
          Option.bind_some]
        dsimp only
        rw [hdraw', List.map_append]
        rfl

end Batches

/-- One step of a run: its length, the rows it drew and the projections around it. -/
structure Step where
  lr : ℝ
  visits : List Visit
  before : ℕ → ℕ → ℝ
  after : ℕ → ℕ → ℝ

/-- Where no guard is active, every entry has moved against the derivative of the batch's loss. -/
def Step.Descends (value : F32 → ℝ) (cfg : TrainConfig ℝ) (d : ℕ) (st : Step) : Prop :=
  (∀ v ∈ st.visits, v.Unclamped cfg d st.before) → ∀ r m, r < SlhaTile.dC → m < d →
    ∃ slope, HasSlope (fun y => batchLoss value cfg d st.visits (setEntry st.before r m y)) slope
        (st.before r m) ∧
      st.after r m = st.before r m - st.lr / cfg.batch * slope

/-- Each step starts where the one before it ended. -/
def Leads : (ℕ → ℕ → ℝ) → List Step → (ℕ → ℕ → ℝ) → Prop
  | p, [], p' => p = p'
  | p, st :: trace, p' => st.before = p ∧ Leads st.after trace p'

theorem Leads.append {trace trace' : List Step} {p p1 p2 : ℕ → ℕ → ℝ} (h : Leads p trace p1)
    (h' : Leads p1 trace' p2) : Leads p (trace ++ trace') p2 := by
  induction trace generalizing p with
  | nil =>
      cases h
      exact h'
  | cons st trace ih => exact ⟨h.1, ih h.2⟩

def visited (trace : List Step) : List Visit := trace.flatMap Step.visits

/-- The losses of the batches, each under the projection it was drawn at. -/
noncomputable def losses (value : F32 → ℝ) (cfg : TrainConfig ℝ) (d : ℕ) (trace : List Step) :
    List ℝ :=
  trace.map fun st => batchLoss value cfg d st.visits st.before

/-- The reals as single and as double numbers: no conversion rounds. -/
def exact (value : F32 → ℝ) : Numbers ℝ ℝ := ⟨value, id, id⟩

/-- What a stretch of a run did between two states of the trainer. -/
structure Traced (value : F32 → ℝ) (cfg : TrainConfig ℝ) (fuel d : ℕ) (rows : List (Row ℝ))
    (t t' : Trainer ℝ) (trace : List Step) : Prop where
  leads : Leads t.p trace t'.p
  descends : ∀ st ∈ trace, st.Descends value cfg d
  member : ∀ v ∈ visited trace, v.row ∈ rows
  drawn : drawRows cfg.labels fuel (rows.map Row.labels) (trace.length * cfg.batch) t.rng =
    some ((visited trace).map Visit.labels, t'.rng)
  rowsSeen : t'.rowsSeen = t.rowsSeen + (visited trace).length
  comparisons : t'.comparisons =
    t.comparisons + ((visited trace).map fun v => (flatten v.pairs).length).sum

section Traces
variable {value : F32 → ℝ} {cfg : TrainConfig ℝ} {fuel d : ℕ} {rows : List (Row ℝ)}

theorem Traced.nil (t : Trainer ℝ) : Traced value cfg fuel d rows t t [] := by
  constructor
  · rfl
  · exact fun st hst => absurd hst List.not_mem_nil
  · exact fun v hv => absurd hv List.not_mem_nil
  · rw [List.length_nil, Nat.zero_mul]
    rfl
  · rfl
  · rfl

theorem Traced.append {t t1 t2 : Trainer ℝ} {trace trace' : List Step}
    (h : Traced value cfg fuel d rows t t1 trace)
    (h' : Traced value cfg fuel d rows t1 t2 trace') :
    Traced value cfg fuel d rows t t2 (trace ++ trace') := by
  have hvisited : visited (trace ++ trace') = visited trace ++ visited trace' :=
    List.flatMap_append
  constructor
  · exact h.leads.append h'.leads
  · intro st hst
    rcases List.mem_append.mp hst with hst | hst
    · exact h.descends st hst
    · exact h'.descends st hst
  · intro v hv
    rw [hvisited] at hv
    rcases List.mem_append.mp hv with hv | hv
    · exact h.member v hv
    · exact h'.member v hv
  · rw [List.length_append, Nat.add_mul, hvisited, List.map_append]
    exact drawRows_add h.drawn h'.drawn
  · rw [h'.rowsSeen, h.rowsSeen, hvisited, List.length_append, add_assoc]
  · rw [h'.comparisons, h.comparisons, hvisited, List.map_append, List.sum_append, add_assoc]

theorem trainStep_traced {lr loss : ℝ} {t t' : Trainer ℝ}
    (h : trainStep value cfg fuel d rows lr t = some (t', loss)) :
    ∃ st : Step, st.lr = lr ∧ loss = batchLoss value cfg d st.visits st.before ∧
      Traced value cfg fuel d rows t t' [st] := by
  obtain ⟨b, hb, h⟩ := Option.bind_eq_some_iff.mp h
  cases h
  obtain ⟨visits, hadds, hvisits, hdrawn⟩ := trainBatch_adds hb
  have hzero : (Single.lit 0 : ℝ) = 0 := Rat.cast_zero
  have hcast : (Single.ofNat cfg.batch : ℝ) = cfg.batch := Rat.cast_natCast cfg.batch
  have hvisited : ∀ q, visited [⟨lr, visits, t.p, q⟩] = visits := by
    intro q
    exact List.append_nil _
  refine ⟨⟨lr, visits, t.p, _⟩, rfl, ?_, ⟨rfl, rfl⟩, ?_, ?_, ?_, ?_, ?_⟩
  · rw [hadds.loss]
    exact (congrArg (· + _) hzero).trans (zero_add _)
  · intro st hst
    rw [List.mem_singleton.mp hst]
    intro hclamp r m hr hm
    refine ⟨_, hasDerivAt_batchLoss (fun v hv => (hvisits v hv).2) hclamp hr hm, ?_⟩
    show t.p r m - lr / Single.ofNat cfg.batch * b.grad r m = _
    rw [hadds.grad, hcast]
    congr 2
    exact (congrArg (· + _) hzero).trans (zero_add _)
  · rw [hvisited]
    exact fun v hv => (hvisits v hv).1
  · rw [hvisited, List.length_singleton, Nat.one_mul]
    exact hdrawn
  · rw [hvisited]
    exact hadds.rowsSeen
  · rw [hvisited]
    exact hadds.comparisons

theorem trainSteps_traced {lr epochLoss epochLoss' : ℝ} {steps : ℕ} {t t' : Trainer ℝ}
    (h : trainSteps (exact value) cfg fuel d rows lr steps t epochLoss = some (t', epochLoss')) :
    ∃ trace, trace.map Step.lr = List.replicate steps lr ∧
      epochLoss' = epochLoss + (losses value cfg d trace).sum / cfg.batch ∧
      Traced value cfg fuel d rows t t' trace := by
  induction steps generalizing t epochLoss with
  | zero =>
      cases h
      refine ⟨[], rfl, ?_, Traced.nil _⟩
      unfold losses
      rw [List.map_nil, List.sum_nil, zero_div, add_zero]
  | succ steps ih =>
      obtain ⟨⟨t1, loss⟩, hstep, h⟩ := Option.bind_eq_some_iff.mp h
      obtain ⟨st, hlr, hloss, htraced⟩ := trainStep_traced hstep
      obtain ⟨trace, hlrs, hsum, htraced'⟩ := ih h
      have hcast : (Single.ofNat cfg.batch : ℝ) = cfg.batch := Rat.cast_natCast cfg.batch
      refine ⟨st :: trace, ?_, ?_, htraced.append htraced'⟩
      · rw [List.map_cons, hlrs, hlr, List.replicate_succ]
      · have hcons : losses value cfg d (st :: trace) = loss :: losses value cfg d trace :=
          congrArg (· :: _) hloss.symm
        rw [hsum, hcons, List.sum_cons, hcast]
        show epochLoss + loss / cfg.batch + _ = _
        ring

/-- The step lengths of a run, epoch by epoch. -/
noncomputable def schedule (cfg : TrainConfig ℝ) (rows : List (Row ℝ)) (eps : List ℕ) : List ℝ :=
  eps.flatMap fun ep => List.replicate (stepsOf cfg rows) (curLr cfg ep)

theorem trainEpochs_traced {eps : List ℕ} {t t' : Trainer ℝ} {ls : List ℝ}
    (h : trainEpochs (exact value) cfg fuel d rows eps t = some (t', ls)) :
    ∃ trace, trace.map Step.lr = schedule cfg rows eps ∧
      ls.length = eps.length ∧
      ls.sum = (losses value cfg d trace).sum / cfg.batch / stepsOf cfg rows ∧
      Traced value cfg fuel d rows t t' trace := by
  induction eps generalizing t ls with
  | nil =>
      cases h
      refine ⟨[], rfl, rfl, ?_, Traced.nil _⟩
      unfold losses
      rw [List.map_nil, List.sum_nil, zero_div, zero_div]
  | cons ep eps ih =>
      obtain ⟨⟨t1, epochLoss⟩, hsteps, h⟩ := Option.bind_eq_some_iff.mp h
      obtain ⟨⟨t2, ls1⟩, hrest, h⟩ := Option.bind_eq_some_iff.mp h
      cases h
      obtain ⟨trace, hlrs, hloss, htraced⟩ := trainSteps_traced hsteps
      obtain ⟨trace', hlrs', hlen, hsum, htraced'⟩ := ih hrest
      have hzero : (Single.lit 0 : ℝ) = 0 := Rat.cast_zero
      have hcast : (Single.ofNat (stepsOf cfg rows) : ℝ) = stepsOf cfg rows :=
        Rat.cast_natCast (stepsOf cfg rows)
      refine ⟨trace ++ trace', ?_, congrArg (· + 1) hlen, ?_, htraced.append htraced'⟩
      · rw [List.map_append, hlrs, hlrs']
        rfl
      · have happend : losses value cfg d (trace ++ trace') =
            losses value cfg d trace ++ losses value cfg d trace' := List.map_append
        rw [List.sum_cons, hsum, hloss, hcast, hzero, happend, List.sum_append]
        show (0 + _) / _ + _ = _
        ring

/-- A training run over the reals is a sequence of gradient steps on the losses of the rows it
draws, and it draws and compares what the labels and the seed alone decide. -/
theorem trainRanking_descends {p p' : ℕ → ℕ → ℝ} {hist : History ℝ} (hrows : rows ≠ [])
    (hrun : trainRanking (exact value) cfg fuel d rows p = some (p', hist)) :
    ∃ trace, Leads p trace p' ∧ trace.map Step.lr = schedule cfg rows (List.range cfg.epochs) ∧
      (∀ st ∈ trace, st.Descends value cfg d) ∧
      (∀ v ∈ visited trace, v.row ∈ rows) ∧
      RankTraining.trainRanking cfg.labels fuel (rows.map Row.labels) =
        some ((visited trace).map Visit.labels) ∧
      hist.epochLoss.length = cfg.epochs ∧
      hist.epochLoss.sum = (losses value cfg d trace).sum / cfg.batch / stepsOf cfg rows ∧
      hist.rowsSeen = (visited trace).length ∧
      hist.comparisons = ((visited trace).map fun v => (flatten v.pairs).length).sum := by
  unfold trainRanking at hrun
  rw [if_neg hrows] at hrun
  split at hrun
  · cases hrun
  · rename_i hbatch
    obtain ⟨⟨t, ls⟩, hepochs, hrun⟩ := Option.bind_eq_some_iff.mp hrun
    cases hrun
    obtain ⟨trace, hlrs, hlen, hsum, htraced⟩ := trainEpochs_traced hepochs
    have hcount : trace.length = cfg.epochs * stepsOf cfg rows := by
      rw [← List.length_map Step.lr, hlrs]
      unfold schedule
      simp
    refine ⟨trace, htraced.leads, hlrs, htraced.descends, htraced.member, ?_,
      hlen.trans List.length_range, hsum, htraced.rowsSeen.trans (Nat.zero_add _),
      htraced.comparisons.trans (Nat.zero_add _)⟩
    have hlabels : rows.map Row.labels ≠ [] := fun h => hrows (List.map_eq_nil_iff.mp h)
    have hbatch' : cfg.labels.batch ≠ 0 := hbatch
    have hdrawn := htraced.drawn
    unfold RankTraining.trainRanking
    rw [if_neg hlabels, if_neg hbatch', List.length_map]
    rw [hcount, Nat.mul_assoc] at hdrawn
    exact trainRows_of_drawRows hdrawn

end Traces

-- One epoch over one row, whose second key is compared with its first.
noncomputable def comparing : TrainConfig ℝ := ⟨.pairwiseTopK 1 1 1, 0, 1, 1, 1, 7, 2, 1⟩

noncomputable def twoKeys : Row ℝ := ⟨fun _ => 1, fun j _ => j, RankTraining.rising⟩

theorem trainRanking_descends_comparing : ∃ p' hist,
    trainRanking (exact fun _ => 0) comparing 2 1 [twoKeys] (fun _ _ => 0) = some (p', hist) ∧
    ∃ trace, Leads (fun _ _ => 0) trace p' ∧
      trace.map Step.lr = schedule comparing [twoKeys] (List.range 1) ∧
      (∀ st ∈ trace, st.Descends (fun _ => 0) comparing 1) ∧
      (∀ v ∈ visited trace, v.row ∈ [twoKeys]) ∧
      RankTraining.trainRanking comparing.labels 2 [RankTraining.rising] =
        some ((visited trace).map Visit.labels) ∧
      hist.epochLoss.length = 1 ∧
      hist.epochLoss.sum = (losses (fun _ => 0) comparing 1 trace).sum / comparing.batch /
        stepsOf comparing [twoKeys] ∧
      hist.rowsSeen = (visited trace).length ∧
      hist.comparisons = ((visited trace).map fun v => (flatten v.pairs).length).sum := by
  have hsome : (trainRanking (exact fun _ => 0) comparing 2 1 [twoKeys]
      (fun _ _ => 0)).isSome = true := by decide +kernel
  obtain ⟨⟨p', hist⟩, hrun⟩ := Option.isSome_iff_exists.mp hsome
  exact ⟨p', hist, hrun, trainRanking_descends (List.cons_ne_nil _ _) hrun⟩

end SlhaV2.RankDescent
