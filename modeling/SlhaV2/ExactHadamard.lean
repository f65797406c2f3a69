import SlhaV2.Incoherence
import SlhaV2.WalshTransform

/-!
# The Hadamard transform in exact arithmetic

The loops of the in-place transform carry out the stages of the Walsh-Hadamard
transform one pair at a time, and never leave the array. With the last scaling
left out the transform of a padded and signed vector keeps inner products, up to
the padded length.
-/
namespace SlhaV2.ExactHadamard
open MachineWord CheckedSteps SingleFloat Single Incoherence WalshTransform

/-- The array of the first `n` values. -/
def table (n : ℕ) (f : ℕ → ℚ) : List ℚ := (List.range n).map f

section Loops
variable {n h i m : ℕ} {f : ℕ → ℚ}

@[simp] theorem length_table : (table n f).length = n := by
  unfold table
  rw [List.length_map, List.length_range]

theorem getElem?_table (hi : i < n) : (table n f)[i]? = some (f i) := by
  unfold table
  rw [List.getElem?_map, List.getElem?_range hi, Option.map_some]

theorem index_table (hi : i < n) : index (table n f) i = .ok (f i) :=
  index_eq_ok.mpr (getElem?_table hi)

theorem table_congr {g : ℕ → ℚ} (hfg : ∀ x < n, f x = g x) : table n f = table n g :=
  List.map_congr_left fun x hx => hfg x (List.mem_range.mp hx)

theorem set_table (x : ℚ) : (table n f).set i x = table n (Function.update f i x) := by
  apply List.ext_getElem?
  intro j
  rw [List.getElem?_set, length_table]
  by_cases hj : j < n
  · rw [getElem?_table hj, getElem?_table hj]
    by_cases hij : i = j
    · subst hij
      simp [hj]
    · simp [hij, Ne.symm hij]
  · have hnone : ∀ g : ℕ → ℚ, (table n g)[j]? = none := fun g =>
      List.getElem?_eq_none (by rw [length_table]; omega)
    rw [hnone, hnone]
    by_cases hij : i = j
    · subst hij
      simp [hj]
    · simp [hij]

theorem eq_table (v : List ℚ) : v = table v.length fun j => v.getD j 0 := by
  apply List.ext_getElem?
  intro j
  by_cases hj : j < v.length
  · rw [getElem?_table hj, List.getD_eq_getElem?_getD, List.getElem?_eq_getElem hj,
      Option.getD_some]
  · rw [List.getElem?_eq_none (not_lt.mp hj), List.getElem?_eq_none]
    rw [length_table]
    exact not_lt.mp hj

/-- The values after the first `m` pairs of the block at `i`. -/
def pairs (h i m : ℕ) (f : ℕ → ℚ) (x : ℕ) : ℚ :=
  if i ≤ x ∧ x < i + m then f x + f (x + h)
  else if i + h ≤ x ∧ x < i + h + m then f (x - h) - f x
  else f x

theorem butterfly_table {j : ℕ} (hj : j + h < n) : butterfly h (table n f) j =
    .ok (table n (Function.update (Function.update f j (f j + f (j + h))) (j + h)
      (f j - f (j + h)))) := by
  unfold butterfly
  rw [index_table (by omega), index_table hj, ok_bind, ok_bind, set_table, set_table]
  rfl

/-- The inner loop replaces one pair after the other. -/
theorem foldlM_butterfly (hm : m ≤ h) (hn : i + m + h ≤ n) :
    (List.range' i m).foldlM (butterfly h) (table n f) = .ok (table n (pairs h i m f)) := by
  induction m with
  | zero =>
      refine congrArg Except.ok (table_congr fun x _ => ?_)
      unfold pairs
      rw [if_neg (by omega), if_neg (by omega)]
  | succ m ih =>
      have hleft : pairs h i m f (i + m) = f (i + m) := by
        unfold pairs
        rw [if_neg (by omega), if_neg (by omega)]
      have hright : pairs h i m f (i + m + h) = f (i + m + h) := by
        unfold pairs
        rw [if_neg (by omega), if_neg (by omega)]
      rw [List.range'_1_concat, List.foldlM_append, ih (by omega) (by omega), ok_bind,
        List.foldlM_cons, butterfly_table (by omega), ok_bind, hleft, hright]
      refine congrArg Except.ok (table_congr fun x _ => ?_)
      by_cases hx : x = i + m + h
      · subst hx
        rw [Function.update_self]
        unfold pairs
        rw [if_neg (by omega), if_pos (by omega), Nat.add_sub_cancel]
      · rw [Function.update_of_ne hx]
        by_cases hx' : x = i + m
        · subst hx'
          rw [Function.update_self]
          unfold pairs
          rw [if_pos (by omega)]
        · rw [Function.update_of_ne hx']
          have hsum : (i ≤ x ∧ x < i + (m + 1)) ↔ i ≤ x ∧ x < i + m := by omega
          have hdiff : (i + h ≤ x ∧ x < i + h + (m + 1)) ↔ i + h ≤ x ∧ x < i + h + m := by omega
          simp only [pairs, hsum, hdiff]

/-- A whole block of pairs is what a stage does there. -/
theorem pairs_eq_stage {s q x : ℕ} (f : ℕ → ℚ) (hlow : 2 * 2 ^ s * q ≤ x)
    (hhigh : x < 2 * 2 ^ s * (q + 1)) : pairs (2 ^ s) (2 * 2 ^ s * q) (2 ^ s) f x = stage s f x := by
  have hpos := Nat.two_pow_pos s
  have hbase : 2 * 2 ^ s * q = 2 * q * 2 ^ s := by ring
  have hnext : 2 * 2 ^ s * (q + 1) = 2 * q * 2 ^ s + 2 * 2 ^ s := by ring
  rw [hbase] at hlow ⊢
  rw [hnext] at hhigh
  unfold pairs stage
  by_cases hx : x < 2 * q * 2 ^ s + 2 ^ s
  · have hdiv : x / 2 ^ s = 2 * q :=
      Nat.div_eq_of_lt_le hlow (by rw [Nat.succ_mul]; exact hx)
    rw [if_pos ⟨hlow, hx⟩, hdiv, if_pos (Nat.mul_mod_right 2 q)]
  · have hdiv : x / 2 ^ s = 2 * q + 1 := by
      refine Nat.div_eq_of_lt_le ?_ ?_
      · rw [Nat.succ_mul]
        omega
      · rw [Nat.succ_mul, Nat.succ_mul]
        omega
    rw [if_neg (fun h => hx h.2), if_pos (by omega), hdiv, if_neg (by omega)]

/-- Behind the block the stage only looks behind the block. -/
theorem stage_pairs {s q x : ℕ} (f : ℕ → ℚ) (hlow : 2 * 2 ^ s * (q + 1) ≤ x) :
    stage s (pairs (2 ^ s) (2 * 2 ^ s * q) (2 ^ s) f) x = stage s f x := by
  have hpos := Nat.two_pow_pos s
  have hnext : 2 * 2 ^ s * (q + 1) = 2 * 2 ^ s * q + 2 ^ s + 2 ^ s := by ring
  rw [hnext] at hlow
  have hsame : ∀ y, 2 * 2 ^ s * q + 2 ^ s + 2 ^ s ≤ y →
      pairs (2 ^ s) (2 * 2 ^ s * q) (2 ^ s) f y = f y := by
    intro y hy
    unfold pairs
    rw [if_neg (by omega), if_neg (by omega)]
  unfold stage
  rw [hsame x hlow, hsame (x + 2 ^ s) (by omega)]
  split_ifs with heven
  · rfl
  · -- an entry of a second half has its partner in the same block
    have hq : 2 * q + 2 ≤ x / 2 ^ s := by
      rw [Nat.le_div_iff_mul_le hpos]
      calc (2 * q + 2) * 2 ^ s = 2 * 2 ^ s * q + 2 ^ s + 2 ^ s := by ring
        _ ≤ x := hlow
    have hq' : 2 * q + 3 ≤ x / 2 ^ s := by omega
    rw [Nat.le_div_iff_mul_le hpos] at hq'
    have hroom : 2 * 2 ^ s * q + 2 ^ s + 2 ^ s + 2 ^ s ≤ x := by
      calc 2 * 2 ^ s * q + 2 ^ s + 2 ^ s + 2 ^ s = (2 * q + 3) * 2 ^ s := by ring
        _ ≤ x := hq'
    rw [hsame (x - 2 ^ s) (by omega)]

/-- From any block on the loop does the stage for the blocks that are left. -/
theorem blocks_table (s r q : ℕ) (f : ℕ → ℚ) :
    blocks (2 * 2 ^ s * (q + r)) (2 ^ s) (2 * 2 ^ s * q) (table (2 * 2 ^ s * (q + r)) f) =
      .ok (table (2 * 2 ^ s * (q + r)) fun x =>
        if 2 * 2 ^ s * q ≤ x then stage s f x else f x) := by
  have hpos := Nat.two_pow_pos s
  induction r generalizing q f with
  | zero =>
      rw [Nat.add_zero]
      unfold blocks
      rw [if_neg (by omega)]
      refine congrArg Except.ok (table_congr fun x hx => ?_)
      rw [if_neg (by omega)]
  | succ r ih =>
      have hsize : 2 * 2 ^ s * (q + (r + 1)) =
          2 * 2 ^ s * q + 2 * 2 ^ s + 2 * 2 ^ s * r := by ring
      have hnext : 2 * 2 ^ s * (q + 1) = 2 * 2 ^ s * q + 2 * 2 ^ s := by ring
      have hrest := ih (q + 1) (pairs (2 ^ s) (2 * 2 ^ s * q) (2 ^ s) f)
      rw [show q + 1 + r = q + (r + 1) by omega] at hrest
      unfold blocks
      rw [if_pos (by omega), foldlM_butterfly le_rfl (by omega), ok_bind, ← hnext, hrest]
      refine congrArg Except.ok (table_congr fun x _ => ?_)
      by_cases hx : 2 * 2 ^ s * (q + 1) ≤ x
      · rw [if_pos hx, if_pos (by omega), stage_pairs f hx]
      · rw [if_neg hx]
        by_cases hx' : 2 * 2 ^ s * q ≤ x
        · rw [if_pos hx', pairs_eq_stage f hx' (not_le.mp hx)]
        · rw [if_neg hx']
          unfold pairs
          rw [if_neg (by omega), if_neg (by omega)]

/-- From any stride on the loop does the stages that are left. -/
theorem stages_table (s r : ℕ) (f : ℕ → ℚ) :
    stages (2 ^ (s + r)) (2 ^ s) (table (2 ^ (s + r)) (walsh s f)) =
      .ok (table (2 ^ (s + r)) (walsh (s + r) f)) := by
  have hpos := Nat.two_pow_pos s
  induction r generalizing s with
  | zero =>
      unfold stages
      rw [Nat.add_zero, if_neg (by omega)]
      rfl
  | succ r ih =>
      have hsize : 2 ^ (s + (r + 1)) = 2 * 2 ^ s * (0 + 2 ^ r) := by
        rw [pow_add, pow_succ]
        ring
      have hlt : 2 ^ s < 2 ^ (s + (r + 1)) := Nat.pow_lt_pow_right (by decide) (by omega)
      have hblocks := blocks_table s (2 ^ r) 0 (walsh s f)
      rw [← hsize, Nat.mul_zero] at hblocks
      have hstage : (fun x => if 0 ≤ x then stage s (walsh s f) x else walsh s f x) =
          walsh (s + 1) f := by
        rw [← stage_walsh]
        funext x
        rw [if_pos (Nat.zero_le x)]
      have hrest := ih (s + 1) (Nat.two_pow_pos (s + 1))
      rw [show s + 1 + r = s + (r + 1) by omega, pow_succ, Nat.mul_comm _ 2] at hrest
      unfold stages
      rw [if_pos ⟨hpos, hlt⟩, hblocks, ok_bind, hstage, hrest]

end Loops

/-- The signs drawn from the generator, as numbers of any kind. -/
def signs (F : Type) [Single F] : ℕ → Rng → List F
  | 0, _ => []
  | n + 1, r =>
      let (u, r) := r.nextUnit
      (if lt u (lit (1 / 2)) then lit (-1) else lit 1) :: signs F n r

/-- `HadamardIncoherence::transform_into` up to its last scaling. -/
def transformUnscaled {F : Type} [Single F] (diag : List F) (d dPad : ℕ) (v : List F) :
    Outcome (List F) :=
  if v.length ≠ d then .error .panic
  else do
    let out := v ++ List.replicate (dPad - d) (lit 0)
    let out ← (List.range dPad).mapM fun i => do return (← index out i) * (← index diag i)
    stages out.length 1 out

theorem drawSigns_eq (n : ℕ) (r : Rng) : HadamardIncoherence.drawSigns n r = signs Float32 n r := by
  induction n generalizing r with
  | zero => rfl
  | succ n ih =>
      unfold HadamardIncoherence.drawSigns signs
      simp only [ih]

section Powers

theorem doubleTo_spec {n p : ℕ} (hp : 0 < p) : ∃ k, doubleTo n p = 2 ^ k * p := by
  fun_induction doubleTo n p with
  | case1 p hlt ih =>
      obtain ⟨k, hk⟩ := ih (by omega)
      refine ⟨k + 1, ?_⟩
      rw [hk, pow_succ]
      ring
  | case2 p hge => exact ⟨0, by rw [pow_zero, Nat.one_mul]⟩

theorem le_doubleTo {n p : ℕ} (hp : 0 < p) : n ≤ doubleTo n p := by
  fun_induction doubleTo n p with
  | case1 p hlt ih => exact ih (by omega)
  | case2 p hge => omega

theorem exists_nextPow2 (n : ℕ) : ∃ k, nextPow2 n = 2 ^ k := by
  obtain ⟨k, hk⟩ := doubleTo_spec (n := n) Nat.one_pos
  exact ⟨k, by rw [nextPow2, hk, Nat.mul_one]⟩

/-- Doubling stops at the first power that is large enough. -/
theorem nextPow2_isLeast (n : ℕ) : IsLeast {p | (∃ k, p = 2 ^ k) ∧ n ≤ p} (nextPow2 n) := by
  refine ⟨⟨exists_nextPow2 n, le_doubleTo Nat.one_pos⟩, ?_⟩
  rintro _ ⟨⟨k, rfl⟩, hle⟩
  rcases Nat.eq_zero_or_pos n with rfl | hn
  · have hone : nextPow2 0 = 1 := by
      unfold nextPow2 doubleTo
      rfl
    rw [hone]
    exact Nat.two_pow_pos k
  · obtain ⟨m, hm⟩ := exists_nextPow2 n
    have hlt := nextPow2_lt hn
    rw [hm] at hlt ⊢
    by_contra hgt
    have hmk : k < m := (Nat.pow_lt_pow_iff_right (by decide)).mp (not_le.mp hgt)
    have hdouble : 2 ^ (k + 1) ≤ 2 ^ m := Nat.pow_le_pow_right (by decide) hmk
    rw [pow_succ] at hdouble
    omega

end Powers

theorem isPowerOfTwo_two_pow (k : ℕ) : isPowerOfTwo (2 ^ k) = true := by
  unfold isPowerOfTwo
  simp [Nat.log2_two_pow]

theorem length_of_mapM {α β : Type} {f : α → Outcome β} {l : List α} {out : List β}
    (h : l.mapM f = .ok out) : out.length = l.length := by
  induction l generalizing out with
  | nil =>
      obtain rfl := Except.ok.inj h
      rfl
  | cons a l ih =>
      rw [List.mapM_cons] at h
      obtain ⟨b, -, h⟩ := bind_eq_ok.mp h
      obtain ⟨bs, hbs, h⟩ := bind_eq_ok.mp h
      obtain rfl := Except.ok.inj h
      rw [List.length_cons, List.length_cons, ih hbs]

/-- The transform is the unscaled one, of the drawn signs, followed by the scaling. -/
theorem transformInto_eq (d : ℕ) (seed : UInt64) (v : List Float32) :
    (HadamardIncoherence.new d seed).transformInto v =
      (transformUnscaled (signs Float32 (nextPow2 d) (Rng.new seed)) d (nextPow2 d) v >>= fun out =>
        .ok (out.map (· * (lit 1 / (ofNat (nextPow2 d) : Float32).sqrt)))) := by
  obtain ⟨k, hk⟩ := exists_nextPow2 d
  unfold HadamardIncoherence.transformInto transformUnscaled HadamardIncoherence.new
  dsimp only
  rw [drawSigns_eq]
  split_ifs with hlen
  · rfl
  · cases hout : (List.range (nextPow2 d)).mapM (fun i => do
        return (← index (v ++ List.replicate (nextPow2 d - d) (lit 0)) i) *
          (← index (signs Float32 (nextPow2 d) (Rng.new seed)) i) : ℕ → Outcome Float32) with
    | error e => rfl
    | ok out =>
        have hsize := length_of_mapM hout
        rw [List.length_range] at hsize
        rw [ok_bind, ok_bind]
        unfold fwhtInplace
        dsimp only
        rw [hsize, hk, isPowerOfTwo_two_pow]
        rfl

theorem length_signs (n : ℕ) (r : Rng) : (signs ℚ n r).length = n := by
  induction n generalizing r with
  | zero => rfl
  | succ n ih =>
      unfold signs
      rw [List.length_cons, ih]

theorem signs_mul_self {n : ℕ} {r : Rng} {x : ℚ} (hx : x ∈ signs ℚ n r) : x * x = 1 := by
  induction n generalizing r with
  | zero => cases hx
  | succ n ih =>
      unfold signs at hx
      rcases List.mem_cons.mp hx with rfl | hx
      · split_ifs
        · exact show (-1 : ℚ) * -1 = 1 by norm_num
        · exact show (1 : ℚ) * 1 = 1 by norm_num
      · exact ih hx

/-- The loop of the transform computes the signed sums, without leaving the array. -/
theorem stages_eq {k : ℕ} {v : List ℚ} (hv : v.length = 2 ^ k) :
    stages v.length 1 v = .ok (table (2 ^ k) (walsh k fun j => v.getD j 0)) := by
  have h := stages_table 0 k fun j => v.getD j 0
  rw [walsh_zero, pow_zero, Nat.zero_add, ← hv, ← eq_table] at h
  rw [h, hv]

/-- A padded vector with the signs of the diagonal. -/
def signed (d n : ℕ) (seed : UInt64) (v : List ℚ) (j : ℕ) : ℚ :=
  (v ++ List.replicate (n - d) 0).getD j 0 * (signs ℚ n (Rng.new seed)).getD j 0

theorem transformUnscaled_eq {d n k : ℕ} (seed : UInt64) {v : List ℚ} (hv : v.length = d)
    (hn : n = 2 ^ k) (hd : d ≤ n) :
    transformUnscaled (signs ℚ n (Rng.new seed)) d n v =
      .ok (table n (walsh k (signed d n seed v))) := by
  have hpad : (v ++ List.replicate (n - d) (lit 0)).length = n := by
    rw [List.length_append, List.length_replicate]
    omega
  have hmul : ∀ i ∈ List.range n, (do
      return (← index (v ++ List.replicate (n - d) (lit 0)) i) *
        (← index (signs ℚ n (Rng.new seed)) i) : Outcome ℚ) = .ok (signed d n seed v i) := by
    intro i hi
    have hlt := List.mem_range.mp hi
    rw [index_getD (lit 0) (by rw [hpad]; exact hlt),
      index_getD 0 (by rw [length_signs]; exact hlt), ok_bind, ok_bind]
    rfl
  unfold transformUnscaled
  rw [if_neg (not_not.mpr hv)]
  dsimp only
  rw [mapM_ok hmul, ok_bind]
  change stages (table n _).length 1 (table n _) = _
  have hlen : (table n (signed d n seed v)).length = 2 ^ k := by rw [length_table, hn]
  rw [stages_eq hlen, ← hn]
  congr 1
  refine table_congr fun x hx => ?_
  rw [walsh_of_lt _ (hn ▸ hx), walsh_of_lt _ (hn ▸ hx)]
  refine Finset.sum_congr rfl fun b hb => ?_
  rw [List.getD_eq_getElem?_getD, getElem?_table (hn ▸ Finset.mem_range.mp hb), Option.getD_some]

theorem sum_zipWith_table (n : ℕ) (f g : ℕ → ℚ) :
    (List.zipWith (· * ·) (table n f) (table n g)).sum = ∑ i ∈ Finset.range n, f i * g i := by
  unfold table
  rw [List.zipWith_map, List.zipWith_self]
  rfl

/-- Padding and signs keep inner products. -/
theorem sum_signed_mul_signed {d n : ℕ} (seed : UInt64) (a b : Fin d → ℚ) (hd : d ≤ n) :
    ∑ i ∈ Finset.range n, signed d n seed (List.ofFn a) i * signed d n seed (List.ofFn b) i =
      ∑ i, a i * b i := by
  have hvalue : ∀ (v : Fin d → ℚ) (i : ℕ), (List.ofFn v ++ List.replicate (n - d) 0).getD i 0 =
      if h : i < d then v ⟨i, h⟩ else 0 := by
    intro v i
    rw [List.getD_eq_getElem?_getD]
    by_cases h : i < d
    · rw [dif_pos h, List.getElem?_append_left (by rw [List.length_ofFn]; exact h),
        List.getElem?_ofFn, dif_pos h, Option.getD_some]
    · rw [dif_neg h, List.getElem?_append_right (by rw [List.length_ofFn]; omega),
        List.getElem?_replicate]
      split_ifs <;> rfl
  have hterm : ∀ i ∈ Finset.range n,
      signed d n seed (List.ofFn a) i * signed d n seed (List.ofFn b) i =
        if h : i < d then a ⟨i, h⟩ * b ⟨i, h⟩ else 0 := by
    intro i hi
    have hlt : i < (signs ℚ n (Rng.new seed)).length := by
      rw [length_signs]
      exact Finset.mem_range.mp hi
    have hone := signs_mul_self (List.getElem_mem hlt)
    unfold signed
    rw [hvalue, hvalue, List.getD_eq_getElem?_getD, List.getElem?_eq_getElem hlt,
      Option.getD_some]
    split_ifs with h
    · calc a ⟨i, h⟩ * _ * (b ⟨i, h⟩ * _)
          = a ⟨i, h⟩ * b ⟨i, h⟩ * ((signs ℚ n (Rng.new seed))[i] *
              (signs ℚ n (Rng.new seed))[i]) := by ring
        _ = a ⟨i, h⟩ * b ⟨i, h⟩ := by rw [hone, mul_one]
    · ring
  rw [Finset.sum_congr rfl hterm, ← Nat.add_sub_cancel' hd, Finset.sum_range_add,
    Finset.sum_eq_zero (s := Finset.range (n - d)) fun i _ => dif_neg (by omega), add_zero,
    Finset.sum_range]
  refine Finset.sum_congr rfl fun i _ => ?_
  rw [dif_pos i.isLt]

/-- The signed sums of the entries of a vector. -/
def signedSums {n : ℕ} (v : Fin n → ℚ) (i : Fin n) : ℚ :=
  ∑ j, (-1) ^ popcount (i.val &&& j.val) * v j

theorem table_ofFn {k : ℕ} (v : Fin (2 ^ k) → ℚ) :
    table (2 ^ k) (walsh k fun j => (List.ofFn v).getD j 0) = List.ofFn (signedSums v) := by
  apply List.ext_getElem?
  intro i
  rw [List.getElem?_ofFn]
  split_ifs with hi
  · rw [getElem?_table hi, walsh_of_lt _ hi, Finset.sum_range]
    refine congrArg some (Finset.sum_congr rfl fun j _ => ?_)
    rw [List.getD_eq_getElem?_getD, List.getElem?_ofFn, dif_pos j.isLt, Option.getD_some]
    rfl
  · rw [List.getElem?_eq_none]
    rw [length_table]
    exact not_lt.mp hi

theorem signedSums_signedSums {k : ℕ} (v : Fin (2 ^ k) → ℚ) (i : Fin (2 ^ k)) :
    signedSums (signedSums v) i = 2 ^ k * v i := by
  have hwalsh : ∀ (u : Fin (2 ^ k) → ℚ) (j : Fin (2 ^ k)),
      signedSums u j = walsh k (fun x => (List.ofFn u).getD x 0) j := by
    intro u j
    have h := congrArg (fun l => l[j.val]?) (table_ofFn u)
    simp only [getElem?_table j.isLt, List.getElem?_ofFn, j.isLt, dif_pos] at h
    exact (Option.some.inj h).symm
  have hvalue : ∀ (u : Fin (2 ^ k) → ℚ) (j : Fin (2 ^ k)), (List.ofFn u).getD j 0 = u j := by
    intro u j
    rw [List.getD_eq_getElem?_getD, List.getElem?_ofFn, dif_pos j.isLt, Option.getD_some]
  rw [hwalsh, walsh_of_lt _ i.isLt, ← hvalue v i,
    ← walsh_walsh (fun x => (List.ofFn v).getD x 0) i.isLt, walsh_of_lt _ i.isLt]
  refine Finset.sum_congr rfl fun j hj => ?_
  rw [← hwalsh v ⟨j, Finset.mem_range.mp hj⟩, ← hvalue (signedSums v)]

/-- In exact arithmetic and without the last scaling, the loop computes the signed sums and
undoes them up to the length; the padded length is the least power of two that is large
enough, and padded and signed vectors keep their inner products up to it. -/
theorem hadamard_exact (k : ℕ) (v : Fin (2 ^ k) → ℚ) (d : ℕ) (seed : UInt64) (a b : Fin d → ℚ) :
    (stages (2 ^ k) 1 (List.ofFn v) = .ok (List.ofFn (signedSums v)) ∧
      stages (2 ^ k) 1 (List.ofFn (signedSums v)) = .ok (List.ofFn fun i => 2 ^ k * v i)) ∧
    IsLeast {p | (∃ m, p = 2 ^ m) ∧ d ≤ p} (nextPow2 d) ∧
    ∃ ta tb,
      transformUnscaled (signs ℚ (nextPow2 d) (Rng.new seed)) d (nextPow2 d) (List.ofFn a) =
        .ok ta ∧
      transformUnscaled (signs ℚ (nextPow2 d) (Rng.new seed)) d (nextPow2 d) (List.ofFn b) =
        .ok tb ∧
      ta.length = nextPow2 d ∧ tb.length = nextPow2 d ∧
      (List.zipWith (· * ·) ta tb).sum = nextPow2 d * ∑ i, a i * b i := by
  have hrun : ∀ u : Fin (2 ^ k) → ℚ,
      stages (2 ^ k) 1 (List.ofFn u) = .ok (List.ofFn (signedSums u)) := by
    intro u
    have h := stages_eq (k := k) (v := List.ofFn u) List.length_ofFn
    rwa [List.length_ofFn, table_ofFn] at h
  refine ⟨⟨hrun v, ?_⟩, nextPow2_isLeast d, ?_⟩
  · rw [hrun, funext (signedSums_signedSums v)]
  · obtain ⟨m, hm⟩ := exists_nextPow2 d
    have hd : d ≤ nextPow2 d := le_doubleTo Nat.one_pos
    refine ⟨_, _, transformUnscaled_eq seed List.length_ofFn hm hd,
      transformUnscaled_eq seed List.length_ofFn hm hd, length_table, length_table, ?_⟩
    rw [sum_zipWith_table, ← sum_signed_mul_signed seed a b hd, hm, sum_walsh_mul_walsh]
    push_cast
    rfl

example : stages 4 1 [1, 2, 3, 5] = .ok [(11 : ℚ), -3, -5, 1] := by decide +kernel

end SlhaV2.ExactHadamard
