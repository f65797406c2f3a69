import SlhaV2.IeeeFloat
import SlhaV2.RoundingLimits
import SlhaV2.ScoreOracle
import SlhaV2.ScoreScale

/-!
# Scaled scores in the destination row

Replace mode checks the scores of a row, multiplies them by the scale of the layer in double
precision, checks the products, stores them in single precision, lets a diagnostic oracle
rewrite the visible ones, and copies the row. A row that is refused stays zero.
-/
namespace SlhaV2.ReplaceScaling
open Float.Model FloatingPoint ScoreOracle RankOrders SingleFloat ExactValues FloatRounding
open RoundingLimits

def toSingle (x : F32) : Float32 := .ofBits x.bits

def ofSingle (y : Float32) : F32 := ⟨y.toBits⟩

/-- The scale of the layer when a scale is active, and the oracle, `off` unless it is active. -/
structure Setup where
  scale : Option Float
  mode : Mode
  topk : ℤ

/-- A query row: its width in the destination, the scores of the written tiles, the baseline
row and the position of its token. -/
structure Row where
  nKv : ℕ
  scores : List F32
  baseline : ℕ → F32
  token : ℕ

/-- The causally visible prefix. -/
def Row.nVisible (r : Row) : ℕ := min r.scores.length (r.token + 1)

structure RowState where
  dst : List F32
  nonfiniteScore : ℕ
  scaleInvalid : ℕ
  failedVectors : ℕ
  replacedVectors : ℕ
  replacedLogits : ℕ
  errorCode : Bool
  ows : Workspace
  oracleOut : List F32

/-- Products are checked as doubles, and stored as floats. -/
def scaleScores (a : Float) : List F32 → Option (List F32)
  | [] => some []
  | x :: scores =>
      let v := widen (toSingle x) * a
      if v.isFinite = false then none
      else (scaleScores a scores).map fun rest => ofSingle (narrow v) :: rest

/-- A scale of `1.0` leaves the scores alone. -/
def applyScale (scale : Option Float) (scores : List F32) : Option (List F32) :=
  match scale with
  | none => some scores
  | some a => if a == 1 then some scores else scaleScores a scores

def RowState.fail (st : RowState) : RowState :=
  { st with failedVectors := st.failedVectors + 1, errorCode := true }

/-- The first entries of the destination row, which is zero. -/
def RowState.write (st : RowState) (values : List F32) : RowState :=
  { st with
    dst := values ++ st.dst.drop values.length
    replacedVectors := st.replacedVectors + 1
    replacedLogits := st.replacedLogits + values.length }

/-- The oracle rewrites the visible prefix, and fails the row when it refuses. -/
def applyOracle (u : Setup) (r : Row) (temp : List F32) (st : RowState) : Option RowState :=
  if u.mode ≠ .off ∧ 0 < r.nVisible then do
    let out := st.oracleOut.take r.nVisible ++
      List.replicate (r.nVisible - st.oracleOut.length) .zero
    let res ← ScoreOracle.apply u.mode u.topk (some r.baseline)
      (some fun i => temp.getD i .zero) r.nVisible true st.ows
    let out := scatter out res.writes
    let st := { st with ows := res.ws, oracleOut := out }
    if res.status ≠ .ok then some st.fail
    else some (st.write (out ++ temp.drop r.nVisible))
  else some (st.write temp)

/-- One row from its scores; `none` is a read beside a row. -/
def replaceRow (u : Setup) (r : Row) (st : RowState) : Option RowState :=
  let st := { st with dst := List.replicate r.nKv .zero }
  -- without a written tile the row stays zero and is counted nowhere
  if r.scores = [] then some st
  else if r.scores.all F32.isFinite = false then
    some { st with nonfiniteScore := st.nonfiniteScore + 1 }.fail
  else
    match applyScale u.scale r.scores with
    | none =>
        some { st with
          scaleInvalid := st.scaleInvalid + 1
          nonfiniteScore := st.nonfiniteScore + 1 }.fail
    | some temp => applyOracle u r temp st

theorem unpackExponent_toNat (b : BitVec 32) :
    (@UnpackedFloat.unpackExponent .binary32 b).toNat = b.toNat / 2 ^ 23 % 256 := by
  unfold UnpackedFloat.unpackExponent
  rw [BitVec.toNat_cast, BitVec.extractLsb_toNat, Nat.shiftRight_eq_div_pow]
  rfl

/-- A pattern is that of a number unless its exponent field is all ones. -/
theorem isFinite_unpack (b : BitVec 32) :
    (UnpackedFloat.unpack .binary32 b).isFinite = true ↔ b.toNat / 2 ^ 23 % 256 ≠ 255 := by
  rw [← unpackExponent_toNat]
  have hones : @UnpackedFloat.unpackExponent .binary32 b = -1#8 ↔
      (@UnpackedFloat.unpackExponent .binary32 b).toNat = 255 := by
    rw [← BitVec.toNat_inj]
    rfl
  rw [ne_eq, ← hones]
  unfold UnpackedFloat.unpack
  dsimp only
  by_cases h : @UnpackedFloat.unpackExponent .binary32 b = -1#8
  · rw [if_pos h]
    apply iff_of_false _ (not_not.mpr h)
    split_ifs
    · exact Bool.false_ne_true
    · exact Bool.false_ne_true
  · rw [if_neg h]
    apply iff_of_true _ h
    split_ifs
    · rfl
    · rfl
    · rfl

theorem isFinite_eq (x : F32) : x.isFinite = true ↔ x.bits.toNat / 2 ^ 23 % 256 ≠ 255 := by
  unfold F32.isFinite
  rw [decide_eq_true_eq]

theorem isFinite_ofSingle (y : Float32) : (ofSingle y).isFinite = true ↔ y.isFinite = true := by
  rw [isFinite_eq]
  exact (isFinite_unpack y.toModel.toBits.toBitVec).symm

theorem isFinite_toSingle (x : F32) : (toSingle x).isFinite = true ↔ x.isFinite = true := by
  have hpack := @UnpackedFloat.pack_unpack Format.binary32 x.bits.toBitVec (by decide)
  rw [isFinite_eq]
  change (UnpackedFloat.unpack .binary32 (UnpackedFloat.pack .binary32
    (UnpackedFloat.unpack .binary32 x.bits.toBitVec))).isFinite = true ↔ _
  by_cases hnan : @UnpackedFloat.isNaNBits Format.binary32 x.bits.toBitVec = true
  · rw [if_pos hnan] at hpack
    rw [hpack, UnpackedFloat.unpack_packedNaN]
    apply iff_of_false Bool.false_ne_true
    rw [not_not]
    have hones := (of_decide_eq_true hnan).1
    have hnat := unpackExponent_toNat x.bits.toBitVec
    rw [hones] at hnat
    exact hnat.symm
  · rw [if_neg hnan] at hpack
    rw [hpack]
    exact isFinite_unpack x.bits.toBitVec

/-- The exact magnitude of a scaled score, and zero where nothing is scaled. -/
def product (scale : Option Float) (x : F32) : ℚ :=
  match scale with
  | none => 0
  | some a => if a == 1 then 0 else |single (toSingle x) * value a|

section Scaling
variable {a : Float} {scale : Option Float} {scores : List F32}

theorem stored_finite {x : F32} (hx : x.isFinite = true) (ha : a.isFinite = true) :
    ((widen (toSingle x) * a).isFinite = true ↔
      |single (toSingle x) * value a| < doubleLimit) ∧
    ((widen (toSingle x) * a).isFinite = true →
      ((ofSingle (narrow (widen (toSingle x) * a))).isFinite = true ↔
        |single (toSingle x) * value a| < narrowLimit)) := by
  obtain ⟨hdouble, hsingle⟩ := narrow_product ((isFinite_toSingle x).mpr hx) ha
  refine ⟨hdouble, ?_⟩
  intro hfin
  rw [isFinite_ofSingle]
  exact hsingle hfin

/-- The loop stops at a product beyond the doubles; otherwise what it stores is finite exactly
below the limit of the floats. -/
theorem scaleScores_spec (hfinite : ∀ x ∈ scores, x.isFinite = true) (ha : a.isFinite = true) :
    (scaleScores a scores = none ∧
      ∃ x ∈ scores, doubleLimit ≤ |single (toSingle x) * value a|) ∨
    ((∀ x ∈ scores, |single (toSingle x) * value a| < doubleLimit) ∧
      ∃ temp, scaleScores a scores = some temp ∧
      List.Forall₂ (fun x y => y.isFinite = true ↔
        |single (toSingle x) * value a| < narrowLimit) scores temp) := by
  induction scores with
  | nil => exact .inr ⟨by simp, [], rfl, .nil⟩
  | cons x scores ih =>
      rw [List.forall_mem_cons] at hfinite
      obtain ⟨hdouble, hsingle⟩ := stored_finite hfinite.1 ha
      unfold scaleScores
      dsimp only
      by_cases hfin : (widen (toSingle x) * a).isFinite = true
      · rw [if_neg (by simp [hfin])]
        rcases ih hfinite.2 with ⟨hnone, y, hy, hlarge⟩ | ⟨hall, temp, hsome, hpair⟩
        · rw [hnone]
          exact .inl ⟨rfl, y, List.mem_cons_of_mem _ hy, hlarge⟩
        · rw [hsome]
          refine .inr ⟨?_, _, rfl, .cons (hsingle hfin) hpair⟩
          rw [List.forall_mem_cons]
          exact ⟨hdouble.mp hfin, hall⟩
      · rw [if_pos (by simpa using hfin)]
        exact .inl ⟨rfl, x, List.mem_cons_self, not_lt.mp fun hlt => hfin (hdouble.mpr hlt)⟩

theorem narrowLimit_pos : 0 < narrowLimit := by
  unfold narrowLimit
  norm_num

theorem doubleLimit_pos : 0 < doubleLimit := by
  have hlt : (2 : ℚ) ^ 970 < 2 ^ 1024 := pow_lt_pow_right₀ one_lt_two (by decide)
  exact sub_pos.mpr hlt

theorem applyScale_spec (hfinite : ∀ x ∈ scores, x.isFinite = true)
    (hscale : ∀ a, scale = some a → a.isFinite = true) :
    (applyScale scale scores = none ∧ ∃ x ∈ scores, doubleLimit ≤ product scale x) ∨
    ((∀ x ∈ scores, product scale x < doubleLimit) ∧
      ∃ temp, applyScale scale scores = some temp ∧
      List.Forall₂ (fun x y => y.isFinite = true ↔ product scale x < narrowLimit) scores temp) := by
  have hsame : List.Forall₂ (fun x y : F32 => y.isFinite = true ↔ (0 : ℚ) < narrowLimit)
      scores scores := by
    rw [List.forall₂_same]
    exact fun x hx => iff_of_true (hfinite x hx) narrowLimit_pos
  cases scale with
  | none => exact .inr ⟨fun _ _ => doubleLimit_pos, scores, rfl, hsame⟩
  | some a =>
      unfold applyScale product
      dsimp only
      by_cases hone : (a == 1) = true
      · simp only [hone, if_true]
        exact .inr ⟨fun _ _ => doubleLimit_pos, scores, rfl, hsame⟩
      · simp only [hone]
        exact scaleScores_spec hfinite (hscale a rfl)

end Scaling

section Oracle
variable {mode : Mode} {topk : ℤ} {b s : ℕ → F32} {n : ℕ} {ws : Workspace}

/-- The modes that rank both rows. -/
def Ranks (mode : Mode) : Prop :=
  mode = .baselineRankSlhaValues ∨ mode = .slhaRankBaselineValues ∨ mode = .baselineTopKRank

/-- What a nonempty row is refused for. -/
def Refuses (mode : Mode) (topk : ℤ) (b s : ℕ → F32) (n : ℕ) : Prop :=
  (∃ i < n, (b i).isFinite = false) ∨ (∃ i < n, (s i).isFinite = false) ∨
    mode = .baselineTopKRank ∧ topk < 1

/-- The answer is `ok`, every position is written, and all values are finite. -/
def Rewrites (mode : Mode) (topk : ℤ) (b s : ℕ → F32) (n : ℕ) (ws : Workspace) : Prop :=
  ∃ r, ScoreOracle.apply mode topk (some b) (some s) n true ws = some r ∧ r.status = .ok ∧
    (r.writes.map Prod.fst).Perm (List.range n) ∧ ∀ w ∈ r.writes, w.2.isFinite = true

theorem allFinite_eq_false {v : ℕ → F32} (h : ∃ i < n, (v i).isFinite = false) :
    allFinite v n = false := by
  obtain ⟨i, hi, hinf⟩ := h
  rw [← Bool.not_eq_true, allFinite_iff]
  intro hall
  rw [hall i hi] at hinf
  cases hinf

theorem allFinite_of_not {v : ℕ → F32} (h : ¬∃ i < n, (v i).isFinite = false) :
    allFinite v n = true := by
  rw [allFinite_iff]
  intro i hi
  by_contra hinf
  exact h ⟨i, hi, Bool.eq_false_iff.mpr hinf⟩

/-- A row is refused without a write. -/
theorem apply_refuses (hmode : mode ≠ .off) (hn : n ≠ 0) (h : Refuses mode topk b s n) :
    ∃ r, ScoreOracle.apply mode topk (some b) (some s) n true ws = some r ∧ r.status ≠ .ok := by
  unfold ScoreOracle.apply
  rw [if_neg hmode, if_neg hn]
  dsimp only
  by_cases hfinite : (!allFinite b n || !allFinite s n) = true
  · rw [if_pos hfinite]
    exact ⟨_, rfl, ApplyStatus.noConfusion⟩
  · rw [if_neg hfinite]
    rw [Bool.or_eq_true, not_or] at hfinite
    rcases h with hb | hs | ⟨rfl, htopk⟩
    · exact absurd (by simp [allFinite_eq_false hb]) hfinite.1
    · exact absurd (by simp [allFinite_eq_false hs]) hfinite.2
    · unfold applyChecked
      dsimp only
      rw [if_pos htopk]
      exact ⟨_, rfl, ApplyStatus.noConfusion⟩

theorem finite_of_wrote {w : ℕ → F32} {order : List ℕ} {r : Applied} (h : Wrote w n order r)
    (hw : allFinite w n = true) : ∀ e ∈ r.writes, e.2.isFinite = true := by
  intro e he
  have hmem := List.mem_map_of_mem (f := Prod.snd) he
  rw [h.values] at hmem
  obtain ⟨i, hi, hval⟩ := List.mem_map.mp hmem
  rw [← hval]
  exact allFinite_iff.mp hw i (mem_ranking.mp hi)

/-- A row that is not refused is rewritten, if it is not too long to be ranked. -/
theorem apply_rewrites (hws : Uniform ws) (hmode : mode ≠ .off) (hn : n ≠ 0)
    (h : ¬Refuses mode topk b s n) (hlong : ¬(Ranks mode ∧ 2 ^ 31 < n)) :
    Rewrites mode topk b s n ws := by
  unfold Refuses at h
  rw [not_or, not_or, not_and, not_lt] at h
  obtain ⟨hb, hs, htopk⟩ := h
  have hb := allFinite_of_not hb
  have hs := allFinite_of_not hs
  have hready : Ranks mode → Ready b s n := fun hrank =>
    ⟨hn, hb, hs, keysInRow_iff.mpr (not_lt.mp fun hlt => hlong ⟨hrank, hlt⟩)⟩
  have hcopy : ∀ v : ℕ → F32, allFinite v n = true →
      ((memcpy v n).map Prod.fst).Perm (List.range n) ∧ ∀ w ∈ memcpy v n, w.2.isFinite = true := by
    intro v hv
    unfold memcpy
    rw [List.map_map]
    refine ⟨List.Perm.of_eq (List.map_id _), ?_⟩
    intro w hw
    obtain ⟨i, hi, rfl⟩ := List.mem_map.mp hw
    exact allFinite_iff.mp hv i (List.mem_range.mp hi)
  have hcall : ∀ m : Mode, m ≠ .off → ScoreOracle.apply m topk (some b) (some s) n true ws =
      applyChecked m topk b s n (ws.ensure n) := by
    intro m hm
    unfold ScoreOracle.apply
    rw [if_neg hm, if_neg hn]
    dsimp only
    rw [hb, hs]
    rfl
  cases mode with
  | off => exact absurd rfl hmode
  | baselineIdentity => exact ⟨_, hcall _ hmode, rfl, hcopy b hb⟩
  | slhaIdentity => exact ⟨_, hcall _ hmode, rfl, hcopy s hs⟩
  | baselineRankSlhaValues =>
      obtain ⟨r, hr, hwrote⟩ := apply_baselineRank (hready (.inl rfl)) hws topk
      exact ⟨r, hr, hwrote.status, hwrote.keys ▸ rankOf_perm b n, finite_of_wrote hwrote hs⟩
  | slhaRankBaselineValues =>
      obtain ⟨r, hr, hwrote⟩ := apply_slhaRank (hready (.inr (.inl rfl))) hws topk
      exact ⟨r, hr, hwrote.status, hwrote.keys ▸ rankOf_perm s n, finite_of_wrote hwrote hb⟩
  | baselineTopKRank =>
      obtain ⟨r, hr, hwrote⟩ := apply_topK (hready (.inr (.inr rfl))) hws (htopk rfl)
      exact ⟨r, hr, hwrote.status, hwrote.keys ▸ others_order b s n _, finite_of_wrote hwrote hs⟩

/-- A longer row is undefined. -/
theorem apply_undefined (hn : n ≠ 0) (h : ¬Refuses mode topk b s n) (hrank : Ranks mode)
    (hlong : 2 ^ 31 < n) :
    ScoreOracle.apply mode topk (some b) (some s) n true ws = none := by
  unfold Refuses at h
  rw [not_or, not_or, not_and, not_lt] at h
  obtain ⟨hb, hs, htopk⟩ := h
  have hb := allFinite_of_not hb
  have hs := allFinite_of_not hs
  have hkeys : ¬KeysInRow n := fun hkeys => absurd (keysInRow_iff.mp hkeys) (not_le.mpr hlong)
  have hboth : rankBoth b s n (ws.ensure n) = none := by
    unfold rankBoth rankPermutation
    dsimp only
    rw [if_neg hkeys]
    rfl
  have hmode : mode ≠ .off := by
    rintro rfl
    rcases hrank with hrank | hrank | hrank <;> cases hrank
  unfold ScoreOracle.apply
  rw [if_neg hmode, if_neg hn]
  dsimp only
  rw [hb, hs, if_neg (by decide)]
  unfold applyChecked
  rcases hrank with rfl | rfl | rfl
  · dsimp only
    rw [hboth]
    rfl
  · dsimp only
    rw [hboth]
    rfl
  · dsimp only
    rw [if_neg (not_lt.mpr (htopk rfl)), hboth]
    rfl

end Oracle

/-- All scores are written as finite numbers, or the row is left zero and counted as failed. -/
def Outcome (r : Row) (before after : RowState) : Prop :=
  (after.failedVectors = before.failedVectors ∧ ∃ values : List F32,
    values.length = r.scores.length ∧
    after.dst = values ++ List.replicate (r.nKv - r.scores.length) .zero ∧
    ∀ x ∈ values, x.isFinite = true) ∨
  (after.failedVectors = before.failedVectors + 1 ∧ after.dst = List.replicate r.nKv .zero)

def Safe (u : Setup) (r : Row) (st : RowState) : Prop :=
  ∃ st', replaceRow u r st = some st' ∧ Outcome r st st'

/-- A product is infinite as a double. -/
def Discarded (u : Setup) (r : Row) : Prop :=
  ∃ x ∈ r.scores, doubleLimit ≤ product u.scale x

/-- The oracle runs and refuses the row: for its baseline, for a visible product that overflows,
or for its own setting. -/
def Refused (u : Setup) (r : Row) : Prop :=
  u.mode ≠ .off ∧ 0 < r.nVisible ∧
    ((∃ i < r.nVisible, (r.baseline i).isFinite = false) ∨
      (∃ x ∈ r.scores.take r.nVisible, narrowLimit ≤ product u.scale x) ∨
      u.mode = .baselineTopKRank ∧ u.topk < 1)

/-- No product overflows when it is narrowed, and the oracle can rank the visible scores. -/
def Narrows (u : Setup) (r : Row) : Prop :=
  (∀ x ∈ r.scores, product u.scale x < narrowLimit) ∧ ¬(Ranks u.mode ∧ 2 ^ 31 < r.nVisible)

section Rows
variable {u : Setup} {r : Row} {st : RowState}

theorem outcome_fail {after : RowState} (hdst : after.dst = List.replicate r.nKv .zero)
    (hfailed : after.failedVectors = st.failedVectors) : Outcome r st after.fail :=
  .inr ⟨congrArg (· + 1) hfailed, hdst⟩

theorem outcome_write {after : RowState} {values : List F32}
    (hdst : after.dst = List.replicate r.nKv .zero)
    (hfailed : after.failedVectors = st.failedVectors)
    (hlen : values.length = r.scores.length) :
    Outcome r st (after.write values) ↔ ∀ x ∈ values, x.isFinite = true := by
  have hwritten : (after.write values).dst =
      values ++ List.replicate (r.nKv - r.scores.length) .zero := by
    unfold RowState.write
    dsimp only
    rw [hdst, List.drop_replicate, hlen]
  constructor
  · rintro (⟨_, values', hlen', hdst', hfinite⟩ | ⟨hcount, _⟩)
    · rw [hwritten] at hdst'
      have hsame := (List.append_inj hdst' (hlen.trans hlen'.symm)).1
      exact hsame ▸ hfinite
    · have hcount' : after.failedVectors = st.failedVectors + 1 := hcount
      omega
  · intro hfinite
    exact .inl ⟨hfailed, values, hlen, hwritten, hfinite⟩

theorem pair_finite {scores temp : List F32} {p : F32 → Prop}
    (h : List.Forall₂ (fun x y => y.isFinite = true ↔ p x) scores temp) :
    (∀ y ∈ temp, y.isFinite = true) ↔ ∀ x ∈ scores, p x := by
  induction h with
  | nil => simp
  | cons hxy _ ih => rw [List.forall_mem_cons, List.forall_mem_cons, hxy, ih]

theorem length_scattered (out : List F32) (n : ℕ) :
    (out.take n ++ List.replicate (n - out.length) F32.zero).length = n := by
  rw [List.length_append, List.length_take, List.length_replicate]
  omega

theorem forall_take {q : F32 → Prop} {temp : List F32} {n : ℕ} (hn : n ≤ temp.length) :
    (∀ i < n, q (temp.getD i .zero)) ↔ ∀ y ∈ temp.take n, q y := by
  constructor
  · intro h y hy
    obtain ⟨i, hi, rfl⟩ := List.mem_take_iff_getElem.mp hy
    have hq := h i (by omega)
    rwa [List.getD_eq_getElem _ _ (by omega)] at hq
  · intro h i hi
    rw [List.getD_eq_getElem _ _ (by omega)]
    exact h _ (List.mem_take_iff_getElem.mpr ⟨i, by omega, rfl⟩)

theorem nVisible_le (r : Row) : r.nVisible ≤ r.scores.length := Nat.min_le_left _ _

variable {temp : List F32}

/-- What the oracle refuses is known from the products. -/
theorem refused_iff (hpair : List.Forall₂ (fun x y => y.isFinite = true ↔
      product u.scale x < narrowLimit) r.scores temp) :
    Refused u r ↔ u.mode ≠ .off ∧ 0 < r.nVisible ∧
      Refuses u.mode u.topk r.baseline (fun i => temp.getD i .zero) r.nVisible := by
  have hle : r.nVisible ≤ temp.length := hpair.length_eq ▸ nVisible_le r
  have hvisible : (∃ i < r.nVisible, (temp.getD i .zero).isFinite = false) ↔
      ∃ x ∈ r.scores.take r.nVisible, narrowLimit ≤ product u.scale x := by
    have hall := (forall_take (q := fun y => y.isFinite = true) hle).trans
      (pair_finite (List.forall₂_take r.nVisible hpair))
    have hneg := not_congr hall
    simpa only [not_forall, Bool.not_eq_true, not_lt, exists_prop] using hneg
  unfold Refused Refuses
  rw [hvisible]

/-- From the stored products, the row has the wanted outcome exactly when the oracle refuses it
or nothing overflows. -/
theorem applyOracle_iff {before : RowState} (hws : Uniform st.ows)
    (hdst : st.dst = List.replicate r.nKv .zero)
    (hfailed : st.failedVectors = before.failedVectors)
    (hpair : List.Forall₂ (fun x y => y.isFinite = true ↔
      product u.scale x < narrowLimit) r.scores temp) :
    (∃ st', applyOracle u r temp st = some st' ∧ Outcome r before st') ↔
      Refused u r ∨ Narrows u r := by
  have hlen : temp.length = r.scores.length := hpair.length_eq.symm
  have hle : r.nVisible ≤ temp.length := hlen ▸ nVisible_le r
  unfold applyOracle
  by_cases hrun : u.mode ≠ .off ∧ 0 < r.nVisible
  · rw [if_pos hrun]
    have hn : r.nVisible ≠ 0 := by omega
    by_cases hrefuses : Refuses u.mode u.topk r.baseline (fun i => temp.getD i .zero) r.nVisible
    · obtain ⟨res, hres, hstatus⟩ : ∃ res, ScoreOracle.apply u.mode u.topk (some r.baseline)
          (some fun i => temp.getD i .zero) r.nVisible true st.ows = some res ∧
            res.status ≠ .ok := apply_refuses hrun.1 hn hrefuses
      apply iff_of_true _ (.inl ((refused_iff hpair).mpr ⟨hrun.1, hrun.2, hrefuses⟩))
      rw [hres]
      exact ⟨_, if_pos hstatus, outcome_fail hdst hfailed⟩
    · have hrefused : ¬Refused u r := fun h => hrefuses ((refused_iff hpair).mp h).2.2
      rw [or_iff_right hrefused]
      by_cases hlong : Ranks u.mode ∧ 2 ^ 31 < r.nVisible
      · apply iff_of_false _ fun h => h.2 hlong
        rw [apply_undefined hn hrefuses hlong.1 hlong.2]
        rintro ⟨st', hst', _⟩
        cases hst'
      · obtain ⟨res, hres, hok, hkeys, hvalues⟩ := apply_rewrites hws hrun.1 hn hrefuses hlong
        have hsource := length_scattered st.oracleOut r.nVisible
        generalize st.oracleOut.take r.nVisible ++ _ = out at hsource ⊢
        rw [hres]
        have hscatter : ∀ x ∈ scatter out res.writes, x.isFinite = true := by
          intro x hx
          rw [(scatter_perm (hsource ▸ hkeys)).mem_iff] at hx
          obtain ⟨w, hw, rfl⟩ := List.mem_map.mp hx
          exact hvalues w hw
        have hlength : (scatter out res.writes ++ temp.drop r.nVisible).length =
            r.scores.length := by
          rw [List.length_append, length_scatter, hsource, List.length_drop, ← hlen]
          omega
        have hdrop := pair_finite (List.forall₂_drop r.nVisible hpair)
        have htake : ∀ x ∈ r.scores.take r.nVisible, product u.scale x < narrowLimit := by
          intro x hx
          by_contra hover
          exact hrefused ⟨hrun.1, hrun.2, .inr (.inl ⟨x, hx, not_lt.mp hover⟩)⟩
        have hsplit : (∀ x ∈ r.scores, product u.scale x < narrowLimit) ↔
            ∀ x ∈ r.scores.drop r.nVisible, product u.scale x < narrowLimit := by
          conv_lhs => rw [← List.take_append_drop r.nVisible r.scores, List.forall_mem_append]
          exact and_iff_right htake
        rw [Narrows, and_iff_left hlong, hsplit, ← hdrop]
        have hwrite : Outcome r before (RowState.write
            { st with ows := res.ws, oracleOut := scatter out res.writes }
            (scatter out res.writes ++ temp.drop r.nVisible)) ↔ _ :=
          outcome_write hdst hfailed hlength
        rw [List.forall_mem_append, and_iff_right hscatter] at hwrite
        rw [← hwrite]
        constructor
        · rintro ⟨st', hst', hout⟩
          have hbranch := (if_neg (not_not.mpr hok)).symm.trans hst'
          rw [Option.some.injEq] at hbranch
          exact hbranch ▸ hout
        · intro hout
          exact ⟨_, if_neg (not_not.mpr hok), hout⟩
  · rw [if_neg hrun]
    have hrefused : ¬Refused u r := fun h => hrun ⟨h.1, h.2.1⟩
    have hranks : ¬(Ranks u.mode ∧ 2 ^ 31 < r.nVisible) := by
      rintro ⟨hrank, hlong⟩
      apply hrun
      refine ⟨?_, by omega⟩
      rintro hoff
      rw [hoff] at hrank
      rcases hrank with h | h | h <;> cases h
    rw [or_iff_right hrefused, Narrows, and_iff_left hranks, ← pair_finite hpair,
      ← outcome_write hdst hfailed hlen]
    simp only [Option.some.injEq, exists_eq_left']

theorem safe_of_nil (h : r.scores = []) : Safe u r st ∧ Narrows u r := by
  have hvisible : r.nVisible = 0 := Nat.le_zero.mp (by simpa [h] using nVisible_le r)
  refine ⟨⟨_, if_pos h, ?_⟩, ?_, ?_⟩
  · refine .inl ⟨rfl, [], ?_, ?_, nofun⟩
    · rw [h]
    · rw [h]
      rfl
  · rw [h]
    exact nofun
  · rw [hvisible]
    exact fun hlong => absurd hlong.2 (by decide)

/-- A finite scale may even be negative. -/
theorem safe_iff_of_finite (hfinite : ∀ x ∈ r.scores, x.isFinite = true)
    (hscale : ∀ a, u.scale = some a → a.isFinite = true) (hws : Reached st.ows) :
    Safe u r st ↔ Discarded u r ∨ Refused u r ∨ Narrows u r := by
  by_cases hnil : r.scores = []
  · have hempty : Safe u r st ∧ Narrows u r := safe_of_nil hnil
    exact iff_of_true hempty.1 (.inr (.inr hempty.2))
  have hall : r.scores.all F32.isFinite = true := List.all_eq_true.mpr hfinite
  unfold Safe replaceRow
  dsimp only
  rw [if_neg hnil, hall, if_neg (by decide)]
  rcases applyScale_spec hfinite hscale with ⟨hnone, hlarge⟩ | ⟨hsmall, temp, hsome, hpair⟩
  · rw [hnone]
    apply iff_of_true _ (.inl hlarge)
    exact ⟨_, rfl, outcome_fail rfl rfl⟩
  · rw [hsome]
    have hdiscarded : ¬Discarded u r := by
      rintro ⟨x, hx, hlarge⟩
      exact hlarge.not_gt (hsmall x hx)
    rw [or_iff_right hdiscarded]
    exact applyOracle_iff hws.uniform rfl rfl hpair

/-- Whatever finite scores a row has and whatever finite scale is accepted for its layer, only
finite numbers are written or the row fails, exactly when a product is infinite as a double, the
oracle refuses the row, or no product overflows when it is narrowed. -/
theorem safe_iff (hfinite : ∀ x ∈ r.scores, x.isFinite = true)
    (hscale : ∀ a, u.scale = some a → a.isFinite = true ∧ 0 < value a) (hws : Reached st.ows) :
    Safe u r st ↔ Discarded u r ∨ Refused u r ∨ Narrows u r :=
  safe_iff_of_finite hfinite (fun a ha => (hscale a ha).1) hws

/-- The scale of a layer comes from the texts that were parsed. -/
theorem safe_iff_of_parsed {envSpec fileJson : LayerMasks.Bytes} {n layerId : ℤ}
    {m : ScoreScale.ScaleMap} (hparse : ScoreScale.parseScoreScale envSpec fileJson n = some m)
    (hscale : u.scale = some (m.get layerId)) (hfinite : ∀ x ∈ r.scores, x.isFinite = true)
    (hws : Reached st.ows) :
    (0 < value (m.get layerId)) ∧
      (Safe u r st ↔ Discarded u r ∨ Refused u r ∨ Narrows u r) := by
  have hpositive := (ScoreScale.sound_parseScoreScale hparse).positive_get layerId
  refine ⟨hpositive.value_pos, safe_iff_of_finite hfinite ?_ hws⟩
  intro a ha
  rw [hscale, Option.some.injEq] at ha
  exact ha ▸ hpositive.finite

end Rows

/-- A scale of `1e39`. -/
def largeScale : Float := .ofBits 0x48078287F49C4A1D

def largeSetup : Setup := ⟨some largeScale, .off, 0⟩

/-- One score of `1.0`, in a destination of two. -/
def unitRow : Row := ⟨2, [⟨0x3F800000⟩], fun _ => .zero, 0⟩

def freshState : RowState := ⟨[], 0, 0, 0, 0, 0, false, ⟨[], [], [], []⟩, []⟩

/-- The product passes the check as a double and is written as an infinity. -/
theorem large_scale_written : ¬Safe largeSetup unitRow freshState := by
  have hrun : replaceRow largeSetup unitRow freshState = some { freshState with
      dst := [⟨0x7F800000⟩, .zero]
      replacedVectors := 1
      replacedLogits := 1 } := by
    rfl
  rintro ⟨st', hst', hout⟩
  rw [hrun, Option.some.injEq] at hst'
  rcases hout with ⟨_, values, hlen, hdst, hfinite⟩ | ⟨hcount, _⟩
  · rw [← hst'] at hdst
    have hsplit : [(⟨0x7F800000⟩ : F32)] ++ [F32.zero] =
        values ++ List.replicate (unitRow.nKv - unitRow.scores.length) .zero := hdst
    have hvalues := (List.append_inj hsplit hlen.symm).1
    have hinf := hfinite ⟨0x7F800000⟩ (hvalues ▸ List.mem_cons_self)
    exact absurd hinf (by decide)
  · rw [← hst'] at hcount
    cases hcount

theorem value_two : value 2 = 2 := by
  have hunpack : (2 : Float).toModel.unpack = .finite .positive (2 ^ 52) (-51) (by decide) := rfl
  unfold value
  rw [hunpack, toRat, signFactor]
  norm_num

/-- Twice a score of one is written. -/
theorem doubled_score_written : Safe ⟨some 2, .off, 0⟩ unitRow freshState := by
  apply (safe_iff (by decide) ?_ .fresh).mpr
  · apply Or.inr
    apply Or.inr
    constructor
    · intro x hx
      rw [List.mem_singleton.mp hx]
      have hone : single (toSingle ⟨0x3F800000⟩) = 1 := by
        have hunpack : (toSingle ⟨0x3F800000⟩).toModel.unpack =
            .finite .positive (2 ^ 23) (-23) (by decide) := rfl
        unfold single
        rw [hunpack, toRat, signFactor]
        norm_num
      have hne : ((2 : Float) == 1) = false := by decide
      unfold product narrowLimit
      dsimp only
      rw [hne, hone, value_two]
      norm_num
    · rintro ⟨_, hlong⟩
      exact absurd hlong (by decide)
  · intro a ha
    rw [Option.some.injEq] at ha
    rw [← ha, value_two]
    exact ⟨by decide, two_pos⟩

end SlhaV2.ReplaceScaling
