import SlhaV2.ScoreKernel
import SlhaV2.StoreBackends
import SlhaV2.VectorScores

/-!
# The scores of the two backends

Every kernel computes one function of a tile and a query, and a tile that the interface takes has
a codec that the cache scores, so both crates score a tile alike. A batch that the plain interface
scores answers when every tile has a finite score; so does a progression of the cache, whose scores
are looked at when they are accounted.
-/
namespace SlhaV2.BackendScores
open MachineWord ByteBuffer TileCodec SlotVector FloatingPoint PhysicalCache SlhaTile ElasticFfi
open ExternalK OutputContract TileStore StoreBackends
open HandleRegistries (Process)
open Learned (LearnedModel)
open PageTransition (validateCodec)
open ScoreKernel (hasFlag_twoPow)
open VectorKernels (Host)

variable {F : Type}

/-- Both crates with one function that scores a tile. -/
def kernelOf (computeScore : SciRustSlhaTile → List F32 → List UInt64 → F32) : Kernel where
  computeScore tile qCoarse qSign := .ok (computeScore tile qCoarse qSign)
  tryScore tile qCoarse qSign :=
    match validateCodec (readFlags tile) with
    | .ok _ => some (computeScore (tileFromBytes tile) qCoarse qSign)
    | .error _ => none

theorem exactKernel_eq (host : Host) (val : F32 → ℚ) (toF32 : ℚ → F32) :
    exactKernel host val toF32 = kernelOf fun tile qCoarse qSign =>
      toF32 (LatentCodecs.computeScoreScalar val tile (latentOf val qCoarse) (wordsOf qSign)) := by
  have hkernel : ∀ tile qCoarse qSign, kernelScore host val toF32 tile qCoarse qSign =
      some (toF32 (LatentCodecs.computeScoreScalar val tile (latentOf val qCoarse)
        (wordsOf qSign))) := by
    intro tile qCoarse qSign
    unfold kernelScore
    rw [(VectorScores.kernelsExact host val tile _ _).dispatched, Option.map_some]
  unfold exactKernel kernelOf
  rw [Kernel.mk.injEq]
  constructor
  · funext tile qCoarse qSign
    rw [hkernel, Option.elim_some]
  · funext tile qCoarse qSign
    cases validateCodec (readFlags tile) with
    | error _ => rfl
    | ok _ => exact hkernel _ _ _

theorem hasFlag_bit {flags mask : Flags} {k : ℕ} (hk : k < 16)
    (hmask : mask = BitVec.twoPow 16 k) : hasFlag flags mask = flags.getLsbD k := by
  rw [hasFlag_twoPow hk hmask, hmask, BitVec.and_twoPow]
  cases flags.getLsbD k with
  | false => rfl
  | true =>
      have hne : BitVec.twoPow 16 k ≠ 0#16 := by
        intro h
        have hbit := congrArg (fun b => b.getLsbD k) h
        simp [hk] at hbit
      exact decide_eq_true hne

/-- The codec flags that are set, by the number of their bits. -/
theorem codecs_selected (flags : Flags) :
    ([flagMixed, flagTq3, flagMix3, flagNf4].filter (hasFlag flags)).length =
      countOnes (flags &&& codecFlags) := by
  have hbits : (List.range 16).filter (fun i => codecFlags.getLsbD i) = [1, 2, 3, 5] := by decide
  have hmasks : [flagMixed, flagTq3, flagMix3, flagNf4] =
      [2, 3, 5, 1].map (BitVec.twoPow 16) := by decide
  have hperm : List.Perm [2, 3, 5, 1] [1, 2, 3, 5] := by decide
  have hmask : ∀ k ∈ [2, 3, 5, 1],
      (hasFlag flags ∘ BitVec.twoPow 16) k = flags.getLsbD k := by
    intro k hk
    refine hasFlag_bit ?_ rfl
    revert k
    decide
  unfold countOnes
  simp only [BitVec.getLsbD_and]
  rw [← List.filter_filter, hbits, hmasks, List.filter_map, List.length_map]
  calc ([2, 3, 5, 1].filter (hasFlag flags ∘ BitVec.twoPow 16)).length
      = ([2, 3, 5, 1].filter flags.getLsbD).length := by rw [List.filter_congr hmask]
    _ = ([1, 2, 3, 5].filter flags.getLsbD).length := (hperm.filter _).length_eq

/-- A tile that the interface takes has a codec that the cache scores. -/
theorem validateCodec_of_validateTile {tile : Tile}
    (h : validateTile (tileFromBytes tile) = .ok ()) :
    validateCodec (readFlags tile) = .ok () := by
  have hflags : (tileFromBytes tile).flags = readFlags tile := rfl
  unfold validateTile at h
  split_ifs at h with hknown hcount hcorr
  rw [hflags] at hcount hcorr
  have hnocorr : ¬ (hasFlag (readFlags tile) flagTq3Nocorr &&
      !(hasFlag (readFlags tile) flagTq3 || hasFlag (readFlags tile) flagMix3)) = true := by
    rw [hasFlag_twoPow (k := 4) (by decide) (by decide),
      hasFlag_twoPow (k := 3) (by decide) (by decide),
      hasFlag_twoPow (k := 5) (by decide) (by decide), Bool.and_eq_true, Bool.not_eq_true',
      Bool.or_eq_false_iff, decide_eq_true_iff, decide_eq_false_iff_not, decide_eq_false_iff_not,
      not_not, not_not]
    rintro ⟨hnocorr, htq3, hmix3⟩
    apply hcorr
    refine ⟨hnocorr, ?_⟩
    rw [BitVec.and_or_distrib_left, htq3, hmix3]
    rfl
  unfold validateCodec
  dsimp only
  rw [codecs_selected, if_neg hcount, if_neg hnocorr]

/-- The scores of tiles for a query, when its pointers and the scores are as they must be. -/
def scoresOf (computeScore : SciRustSlhaTile → List F32 → List UInt64 → F32)
    (tiles : ℕ → SciRustSlhaTile) (count : ℕ) (q : Query) (scoresOut : Bool) :
    Option (List F32) :=
  match readQuery q with
  | .error _ => none
  | .ok q =>
    let scores := (List.range count).map fun i => computeScore (tiles i) q.1 q.2
    if scoresOut && scores.all F32.isFinite then some scores else none

variable {computeScore : SciRustSlhaTile → List F32 → List UInt64 → F32}

section Plain
variable {proc : Process (ElasticKvCache F) LearnedModel} {model : ℕ} {m : LearnedModel}
  {tiles : ℕ → SciRustSlhaTile} {count : ℕ}

theorem tileScore_kernelOf {tile : SciRustSlhaTile} (hvalid : validateTile tile = .ok ())
    (qCoarse : List F32) (qSign : List UInt64) :
    tileScore (kernelOf computeScore) tile qCoarse qSign =
      if (computeScore tile qCoarse qSign).isFinite then .ok (computeScore tile qCoarse qSign)
      else .error slhaErrNonfinite := by
  unfold tileScore
  rw [hvalid]
  cases hfinite : (computeScore tile qCoarse qSign).isFinite with
  | true => simp [kernelOf, caught, ensure, hfinite, bind, Except.bind, pure, Except.pure]
  | false => simp [kernelOf, caught, ensure, hfinite, bind, Except.bind]

/-- What is stored when no score fails. -/
theorem storeEach_values {ε α : Type} {x : ℕ → Except ε α} {g : ℕ → α} {n i : ℕ}
    (h : ∀ j, i ≤ j → j < i + n → x j = .ok (g j)) (s : ℕ → α) :
    ∃ s', AtomicPrograms.storeEach x n i s = .ok () s' ∧ ∀ j, i ≤ j → j < i + n → s' j = g j := by
  induction n generalizing i s with
  | zero => exact ⟨s, rfl, fun j hle hlt => absurd hlt (by omega)⟩
  | succ n ih =>
      obtain ⟨s', hrun, hlater⟩ := ih (i := i + 1) (fun j hle hlt => h j (by omega) (by omega))
        (Function.update s i (g i))
      refine ⟨s', ?_, fun j hle hlt => ?_⟩
      · rw [AtomicPrograms.storeEach_ok (h i (le_refl i) (by omega)), hrun]
      · rcases Nat.eq_or_lt_of_le hle with rfl | hlt'
        · have hkept := AtomicPrograms.after_storeEach_of_lt (x := x) (n := n) (Nat.lt_succ_self i)
            (Function.update s i (g i))
          unfold AtomicPrograms.after at hkept
          rw [hrun, Function.update_self] at hkept
          exact hkept
        · exact hlater j hlt' (by omega)

/-- A batch of valid tiles leaves its scores behind when all of them are finite. -/
theorem storeScores_kernelOf (hvalid : ∀ i < count, validateTile (tiles i) = .ok ())
    (qCoarse : List F32) (qSign : List UInt64) (b : Buffers) :
    Plain.scoresBehind count
        (ffiStatus (storeScores (kernelOf computeScore) tiles count qCoarse qSign) b) =
      if ((List.range count).map fun i => computeScore (tiles i) qCoarse qSign).all F32.isFinite
      then some ((List.range count).map fun i => computeScore (tiles i) qCoarse qSign)
      else none := by
  have hscore : ∀ i < count, tileScore (kernelOf computeScore) (tiles i) qCoarse qSign = _ :=
    fun i hi => tileScore_kernelOf (hvalid i hi) qCoarse qSign
  by_cases hfinite : ∀ i < count, (computeScore (tiles i) qCoarse qSign).isFinite = true
  · obtain ⟨floats, hrun, hvalues⟩ := storeEach_values (n := count) (i := 0)
      (x := fun i => tileScore (kernelOf computeScore) (tiles i) qCoarse qSign)
      (g := fun i => computeScore (tiles i) qCoarse qSign)
      (fun i _ hi => (hscore i (by omega)).trans (if_pos (hfinite i (by omega)))) b.floats
    have hall : ((List.range count).map fun i =>
        computeScore (tiles i) qCoarse qSign).all F32.isFinite = true := by
      rw [List.all_map, List.all_eq_true]
      exact fun i hi => hfinite i (List.mem_range.mp hi)
    unfold storeScores ffiStatus Plain.scoresBehind
    rw [AtomicPrograms.onPart_ok hrun, if_pos hall]
    dsimp only
    rw [if_pos rfl]
    congr 1
    exact List.map_congr_left fun i hi =>
      hvalues i (Nat.zero_le i) (by rw [Nat.zero_add]; exact List.mem_range.mp hi)
  · have hfails : AtomicPrograms.Fails (AtomicPrograms.storeEach
        (fun i => tileScore (kernelOf computeScore) (tiles i) qCoarse qSign) count 0)
        b.floats := by
      push Not at hfinite
      obtain ⟨i, hi, hnot⟩ := hfinite
      exact AtomicPrograms.fails_storeEach_iff.mpr
        ⟨i, Nat.zero_le i, by omega, _, (hscore i hi).trans (if_neg hnot)⟩
    obtain ⟨code, floats, hrun⟩ := hfails
    obtain ⟨j, hj⟩ := AtomicPrograms.error_of_storeEach hrun
    have hall : ¬ ((List.range count).map fun i =>
        computeScore (tiles i) qCoarse qSign).all F32.isFinite = true := by
      rw [List.all_map, List.all_eq_true]
      exact fun h => hfinite fun i hi => h i (List.mem_range.mpr hi)
    unfold storeScores ffiStatus Plain.scoresBehind
    rw [AtomicPrograms.onPart_error hrun, if_neg hall]
    exact if_neg (tileScore_error hj)

/-- A plain score call of valid tiles with a live model. -/
theorem slhaScoreTiles_kernelOf (hmodel : modelOf proc model = .ok m)
    (hvalid : ∀ i < count, validateTile (tiles i) = .ok ())
    (hcount : 1 ≤ count ∧ count ≤ maxTiles) (q : Query) (scoresOut : Bool) (b : Buffers) :
    Plain.scoresBehind count (ffiStatus (slhaScoreTiles (kernelOf computeScore) proc model
        (some tiles) count q.coarse q.sign scoresOut) b) =
      scoresOf computeScore tiles count q scoresOut := by
  obtain ⟨coarse, sign⟩ := q
  cases coarse with
  | none => rfl
  | some coarse =>
  cases sign with
  | none => rfl
  | some sign =>
  cases scoresOut with
  | false =>
      unfold scoresOf
      cases readQuery ⟨some coarse, some sign⟩ <;> rfl
  | true =>
  unfold scoresOf readQuery
  dsimp only
  by_cases hfinite : ∀ i < dC, (coarse i).isFinite = true
  · have hall : ((List.range dC).map coarse).all F32.isFinite = true :=
      ensure_eq_ok.mp (validateFinite_eq_ok (u := ()) |>.mpr hfinite)
    rw [scoreTiles_of_ready hmodel hcount.1 hcount.2 hfinite, if_pos hall,
      storeScores_kernelOf hvalid]
    rfl
  · have hall : ¬ ((List.range dC).map coarse).all F32.isFinite = true := fun h =>
      hfinite ((validateFinite_eq_ok (u := ())).mp (ensure_eq_ok.mpr h))
    have hquery : validateFinite ((List.range dC).map coarse) = .error slhaErrNonfinite :=
      if_neg hall
    rw [if_neg hall]
    have hmax : ensure (count ≤ maxTiles) slhaErrDimension = .ok () := ensure_eq_ok.mpr hcount.2
    have hout : ensure (true = true) slhaErrNull = .ok () := rfl
    unfold slhaScoreTiles orNull
    dsimp only
    rw [AtomicPrograms.check_ok_bind, AtomicPrograms.check_ok_bind, AtomicPrograms.check_ok_bind,
      hout, AtomicPrograms.check_ok_bind, hmodel, AtomicPrograms.check_ok_bind, hmax,
      AtomicPrograms.check_ok_bind, if_neg (Nat.ne_of_gt hcount.1), hquery]
    rfl

end Plain

section Elastic
variable {tryScore : TryScore} {c : ElasticKvCache F} {startSlot stride : ℕ}

theorem stridedSlot_eq {i : ℕ} (h : startSlot + stride * i ≤ maxWord) :
    stridedSlot startSlot stride i = .ok (startSlot + stride * i) := by
  unfold stridedSlot
  rw [checkedMul_eq_some.mpr ⟨show stride * i ≤ maxWord by omega, rfl⟩, Option.bind_some,
    checkedAdd_eq_some.mpr ⟨h, rfl⟩]

/-- A progression of slots that all have a score. -/
theorem scoreLoop_values {q : List F32 × List UInt64} {g : ℕ → F32} {n i : ℕ}
    (h : ∀ j, i ≤ j → j < i + n → startSlot + stride * j ≤ maxWord ∧
      score tryScore c (startSlot + stride * j) q.1 q.2 = some (g j)) :
    scoreLoop tryScore c startSlot stride q n i = .ok ((List.range' i n).map g) := by
  induction n generalizing i with
  | zero => rfl
  | succ n ih =>
      obtain ⟨hword, hscore⟩ := h i (le_refl i) (by omega)
      rw [scoreLoop, stridedSlot_eq hword]
      dsimp only [bind, Except.bind]
      rw [hscore]
      dsimp only
      rw [ih fun j hle hlt => h j (by omega) (by omega)]
      rfl

/-- A progression with a slot that has no score. -/
theorem scoreLoop_missing {q : List F32 × List UInt64} {n i : ℕ}
    (hword : ∀ j, i ≤ j → j < i + n → startSlot + stride * j ≤ maxWord)
    (hmissing : ∃ j, i ≤ j ∧ j < i + n ∧
      score tryScore c (startSlot + stride * j) q.1 q.2 = none) :
    scoreLoop tryScore c startSlot stride q n i = .error slhaErrNotResident := by
  induction n generalizing i with
  | zero =>
      obtain ⟨j, hle, hlt, -⟩ := hmissing
      omega
  | succ n ih =>
      rw [scoreLoop, stridedSlot_eq (hword i (le_refl i) (by omega))]
      dsimp only [bind, Except.bind]
      cases hscore : score tryScore c (startSlot + stride * i) q.1 q.2 with
      | none => rfl
      | some value =>
          dsimp only
          obtain ⟨j, hle, hlt, hj⟩ := hmissing
          have hne : j ≠ i := by
            rintro rfl
            rw [hscore] at hj
            cases hj
          rw [ih (fun j hle hlt => hword j (by omega) (by omega))
            ⟨j, by omega, by omega, hj⟩]

theorem observations_ok {scores : List F32} {i : ℕ}
    (h : ∀ j, i ≤ j → j < i + scores.length → startSlot + stride * j ≤ maxWord) :
    ∃ seen, observations startSlot stride i scores = .ok seen := by
  induction scores generalizing i with
  | nil => exact ⟨[], rfl⟩
  | cons value rest ih =>
      have hlength : (value :: rest).length = rest.length + 1 := rfl
      obtain ⟨seen, hseen⟩ := ih (i := i + 1) fun j hle hlt => h j (by omega) (by omega)
      refine ⟨(startSlot + stride * i, value) :: seen, ?_⟩
      rw [observations, stridedSlot_eq (h i (le_refl i) (by omega))]
      change (observations startSlot stride (i + 1) rest >>= fun later =>
        pure ((startSlot + stride * i, value) :: later)) = _
      rw [hseen]
      rfl

theorem readQuery_error {q : Query} {code : ℤ} (h : readQuery q = .error code) :
    code ≠ slhaOk := by
  unfold readQuery at h
  split at h
  · dsimp only at h
    split_ifs at h
    cases h
    decide
  · cases h
    decide

variable [F32Arith] {temperature : F32}

/-- Scores are accounted when they are all finite. -/
theorem observe_status {scores : List F32} (hfinite : temperature.isFinite = true)
    (hpositive : F32Arith.le temperature F32.zero = false) (hstride : 0 < stride)
    (hmax : scores.length ≤ maxTiles)
    (hword : ∀ j < scores.length, startSlot + stride * j ≤ maxWord) :
    (slhaElasticCacheObserveScoresStrided c startSlot stride scores temperature true).1 =
      slhaOk ↔ scores.all F32.isFinite = true := by
  obtain ⟨seen, hseen⟩ : ∃ seen, observations startSlot stride 0 scores = .ok seen :=
    observations_ok fun j _ hlt => hword j (by omega)
  unfold slhaElasticCacheObserveScoresStrided
  rw [hfinite, hpositive, if_neg (by decide), if_neg (Nat.not_lt.mpr hmax), hseen]
  cases hall : scores.all F32.isFinite with
  | true =>
      rw [if_neg (c := scores.length > 1 ∧ stride = 0) (by omega)]
      split_ifs <;> first | contradiction | exact iff_of_true rfl rfl
  | false =>
      rw [if_neg (c := scores.length > 1 ∧ stride = 0) (by omega)]
      have hpos : scores.length ≠ 0 := by
        intro hz
        rw [List.eq_nil_of_length_eq_zero hz] at hall
        cases hall
      rw [if_neg hpos]
      exact iff_of_false (show slhaErrNonfinite ≠ slhaOk by decide) Bool.false_ne_true

variable {s : Ccos F} {layerId : ℤ} {startPosition count : ℕ}
  {tiles : ℕ → SciRustSlhaTile}

/-- What the caller of a score call is told. -/
abbrev told (r : Ccos.Scored) : Option (List F32) := if r.rc = slhaOk then some r.written else none

/-- A score call over slots that hold tiles. -/
theorem told_tiles (hc : s.cache = some c)
    (hstart : s.rangeStart layerId startPosition count = some startSlot)
    (hlayers : 0 < s.nLayers) (hcount : 1 ≤ count ∧ count ≤ maxTiles)
    (hfinite : s.importanceTemperature.isFinite = true)
    (hpositive : F32Arith.le s.importanceTemperature F32.zero = false)
    (hslots : ∀ j < count, startSlot + s.nLayers * j ≤ maxWord ∧ ∀ qCoarse qSign,
      score tryScore c (startSlot + s.nLayers * j) qCoarse qSign =
        some (computeScore (tiles j) qCoarse qSign))
    (q : Query) (scoresOut : Bool) :
    told (Ccos.scoreTiles tryScore s layerId startPosition count q scoresOut true).1 =
      scoresOf computeScore tiles count q scoresOut := by
  unfold Ccos.scoreTiles ElasticFfi.slhaElasticCacheScoreStrided scoresOf
  rw [hc, hstart]
  dsimp only
  rw [if_neg (Nat.not_lt.mpr hcount.2), if_neg (Nat.ne_of_gt hcount.1),
    if_neg (c := count > 1 ∧ s.nLayers = 0) (by omega)]
  cases scoresOut with
  | false => cases readQuery q <;> rfl
  | true =>
  cases hq : readQuery q with
  | error code => exact if_neg (readQuery_error hq)
  | ok q =>
  have hloop : scoreLoop tryScore c startSlot s.nLayers q count 0 =
      .ok ((List.range count).map fun i => computeScore (tiles i) q.1 q.2) := by
    rw [scoreLoop_values fun j _ hlt =>
      ⟨(hslots j (by omega)).1, (hslots j (by omega)).2 q.1 q.2⟩, List.range_eq_range']
  have hlength : ((List.range count).map fun i => computeScore (tiles i) q.1 q.2).length =
      count := by rw [List.length_map, List.length_range]
  have hobserve : (slhaElasticCacheObserveScoresStrided c startSlot s.nLayers
      ((List.range count).map fun i => computeScore (tiles i) q.1 q.2) s.importanceTemperature
      true).1 = slhaOk ↔ _ :=
    observe_status hfinite hpositive hlayers (hlength.trans_le hcount.2)
      fun j hj => (hslots j (hj.trans_eq hlength)).1
  dsimp only [bind, Except.bind]
  rw [if_neg (by decide), if_neg (by decide), hloop]
  dsimp only
  rw [if_pos (show count > 0 from hcount.1), Bool.true_and]
  by_cases hall : ((List.range count).map fun i =>
      computeScore (tiles i) q.1 q.2).all F32.isFinite = true
  · rw [if_pos hall]
    exact if_pos (hobserve.mpr hall)
  · rw [if_neg hall]
    exact if_neg fun h => hall (hobserve.mp h)

/-- A score call over slots of which one holds no tile. -/
theorem told_missing (hc : s.cache = some c)
    (hstart : s.rangeStart layerId startPosition count = some startSlot)
    (hcount : count ≤ maxTiles)
    (hword : ∀ j < count, startSlot + s.nLayers * j ≤ maxWord)
    (hmissing : ∃ j < count, slotAt c.slots (startSlot + s.nLayers * j) = none)
    (q : Query) (scoresOut : Bool) :
    told (Ccos.scoreTiles tryScore s layerId startPosition count q scoresOut true).1 = none := by
  obtain ⟨j, hj, habsent⟩ := hmissing
  have hfails : ∃ code, ElasticFfi.slhaElasticCacheScoreStrided tryScore c startSlot s.nLayers
      count q scoresOut true = .error code ∧ code ≠ slhaOk := by
    unfold ElasticFfi.slhaElasticCacheScoreStrided
    rw [if_neg (Nat.not_lt.mpr hcount), if_neg (by omega)]
    by_cases hstride : count > 1 ∧ s.nLayers = 0
    · rw [if_pos hstride]
      exact ⟨_, rfl, by decide⟩
    rw [if_neg hstride]
    cases scoresOut with
    | false => exact ⟨_, rfl, by decide⟩
    | true =>
    cases hq : readQuery q with
    | error code => exact ⟨code, rfl, readQuery_error hq⟩
    | ok q =>
        refine ⟨slhaErrNotResident, ?_, by decide⟩
        change scoreLoop tryScore c startSlot s.nLayers q count 0 = _
        apply scoreLoop_missing (fun j _ hlt => hword j (by omega))
        refine ⟨j, Nat.zero_le j, by omega, ?_⟩
        unfold score
        rw [habsent]
  obtain ⟨code, hcode, hne⟩ := hfails
  unfold Ccos.scoreTiles
  rw [hc, hstart]
  dsimp only
  rw [hcode]
  exact if_neg hne

end Elastic

end SlhaV2.BackendScores
