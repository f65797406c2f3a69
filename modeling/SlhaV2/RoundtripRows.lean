import SlhaV2.KTransform

/-!
# Rows of the round-trip mode

A call in round-trip mode is to leave every row of the destination decoded, or
copied where coding fails, and to have one thread produce it. Which rows are
produced depends on the strides and on the failures, and when no model can be
loaded on the thread that finds this out.
-/
namespace SlhaV2.RoundtripRows
open ByteBuffer FloatingPoint ByteMemory ThreadSchedules KTransform OutputContract ElasticFfi Learned

variable {F : Type} {c : Call F} {layer : LayerState}

/-- The model that the layer ends up with, zero for none. -/
def usedModel (c : Call F) (layer : LayerState) : ℕ := (prepareLayer c layer).modelHandle

/-- The plan that goes with a model. -/
def planOf (model : ℕ) : Plan := if model = 0 then .strided else .transform model

/-- What row `t` is to hold. -/
def expectedRow (c : Call F) (model t : ℕ) : List UInt8 :=
  if model = 0 then readBytes c.src (t * c.a.nb1) (rowBytes c)
  else match roundtripRow c model t with
    | .ok bytes => bytes
    | .error _ => readBytes c.src (t * c.a.nb1) (rowBytes c)

/-- Every row holds what it is to hold and was produced by exactly one thread. -/
def RowsRight (c : Call F) (model : ℕ) (s : Shared) : Prop :=
  ∀ t < c.a.ne1, readBytes s.dst (t * c.dst.nb1) (rowBytes c) = expectedRow c model t ∧
    ∃! ith, (t, ith) ∈ s.produced

/-- A call in round-trip mode on single-precision rows that do not overlap. -/
structure Roundtrip (c : Call F) (layer : LayerState) : Prop where
  mode : layer.kvMode = .roundtrip
  type : c.type.isF32 = true
  src : rowBytes c ≤ c.a.nb1
  dst : rowBytes c ≤ c.dst.nb1
  threads : 0 < c.nth

/-- The rows that reach the destination, and no thread finding the layer turned off. -/
def Complete (c : Call F) (layer : LayerState) : Prop :=
  if usedModel c layer = 0 then c.a.ne1 ≤ tokensPerThread c
  else c.a.ne1 = 0 ∨ (c.a.nb1 = rowBytes c ∧ c.dst.nb1 = rowBytes c) ∨
    c.dst.nb1 ≠ rowBytes c ∧ ∀ t < c.a.ne1, ∃ bytes, roundtripRow c (usedModel c layer) t = .ok bytes

/-- Where a thread of a round trip can be, given what the layer is. -/
def Fits (c : Call F) (layer : LayerState) (i : ℕ) (now : LayerState) : Pc → Prop
  | .enter | .dispatch | .prepare | .done => True
  | .check => now = prepareLayer c layer
  | .rows plan t tail => plan = planOf (usedModel c layer) ∧ tail = false ∧ tokenStart c i ≤ t
  | .collect | .load | .tiles => False

/-- The layer is as it was or as loading leaves it, and threads write their own rows only. -/
structure Sound (c : Call F) (layer : LayerState) (w : World ℕ Pc Shared) : Prop where
  layers : w.shared.layer = layer ∨ w.shared.layer = prepareLayer c layer
  fits : ∀ i, Fits c layer i w.shared.layer (w.locals i)
  owned : ∀ t i, (t, i) ∈ w.shared.produced → (tokenStart c i ≤ t ∧ t < tokenEnd c i) ∧
    (rowOutput c (planOf (usedModel c layer)) t).isSome

theorem sound_start (dst : Memory) (written : ℕ) : Sound c layer (start layer dst written) where
  layers := .inl rfl
  fits := fun _ => trivial
  owned := fun _ _ h => nomatch h

theorem mem_writeRow {i j t u : ℕ} {plan : Plan} {s : Shared} :
    (u, j) ∈ (writeRow c i plan t s).produced ↔
      (u = t ∧ j = i ∧ (rowOutput c plan t).isSome) ∨ (u, j) ∈ s.produced := by
  unfold writeRow
  cases h : rowOutput c plan t with
  | none => simp
  | some out => simp

theorem writeRow_layer {i t : ℕ} {plan : Plan} {s : Shared} :
    (writeRow c i plan t s).layer = s.layer := by
  unfold writeRow
  cases rowOutput c plan t <;> rfl

theorem Fits.mono {i : ℕ} {now later : LayerState} {pc : Pc} (h : Fits c layer i now pc)
    (hlater : later = now ∨ later = prepareLayer c layer) : Fits c layer i later pc := by
  cases pc with
  | check =>
      rcases hlater with rfl | hlater
      · exact h
      · exact hlater
  | _ => exact h

theorem prepareLayer_of_layers {now : LayerState}
    (h : now = layer ∨ now = prepareLayer c layer) : prepareLayer c now = prepareLayer c layer := by
  rcases h with rfl | rfl
  · rfl
  · exact prepareLayer_idem

/-- One step of a thread. -/
theorem fits_step (hc : Roundtrip c layer) {i : ℕ} {pc : Pc} {s : Shared}
    (hlayers : s.layer = layer ∨ s.layer = prepareLayer c layer)
    (hpc : Fits c layer i s.layer pc) :
    Fits c layer i (step c i pc s).2.layer (step c i pc s).1 ∧
      ((step c i pc s).2.layer = s.layer ∨ (step c i pc s).2.layer = prepareLayer c layer) := by
  cases pc with
  | enter =>
      unfold step
      dsimp only
      split_ifs <;> exact ⟨trivial, .inl rfl⟩
  | dispatch =>
      have hmode : s.layer.kvMode = .roundtrip ∨ s.layer.kvMode = .off := by
        rcases hlayers with h | h
        · rw [h]
          exact .inl hc.mode
        · rw [h]
          rcases @prepareLayer_result F c layer with hres | hres
          · exact .inl (hres.1.trans hc.mode)
          · exact .inr hres.1
      unfold step
      dsimp only
      rcases hmode with hmode | hmode
      · rw [hmode]
        exact ⟨trivial, .inl rfl⟩
      · rw [hmode]
        exact ⟨trivial, .inl rfl⟩
  | prepare => exact ⟨prepareLayer_of_layers hlayers, .inr (prepareLayer_of_layers hlayers)⟩
  | check =>
      have hnow : s.layer = prepareLayer c layer := hpc
      unfold step
      dsimp only
      rcases @prepareLayer_result F c layer with hres | hres
      · have hcond : ¬ (s.layer.kvMode = .off ∨ !c.type.isF32 ∨ s.layer.modelHandle = 0) := by
          rw [hnow, hres.1, hc.mode]
          simp [hc.type, hres.2]
        rw [if_neg hcond]
        refine ⟨⟨?_, rfl, le_rfl⟩, .inl rfl⟩
        rw [hnow, planOf, usedModel, if_neg hres.2]
      · rw [if_pos (.inl (hnow ▸ hres.1))]
        refine ⟨⟨?_, rfl, le_rfl⟩, .inl rfl⟩
        rw [planOf, usedModel, if_pos hres.2]
  | rows plan t tail =>
      obtain ⟨hplan, htail, hle⟩ := hpc
      unfold step
      dsimp only
      split_ifs with hlt hmore
      · exact ⟨⟨hplan, htail, Nat.le_succ_of_le hle⟩, .inl writeRow_layer⟩
      · rw [htail] at hmore
        cases hmore
      · exact ⟨trivial, .inl rfl⟩
  | done => exact ⟨trivial, .inl rfl⟩
  | collect => exact hpc.elim
  | load => exact hpc.elim
  | tiles => exact hpc.elim

theorem produced_step {i j t : ℕ} {pc : Pc} {s : Shared}
    (h : (t, j) ∈ (step c i pc s).2.produced) : (t, j) ∈ s.produced ∨
      j = i ∧ t < tokenEnd c i ∧ ∃ plan tail, pc = .rows plan t tail ∧ (rowOutput c plan t).isSome := by
  cases pc with
  | rows plan u tail =>
      unfold step at h
      dsimp only at h
      split_ifs at h with hlt hmore
      · rcases mem_writeRow.mp h with ⟨rfl, rfl, hsome⟩ | h
        · exact .inr ⟨rfl, hlt, plan, tail, rfl, hsome⟩
        · exact .inl h
      · exact .inl h
      · exact .inl h
  | enter =>
      unfold step at h
      dsimp only at h
      split_ifs at h <;> exact .inl h
  | dispatch =>
      unfold step at h
      dsimp only at h
      split at h <;> exact .inl h
  | check =>
      unfold step at h
      dsimp only at h
      split_ifs at h <;> exact .inl h
  | load =>
      unfold step at h
      dsimp only at h
      split at h
      · exact .inl h
      · split_ifs at h <;> exact .inl h
  | tiles =>
      unfold step at h
      dsimp only at h
      split at h
      · exact .inl h
      · split_ifs at h <;> exact .inl h
  | prepare => exact .inl h
  | collect => exact .inl h
  | done => exact .inl h

theorem sound_step (hc : Roundtrip c layer) (w : World ℕ Pc Shared) (i : ℕ)
    (h : Sound c layer w) : Sound c layer (exec (step c) w i) := by
  obtain ⟨hfits, hlayer⟩ := fits_step hc h.layers (h.fits i)
  constructor
  · rcases hlayer with hsame | hnew
    · have hkept : (exec (step c) w i).shared.layer = w.shared.layer := hsame
      rw [hkept]
      exact h.layers
    · exact .inr hnew
  · intro j
    by_cases hij : j = i
    · subst hij
      rw [exec_self]
      exact hfits
    · rw [exec_of_ne w hij]
      exact (h.fits j).mono hlayer
  · intro t j hmem
    rcases produced_step hmem with hold | ⟨rfl, hlt, plan, tail, hpc, hsome⟩
    · exact h.owned t j hold
    · have hrows := h.fits j
      rw [hpc] at hrows
      obtain ⟨rfl, _, hle⟩ := hrows
      exact ⟨⟨hle, hlt⟩, hsome⟩

/-- The bounds of a thread's rows hold after every schedule. -/
theorem sound_run (hc : Roundtrip c layer) (dst : Memory) (written : ℕ) (schedule : List ℕ) :
    Sound c layer (run (step c) (start layer dst written) schedule) :=
  run_invariant (fun w i => sound_step hc w i) (sound_start dst written) schedule

theorem length_floatBytes (xs : List F32) : (floatBytes xs).length = 4 * xs.length := by
  induction xs with
  | nil => rfl
  | cons x xs ih =>
      have hcons : floatBytes (x :: xs) = leBytes 4 x.bits.toNat ++ floatBytes xs := rfl
      rw [hcons, List.length_append, length_leBytes, ih, List.length_cons]
      ring

theorem length_decodedKey {model d : ℕ} {tile : SlhaTile.SciRustSlhaTile} {floats : List F32}
    (h : decodedKey c.process model tile d = .ok floats) : floats.length = d := by
  obtain ⟨m, _, h⟩ := AtomicPrograms.bind_eq_ok.mp h
  obtain ⟨_, _, h⟩ := AtomicPrograms.bind_eq_ok.mp h
  obtain ⟨_, _, h⟩ := AtomicPrograms.bind_eq_ok.mp h
  obtain ⟨reconstruction, _, h⟩ := AtomicPrograms.bind_eq_ok.mp h
  obtain ⟨_, hlen, h⟩ := AtomicPrograms.bind_eq_ok.mp h
  obtain ⟨_, _, h⟩ := AtomicPrograms.bind_eq_ok.mp h
  cases h
  rw [List.length_map]
  exact ensure_eq_ok.mp hlen

theorem length_roundtripRow (hc : Roundtrip c layer) {model t : ℕ} {bytes : List UInt8}
    (h : roundtripRow c model t = .ok bytes) : bytes.length = rowBytes c := by
  obtain ⟨tile, _, h⟩ := AtomicPrograms.bind_eq_ok.mp h
  obtain ⟨floats, hfloats, h⟩ := AtomicPrograms.bind_eq_ok.mp h
  cases h
  rw [length_floatBytes, length_decodedKey hfloats, rowBytes, GgmlType.rowSize_f32 hc.type]

theorem length_expectedRow (hc : Roundtrip c layer) (model t : ℕ) :
    (expectedRow c model t).length = rowBytes c := by
  unfold expectedRow
  split_ifs
  · exact length_readBytes
  · cases h : roundtripRow c model t with
    | ok bytes => exact length_roundtripRow hc h
    | error e => exact length_readBytes

/-- In a complete call every row reaches the destination. -/
theorem rowOutput_of_complete (h : Complete c layer) {t : ℕ} (ht : t < c.a.ne1) :
    rowOutput c (planOf (usedModel c layer)) t =
      some (t * c.dst.nb1, expectedRow c (usedModel c layer) t) := by
  unfold Complete at h
  unfold planOf expectedRow
  split_ifs at h ⊢ with hmodel
  · rfl
  · rcases h with hzero | ⟨hsrc, hdst⟩ | ⟨hpadded, hall⟩
    · omega
    · unfold rowOutput transformRow
      dsimp only
      rw [if_pos ⟨hsrc, hdst⟩]
      cases roundtripRow c (usedModel c layer) t <;> rfl
    · obtain ⟨bytes, hbytes⟩ := hall t ht
      unfold rowOutput transformRow
      dsimp only
      rw [if_neg fun hboth => hpadded hboth.2, hbytes]
      dsimp only
      rw [if_pos hpadded]
      rfl

/-- The row is behind the thread. -/
def Passed : Pc → ℕ → Prop
  | .rows _ t _, u => u < t
  | .load, _ | .tiles, _ | .done, _ => True
  | _, _ => False

/-- The thread may still find the layer turned off. -/
def Entering : Pc → Prop
  | .enter | .dispatch | .prepare => True
  | _ => False

/-- The rows behind a thread are right, and no thread with rows finds the layer turned off. -/
structure Filled (c : Call F) (layer : LayerState) (w : World ℕ Pc Shared) : Prop where
  sound : Sound c layer w
  passed : ∀ i t, tokenStart c i ≤ t → t < tokenEnd c i → Passed (w.locals i) t →
    (t, i) ∈ w.shared.produced ∧
      readBytes w.shared.dst (t * c.dst.nb1) (rowBytes c) = expectedRow c (usedModel c layer) t
  opened : ∀ i, tokenStart c i < c.a.ne1 → Entering (w.locals i) →
    w.shared.layer.kvMode = .roundtrip
  idle : ∀ i, c.a.ne1 ≤ tokenStart c i → w.locals i = .enter ∨ w.locals i = .done

theorem filled_start (hc : Roundtrip c layer) (dst : Memory) (written : ℕ) :
    Filled c layer (start layer dst written) where
  sound := sound_start dst written
  passed := fun _ _ _ _ h => h.elim
  opened := fun _ _ _ => hc.mode
  idle := fun _ _ => .inl rfl

/-- Two rows of the destination do not touch. -/
theorem rows_disjoint (hc : Roundtrip c layer) {t u : ℕ} (h : t ≠ u) :
    t * c.dst.nb1 + rowBytes c ≤ u * c.dst.nb1 ∨ u * c.dst.nb1 + rowBytes c ≤ t * c.dst.nb1 := by
  have hdst := hc.dst
  rcases Nat.lt_or_gt_of_ne h with hlt | hgt
  · have hmul := Nat.mul_le_mul_right c.dst.nb1 (Nat.succ_le_of_lt hlt)
    rw [Nat.succ_mul] at hmul
    exact .inl (by omega)
  · have hmul := Nat.mul_le_mul_right c.dst.nb1 (Nat.succ_le_of_lt hgt)
    rw [Nat.succ_mul] at hmul
    exact .inr (by omega)

/-- With no model only one thread has rows, so that none comes too late. -/
theorem only_worker (hcomplete : Complete c layer) (hmodel : usedModel c layer = 0) {i : ℕ}
    (hi : tokenStart c i < c.a.ne1) : i = 0 := by
  unfold Complete at hcomplete
  rw [if_pos hmodel] at hcomplete
  by_contra hne
  have hmul := Nat.mul_le_mul_right (tokensPerThread c) (Nat.one_le_iff_ne_zero.mpr hne)
  unfold tokenStart at hi
  omega

/-- A step writes the row it is at, or nothing. -/
theorem shared_step (hcomplete : Complete c layer) {i : ℕ} {pc : Pc} {s : Shared}
    (hpc : Fits c layer i s.layer pc) :
    ((step c i pc s).2.dst = s.dst ∧ (step c i pc s).2.produced = s.produced ∧
        ∀ t, tokenStart c i ≤ t → t < tokenEnd c i → Passed (step c i pc s).1 t →
          Passed pc t ∨ Entering pc ∧ s.layer.kvMode ≠ .roundtrip) ∨
      ∃ u, tokenStart c i ≤ u ∧ u < tokenEnd c i ∧
        (∀ t, Passed (step c i pc s).1 t → Passed pc t ∨ t = u) ∧
        (step c i pc s).2.dst =
          writeBytes s.dst (u * c.dst.nb1) (expectedRow c (usedModel c layer) u) ∧
        (step c i pc s).2.produced = (u, i) :: s.produced := by
  cases pc with
  | enter =>
      unfold step
      dsimp only
      split_ifs with hoff hidle
      · exact .inl ⟨rfl, rfl, fun _ _ _ _ => .inr ⟨trivial, by rw [hoff]; decide⟩⟩
      · refine .inl ⟨rfl, rfl, fun t hle hlt _ => ?_⟩
        have hend := @tokenEnd_le F c i
        omega
      · exact .inl ⟨rfl, rfl, fun _ _ _ h => h.elim⟩
  | dispatch =>
      by_cases hmode : s.layer.kvMode = .roundtrip
      · unfold step
        dsimp only
        rw [hmode]
        exact .inl ⟨rfl, rfl, fun _ _ _ h => h.elim⟩
      · refine .inl ⟨?_, ?_, fun _ _ _ _ => .inr ⟨trivial, hmode⟩⟩
        · unfold step
          dsimp only
          split <;> rfl
        · unfold step
          dsimp only
          split <;> rfl
  | prepare => exact .inl ⟨rfl, rfl, fun _ _ _ h => h.elim⟩
  | check =>
      unfold step
      dsimp only
      split_ifs
      · refine .inl ⟨rfl, rfl, fun t hle _ h => ?_⟩
        have hlt : t < tokenStart c i := h
        omega
      · refine .inl ⟨rfl, rfl, fun t hle _ h => ?_⟩
        have hlt : t < tokenStart c i := h
        omega
  | rows plan u tail =>
      obtain ⟨rfl, rfl, hle⟩ := hpc
      by_cases hlt : u < tokenEnd c i
      · refine .inr ⟨u, hle, hlt, ?_⟩
        have hout := rowOutput_of_complete hcomplete (hlt.trans_le (@tokenEnd_le F c i))
        unfold step
        dsimp only
        rw [if_pos hlt]
        unfold writeRow
        rw [hout]
        refine ⟨fun t h => ?_, rfl, rfl⟩
        exact Nat.lt_succ_iff_lt_or_eq.mp h
      · unfold step
        dsimp only
        rw [if_neg hlt]
        refine .inl ⟨rfl, rfl, fun t _ hend _ => .inl ?_⟩
        change t < u
        omega
  | done => exact .inl ⟨rfl, rfl, fun _ _ _ h => .inl h⟩
  | collect => exact hpc.elim
  | load => exact hpc.elim
  | tiles => exact hpc.elim

/-- Only loading changes the layer, and a thread that is still entering did not load. -/
theorem layer_step {i : ℕ} {pc : Pc} {s : Shared} (hpc : Fits c layer i s.layer pc)
    (hne : pc ≠ .prepare) : (step c i pc s).2.layer = s.layer ∧
      (Entering (step c i pc s).1 → Entering pc) := by
  cases pc with
  | enter => exact ⟨by unfold step; dsimp only; split_ifs <;> rfl, fun _ => trivial⟩
  | dispatch => exact ⟨by unfold step; dsimp only; split <;> rfl, fun _ => trivial⟩
  | prepare => exact absurd rfl hne
  | check =>
      unfold step
      dsimp only
      split_ifs <;> exact ⟨rfl, id⟩
  | rows plan t tail =>
      unfold step
      dsimp only
      split_ifs
      · exact ⟨writeRow_layer, id⟩
      · exact ⟨rfl, fun h => h.elim⟩
      · exact ⟨rfl, fun h => h.elim⟩
  | done => exact ⟨rfl, id⟩
  | collect => exact hpc.elim
  | load => exact hpc.elim
  | tiles => exact hpc.elim

theorem filled_step (hc : Roundtrip c layer) (hcomplete : Complete c layer)
    (w : World ℕ Pc Shared) (i : ℕ) (h : Filled c layer w) :
    Filled c layer (exec (step c) w i) := by
  have hfits := h.sound.fits i
  have hshared := shared_step hcomplete (s := w.shared) hfits
  constructor
  · exact sound_step hc w i h.sound
  · intro j t hle hlt hpassed
    have hend := @tokenEnd_le F c j
    rcases hshared with ⟨hdst, hproduced, hback⟩ | ⟨u, hule, hult, hback, hdst, hproduced⟩
    · have hold : Passed (w.locals j) t := by
        by_cases hij : j = i
        · subst hij
          rw [exec_self] at hpassed
          rcases hback t hle hlt hpassed with hpassed | ⟨hentering, hmode⟩
          · exact hpassed
          · exact absurd (h.opened j (by omega) hentering) hmode
        · rwa [exec_of_ne w hij] at hpassed
      change _ ∈ (step c i (w.locals i) w.shared).2.produced ∧
        readBytes (step c i (w.locals i) w.shared).2.dst _ _ = _
      rw [hdst, hproduced]
      exact h.passed j t hle hlt hold
    · change _ ∈ (step c i (w.locals i) w.shared).2.produced ∧
        readBytes (step c i (w.locals i) w.shared).2.dst _ _ = _
      rw [hdst, hproduced]
      have hlen := length_expectedRow hc (usedModel c layer) u
      by_cases htu : t = u
      · subst htu
        have hji : j = i := owner_unique ⟨hle, hlt⟩ ⟨hule, hult⟩
        subst hji
        refine ⟨List.mem_cons_self, ?_⟩
        have hread := @readBytes_writeBytes w.shared.dst (t * c.dst.nb1)
          (expectedRow c (usedModel c layer) t)
        rwa [hlen] at hread
      · have hold : Passed (w.locals j) t := by
          by_cases hij : j = i
          · subst hij
            rw [exec_self] at hpassed
            exact (hback t hpassed).resolve_right htu
          · rwa [exec_of_ne w hij] at hpassed
        obtain ⟨hmem, hrow⟩ := h.passed j t hle hlt hold
        refine ⟨List.mem_cons_of_mem _ hmem, ?_⟩
        rw [readBytes_writeBytes_of_disjoint _, hrow]
        rw [hlen]
        exact rows_disjoint hc htu
  · intro j hj hentering
    by_cases hprepare : w.locals i = .prepare
    · have hnow : (exec (step c) w i).shared.layer = prepareLayer c w.shared.layer := by
        change (step c i (w.locals i) w.shared).2.layer = _
        rw [hprepare]
        rfl
      rw [hnow, prepareLayer_of_layers h.sound.layers]
      rcases @prepareLayer_result F c layer with hres | hres
      · exact hres.1.trans hc.mode
      · -- the thread that could not load is the only one with rows
        have hi : tokenStart c i < c.a.ne1 := by
          by_contra hidle
          rcases h.idle i (by omega) with hpc | hpc <;> rw [hpc] at hprepare <;> cases hprepare
        have hij : j = i :=
          (only_worker hcomplete hres.2 hj).trans (only_worker hcomplete hres.2 hi).symm
        subst hij
        rw [exec_self, hprepare] at hentering
        exact hentering.elim
    · obtain ⟨hlayer, hback⟩ := layer_step hfits hprepare
      have hnow : (exec (step c) w i).shared.layer = w.shared.layer := hlayer
      rw [hnow]
      apply h.opened j hj
      by_cases hij : j = i
      · subst hij
        rw [exec_self] at hentering
        exact hback hentering
      · rwa [exec_of_ne w hij] at hentering
  · intro j hj
    by_cases hij : j = i
    · subst hij
      rw [exec_self]
      rcases h.idle j hj with hpc | hpc <;> rw [hpc] <;> unfold step <;> dsimp only
      · split_ifs
        · exact .inr rfl
        · exact .inr rfl
      · exact .inr rfl
    · rw [exec_of_ne w hij]
      exact h.idle j hj

/-- Complete calls get every row right, whatever the schedule. -/
theorem rowsRight_of_complete (hc : Roundtrip c layer) (hcomplete : Complete c layer)
    {dst : Memory} {written : ℕ} {schedule : List ℕ}
    (hdone : AllDone c (run (step c) (start layer dst written) schedule)) :
    RowsRight c (usedModel c layer) (run (step c) (start layer dst written) schedule).shared := by
  have h : Filled c layer (run (step c) (start layer dst written) schedule) :=
    run_invariant (fun w i => filled_step hc hcomplete w i) (filled_start hc dst written) schedule
  intro t ht
  obtain ⟨i, hi, hle, hlt⟩ := exists_owner hc.threads ht
  have hpassed : Passed ((run (step c) (start layer dst written) schedule).locals i) t := by
    have hend := hdone i hi
    cases hpc : (run (step c) (start layer dst written) schedule).locals i with
    | done => trivial
    | _ => rw [hpc] at hend; exact hend.elim
  obtain ⟨hmem, hrow⟩ := h.passed i t hle hlt hpassed
  refine ⟨hrow, i, hmem, ?_⟩
  intro j hj
  exact owner_unique (h.sound.owned t j hj).1 ⟨hle, hlt⟩

/-- A row that never reaches the destination is produced by no thread. -/
theorem not_rowsRight_of_lost (hc : Roundtrip c layer) {t : ℕ} (ht : t < c.a.ne1)
    (hlost : rowOutput c (planOf (usedModel c layer)) t = none) (dst : Memory) (written : ℕ)
    (schedule : List ℕ) :
    ¬ RowsRight c (usedModel c layer) (run (step c) (start layer dst written) schedule).shared := by
  intro h
  obtain ⟨i, hmem, _⟩ := (h t ht).2
  have howned := ((sound_run hc dst written schedule).owned t i hmem).2
  rw [hlost] at howned
  cases howned

/-- The thread came too late, and has no rows to its name. -/
structure Late (c : Call F) (layer : LayerState) (w : World ℕ Pc Shared) : Prop where
  sound : Sound c layer w
  done : w.locals 1 = .done
  none : ∀ t, (t, 1) ∉ w.shared.produced

theorem late_step (hc : Roundtrip c layer) (w : World ℕ Pc Shared) (i : ℕ)
    (h : Late c layer w) : Late c layer (exec (step c) w i) := by
  constructor
  · exact sound_step hc w i h.sound
  · by_cases hi : i = 1
    · subst hi
      rw [exec_self, h.done]
      rfl
    · rw [exec_of_ne w (Ne.symm hi)]
      exact h.done
  · intro t hmem
    rcases produced_step hmem with hold | ⟨rfl, _, plan, tail, hpc, _⟩
    · exact h.none t hold
    · rw [h.done] at hpc
      cases hpc

/-- The first thread fails to load the model before the second one enters. -/
theorem late_reached (hc : Roundtrip c layer) (hmodel : usedModel c layer = 0)
    (hrows : 0 < c.a.ne1) (dst : Memory) (written : ℕ) :
    Late c layer (run (step c) (start layer dst written) [0, 0, 0, 1]) := by
  have hoff : (prepareLayer c layer).kvMode = .off := by
    rcases @prepareLayer_result F c layer with hres | hres
    · exact absurd hmodel hres.2
    · exact hres.1
  have henter : step c 0 .enter ⟨layer, dst, written, []⟩ = (.dispatch, ⟨layer, dst, written, []⟩) := by
    unfold step
    dsimp only
    rw [hc.mode, if_neg (by decide), if_neg]
    rw [tokenStart, Nat.zero_mul]
    omega
  have hdispatch : step c 0 .dispatch ⟨layer, dst, written, []⟩ =
      (.prepare, ⟨layer, dst, written, []⟩) := by
    unfold step
    dsimp only
    rw [hc.mode]
  have hlate : step c 1 .enter ⟨prepareLayer c layer, dst, written, []⟩ =
      (.done, ⟨prepareLayer c layer, dst, written, []⟩) := by
    unfold step
    dsimp only
    rw [if_pos hoff]
  have hworld : run (step c) (start layer dst written) [0, 0, 0, 1] =
      ⟨Function.update (Function.update (Function.update (Function.update (fun _ => Pc.enter)
        0 .dispatch) 0 .prepare) 0 .check) 1 .done, ⟨prepareLayer c layer, dst, written, []⟩⟩ := by
    change exec (step c) (exec (step c) (exec (step c) (exec (step c) (start layer dst written)
      0) 0) 0) 1 = _
    unfold exec start
    dsimp only
    rw [henter]
    dsimp only
    rw [Function.update_self, hdispatch]
    dsimp only
    rw [Function.update_self, Function.update_of_ne (by decide), Function.update_of_ne (by decide),
      Function.update_of_ne (by decide)]
    change World.mk (Function.update _ 1 (step c 1 .enter ⟨prepareLayer c layer, dst, written, []⟩).1)
      (step c 1 .enter ⟨prepareLayer c layer, dst, written, []⟩).2 = _
    rw [hlate]
    rfl
  constructor
  · exact sound_run hc dst written _
  · rw [hworld]
    rfl
  · rw [hworld]
    exact fun _ h => nomatch h

/-- A call that is not complete has a schedule on which a row goes wrong. -/
theorem exists_wrong (hc : Roundtrip c layer) (h : ¬ Complete c layer) (dst : Memory)
    (written : ℕ) : ∃ schedule, AllDone c (run (step c) (start layer dst written) schedule) ∧
      ¬ RowsRight c (usedModel c layer)
        (run (step c) (start layer dst written) schedule).shared := by
  by_cases hmodel : usedModel c layer = 0
  · unfold Complete at h
    rw [if_pos hmodel] at h
    have hfirst := late_reached hc hmodel (by omega) dst written
    obtain ⟨schedule, hdone⟩ :=
      exists_allDone c (run (step c) (start layer dst written) [0, 0, 0, 1])
    have hlate : Late c layer (run (step c) (start layer dst written) ([0, 0, 0, 1] ++ schedule)) := by
      rw [run_append]
      exact run_invariant (fun w i => late_step hc w i) hfirst schedule
    refine ⟨[0, 0, 0, 1] ++ schedule, by rwa [run_append], fun hright => ?_⟩
    -- the first row of the second thread has no other owner
    have hrow : tokenStart c 1 < c.a.ne1 := by
      rw [tokenStart, Nat.one_mul]
      omega
    obtain ⟨i, hmem, _⟩ := (hright _ hrow).2
    have howned := (hlate.sound.owned _ i hmem).1
    have hpos : 0 < tokensPerThread c := by
      have hcover := le_mul_tokensPerThread hc.threads
      apply Nat.pos_of_ne_zero
      intro hzero
      rw [hzero, Nat.mul_zero] at hcover
      omega
    have hi : i = 1 := by
      apply owner_unique howned
      unfold tokenEnd
      omega
    exact hlate.none _ (hi ▸ hmem)
  · obtain ⟨schedule, hdone⟩ := exists_allDone c (start layer dst written)
    refine ⟨schedule, hdone, ?_⟩
    unfold Complete at h
    rw [if_neg hmodel] at h
    push Not at h
    obtain ⟨hrows, hpacked, hpadded⟩ := h
    have hlost : ∃ t < c.a.ne1, transformRow c (usedModel c layer) t = none := by
      by_cases hdst : c.dst.nb1 = rowBytes c
      · refine ⟨0, Nat.pos_of_ne_zero hrows, ?_⟩
        unfold transformRow
        rw [if_neg fun hboth => hpacked hboth.1 hdst]
        cases roundtripRow c (usedModel c layer) 0 with
        | ok bytes => exact if_neg (not_not.mpr hdst)
        | error e => rfl
      · obtain ⟨t, ht, hfails⟩ := hpadded hdst
        refine ⟨t, ht, ?_⟩
        unfold transformRow
        rw [if_neg fun hboth => hdst hboth.2]
        cases hrow : roundtripRow c (usedModel c layer) t with
        | ok bytes => exact absurd hrow (hfails bytes)
        | error e => rfl
    obtain ⟨t, ht, hnone⟩ := hlost
    apply not_rowsRight_of_lost hc ht
    unfold planOf rowOutput
    rw [if_neg hmodel]
    dsimp only
    rw [hnone]
    rfl

/-- Every schedule leaves every row of the destination right exactly when the call is complete. -/
theorem rowsRight_iff_complete (hc : Roundtrip c layer) :
    (∀ dst written schedule, AllDone c (run (step c) (start layer dst written) schedule) →
      RowsRight c (usedModel c layer)
        (run (step c) (start layer dst written) schedule).shared) ↔ Complete c layer := by
  constructor
  · intro hall
    by_contra h
    obtain ⟨schedule, hdone, hwrong⟩ := exists_wrong hc h (fun _ => 0) 0
    exact hwrong (hall _ _ schedule hdone)
  · intro hcomplete dst written schedule hdone
    exact rowsRight_of_complete hc hcomplete hdone

-- Two packed rows for two threads, the model loaded by the first of them, and one padded row
-- for a packed destination.
def roundtripLayer (modelHandle : ℕ) : LayerState := ⟨.roundtrip, 1, modelHandle, []⟩

def float32 : GgmlType := ⟨true, 4, 1, fun ne => 4 * ne, fun _ => ⟨rfl, rfl⟩,
  fun _ => (Nat.div_one _).symm⟩

def twoRows : Call ℚ where
  type := float32
  ne0 := 1
  a := ⟨2, 1, 1, 4, 8, 8⟩
  dst := ⟨2, 1, 1, 4, 8, 8⟩
  src := fun k => UInt8.ofNat k
  b := none
  nth := 2
  layerId := 0
  codec := 3
  process := oneModel
  weights := 8
  stored := fun _ => false

def paddedRow : Call ℚ :=
  { twoRows with
    a := ⟨1, 1, 1, 8, 8, 8⟩
    dst := ⟨1, 1, 1, 4, 4, 4⟩
    nth := 1 }

theorem rowsRight_twoRows : usedModel twoRows (roundtripLayer 0) = 8 ∧
    ∀ dst written schedule,
      AllDone twoRows (run (step twoRows) (start (roundtripLayer 0) dst written) schedule) →
        RowsRight twoRows (usedModel twoRows (roundtripLayer 0))
          (run (step twoRows) (start (roundtripLayer 0) dst written) schedule).shared := by
  have hmodel : usedModel twoRows (roundtripLayer 0) = 8 := rfl
  have hcomplete : Complete twoRows (roundtripLayer 0) := by
    unfold Complete
    rw [hmodel, if_neg (by decide)]
    exact .inr (.inl ⟨rfl, rfl⟩)
  have hc : Roundtrip twoRows (roundtripLayer 0) := ⟨rfl, rfl, by decide, by decide, by decide⟩
  exact ⟨hmodel, (rowsRight_iff_complete hc).mpr hcomplete⟩

/-- The layer has its model, and the row is decoded into memory that is never copied back. -/
theorem padded_row_lost : Roundtrip paddedRow (roundtripLayer 8) ∧
    ∃ schedule, AllDone paddedRow
        (run (step paddedRow) (start (roundtripLayer 8) (fun _ => 0) 0) schedule) ∧
      ¬ RowsRight paddedRow (usedModel paddedRow (roundtripLayer 8))
        (run (step paddedRow) (start (roundtripLayer 8) (fun _ => 0) 0) schedule).shared := by
  have hc : Roundtrip paddedRow (roundtripLayer 8) := ⟨rfl, rfl, by decide, by decide, by decide⟩
  refine ⟨hc, exists_wrong hc ?_ _ _⟩
  intro h
  rcases h with h | ⟨h, _⟩ | ⟨h, _⟩
  · exact absurd h (by decide)
  · exact absurd h (by decide)
  · exact h rfl

end SlhaV2.RoundtripRows
