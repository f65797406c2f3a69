import SlhaV2.FloatRounding
import SlhaV2.WeightsIntegrity

/-!
# Models after a save and a load

A file keeps the projection of a model and everything that its seed and its flag determine, but not
the scales of its latent dimensions: a loaded model has them all at one. It answers like the saved
model exactly when each scale is one, or belongs to a row of zeros on which it has no effect.
-/
namespace SlhaV2.ModelReload
open ByteBuffer MachineWord CheckedSteps FloatingPoint SingleFloat TileCodec SlhaTile LatentCodecs
open LatentQuantisers Incoherence JacobiEigen Learned WeightsFile WeightsIntegrity ExactValues
open FloatRounding Float.Model.UnpackedFloat

/-- The models that the constructors build with a seed and a flag. -/
inductive Built (seed : UInt64) (rht : Bool) : LearnedModel → Prop
  | fit {train : List (List Float32)} {d : ℕ} {whiten : Bool} {m : LearnedModel} :
      fitWith train d seed whiten rht = .ok m → Built seed rht m
  | joint {keys queries : List (List Float32)} {d : ℕ} {whiten : Bool} {m : LearnedModel} :
      fitJoint keys queries d seed whiten rht = .ok m → Built seed rht m
  | projection {p : List Float32} {d : ℕ} {m : LearnedModel} :
      tryFromProjectionWith p d seed rht = .ok m → Built seed rht m

/-- Two models answer alike, to every key, query and latent. -/
structure Interchangeable (m m' : LearnedModel) : Prop where
  latent : ∀ key, m.latent key = m'.latent key
  queryCoarse : ∀ q, m.queryCoarse q = m'.queryCoarse q
  reconstruct : ∀ h, m.reconstruct h = m'.reconstruct h
  signBits : ∀ v, m.signBits v = m'.signBits v
  encodeWith : ∀ key pos warm codec, m.encodeWith key pos warm codec =
    m'.encodeWith key pos warm codec

def scaleAt (m : LearnedModel) (k : ℕ) : Float32 := m.scale.getD k 0

/-- An entry of the projection. -/
def evecAt (m : LearnedModel) (k i : ℕ) : Float32 := m.evec.getD (k * m.d + i) 0

/-- A row of zeros. -/
def ZeroRow (m : LearnedModel) (k : ℕ) : Prop := ∀ i < m.d, single (evecAt m k i) = 0

/-- The scale of a latent dimension has no effect on any answer. -/
def KeepsScale (m : LearnedModel) (k : ℕ) : Prop :=
  scaleAt m k = 1 ∨ (ZeroRow m k ∧ 0 < single (scaleAt m k) ∧ single (scaleAt m k) < 1)

/-- The model with the same projection and random data and all scales at one. -/
def unscaled (m : LearnedModel) (seed : UInt64) (rht : Bool) : LearnedModel :=
  ofProjection m.evec m.d seed rht

/-- A model carries the random data of its seed and its flag, and as many scales as dimensions. -/
structure Seeded (seed : UInt64) (rht : Bool) (m : LearnedModel) : Prop where
  transform : m.rht = buildRht m.d seed rht
  dPad : m.dPad = paddedLength m.d (buildRht m.d seed rht)
  z : m.z = Rng.fillGaussian (dS * paddedLength m.d (buildRht m.d seed rht)) (Rng.new seed)
  scale : m.scale.length = dC

section Building
variable {seed : UInt64} {rht : Bool} {m : LearnedModel}

theorem seeded_fitFromCov (cov : List Float32) {d : ℕ} (hd : dC < d) (whiten : Bool) :
    Seeded seed rht (fitFromCov cov d seed whiten rht) := by
  refine ⟨rfl, rfl, rfl, ?_⟩
  have hkept : ∀ eigvals : List Float, ((sortedIndices d eigvals).take dC).length = dC := by
    intro eigvals
    rw [List.length_take, sortedIndices, List.length_mergeSort, List.length_range]
    omega
  cases whiten with
  | false => exact List.length_replicate
  | true => exact (List.length_map _).trans (hkept _)

theorem seeded_of_built (h : Built seed rht m) : Seeded seed rht m := by
  cases h with
  | fit h =>
      unfold fitWith at h
      split_ifs at h with hd
      simp only [bind_eq_ok] at h
      obtain ⟨_, -, _, -, h⟩ := h
      cases h
      exact seeded_fitFromCov _ (by simpa using hd) _
  | joint h =>
      unfold fitJoint at h
      split_ifs at h with hd
      simp only [bind_eq_ok] at h
      obtain ⟨_, -, _, -, h⟩ := h
      cases h
      exact seeded_fitFromCov _ (by simpa using hd) _
  | projection h =>
      unfold tryFromProjectionWith at h
      simp only [bind_eq_ok] at h
      obtain ⟨_, -, h⟩ := h
      split_ifs at h with hlen
      simp only [bind_eq_ok] at h
      obtain ⟨n, hn, h⟩ := h
      unfold wordMul at hn
      split_ifs at hn
      cases hn
      cases h
      exact ⟨rfl, rfl, rfl, List.length_replicate⟩

/-- What a written file is read back as. -/
theorem reload {b : List UInt8} (h : tryToBytes m seed rht = .ok b) :
    fromBytes b = .ok (unscaled m seed rht) := by
  obtain ⟨hwide, hlt, hlen, hfin, rfl⟩ := tryToBytes_eq_ok.mp h
  refine fromBytes_eq_ok.mpr ⟨_, m.evec, layout_encodeFile hwide hlt seed rht hlen, hlen, hfin,
    ?_, rfl⟩
  symm
  apply List.drop_left'
  rw [List.length_append, length_encodeCommon, length_leBytes]

end Building

section Agreement

theorem mapM_congr_of_mem {α β : Type} {f g : α → Outcome β} {l : List α}
    (h : ∀ a ∈ l, f a = g a) : l.mapM f = l.mapM g := by
  induction l with
  | nil => rfl
  | cons a l ih =>
      rw [List.mapM_cons, List.mapM_cons, h a List.mem_cons_self,
        ih fun b hb => h b (List.mem_cons_of_mem a hb)]

theorem foldlM_congr_of_mem {α β : Type} {f g : β → α → Outcome β} {l : List α}
    (h : ∀ b, ∀ a ∈ l, f b a = g b a) (b : β) : l.foldlM f b = l.foldlM g b := by
  induction l generalizing b with
  | nil => rfl
  | cons a l ih =>
      rw [List.foldlM_cons, List.foldlM_cons, h b a List.mem_cons_self]
      congr 1
      funext c
      exact ih (fun b' a' ha' => h b' a' (List.mem_cons_of_mem a ha')) c

/-- A fold of successful steps keeps what each of them keeps. -/
theorem foldlM_invariant {α β : Type} {P : β → Prop} {f : β → α → Outcome β} {l : List α}
    (h : ∀ b, P b → ∀ a ∈ l, ∀ b', f b a = .ok b' → P b') {b b' : β} (hb : P b)
    (hf : l.foldlM f b = .ok b') : P b' := by
  induction l generalizing b with
  | nil =>
      cases hf
      exact hb
  | cons a l ih =>
      rw [List.foldlM_cons, bind_eq_ok] at hf
      obtain ⟨c, hc, hf⟩ := hf
      exact ih (fun d hd e he => h d hd e (List.mem_cons_of_mem a he))
        (h b hb a List.mem_cons_self c hc) hf

variable {m : LearnedModel} {k : ℕ}

theorem index_evec {row : List Float32} {x : Float32} {i : ℕ}
    (hrow : indexRange m.evec (k * m.d) m.d = .ok row) (hx : index row i = .ok x) :
    i < m.d ∧ m.evec[k * m.d + i]? = some x := by
  obtain ⟨-, rfl⟩ := indexRange_eq_ok.mp hrow
  rw [index_eq_ok, List.getElem?_take] at hx
  split_ifs at hx with hi
  rw [List.getElem?_drop] at hx
  exact ⟨hi, hx⟩

/-- The entries of a row of zeros are zeros. -/
theorem unpack_zeroRow (hfin : ∀ x ∈ m.evec, x.isFinite = true) (hzero : ZeroRow m k) {i : ℕ}
    {x : Float32} (hi : i < m.d) (hx : m.evec[k * m.d + i]? = some x) :
    ∃ s, x.toModel.unpack = .zero s := by
  apply unpack_of_single_eq_zero (hfin x (List.mem_of_getElem? hx))
  have hentry := hzero i hi
  unfold evecAt at hentry
  rwa [List.getD_eq_getElem?_getD, hx] at hentry

/-- A row of zeros projects every vector on a blank. -/
theorem evecDot_blank (hfin : ∀ x ∈ m.evec, x.isFinite = true) (hzero : ZeroRow m k)
    {v : List Float32} {a : Float32} (h : m.evecDot k v = .ok a) : Blank a := by
  unfold LearnedModel.evecDot at h
  rw [bind_eq_ok] at h
  obtain ⟨row, hrow, h⟩ := h
  refine foldlM_invariant ?_ (Or.inl rfl) h
  intro b hb i hi b' hstep
  simp only [bind_eq_ok] at hstep
  obtain ⟨x, hx, y, hy, hstep⟩ := hstep
  cases hstep
  obtain ⟨hlt, hentry⟩ := index_evec hrow hx
  obtain ⟨s, hs⟩ := unpack_zeroRow hfin hzero hlt hentry
  exact blank_add hb hs

theorem index_scale (hlen : m.scale.length = dC) (hk : k < dC) :
    index m.scale k = .ok (scaleAt m k) := by
  rw [index_eq_ok]
  unfold scaleAt
  rw [List.getD_eq_getElem?_getD, List.getElem?_eq_getElem (hlen.symm ▸ hk)]
  rfl

theorem index_ones (hk : k < dC) :
    index (List.replicate dC (Single.lit 1 : Float32)) k = .ok 1 := by
  rw [index_eq_ok, List.getElem?_replicate, if_pos hk]
  rfl

variable (seed : UInt64) (rht : Bool)

theorem latent_unscaled (hfin : ∀ x ∈ m.evec, x.isFinite = true) (hlen : m.scale.length = dC)
    (hkeep : ∀ k < dC, KeepsScale m k) (key : List Float32) :
    m.latent key = (unscaled m seed rht).latent key := by
  apply mapM_congr_of_mem
  intro k hk
  rw [List.mem_range] at hk
  have hdot : (unscaled m seed rht).evecDot k key = m.evecDot k key := rfl
  have hone : index (unscaled m seed rht).scale k = .ok 1 := index_ones hk
  rw [hdot, hone, index_scale hlen hk]
  cases h : m.evecDot k key with
  | error e => rfl
  | ok a =>
      change Except.ok (a / scaleAt m k) = Except.ok (a / 1)
      rcases hkeep k hk with hs | ⟨hzero, hpos, -⟩
      · rw [hs]
      · obtain ⟨n, f, hn, hs, -⟩ := unpack_of_single_pos hpos
        have hblank := evecDot_blank hfin hzero h
        rw [blank_div hblank hs, blank_div hblank unpack_one]

theorem queryCoarse_unscaled (hfin : ∀ x ∈ m.evec, x.isFinite = true)
    (hlen : m.scale.length = dC) (hkeep : ∀ k < dC, KeepsScale m k) (q : List Float32) :
    m.queryCoarse q = (unscaled m seed rht).queryCoarse q := by
  apply mapM_congr_of_mem
  intro k hk
  rw [List.mem_range] at hk
  have hdot : (unscaled m seed rht).evecDot k q = m.evecDot k q := rfl
  have hone : index (unscaled m seed rht).scale k = .ok 1 := index_ones hk
  rw [hdot, hone, index_scale hlen hk]
  cases h : m.evecDot k q with
  | error e => rfl
  | ok a =>
      change Except.ok (a * scaleAt m k) = Except.ok (a * 1)
      rcases hkeep k hk with hs | ⟨hzero, hpos, -⟩
      · rw [hs]
      · obtain ⟨n, f, hn, hs, -⟩ := unpack_of_single_pos hpos
        have hblank := evecDot_blank hfin hzero h
        rw [blank_mul hblank hs, blank_mul hblank unpack_one]

theorem error_bind {α β : Type} (e : Fault) (f : α → Outcome β) :
    (Except.error e >>= f) = Except.error e := rfl

/-- Add a row with a factor and a scale. -/
def addMultiple (m : LearnedModel) (r : List Float32) (k : ℕ) (x s : Float32) :
    Outcome (List Float32) := do
  let row ← indexRange m.evec (k * m.d) m.d
  return List.zipWith (fun x' y => x' + x * s * y) r row

theorem addRow_of_scale {s : Float32} (hs : index m.scale k = .ok s) (h r : List Float32) :
    m.addRow h r k = (index h k >>= fun x => addMultiple m r k x s) := by
  unfold LearnedModel.addRow
  rw [hs]
  rfl

/-- Rows of zeros are added alike, whatever their scales below one. -/
theorem reconstruct_unscaled (hfin : ∀ x ∈ m.evec, x.isFinite = true)
    (hlen : m.scale.length = dC) (hkeep : ∀ k < dC, KeepsScale m k) (h : List Float32) :
    m.reconstruct h = (unscaled m seed rht).reconstruct h := by
  apply foldlM_congr_of_mem
  intro r k hk
  rw [List.mem_range] at hk
  have hone : index (unscaled m seed rht).scale k = .ok 1 := index_ones hk
  have hplain : (unscaled m seed rht).addRow h r k =
      (index h k >>= fun x => addMultiple m r k x 1) := addRow_of_scale hone h r
  rw [addRow_of_scale (index_scale hlen hk), hplain]
  congr 1
  funext x
  unfold addMultiple
  rcases hkeep k hk with hs | ⟨hzero, hpos, hlt⟩
  · rw [hs]
  · cases hrow : indexRange m.evec (k * m.d) m.d with
    | error e => rw [error_bind, error_bind]
    | ok row =>
        obtain ⟨n, f, hn, hs, hvalue⟩ := unpack_of_single_pos hpos
        rw [hvalue] at hlt
        change Except.ok _ = Except.ok _
        congr 1
        apply List.ext_getElem?
        intro i
        rw [List.getElem?_zipWith, List.getElem?_zipWith]
        cases hy : row[i]? with
        | none => cases r[i]? <;> rfl
        | some y =>
            obtain ⟨hi, hentry⟩ := index_evec hrow (index_eq_ok.mpr hy)
            obtain ⟨s, hzeroy⟩ := unpack_zeroRow hfin hzero hi hentry
            have hprod : x * scaleAt m k * y = x * 1 * y := by
              apply mul_zero_congr hzeroy
              rw [shape_mul hs hlt, mul_one_single]
            cases r[i]? with
            | none => rfl
            | some x' => exact congrArg (fun p => some (x' + p)) hprod

/-- Scales without effect are not missed. -/
theorem interchangeable_unscaled (hseeded : Seeded seed rht m)
    (hfin : ∀ x ∈ m.evec, x.isFinite = true) (hkeep : ∀ k < dC, KeepsScale m k) :
    Interchangeable m (unscaled m seed rht) := by
  have hlatent := latent_unscaled seed rht hfin hseeded.scale hkeep
  have hrecon := reconstruct_unscaled seed rht hfin hseeded.scale hkeep
  have hsigns : ∀ v, m.signBits v = (unscaled m seed rht).signBits v := by
    intro v
    unfold LearnedModel.signBits LearnedModel.signBuffer LearnedModel.signDot
    rw [hseeded.transform, hseeded.dPad, hseeded.z]
    rfl
  refine ⟨hlatent, queryCoarse_unscaled seed rht hfin hseeded.scale hkeep, hrecon, hsigns, ?_⟩
  intro key pos warm codec
  unfold LearnedModel.encodeWith
  simp only [hlatent, hrecon, hsigns]
  rfl

end Agreement

section Probes
variable {m : LearnedModel} {k : ℕ}

theorem foldlM_ok {α β : Type} {f : β → α → Outcome β} {g : β → α → β} {l : List α}
    (h : ∀ b, ∀ a ∈ l, f b a = .ok (g b a)) (b : β) : l.foldlM f b = .ok (l.foldl g b) := by
  induction l generalizing b with
  | nil => rfl
  | cons a l ih =>
      rw [List.foldlM_cons, h b a List.mem_cons_self, List.foldl_cons]
      exact ih (fun b' a' ha' => h b' a' (List.mem_cons_of_mem a ha')) _

/-- The projection of a vector on a row. -/
def rowDot (m : LearnedModel) (k : ℕ) (v : List Float32) : Float32 :=
  (List.range m.d).foldl (fun acc i => acc + evecAt m k i * v.getD i 0) 0

theorem getElem?_evec (hlen : m.evec.length = dC * m.d) (hk : k < dC) {i : ℕ} (hi : i < m.d) :
    m.evec[k * m.d + i]? = some (evecAt m k i) := by
  have hlt : k * m.d + i < m.evec.length := by
    have hrows : (k + 1) * m.d ≤ dC * m.d := Nat.mul_le_mul_right _ hk
    rw [hlen]
    rw [Nat.succ_mul] at hrows
    omega
  unfold evecAt
  rw [List.getD_eq_getElem?_getD, List.getElem?_eq_getElem hlt]
  rfl

theorem indexRange_evec (hlen : m.evec.length = dC * m.d) (hk : k < dC) :
    indexRange m.evec (k * m.d) m.d = .ok ((m.evec.drop (k * m.d)).take m.d) := by
  apply indexRange_of_le
  rw [hlen, ← Nat.succ_mul]
  exact Nat.mul_le_mul_right _ hk

theorem evecDot_eq (hlen : m.evec.length = dC * m.d) (hk : k < dC) {v : List Float32}
    (hv : v.length = m.d) : m.evecDot k v = .ok (rowDot m k v) := by
  unfold LearnedModel.evecDot
  rw [indexRange_evec hlen hk, ok_bind]
  apply foldlM_ok
  intro acc i hi
  rw [List.mem_range] at hi
  have hrow : index ((m.evec.drop (k * m.d)).take m.d) i = .ok (evecAt m k i) := by
    rw [index_eq_ok, List.getElem?_take, if_pos hi, List.getElem?_drop]
    exact getElem?_evec hlen hk hi
  have hentry : index v i = .ok (v.getD i 0) := by
    rw [index_eq_ok, List.getD_eq_getElem?_getD, List.getElem?_eq_getElem (hv.symm ▸ hi)]
    rfl
  rw [hrow, hentry]
  rfl

/-- What interchangeable models say of a row and a vector. -/
theorem row_answers {seed : UInt64} {rht : Bool} (hlen : m.evec.length = dC * m.d)
    (hscale : m.scale.length = dC) (h : Interchangeable m (unscaled m seed rht)) (hk : k < dC)
    {v : List Float32} (hv : v.length = m.d) :
    rowDot m k v / scaleAt m k = rowDot m k v / 1 ∧
      rowDot m k v * scaleAt m k = rowDot m k v * 1 := by
  have hdot : ∀ k < dC, (unscaled m seed rht).evecDot k v = .ok (rowDot m k v) :=
    fun k hk => evecDot_eq hlen hk hv
  have hone : ∀ k < dC, index (unscaled m seed rht).scale k = .ok 1 := fun k hk => index_ones hk
  have hlatent := h.latent v
  have hquery := h.queryCoarse v
  unfold LearnedModel.latent at hlatent
  unfold LearnedModel.queryCoarse at hquery
  rw [mapM_ok (g := fun k => rowDot m k v / scaleAt m k), mapM_ok (g := fun k => rowDot m k v / 1),
    Except.ok.injEq, List.map_inj_left] at hlatent
  · rw [mapM_ok (g := fun k => rowDot m k v * scaleAt m k), mapM_ok (g := fun k => rowDot m k v * 1),
      Except.ok.injEq, List.map_inj_left] at hquery
    · exact ⟨hlatent k (List.mem_range.mpr hk), hquery k (List.mem_range.mpr hk)⟩
    · intro k hk
      rw [List.mem_range] at hk
      rw [hdot k hk, hone k hk]
      rfl
    · intro k hk
      rw [List.mem_range] at hk
      rw [evecDot_eq hlen hk hv, index_scale hscale hk]
      rfl
  · intro k hk
    rw [List.mem_range] at hk
    rw [hdot k hk, hone k hk]
    rfl
  · intro k hk
    rw [List.mem_range] at hk
    rw [evecDot_eq hlen hk hv, index_scale hscale hk]
    rfl

/-- A vector with one entry other than zero. -/
def probe (d i : ℕ) (c : Float32) : List Float32 := (List.replicate d 0).set i c

theorem getD_probe (d i j : ℕ) (c : Float32) :
    (probe d i c).getD j 0 = if i = j ∧ j < d then c else 0 := by
  unfold probe
  rw [List.getD_eq_getElem?_getD, List.getElem?_set, List.length_replicate, List.getElem?_replicate]
  split_ifs <;> first | rfl | omega

theorem finite_evecAt (hlen : m.evec.length = dC * m.d) (hfin : ∀ x ∈ m.evec, x.isFinite = true)
    (hk : k < dC) {i : ℕ} (hi : i < m.d) : (evecAt m k i).isFinite = true :=
  hfin _ (List.mem_of_getElem? (getElem?_evec hlen hk hi))

/-- A probe picks one entry of a row. -/
theorem rowDot_probe (hlen : m.evec.length = dC * m.d) (hfin : ∀ x ∈ m.evec, x.isFinite = true)
    (hk : k < dC) {i : ℕ} (hi : i < m.d) {c : Float32} {s : Sign} {n : ℕ} {e : ℤ} {hn : 0 < n}
    (hx : (evecAt m k i * c).toModel.unpack = .finite s n e hn) :
    rowDot m k (probe m.d i c) = evecAt m k i * c := by
  have hprefix : ∀ j ≤ m.d, (List.range j).foldl
      (fun acc i' => acc + evecAt m k i' * (probe m.d i c).getD i' 0) 0 =
        if i < j then evecAt m k i * c else 0 := by
    intro j hj
    induction j with
    | zero => rfl
    | succ j ih =>
        have hzero : i ≠ j → ∃ s', (evecAt m k j * (probe m.d i c).getD j 0).toModel.unpack =
            .zero s' := by
          intro hne
          rw [getD_probe, if_neg (by tauto)]
          exact unpack_finite_mul_zero (finite_evecAt hlen hfin hk hj)
        rw [List.range_succ, List.foldl_append, ih (by omega), List.foldl_cons, List.foldl_nil]
        rcases lt_trichotomy i j with hlt | rfl | hgt
        · obtain ⟨s', hs'⟩ := hzero hlt.ne
          rw [if_pos hlt, if_pos (by omega)]
          exact add_zero_finite hx hs'
        · rw [if_neg (lt_irrefl i), if_pos (by omega), getD_probe, if_pos ⟨rfl, hi⟩]
          exact zero_add_finite hx
        · obtain ⟨s', hs'⟩ := hzero hgt.ne'
          rw [if_neg (by omega), if_neg (by omega)]
          exact zero_add_zero hs'
  have hall := hprefix m.d le_rfl
  rwa [if_pos hi] at hall

theorem rowDot_zeros (hlen : m.evec.length = dC * m.d) (hfin : ∀ x ∈ m.evec, x.isFinite = true)
    (hk : k < dC) : rowDot m k (List.replicate m.d 0) = 0 := by
  have hprefix : ∀ j ≤ m.d, (List.range j).foldl
      (fun acc i => acc + evecAt m k i * (List.replicate m.d 0).getD i 0) 0 = 0 := by
    intro j hj
    induction j with
    | zero => rfl
    | succ j ih =>
        obtain ⟨s, hs⟩ := unpack_finite_mul_zero (finite_evecAt hlen hfin hk hj)
        have hget : (List.replicate m.d (0 : Float32)).getD j 0 = 0 := by
          rw [List.getD_eq_getElem?_getD, List.getElem?_replicate,
            if_pos (Nat.lt_of_succ_le hj)]
          rfl
        rw [List.range_succ, List.foldl_append, ih (by omega), List.foldl_cons, List.foldl_nil,
          hget]
        exact zero_add_zero hs
  exact hprefix m.d le_rfl

variable {seed : UInt64} {rht : Bool}

/-- Where a row is not of zeros, a probe tells every scale from one. -/
theorem scale_of_row (hlen : m.evec.length = dC * m.d) (hfin : ∀ x ∈ m.evec, x.isFinite = true)
    (hscale : m.scale.length = dC) (h : Interchangeable m (unscaled m seed rht)) (hk : k < dC)
    (hrow : ¬ ZeroRow m k) : scaleAt m k = 1 := by
  obtain ⟨i, hi, hne⟩ : ∃ i, i < m.d ∧ single (evecAt m k i) ≠ 0 := by
    by_contra hall
    push Not at hall
    exact hrow hall
  obtain ⟨c, s, n, e, hn, hx, hnormal, he⟩ :=
    exists_normal_multiple (finite_evecAt hlen hfin hk hi) hne
  have hprobe : (probe m.d i c).length = m.d := by
    unfold probe
    rw [List.length_set, List.length_replicate]
  obtain ⟨-, hquery⟩ := row_answers hlen hscale h hk hprobe
  rw [rowDot_probe hlen hfin hk hi hx, mul_one_single] at hquery
  by_contra hscale1
  exact mul_ne_self hx hnormal he hscale1 hquery

/-- The zero vector tells the scales which are not positive and finite. -/
theorem scale_finite (hlen : m.evec.length = dC * m.d) (hfin : ∀ x ∈ m.evec, x.isFinite = true)
    (hscale : m.scale.length = dC) (h : Interchangeable m (unscaled m seed rht)) (hk : k < dC) :
    ∃ n f hn, (scaleAt m k).toModel.unpack = .finite .positive n f hn := by
  obtain ⟨hlatent, hquery⟩ := row_answers hlen hscale h hk List.length_replicate
  rw [rowDot_zeros hlen hfin hk, blank_div (Or.inl rfl) unpack_one] at hlatent
  rw [rowDot_zeros hlen hfin hk, blank_mul (Or.inl rfl) unpack_one] at hquery
  have hnan : Float32.nan ≠ 0 := by decide
  cases hs : (scaleAt m k).toModel.unpack with
  | notANumber =>
      have hprod : 0 * scaleAt m k = Float32.nan := unpack_mul_eq (by rw [hs]; rfl)
      exact absurd (hprod.symm.trans hquery) hnan
  | infinity s =>
      have hprod : 0 * scaleAt m k = Float32.nan := unpack_mul_eq (by rw [hs]; rfl)
      exact absurd (hprod.symm.trans hquery) hnan
  | zero s =>
      have hquot : 0 / scaleAt m k = Float32.nan := unpack_div_eq (by rw [hs]; rfl)
      exact absurd (hquot.symm.trans hlatent) hnan
  | finite s n f hn =>
      cases s with
      | positive => exact ⟨n, f, hn, rfl⟩
      | negative =>
          have hprod : 0 * scaleAt m k = .ofBits 0x80000000 := unpack_mul_eq (by rw [hs]; rfl)
          exact absurd (hprod.symm.trans hquery) (by decide)

/-- Adding a multiple of a row to a vector of equal entries, when the result has equal entries. -/
theorem addRow_uniform (hlen : m.evec.length = dC * m.d) (hk : k < dC) {h : List Float32}
    {x s a b : Float32} (hx : index h k = .ok x) (hs : index m.scale k = .ok s)
    (hsum : ∀ i < m.d, a + x * s * evecAt m k i = b) :
    m.addRow h (List.replicate m.d a) k = .ok (List.replicate m.d b) := by
  unfold LearnedModel.addRow
  rw [hx, hs, indexRange_evec hlen hk]
  change Except.ok _ = Except.ok _
  congr 1
  apply List.ext_getElem?
  intro i
  rw [List.getElem?_zipWith, List.getElem?_replicate, List.getElem?_replicate, List.getElem?_take]
  by_cases hi : i < m.d
  · rw [if_pos hi, if_pos hi, if_pos hi, List.getElem?_drop, getElem?_evec hlen hk hi]
    exact congrArg some (hsum i hi)
  · rw [if_neg hi, if_neg hi, if_neg hi]

theorem reconstruct_uniform {h : List Float32} (val : ℕ → Float32) (hzero : val 0 = 0)
    (hstep : ∀ j < dC, m.addRow h (List.replicate m.d (val j)) j =
      .ok (List.replicate m.d (val (j + 1)))) :
    m.reconstruct h = .ok (List.replicate m.d (val dC)) := by
  have hprefix : ∀ j ≤ dC, (List.range j).foldlM (m.addRow h) (List.replicate m.d 0) =
      .ok (List.replicate m.d (val j)) := by
    intro j hj
    induction j with
    | zero =>
        rw [hzero]
        rfl
    | succ j ih =>
        rw [List.range_succ, List.foldlM_append, ih (by omega), ok_bind, List.foldlM_cons,
          hstep j hj]
        rfl
  exact hprefix dC le_rfl

/-- The largest number overflows on a scale above one, and an infinite multiple of a row of zeros
is no number. -/
theorem scale_not_above_one (hlen : m.evec.length = dC * m.d) (hd : 0 < m.d)
    (hfin : ∀ x ∈ m.evec, x.isFinite = true) (hscale : m.scale.length = dC)
    (h : Interchangeable m (unscaled m seed rht)) (hk : k < dC) (hrow : ZeroRow m k)
    {n : ℕ} {f : ℤ} {hn : 0 < n} (hs : (scaleAt m k).toModel.unpack = .finite .positive n f hn) :
    ¬ 1 + 1 / 2 ^ 23 ≤ (n : ℚ) * (2 : ℚ) ^ f := by
  intro habove
  have hzeros : ∀ i < m.d, ∃ s, (evecAt m k i).toModel.unpack = .zero s := fun i hi =>
    unpack_zeroRow hfin hrow hi (getElem?_evec hlen hk hi)
  have hentry : ∀ j < dC, index (probe dC k largest) j = .ok (if k = j then largest else 0) := by
    intro j hj
    rw [index_eq_ok]
    unfold probe
    rw [List.getElem?_set, List.length_replicate, List.getElem?_replicate]
    split_ifs <;> rfl
  have hscaled : m.reconstruct (probe dC k largest) = .ok (List.replicate m.d Float32.nan) := by
    rw [reconstruct_uniform (m := m) (fun j => if k < j then Float32.nan else 0) rfl]
    · rw [if_pos hk]
    · intro j hj
      apply addRow_uniform hlen hj (hentry j hj) (index_scale hscale hj)
      intro i hi
      rcases lt_trichotomy j k with hlt | rfl | hgt
      · obtain ⟨n', f', hn', hs'⟩ := scale_finite hlen hfin hscale h hj
        rw [if_neg (by omega), if_neg (by omega), if_neg (by omega),
          blank_mul (Or.inl rfl) hs']
        obtain ⟨s', hs''⟩ := unpack_zero_mul_finite unpack_zero (finite_evecAt hlen hfin hj hi)
        exact zero_add_zero hs''
      · obtain ⟨s', hs'⟩ := hzeros i hi
        rw [if_neg (by omega), if_pos rfl, if_pos (by omega),
          infinite_mul_zero (max_mul_infinite unpack_largest hs habove) hs']
        exact add_nan 0
      · rw [if_pos hgt, if_neg (by omega), if_pos (by omega)]
        exact nan_add _
  have hplain : (unscaled m seed rht).reconstruct (probe dC k largest) =
      .ok (List.replicate m.d 0) := by
    apply reconstruct_uniform (m := unscaled m seed rht) (fun _ => 0) rfl
    intro j hj
    apply addRow_uniform (m := unscaled m seed rht) hlen hj (hentry j hj) (index_ones hj)
    intro i hi
    rw [mul_one_single]
    change 0 + (if k = j then largest else 0) * evecAt m j i = 0
    by_cases hkj : k = j
    · subst hkj
      obtain ⟨s', hs'⟩ := hzeros i hi
      obtain ⟨s'', hs''⟩ := unpack_finite_mul unpack_largest hs'
      rw [if_pos rfl]
      exact zero_add_zero hs''
    · obtain ⟨s', hs'⟩ := unpack_zero_mul_finite unpack_zero (finite_evecAt hlen hfin hj hi)
      rw [if_neg hkj]
      exact zero_add_zero hs'
  have heq := h.reconstruct (probe dC k largest)
  rw [hscaled, hplain, Except.ok.injEq] at heq
  have hfirst := congrArg (fun l : List Float32 => l[0]?) heq
  simp only [List.getElem?_replicate, if_pos hd, Option.some.injEq] at hfirst
  exact absurd hfirst (by decide)

end Probes

section Reloading
variable {seed : UInt64} {rht : Bool} {m : LearnedModel} {b : List UInt8}

/-- Each scale that could be told from one is told. -/
theorem keepsScale_of_interchangeable (hlen : m.evec.length = dC * m.d) (hd : 0 < m.d)
    (hfin : ∀ x ∈ m.evec, x.isFinite = true) (hscale : m.scale.length = dC)
    (h : Interchangeable m (unscaled m seed rht)) {k : ℕ} (hk : k < dC) : KeepsScale m k := by
  by_cases hrow : ZeroRow m k
  · obtain ⟨n, f, hn, hs⟩ := scale_finite hlen hfin hscale h hk
    obtain ⟨-, hcanon, -, hlt⟩ := canonical_finite hs
    have hvalue : single (scaleAt m k) = n * (2 : ℚ) ^ f := by
      unfold single
      rw [hs]
      exact one_mul _
    rcases gap_at_one hn hlt hcanon with hlow | ⟨rfl, rfl⟩ | hhigh
    · right
      have hpos : (0 : ℚ) < n * (2 : ℚ) ^ f := by positivity
      exact ⟨hrow, hvalue ▸ hpos, hvalue ▸ by linarith⟩
    · left
      exact unpack_inj (hs.trans unpack_one.symm)
    · exact absurd hhigh (scale_not_above_one hlen hd hfin hscale h hk hrow hs)
  · exact Or.inl (scale_of_row hlen hfin hscale h hk hrow)

theorem interchangeable_iff (hbuilt : Built seed rht m) (hb : tryToBytes m seed rht = .ok b) :
    Interchangeable m (unscaled m seed rht) ↔ ∀ k < dC, KeepsScale m k := by
  have hseeded := seeded_of_built hbuilt
  obtain ⟨hwide, -, hlen, hfin, -⟩ := tryToBytes_eq_ok.mp hb
  constructor
  · intro h k hk
    exact keepsScale_of_interchangeable hlen (by omega) hfin hseeded.scale h hk
  · exact interchangeable_unscaled seed rht hseeded hfin

/-- A written file is read back, and the model it gives answers like the written one exactly when
every scale is one or has no effect. -/
theorem reload_interchangeable_iff (hbuilt : Built seed rht m)
    (hb : tryToBytes m seed rht = .ok b) :
    ∃ m', fromBytes b = .ok m' ∧ (Interchangeable m m' ↔ ∀ k < dC, KeepsScale m k) :=
  ⟨unscaled m seed rht, reload hb, interchangeable_iff hbuilt hb⟩

theorem reload_interchangeable_iff_zero :
    ∃ m', fromBytes (encodeFile 129 7 false zeroProjection) = .ok m' ∧
      (Interchangeable (ofProjection zeroProjection 129 7 false) m' ↔
        ∀ k < dC, KeepsScale (ofProjection zeroProjection 129 7 false) k) := by
  have hlen : zeroProjection.length = dC * 129 := List.length_replicate
  have hfin : ∀ x ∈ zeroProjection, x.isFinite = true := by
    intro x hx
    rw [List.eq_of_mem_replicate hx]
    decide
  exact reload_interchangeable_iff
    (Built.projection (tryFromProjectionWith_ok (by decide) (by decide) hlen 7 false))
    (tryToBytes_eq_ok.mpr ⟨by decide, by decide, hlen, hfin, rfl⟩)

end Reloading

section Whitened

theorem entry_identity {n i : ℕ} (hi : i < n * n) :
    entry (identity n) i = if i / n = i % n then 1 else 0 := by
  unfold entry identity
  rw [List.getD_eq_getElem?_getD, List.getElem?_map, List.getElem?_range hi]
  rfl

theorem entry_replicate (n i : ℕ) : entry (List.replicate n 0) i = 0 := by
  unfold entry
  rw [List.getD_eq_getElem?_getD, List.getElem?_replicate]
  split_ifs <;> rfl

/-- A zero matrix is diagonal, so no sweep is made. -/
theorem jacobiEigh_zero (n : ℕ) : jacobiEigh (List.replicate (n * n) 0) n =
    (List.replicate n 0, identity n) := by
  have hwiden : (List.replicate (n * n) (0 : Float32)).map widen = List.replicate (n * n) 0 := by
    rw [List.map_replicate]
    rfl
  have hinner : ∀ (l : List ℕ) (p : ℕ), l.foldl (fun off q =>
      off + entry (List.replicate (n * n) 0) (p * n + q) *
        entry (List.replicate (n * n) 0) (p * n + q)) 0 = (0 : Float) := by
    intro l p
    induction l with
    | nil => rfl
    | cons q l ih =>
        have hzero : (0 : Float) + 0 * 0 = 0 := by decide
        rw [List.foldl_cons, entry_replicate, hzero]
        exact ih
  have hoff : offDiagonal n (List.replicate (n * n) 0) = 0 := by
    unfold offDiagonal
    generalize List.range n = l
    induction l with
    | nil => rfl
    | cons p l ih =>
        rw [List.foldl_cons, hinner]
        exact ih
  have hsmall : (0 : Float).le 1e-20 = true := by decide
  have hsweeps : sweeps n maxSweeps (List.replicate (n * n) 0, identity n) =
      (List.replicate (n * n) 0, identity n) := by
    change (if (offDiagonal n (List.replicate (n * n) 0)).le 1e-20 then _ else _) = _
    rw [hoff, if_pos hsmall]
  unfold jacobiEigh
  rw [hwiden, hsweeps]
  dsimp only
  simp only [entry_replicate, List.map_const', List.length_range]

/-- The model fitted to no keys at all, with whitening. -/
def whitened : LearnedModel := fitFromCov (List.replicate (129 * 129) 0) 129 0 true false

theorem fit_nothing : fitWith [] 129 0 true false = .ok whitened := by
  have hzero : (Single.lit 0 : Float32) * (Single.lit 1 / Single.ofNat 1) = 0 := by decide
  have hmap : (List.replicate (129 * 129) (Single.lit 0 : Float32)).map
      (· * (Single.lit 1 / Single.ofNat 1)) = List.replicate (129 * 129) 0 := by
    rw [List.map_replicate, hzero]
  unfold whitened
  rw [← hmap]
  rfl

/-- Equal eigenvalues keep their order. -/
theorem sortedIndices_replicate (n : ℕ) :
    sortedIndices n (List.replicate n 0) = List.range n := by
  apply List.mergeSort_of_pairwise
  apply List.Pairwise.imp_of_mem (R := fun _ _ => True)
  · intro i j _ _ _
    rw [entry_replicate, entry_replicate]
    exact decide_eq_true le_rfl
  · exact List.pairwise_of_forall fun _ _ => trivial

/-- A whitened fit to nothing keeps the first unit vectors, at one floored scale. -/
theorem fitFromCov_zero (d : ℕ) (seed : UInt64) (rht : Bool) :
    (fitFromCov (List.replicate (d * d) 0) d seed true rht).evec =
        ((List.range d).take dC).flatMap (fun ei =>
          (List.range d).map fun i => narrow (entry (identity d) (i * d + ei))) ∧
      (fitFromCov (List.replicate (d * d) 0) d seed true rht).scale =
        whiteningScales (List.replicate d 0) ((List.range d).take dC) := by
  unfold fitFromCov
  rw [jacobiEigh_zero]
  dsimp only
  rw [sortedIndices_replicate]
  exact ⟨rfl, rfl⟩

theorem d_fitFromCov (cov : List Float32) (d : ℕ) (seed : UInt64) (whiten rht : Bool) :
    (fitFromCov cov d seed whiten rht).d = d := rfl

/-- The floored scale, as it is computed for an eigenvalue of zero. -/
theorem floored_scale :
    (narrow (maxFloat 0 (maxFloat 0 1e-12 * 1e-3))).sqrt = .ofBits 856150428 := by
  decide +kernel

theorem scaleAt_fit_zero {d : ℕ} (hd : 0 < d) (seed : UInt64) (rht : Bool) :
    scaleAt (fitFromCov (List.replicate (d * d) 0) d seed true rht) 0 = .ofBits 856150428 := by
  obtain ⟨kept, hkept⟩ : ∃ kept, (List.range d).take dC = 0 :: kept := by
    obtain ⟨n, rfl⟩ := Nat.exists_eq_succ_of_ne_zero hd.ne'
    rw [List.range_succ_eq_map]
    exact ⟨_, rfl⟩
  unfold scaleAt
  rw [(fitFromCov_zero d seed rht).2, hkept]
  unfold whiteningScales
  simp only [entry_replicate]
  exact floored_scale

theorem evecAt_fit_zero {d : ℕ} (hd : 0 < d) (seed : UInt64) (rht : Bool) :
    evecAt (fitFromCov (List.replicate (d * d) 0) d seed true rht) 0 0 = 1 := by
  obtain ⟨n, rfl⟩ := Nat.exists_eq_succ_of_ne_zero hd.ne'
  unfold evecAt
  rw [(fitFromCov_zero _ seed rht).1, List.range_succ_eq_map, Nat.zero_mul]
  have hentry : entry (identity (n + 1)) (0 * (n + 1) + 0) = 1 := by
    rw [Nat.zero_mul, entry_identity (Nat.mul_pos n.succ_pos n.succ_pos), Nat.zero_div,
      Nat.zero_mod, if_pos rfl]
  have hone : narrow 1 = 1 := by decide +kernel
  change narrow (entry (identity (n + 1)) (0 * (n + 1) + 0)) = 1
  rw [hentry, hone]

theorem finite_fit_zero {d : ℕ} (hd : dC < d) (seed : UInt64) (rht : Bool) :
    (fitFromCov (List.replicate (d * d) 0) d seed true rht).evec.length = dC * d ∧
      ∀ x ∈ (fitFromCov (List.replicate (d * d) 0) d seed true rht).evec, x.isFinite = true := by
  rw [(fitFromCov_zero d seed rht).1]
  constructor
  · rw [List.length_flatMap]
    simp only [List.length_map, List.length_range, List.map_const', List.sum_replicate,
      List.length_take, smul_eq_mul]
    rw [min_eq_left hd.le]
  · intro x hx
    simp only [List.mem_flatMap, List.mem_map, List.mem_range] at hx
    obtain ⟨ei, hei, i, hi, rfl⟩ := hx
    have hlt : ei < d := List.mem_range.mp (List.mem_of_mem_take hei)
    have hentry : i * d + ei < d * d := by nlinarith
    rw [entry_identity hentry]
    split_ifs <;> decide

/-- A model fitted to nothing with whitening and its reloaded file answer differently. -/
theorem reload_loses_scales : ∃ m b m', fitWith [] 129 0 true false = .ok m ∧
    tryToBytes m 0 false = .ok b ∧ fromBytes b = .ok m' ∧ ¬ Interchangeable m m' := by
  obtain ⟨hlen, hfin⟩ := finite_fit_zero (d := 129) (by decide) 0 false
  have hscale := scaleAt_fit_zero (d := 129) (by decide) 0 false
  have hentry := evecAt_fit_zero (d := 129) (by decide) 0 false
  have hfit := fit_nothing
  unfold whitened at hfit
  have hd := d_fitFromCov (List.replicate (129 * 129) 0) 129 0 true false
  generalize fitFromCov (List.replicate (129 * 129) 0) 129 0 true false = m at *
  have hwrite : tryToBytes m 0 false = .ok (encodeFile m.d 0 false m.evec) :=
    tryToBytes_eq_ok.mpr ⟨by rw [hd]; decide, by rw [hd]; decide, by rw [hd, hlen], hfin, rfl⟩
  refine ⟨m, _, _, hfit, hwrite, reload hwrite, fun h => ?_⟩
  rcases (interchangeable_iff (Built.fit hfit) hwrite).mp h 0 (by decide) with hone | ⟨hrow, -, -⟩
  · rw [hscale] at hone
    exact absurd hone (by decide)
  · have hzero := hrow 0 (by rw [hd]; decide)
    rw [hentry] at hzero
    unfold single at hzero
    rw [unpack_one] at hzero
    norm_num [toRat, signFactor] at hzero

end Whitened

end SlhaV2.ModelReload
