import SlhaV2.RoundtripRows

/-!
# The modes of the K transform that copy

Two modes copy the first rows of memory as if there were no strides, and one of them
collects the rows it reads that way; a third mode copies the rows of the first plane by
their strides and then loads a model, which can turn the layer off for the threads that
come later.
-/
namespace SlhaV2.CopyModes
open ByteMemory ThreadSchedules KTransform RoundtripRows

/-- Where a row of a tensor starts. -/
def rowOffset (l : Layout) (i1 i2 i3 : ℕ) : ℕ := i1 * l.nb1 + i2 * l.nb2 + i3 * l.nb3

/-- Every element of the destination is that of the source. -/
def SameRows (l dst : Layout) (len : ℕ) (src out : Memory) : Prop :=
  ∀ i1 < l.ne1, ∀ i2 < l.ne2, ∀ i3 < l.ne3,
    readBytes out (rowOffset dst i1 i2 i3) len = readBytes src (rowOffset l i1 i2 i3) len

/-- The rows lie at the same place in both tensors, within the first `total` bytes. -/
def FlatRows (l dst : Layout) (len total : ℕ) : Prop :=
  ∀ i1 < l.ne1, ∀ i2 < l.ne2, ∀ i3 < l.ne3, 0 < len →
    rowOffset dst i1 i2 i3 = rowOffset l i1 i2 i3 ∧ rowOffset dst i1 i2 i3 + len ≤ total

/-- Where the rows are, one plane after the other. -/
def logicalOffsets (l : Layout) : List ℕ :=
  (List.range l.ne3).flatMap fun i3 => (List.range l.ne2).flatMap fun i2 =>
    (List.range l.ne1).map fun i1 => rowOffset l i1 i2 i3

def rowsAt (src : Memory) (len : ℕ) (offsets : List ℕ) : List (List UInt8) :=
  offsets.map fun off => readBytes src off len

/-- Reading rows tells where they are, unless they are empty. -/
theorem perm_rowsAt_iff (len : ℕ) (xs ys : List ℕ) :
    (∀ src, (rowsAt src len xs).Perm (rowsAt src len ys)) ↔
      xs.length = ys.length ∧ (0 < len → xs.Perm ys) := by
  constructor
  · intro h
    constructor
    · have hlength := (h fun _ => 0).length_eq
      rwa [rowsAt, rowsAt, List.length_map, List.length_map] at hlength
    · intro hlen
      apply List.perm_iff_count.mpr
      intro off
      -- a row starts with the only one in the source when it lies there
      have hstart : ∀ zs : List ℕ, (rowsAt (fun a => if a = off then 1 else 0) len zs).countP
          (fun row => row.getD 0 0 == 1) = zs.count off := by
        intro zs
        rw [rowsAt, List.countP_map, List.count]
        apply List.countP_congr
        intro a _
        rw [Function.comp_apply, getD_readBytes hlen, Nat.add_zero]
        by_cases ha : a = off <;> simp [ha]
      rw [← hstart xs, ← hstart ys]
      exact (h _).countP_eq _
  · intro ⟨hlength, hperm⟩ src
    rcases Nat.eq_zero_or_pos len with rfl | hpos
    · have hempty : ∀ zs : List ℕ, rowsAt src 0 zs = List.replicate zs.length [] := by
        intro zs
        exact List.map_const'
      rw [hempty, hempty, hlength]
    · exact (hperm hpos).map _

theorem sameRows_flat_iff (l dst : Layout) (len total : ℕ) :
    (∀ src before after, FlatCopy src before after total → SameRows l dst len src after) ↔
      FlatRows l dst len total := by
  constructor
  · intro h i1 h1 i2 h2 i3 h3
    apply (readBytes_flatCopy_iff total len _ _).mp
    intro src before after hcopy
    exact h src before after hcopy i1 h1 i2 h2 i3 h3
  · intro h src before after hcopy i1 h1 i2 h2 i3 h3
    exact (readBytes_flatCopy_iff total len _ _).mpr (h i1 h1 i2 h2 i3 h3) src before after hcopy

section Modes
variable {F : Type} {c : Call F} {layer : LayerState} {before : Memory}

def copyPlan (mode : KvMode) : Plan := if mode = .tilestore then .strided else .packed

/-- Where row `t` goes, where it comes from, and how long it is. -/
def copyTo (c : Call F) (mode : KvMode) (t : ℕ) : ℕ :=
  if mode = .tilestore then t * c.dst.nb1 else t * packedRowBytes c

def copyFrom (c : Call F) (mode : KvMode) (t : ℕ) : ℕ :=
  if mode = .tilestore then t * c.a.nb1 else t * packedRowBytes c

def copyLen (c : Call F) (mode : KvMode) : ℕ :=
  if mode = .tilestore then rowBytes c else packedRowBytes c

theorem rowOutput_copyPlan (mode : KvMode) (t : ℕ) : rowOutput c (copyPlan mode) t =
    some (copyTo c mode t, readBytes c.src (copyFrom c mode t) (copyLen c mode)) := by
  unfold copyPlan copyTo copyFrom copyLen
  split_ifs <;> rfl

/-- A call that copies. -/
structure Copying (c : Call F) (layer : LayerState) : Prop where
  mode : layer.kvMode = .passthrough ∨ layer.kvMode = .collect ∨ layer.kvMode = .tilestore
  threads : 0 < c.nth

theorem Copying.not_off (hc : Copying c layer) : layer.kvMode ≠ .off := by
  intro hoff
  rcases hc.mode with h | h | h <;> rw [h] at hoff <;> cases hoff

/-- Where two rows of the destination meet, they are given the same bytes. -/
def Agree (c : Call F) (mode : KvMode) : Prop :=
  ∀ t < c.a.ne1, ∀ u < c.a.ne1, ∀ k < copyLen c mode, ∀ m < copyLen c mode,
    copyTo c mode t + k = copyTo c mode u + m → copyFrom c mode t + k = copyFrom c mode u + m

/-- The row is where the mode puts it. -/
def Written (c : Call F) (mode : KvMode) (dst : Memory) (t : ℕ) : Prop :=
  ∀ k < copyLen c mode, dst (copyTo c mode t + k) = c.src (copyFrom c mode t + k)

def Owns (c : Call F) (i t : ℕ) : Prop := tokenStart c i ≤ t ∧ t < tokenEnd c i

theorem Owns.lt {i t : ℕ} (h : Owns c i t) : t < c.a.ne1 := h.2.trans_le tokenEnd_le

/-- Whether the call gets to loading a model. -/
def Loads (c : Call F) : Prop :=
  c.type.isF32 = true ∧ ∃ idxs, c.b = some idxs ∧ idxs.isI64 = true ∧ c.a.ne1 ≤ idxs.ne0

/-- Whether loading the model turns the layer off. -/
def TurnsOff (c : Call F) (layer : LayerState) : Prop :=
  layer.kvMode = .tilestore ∧ Loads c ∧ (prepareLayer c layer).kvMode = .off

/-- Where a thread of a copying call can be. -/
def CopyFits (c : Call F) (mode : KvMode) (i : ℕ) : Pc → Prop
  | .enter | .dispatch | .done => True
  | .collect => mode = .collect
  | .rows plan t tail =>
      plan = copyPlan mode ∧ tokenStart c i ≤ t ∧ (tail = true ↔ mode = .tilestore)
  | .load => mode = .tilestore
  | .tiles => mode = .tilestore ∧ Loads c
  | .prepare | .check => False

/-- The layer keeps its mode; only storing tiles loads a model. -/
def LayerFits (c : Call F) (layer now : LayerState) : Prop :=
  if layer.kvMode = .tilestore then now = layer ∨ Loads c ∧ now = prepareLayer c layer
  else now.kvMode = layer.kvMode

theorem LayerFits.kvMode {now : LayerState} (h : LayerFits c layer now) :
    now.kvMode = layer.kvMode ∨ TurnsOff c layer ∧ now.kvMode = .off := by
  unfold LayerFits at h
  split_ifs at h with hmode
  · rcases h with rfl | ⟨hloads, rfl⟩
    · exact .inl rfl
    · rcases @prepareLayer_result F c layer with hres | hres
      · exact .inl hres.1
      · exact .inr ⟨⟨hmode, hloads, hres.1⟩, hres.1⟩
  · exact .inl h

theorem LayerFits.prepare {now : LayerState} (hmode : layer.kvMode = .tilestore)
    (h : LayerFits c layer now) : prepareLayer c now = prepareLayer c layer := by
  unfold LayerFits at h
  rw [if_pos hmode] at h
  rcases h with rfl | ⟨_, rfl⟩
  · rfl
  · exact prepareLayer_idem

theorem copy_fits_step (hc : Copying c layer) {i : ℕ} {pc : Pc} {s : Shared}
    (hlayer : LayerFits c layer s.layer) (hpc : CopyFits c layer.kvMode i pc) :
    CopyFits c layer.kvMode i (step c i pc s).1 ∧ LayerFits c layer (step c i pc s).2.layer := by
  cases pc with
  | enter =>
      unfold step
      dsimp only
      split_ifs <;> exact ⟨trivial, hlayer⟩
  | dispatch =>
      unfold step
      dsimp only
      rcases hlayer.kvMode with hmode | ⟨_, hmode⟩
      · rcases hc.mode with h | h | h <;> rw [hmode, h]
        · exact ⟨⟨rfl, le_rfl, by decide⟩, hlayer⟩
        · exact ⟨rfl, hlayer⟩
        · exact ⟨⟨rfl, le_rfl, by decide⟩, hlayer⟩
      · rw [hmode]
        exact ⟨trivial, hlayer⟩
  | collect =>
      have hmode : layer.kvMode = .collect := hpc
      refine ⟨⟨?_, le_rfl, ?_⟩, ?_⟩
      · rw [hmode]
        rfl
      · rw [hmode]
        decide
      · unfold LayerFits at hlayer ⊢
        rw [if_neg (by rw [hmode]; decide)] at hlayer ⊢
        unfold step
        dsimp only
        split_ifs
        · rw [withDim_kvMode, hlayer]
        · exact (@withDim_kvMode F c s.layer).trans hlayer
  | rows plan t tail =>
      obtain ⟨hplan, hle, htail⟩ := hpc
      unfold step
      dsimp only
      split_ifs with hlt hmore
      · refine ⟨⟨hplan, Nat.le_succ_of_le hle, htail⟩, ?_⟩
        rw [writeRow_layer]
        exact hlayer
      · exact ⟨htail.mp hmore, hlayer⟩
      · exact ⟨trivial, hlayer⟩
  | load =>
      have hmode : layer.kvMode = .tilestore := hpc
      unfold step
      dsimp only
      cases hb : c.b with
      | none => exact ⟨trivial, hlayer⟩
      | some idxs =>
          dsimp only
          split_ifs with hbad
          · exact ⟨trivial, hlayer⟩
          · push Not at hbad
            have hloads : Loads c := by
              refine ⟨?_, idxs, hb, ?_, hbad.2.2⟩
              · simpa using hbad.1
              · simpa using hbad.2.1
            refine ⟨⟨hmode, hloads⟩, ?_⟩
            dsimp only
            rw [hlayer.prepare hmode]
            unfold LayerFits
            rw [if_pos hmode]
            exact .inr ⟨hloads, rfl⟩
  | tiles =>
      unfold step
      dsimp only
      cases c.b with
      | none => exact ⟨trivial, hlayer⟩
      | some idxs =>
          dsimp only
          split_ifs <;> exact ⟨trivial, hlayer⟩
  | done => exact ⟨trivial, hlayer⟩
  | prepare => exact hpc.elim
  | check => exact hpc.elim

/-- A thread with rows that has not read the mode yet. -/
def Opening : Pc → Prop
  | .enter | .dispatch => True
  | _ => False

/-- A step writes the row it is at, or nothing. -/
theorem copy_shared_step {mode : KvMode} {i : ℕ} {pc : Pc} {s : Shared}
    (hpc : CopyFits c mode i pc) :
    ((step c i pc s).2.dst = s.dst ∧
        ∀ t, tokenStart c i ≤ t → t < tokenEnd c i → Passed (step c i pc s).1 t →
          Passed pc t ∨ Opening pc ∧ s.layer.kvMode = .off) ∨
      ∃ u, Owns c i u ∧ (∀ t, Passed (step c i pc s).1 t → Passed pc t ∨ t = u) ∧
        (step c i pc s).2.dst = writeBytes s.dst (copyTo c mode u)
          (readBytes c.src (copyFrom c mode u) (copyLen c mode)) := by
  cases pc with
  | enter =>
      unfold step
      dsimp only
      split_ifs with hoff hidle
      · exact .inl ⟨rfl, fun _ _ _ _ => .inr ⟨trivial, hoff⟩⟩
      · refine .inl ⟨rfl, fun t hle hlt _ => ?_⟩
        have hend := @tokenEnd_le F c i
        omega
      · exact .inl ⟨rfl, fun _ _ _ h => h.elim⟩
  | dispatch =>
      unfold step
      dsimp only
      split
      · rename_i hoff
        exact .inl ⟨rfl, fun _ _ _ _ => .inr ⟨trivial, hoff⟩⟩
      · refine .inl ⟨rfl, fun t hle _ h => ?_⟩
        have hlt : t < tokenStart c i := h
        omega
      · exact .inl ⟨rfl, fun _ _ _ h => h.elim⟩
      · refine .inl ⟨rfl, fun t hle _ h => ?_⟩
        have hlt : t < tokenStart c i := h
        omega
      · exact .inl ⟨rfl, fun _ _ _ h => h.elim⟩
  | collect =>
      refine .inl ⟨rfl, fun t hle _ h => ?_⟩
      have hlt : t < tokenStart c i := h
      omega
  | rows plan u tail =>
      obtain ⟨rfl, hle, _⟩ := hpc
      by_cases hlt : u < tokenEnd c i
      · refine .inr ⟨u, ⟨hle, hlt⟩, ?_⟩
        unfold step
        dsimp only
        rw [if_pos hlt]
        unfold writeRow
        rw [rowOutput_copyPlan]
        exact ⟨fun t h => Nat.lt_succ_iff_lt_or_eq.mp h, rfl⟩
      · unfold step
        dsimp only
        rw [if_neg hlt]
        split_ifs
        · refine .inl ⟨rfl, fun t _ hend _ => .inl ?_⟩
          change t < u
          omega
        · refine .inl ⟨rfl, fun t _ hend _ => .inl ?_⟩
          change t < u
          omega
  | load =>
      refine .inl ⟨?_, fun _ _ _ _ => .inl trivial⟩
      unfold step
      dsimp only
      cases c.b with
      | none => rfl
      | some idxs =>
          dsimp only
          split_ifs <;> rfl
  | tiles =>
      refine .inl ⟨?_, fun _ _ _ _ => .inl trivial⟩
      unfold step
      dsimp only
      cases c.b with
      | none => rfl
      | some idxs =>
          dsimp only
          split_ifs <;> rfl
  | done => exact .inl ⟨rfl, fun _ _ _ h => .inl h⟩
  | prepare => exact hpc.elim
  | check => exact hpc.elim

/-- Away from loading a step leaves the layer's mode, and no thread gets back to entering. -/
theorem copy_mode_step {mode : KvMode} {i : ℕ} {pc : Pc} {s : Shared} (hpc : CopyFits c mode i pc)
    (hne : pc ≠ .load) : (step c i pc s).2.layer.kvMode = s.layer.kvMode := by
  cases pc with
  | enter => unfold step; dsimp only; split_ifs <;> rfl
  | dispatch => unfold step; dsimp only; split <;> rfl
  | collect =>
      unfold step
      dsimp only
      split_ifs <;> exact withDim_kvMode
  | rows plan t tail =>
      unfold step
      dsimp only
      split_ifs
      · rw [writeRow_layer]
      · rfl
      · rfl
  | load => exact absurd rfl hne
  | tiles =>
      unfold step
      dsimp only
      cases c.b with
      | none => rfl
      | some idxs =>
          dsimp only
          split_ifs <;> rfl
  | done => rfl
  | prepare => exact hpc.elim
  | check => exact hpc.elim

theorem written_write {mode : KvMode} (hagree : Agree c mode) {t u : ℕ} {dst : Memory}
    (ht : t < c.a.ne1) (hu : u < c.a.ne1) (h : Written c mode dst t ∨ t = u) :
    Written c mode (writeBytes dst (copyTo c mode u)
      (readBytes c.src (copyFrom c mode u) (copyLen c mode))) t := by
  intro k hk
  rw [writeBytes_readBytes]
  split_ifs with hin
  · -- what the row brings is what belongs here
    rw [hagree t ht u hu k hk (copyTo c mode t + k - copyTo c mode u) (by omega) (by omega)]
  · rcases h with h | rfl
    · exact h k hk
    · exact absurd ⟨by omega, by omega⟩ hin

/-- Threads are where a copying call can be, and only its rows have been touched. -/
structure Located (c : Call F) (layer : LayerState) (before : Memory)
    (w : World ℕ Pc Shared) : Prop where
  kept : LayerFits c layer w.shared.layer
  fits : ∀ i, CopyFits c layer.kvMode i (w.locals i)
  idle : ∀ i, c.a.ne1 ≤ tokenStart c i → w.locals i = .enter ∨ w.locals i = .done
  untouched : ∀ a, (∀ t < c.a.ne1, ∀ k < copyLen c layer.kvMode, a ≠ copyTo c layer.kvMode t + k) →
    w.shared.dst a = before a

theorem located_start (written : ℕ) : Located c layer before (start layer before written) where
  kept := by
    unfold LayerFits
    split_ifs
    · exact .inl rfl
    · rfl
  fits := fun _ => trivial
  idle := fun _ _ => .inl rfl
  untouched := fun _ _ => rfl

theorem located_step (hc : Copying c layer) (w : World ℕ Pc Shared) (i : ℕ)
    (h : Located c layer before w) : Located c layer before (exec (step c) w i) := by
  obtain ⟨hfits, hlayer⟩ := copy_fits_step hc h.kept (h.fits i)
  constructor
  · exact hlayer
  · intro j
    by_cases hij : j = i
    · subst hij
      rw [exec_self]
      exact hfits
    · rw [exec_of_ne w hij]
      exact h.fits j
  · intro j hj
    by_cases hij : j = i
    · subst hij
      rw [exec_self]
      rcases h.idle j hj with hpc | hpc <;> rw [hpc] <;> unfold step <;> dsimp only
      · split_ifs
        · exact .inr rfl
        · exact .inr rfl
      · exact .inr rfl
    · rw [exec_of_ne w hij]
      exact h.idle j hj
  · intro a ha
    change (step c i (w.locals i) w.shared).2.dst _ = _
    rcases copy_shared_step (s := w.shared) (h.fits i) with ⟨hdst, _⟩ | ⟨u, hu, _, hdst⟩
    · rw [hdst]
      exact h.untouched a ha
    · rw [hdst, writeBytes_readBytes, if_neg]
      · exact h.untouched a ha
      · intro hin
        exact ha u hu.lt (a - copyTo c layer.kvMode u) (by omega) (by omega)

theorem located_run (hc : Copying c layer) (before : Memory) (written : ℕ) (schedule : List ℕ) :
    Located c layer before (run (step c) (start layer before written) schedule) :=
  run_invariant (fun w i => located_step hc w i) (located_start written) schedule

/-- A layer is turned off by a thread that has copied its rows. -/
structure Copied (c : Call F) (layer : LayerState) (w : World ℕ Pc Shared) : Prop where
  passed : ∀ i t, Owns c i t → Passed (w.locals i) t →
    Written c layer.kvMode w.shared.dst t ∨ w.shared.layer.kvMode = .off
  off : w.shared.layer.kvMode = .off →
    ∃ i, tokenStart c i < c.a.ne1 ∧ ∀ t, Owns c i t → Written c layer.kvMode w.shared.dst t

theorem copied_start (hc : Copying c layer) (written : ℕ) :
    Copied c layer (start layer before written) where
  passed := fun _ _ _ h => h.elim
  off := fun hoff => absurd hoff hc.not_off

theorem written_step {mode : KvMode} (hagree : Agree c mode) {i t : ℕ} {pc : Pc} {s : Shared}
    (hpc : CopyFits c mode i pc) (ht : t < c.a.ne1) (h : Written c mode s.dst t) :
    Written c mode (step c i pc s).2.dst t := by
  rcases copy_shared_step (s := s) hpc with ⟨hdst, _⟩ | ⟨u, hu, _, hdst⟩
  · rw [hdst]
    exact h
  · rw [hdst]
    exact written_write hagree ht hu.lt (.inl h)

/-- A layer that is turned off is not turned on again. -/
theorem stays_off (hc : Copying c layer) {w : World ℕ Pc Shared} (i : ℕ)
    (h : Located c layer before w) (hoff : w.shared.layer.kvMode = .off) :
    (exec (step c) w i).shared.layer.kvMode = .off := by
  rcases h.kept.kvMode with hsame | ⟨hturns, _⟩
  · exact absurd (hsame.symm.trans hoff) hc.not_off
  · by_cases hload : w.locals i = .load
    · obtain ⟨hmode, ⟨htype, idxs, hidxs, hi64, hlen⟩, hprepared⟩ := hturns
      change (step c i (w.locals i) w.shared).2.layer.kvMode = .off
      rw [hload]
      unfold step
      dsimp only
      rw [hidxs]
      dsimp only
      rw [if_neg]
      · change (prepareLayer c w.shared.layer).kvMode = .off
        rw [h.kept.prepare hmode]
        exact hprepared
      · push Not
        exact ⟨by simpa using htype, by simpa using hi64, hlen⟩
    · exact (copy_mode_step (h.fits i) hload).trans hoff

theorem copied_step (hc : Copying c layer) (hagree : Agree c layer.kvMode)
    (w : World ℕ Pc Shared) (i : ℕ) (hloc : Located c layer before w) (h : Copied c layer w) :
    Copied c layer (exec (step c) w i) := by
  have hfits := hloc.fits i
  have hkeep : ∀ j t, Owns c j t → Written c layer.kvMode w.shared.dst t →
      Written c layer.kvMode (exec (step c) w i).shared.dst t := by
    intro j t ht
    exact written_step hagree hfits ht.lt
  have hold : ∀ j t, Owns c j t → Passed (w.locals j) t →
      Written c layer.kvMode (exec (step c) w i).shared.dst t ∨
        (exec (step c) w i).shared.layer.kvMode = .off := by
    intro j t ht hpassed
    rcases h.passed j t ht hpassed with hwritten | hoff
    · exact .inl (hkeep j t ht hwritten)
    · exact .inr (stays_off hc i hloc hoff)
  constructor
  · intro j t ht hpassed
    by_cases hij : j = i
    · subst hij
      rw [exec_self] at hpassed
      rcases copy_shared_step (s := w.shared) hfits with ⟨_, hback⟩ | ⟨u, hu, hback, hdst⟩
      · rcases hback t ht.1 ht.2 hpassed with hpassed | ⟨_, hoff⟩
        · exact hold j t ht hpassed
        · exact .inr (stays_off hc j hloc hoff)
      · rcases hback t hpassed with hpassed | rfl
        · exact hold j t ht hpassed
        · refine .inl ?_
          change Written c layer.kvMode (step c j (w.locals j) w.shared).2.dst t
          rw [hdst]
          exact written_write hagree hu.lt hu.lt (.inr rfl)
    · rw [exec_of_ne w hij] at hpassed
      exact hold j t ht hpassed
  · intro hoff
    by_cases hbefore : w.shared.layer.kvMode = .off
    · obtain ⟨j, hj, hrows⟩ := h.off hbefore
      exact ⟨j, hj, fun t ht => hkeep j t ht (hrows t ht)⟩
    · -- only a thread past its rows changes the mode
      have hload : w.locals i = .load := by
        by_contra hne
        exact hbefore ((copy_mode_step hfits hne).symm.trans hoff)
      refine ⟨i, ?_, fun t ht => hkeep i t ht ?_⟩
      · by_contra hidle
        rcases hloc.idle i (by omega) with hpc | hpc <;> rw [hload] at hpc <;> cases hpc
      · rcases h.passed i t ht (by rw [hload]; trivial) with hwritten | h
        · exact hwritten
        · exact absurd h hbefore

theorem copied_run (hc : Copying c layer) (hagree : Agree c layer.kvMode) (before : Memory)
    (written : ℕ) (schedule : List ℕ) :
    Copied c layer (run (step c) (start layer before written) schedule) := by
  have hboth : Located c layer before (run (step c) (start layer before written) schedule) ∧
      Copied c layer (run (step c) (start layer before written) schedule) := by
    apply run_invariant (P := fun w => Located c layer before w ∧ Copied c layer w)
    · intro w i ⟨hloc, hcopied⟩
      exact ⟨located_step hc w i hloc, copied_step hc hagree w i hloc hcopied⟩
    · exact ⟨located_start written, copied_start hc written⟩
  exact hboth.2

/-- In the end the layer is off and some thread has copied its rows, or all have. -/
theorem copied_done (hc : Copying c layer) (hagree : Agree c layer.kvMode) {written : ℕ}
    {schedule : List ℕ} (hdone : AllDone c (run (step c) (start layer before written) schedule)) :
    (∀ t < c.a.ne1, Written c layer.kvMode
      (run (step c) (start layer before written) schedule).shared.dst t) ∨
    TurnsOff c layer ∧ ∃ i, tokenStart c i < c.a.ne1 ∧ ∀ t, Owns c i t → Written c layer.kvMode
      (run (step c) (start layer before written) schedule).shared.dst t := by
  have h := copied_run hc hagree before written schedule
  by_cases hoff : (run (step c) (start layer before written) schedule).shared.layer.kvMode = .off
  · refine .inr ⟨?_, h.off hoff⟩
    rcases (located_run hc before written schedule).kept.kvMode with hsame | ⟨hturns, _⟩
    · exact absurd (hsame.symm.trans hoff) hc.not_off
    · exact hturns
  · refine .inl fun t ht => ?_
    obtain ⟨i, hi, howns⟩ := exists_owner hc.threads ht
    have hpassed : Passed ((run (step c) (start layer before written) schedule).locals i) t := by
      have hend := hdone i hi
      cases hpc : (run (step c) (start layer before written) schedule).locals i with
      | done => trivial
      | _ => rw [hpc] at hend; exact hend.elim
    rcases h.passed i t howns hpassed with hwritten | h
    · exact hwritten
    · exact absurd h hoff

/-- Where the first thread of a call that turns the layer off is, and what it has made of it. -/
def Alone (layer now : LayerState) : Pc → Prop
  | .enter | .dispatch | .rows _ _ _ | .load => now = layer
  | .tiles | .done => now.kvMode = .off
  | _ => False

/-- The rows of thread `i` are all that has been touched. -/
def TouchedBy (c : Call F) (mode : KvMode) (i : ℕ) (before dst : Memory) : Prop :=
  ∀ a, (∀ t, Owns c i t → ∀ k < copyLen c mode, a ≠ copyTo c mode t + k) → dst a = before a

theorem alone_step (hturns : TurnsOff c layer) {i : ℕ} (hrows : tokenStart c i < c.a.ne1) {pc : Pc}
    {s : Shared} (hpc : CopyFits c layer.kvMode i pc) (h : Alone layer s.layer pc) :
    Alone layer (step c i pc s).2.layer (step c i pc s).1 := by
  obtain ⟨hmode, ⟨htype, idxs, hidxs, hi64, hlen⟩, hprepared⟩ := hturns
  cases pc with
  | enter =>
      have hlayer : s.layer = layer := h
      unfold step
      dsimp only
      rw [hlayer, if_neg (by rw [hmode]; decide), if_neg (by omega)]
      exact hlayer
  | dispatch =>
      have hlayer : s.layer = layer := h
      unfold step
      dsimp only
      rw [hlayer, hmode]
      exact hlayer
  | rows plan t tail =>
      have htail : tail = true := hpc.2.2.mpr hmode
      unfold step
      dsimp only
      split_ifs
      · change (writeRow c i plan t s).layer = layer
        rw [writeRow_layer]
        exact h
      · exact h
  | load =>
      have hlayer : s.layer = layer := h
      unfold step
      dsimp only
      rw [hidxs]
      dsimp only
      rw [if_neg]
      · change (prepareLayer c s.layer).kvMode = .off
        rw [hlayer]
        exact hprepared
      · push Not
        exact ⟨by simpa using htype, by simpa using hi64, hlen⟩
  | tiles =>
      have hoff : s.layer.kvMode = .off := h
      unfold step
      dsimp only
      rw [hidxs]
      dsimp only
      rw [if_pos (.inl hoff)]
      exact hoff
  | done => exact h
  | prepare => exact hpc.elim
  | check => exact hpc.elim
  | collect => exact h.elim

theorem touchedBy_step {mode : KvMode} {i : ℕ} {pc : Pc} {s : Shared} (hpc : CopyFits c mode i pc)
    (h : TouchedBy c mode i before s.dst) : TouchedBy c mode i before (step c i pc s).2.dst := by
  intro a ha
  rcases copy_shared_step (s := s) hpc with ⟨hdst, _⟩ | ⟨u, hu, _, hdst⟩
  · rw [hdst]
    exact h a ha
  · rw [hdst, writeBytes_readBytes, if_neg]
    · exact h a ha
    · intro hin
      exact ha u hu (a - copyTo c mode u) (by omega) (by omega)

/-- Only thread `i` has run. -/
structure First (c : Call F) (layer : LayerState) (before : Memory) (i : ℕ)
    (w : World ℕ Pc Shared) : Prop where
  located : Located c layer before w
  alone : Alone layer w.shared.layer (w.locals i)
  touched : TouchedBy c layer.kvMode i before w.shared.dst
  others : ∀ j, j ≠ i → w.locals j = .enter

theorem first_step (hc : Copying c layer) (hturns : TurnsOff c layer) {i : ℕ}
    (hrows : tokenStart c i < c.a.ne1) (w : World ℕ Pc Shared) (h : First c layer before i w) :
    First c layer before i (exec (step c) w i) := by
  constructor
  · exact located_step hc w i h.located
  · rw [exec_self]
    exact alone_step hturns hrows (h.located.fits i) h.alone
  · exact touchedBy_step (h.located.fits i) h.touched
  · intro j hj
    rw [exec_of_ne w hj]
    exact h.others j hj

/-- The layer is off, and who enters leaves at once. -/
structure Afterwards (c : Call F) (mode : KvMode) (before : Memory) (i : ℕ)
    (w : World ℕ Pc Shared) : Prop where
  off : w.shared.layer.kvMode = .off
  touched : TouchedBy c mode i before w.shared.dst
  ends : ∀ j, w.locals j = .enter ∨ w.locals j = .done

theorem afterwards_of_first {i : ℕ} {w : World ℕ Pc Shared} (h : First c layer before i w)
    (hdone : (w.locals i).Done) : Afterwards c layer.kvMode before i w := by
  obtain ⟨_, halone, htouched, hothers⟩ := h
  cases hpc : w.locals i with
  | done =>
      rw [hpc] at halone
      refine ⟨halone, htouched, fun j => ?_⟩
      by_cases hj : j = i
      · subst hj
        exact .inr hpc
      · exact .inl (hothers j hj)
  | _ => rw [hpc] at hdone; exact hdone.elim

theorem afterwards_step {mode : KvMode} {i : ℕ} (w : World ℕ Pc Shared) (j : ℕ)
    (h : Afterwards c mode before i w) : Afterwards c mode before i (exec (step c) w j) := by
  have hnext : step c j (w.locals j) w.shared = (.done, w.shared) := by
    rcases h.ends j with hpc | hpc <;> rw [hpc] <;> unfold step <;> dsimp only
    rw [if_pos h.off]
  constructor
  · change (step c j (w.locals j) w.shared).2.layer.kvMode = .off
    rw [hnext]
    exact h.off
  · change TouchedBy c mode i before (step c j (w.locals j) w.shared).2.dst
    rw [hnext]
    exact h.touched
  · intro n
    by_cases hn : n = j
    · subst hn
      rw [exec_self, hnext]
      exact .inr rfl
    · rw [exec_of_ne w hn]
      exact h.ends n

/-- Every thread that can turn the layer off may be the only one to copy its rows. -/
theorem exists_alone (hc : Copying c layer) (hturns : TurnsOff c layer) {i : ℕ}
    (hrows : tokenStart c i < c.a.ne1) (before : Memory) (written : ℕ) :
    ∃ schedule, AllDone c (run (step c) (start layer before written) schedule) ∧
      TouchedBy c layer.kvMode i before
        (run (step c) (start layer before written) schedule).shared.dst := by
  obtain ⟨xs, honly, hdone⟩ := exists_done (left_step_lt c) (start layer before written) i
  have hstart : First c layer before i (start layer before written) :=
    ⟨located_start written, rfl, fun _ _ => rfl, fun _ _ => rfl⟩
  have hfirst : First c layer before i (run (step c) (start layer before written) xs) :=
    run_invariant_alone (first_step hc hturns hrows) hstart honly
  obtain ⟨ys, hys⟩ := exists_allDone c (run (step c) (start layer before written) xs)
  refine ⟨xs ++ ys, by rwa [run_append], ?_⟩
  rw [run_append]
  have hlast : Afterwards c layer.kvMode before i
      (run (step c) (run (step c) (start layer before written) xs) ys) :=
    run_invariant afterwards_step (afterwards_of_first hfirst hdone) ys
  exact hlast.touched

/-- The same call on a source of the same shape. -/
def withSrc (c : Call F) (src : Memory) : Call F := { c with src := src }

/-- Bytes that the rows of the destination share, those of the source share too. -/
def SharedAlike (l dst : Layout) (len : ℕ) : Prop :=
  ∀ i1 < l.ne1, ∀ i2 < l.ne2, ∀ i3 < l.ne3, ∀ j1 < l.ne1, ∀ j2 < l.ne2, ∀ j3 < l.ne3,
    ∀ k < len, ∀ m < len, rowOffset dst i1 i2 i3 + k = rowOffset dst j1 j2 j3 + m →
      rowOffset l i1 i2 i3 + k = rowOffset l j1 j2 j3 + m

/-- Every byte of the destination lies in one of the rows `P` of the first plane. -/
def Covers (c : Call F) (P : ℕ → Prop) : Prop :=
  ∀ i1 < c.a.ne1, ∀ i2 < c.a.ne2, ∀ i3 < c.a.ne3, ∀ k < rowBytes c,
    ∃ t, P t ∧ ∃ m < rowBytes c, rowOffset c.dst i1 i2 i3 + k = t * c.dst.nb1 + m

/-- Copying the rows of the first plane fills the destination, whichever thread comes first. -/
def StridedRows (c : Call F) (layer : LayerState) : Prop :=
  SharedAlike c.a c.dst (rowBytes c) ∧ Covers c (· < c.a.ne1) ∧
    (TurnsOff c layer → ∀ i, tokenStart c i < c.a.ne1 → Covers c (Owns c i))

theorem rowOffset_first (l : Layout) (t : ℕ) : rowOffset l t 0 0 = t * l.nb1 := by
  unfold rowOffset
  omega

theorem sharedAlike_of_sameRows {l dst : Layout} {len : ℕ}
    (h : ∀ src, ∃ out, SameRows l dst len src out) : SharedAlike l dst len := by
  intro i1 h1 i2 h2 i3 h3 j1 h1' j2 h2' j3 h3' k hk m hm hsame
  -- a source with a single one in it
  obtain ⟨out, hout⟩ := h fun a => if a = rowOffset l i1 i2 i3 + k then 1 else 0
  have hfirst := readBytes_eq_iff.mp (hout i1 h1 i2 h2 i3 h3) k hk
  have hlast := readBytes_eq_iff.mp (hout j1 h1' j2 h2' j3 h3') m hm
  rw [hsame, hlast, if_pos rfl] at hfirst
  by_contra hne
  rw [if_neg fun h => hne h.symm] at hfirst
  exact absurd hfirst (by decide)

theorem agree_packed {mode : KvMode} (h : mode ≠ .tilestore) : Agree c mode := by
  intro t _ u _ k _ m _ hsame
  unfold copyTo at hsame
  unfold copyFrom
  rw [if_neg h, if_neg h] at hsame
  rw [if_neg h, if_neg h]
  exact hsame

theorem agree_strided {mode : KvMode} (hmode : mode = .tilestore)
    (h : SharedAlike c.a c.dst (rowBytes c)) (h2 : 0 < c.a.ne2) (h3 : 0 < c.a.ne3) :
    Agree c mode := by
  intro t ht u hu k hk m hm hsame
  unfold copyTo at hsame
  unfold copyFrom
  unfold copyLen at hk hm
  rw [if_pos hmode] at hk hm
  rw [if_pos hmode, if_pos hmode] at hsame
  rw [if_pos hmode, if_pos hmode, ← rowOffset_first c.a, ← rowOffset_first c.a]
  apply h t ht 0 h2 0 h3 u hu 0 h2 0 h3 k hk m hm
  rw [rowOffset_first, rowOffset_first]
  exact hsame

/-- After all threads every row of the destination is that of the source. -/
def CopiesRows (c : Call F) (layer : LayerState) : Prop :=
  ∀ src before written schedule,
    AllDone (withSrc c src) (run (step (withSrc c src)) (start layer before written) schedule) →
      SameRows c.a c.dst (rowBytes c) src
        (run (step (withSrc c src)) (start layer before written) schedule).shared.dst

theorem Copying.onSrc (hc : Copying c layer) (src : Memory) :
    Copying (withSrc c src) layer := ⟨hc.mode, hc.threads⟩

/-- Packed rows one after the other are a flat copy. -/
theorem flatCopy_done (hc : Copying c layer) (hmode : layer.kvMode ≠ .tilestore) {written : ℕ}
    {schedule : List ℕ} (hdone : AllDone c (run (step c) (start layer before written) schedule)) :
    FlatCopy c.src before (run (step c) (start layer before written) schedule).shared.dst
      (c.a.ne1 * packedRowBytes c) := by
  have hrows := (copied_done hc (agree_packed hmode) hdone).resolve_right fun h => hmode h.1.1
  have huntouched := (located_run hc before written schedule).untouched
  unfold Written at hrows
  unfold copyTo copyFrom copyLen at hrows
  unfold copyTo copyLen at huntouched
  simp only [if_neg hmode] at hrows huntouched
  intro a
  split_ifs with hin
  · have hpos : 0 < packedRowBytes c := by
      apply Nat.pos_of_ne_zero
      intro hzero
      rw [hzero, Nat.mul_zero] at hin
      omega
    have hwritten := hrows (a / packedRowBytes c) (Nat.div_lt_of_lt_mul (by rwa [Nat.mul_comm]))
      (a % packedRowBytes c) (Nat.mod_lt _ hpos)
    rwa [Nat.div_add_mod'] at hwritten
  · apply huntouched
    rintro t ht k hk rfl
    have hmul := Nat.mul_le_mul_right (packedRowBytes c) (Nat.succ_le_of_lt ht)
    rw [Nat.succ_mul] at hmul
    omega

theorem copiesRows_packed_iff (hc : Copying c layer) (hmode : layer.kvMode ≠ .tilestore) :
    CopiesRows c layer ↔ FlatRows c.a c.dst (rowBytes c) (c.a.ne1 * packedRowBytes c) := by
  constructor
  · intro h
    apply (sameRows_flat_iff c.a c.dst _ _).mp
    intro src before after hcopy
    obtain ⟨schedule, hdone⟩ := exists_allDone (withSrc c src) (start layer before 0)
    have hfinal := flatCopy_done (hc.onSrc src) hmode hdone
    have hsame : after =
        (run (step (withSrc c src)) (start layer before 0) schedule).shared.dst := by
      funext a
      rw [hcopy a, hfinal a]
      rfl
    rw [hsame]
    exact h src before 0 schedule hdone
  · intro h src before written schedule hdone
    have hfinal := flatCopy_done (hc.onSrc src) hmode hdone
    exact (sameRows_flat_iff c.a c.dst _ _).mpr h src before _ hfinal

/-- What is nowhere near a row keeps its old value, which need not be the right one. -/
theorem covers_of_sameRows {P : ℕ → Prop} {out : Memory}
    (h : SameRows c.a c.dst (rowBytes c) (fun _ => 0) out)
    (hout : ∀ a, (∀ t, P t → ∀ m < rowBytes c, a ≠ t * c.dst.nb1 + m) → out a = 1) :
    Covers c P := by
  intro i1 h1 i2 h2 i3 h3 k hk
  by_contra hnone
  push Not at hnone
  have hread := readBytes_eq_iff.mp (h i1 h1 i2 h2 i3 h3) k hk
  rw [hout _ hnone] at hread
  exact absurd hread (by decide)

theorem copiesRows_strided_iff (hc : Copying c layer) (hmode : layer.kvMode = .tilestore) :
    CopiesRows c layer ↔ StridedRows c layer := by
  constructor
  · intro h
    refine ⟨?_, ?_, ?_⟩
    · apply sharedAlike_of_sameRows
      intro src
      obtain ⟨schedule, hdone⟩ := exists_allDone (withSrc c src) (start layer (fun _ => 0) 0)
      exact ⟨_, h src _ 0 schedule hdone⟩
    · obtain ⟨schedule, hdone⟩ :=
        exists_allDone (withSrc c fun _ => 0) (start layer (fun _ => 1) 0)
      apply covers_of_sameRows (h _ _ 0 schedule hdone)
      intro a ha
      apply (located_run (hc.onSrc fun _ => 0) _ 0 schedule).untouched
      unfold copyTo copyLen
      simp only [if_pos hmode]
      exact ha
    · intro hturns i hi
      obtain ⟨schedule, hdone, htouched⟩ :=
        exists_alone (hc.onSrc fun _ => 0) hturns hi (fun _ => 1) 0
      apply covers_of_sameRows (h _ _ 0 schedule hdone)
      intro a ha
      apply htouched
      unfold copyTo copyLen
      simp only [if_pos hmode]
      exact ha
  · intro ⟨hshared, hall, hturned⟩ src before written schedule hdone i1 h1 i2 h2 i3 h3
    apply readBytes_congr
    intro k hk
    have h2pos : 0 < c.a.ne2 := by omega
    have h3pos : 0 < c.a.ne3 := by omega
    -- some row that has been copied holds the byte
    have hrow : ∃ t < c.a.ne1, Written (withSrc c src) layer.kvMode
        (run (step (withSrc c src)) (start layer before written) schedule).shared.dst t ∧
        ∃ m < rowBytes c, rowOffset c.dst i1 i2 i3 + k = t * c.dst.nb1 + m := by
      have hagree : Agree (withSrc c src) layer.kvMode := agree_strided hmode hshared h2pos h3pos
      rcases copied_done (hc.onSrc src) hagree hdone with hrows | ⟨hturns, i, hi, hrows⟩
      · obtain ⟨t, ht, hm⟩ := hall i1 h1 i2 h2 i3 h3 k hk
        exact ⟨t, ht, hrows t ht, hm⟩
      · obtain ⟨t, ht, hm⟩ := hturned hturns i hi i1 h1 i2 h2 i3 h3 k hk
        exact ⟨t, ht.lt, hrows t ht, hm⟩
    obtain ⟨t, ht, hwritten, m, hm, hbyte⟩ := hrow
    have hfrom := hshared i1 h1 i2 h2 i3 h3 t ht 0 h2pos 0 h3pos k hk m hm
      (by rw [rowOffset_first, hbyte])
    rw [rowOffset_first] at hfrom
    unfold Written at hwritten
    unfold copyTo copyFrom copyLen at hwritten
    simp only [if_pos hmode] at hwritten
    rw [hbyte, hfrom]
    exact hwritten m hm

/-- What a thread adds to the collection. -/
def gathered (c : Call F) (i : ℕ) : List (List UInt8) :=
  if c.type.isF32 then gatheredRows c i else []

/-- What its next step adds. -/
def addedBy (c : Call F) (i : ℕ) : Pc → List (List UInt8)
  | .collect => gathered c i
  | _ => []

/-- The thread has no rows to add any more. -/
def Added : Pc → Prop
  | .enter | .dispatch | .prepare | .check | .collect => False
  | _ => True

theorem added_step {i : ℕ} {pc : Pc} {s : Shared} (h : Added pc) : Added (step c i pc s).1 := by
  cases pc with
  | rows plan t tail =>
      unfold step
      dsimp only
      split_ifs <;> exact trivial
  | load =>
      unfold step
      dsimp only
      cases c.b with
      | none => exact trivial
      | some idxs =>
          dsimp only
          split_ifs <;> exact trivial
  | tiles =>
      unfold step
      dsimp only
      cases c.b with
      | none => exact trivial
      | some idxs =>
          dsimp only
          split_ifs <;> exact trivial
  | done => exact trivial
  | _ => exact h.elim

theorem gathered_step {i : ℕ} {pc : Pc} {s : Shared} (hpc : CopyFits c .collect i pc)
    (hmode : s.layer.kvMode = .collect) :
    (step c i pc s).2.layer.collectedK =
        s.layer.collectedK ++ addedBy c i pc ∧
      (Added (step c i pc s).1 → Added pc ∨ pc = .collect ∨ c.a.ne1 ≤ tokenStart c i) := by
  cases pc with
  | enter =>
      unfold step addedBy
      rw [List.append_nil]
      dsimp only
      rw [if_neg (by rw [hmode]; decide)]
      split_ifs with hidle
      · exact ⟨rfl, fun _ => .inr (.inr hidle)⟩
      · exact ⟨rfl, fun h => h.elim⟩
  | dispatch =>
      unfold step addedBy
      rw [List.append_nil]
      dsimp only
      rw [hmode]
      exact ⟨rfl, fun h => h.elim⟩
  | collect =>
      refine ⟨?_, fun _ => .inr (.inl rfl)⟩
      have hdim : (withDim c s.layer).collectedK = s.layer.collectedK := by
        unfold withDim
        split_ifs <;> rfl
      unfold step addedBy gathered
      dsimp only
      by_cases htype : c.type.isF32 = true
      · rw [if_neg (by simpa using htype), if_pos htype]
        dsimp only
        rw [hdim]
      · rw [if_pos (by simpa using htype), if_neg htype, List.append_nil]
        exact hdim
  | rows plan t tail =>
      refine ⟨?_, fun _ => .inl trivial⟩
      unfold step addedBy
      rw [List.append_nil]
      dsimp only
      split_ifs
      · rw [writeRow_layer]
      · rfl
      · rfl
  | done =>
      unfold step addedBy
      rw [List.append_nil]
      exact ⟨rfl, fun _ => .inl trivial⟩
  | load => cases (hpc : KvMode.collect = .tilestore)
  | tiles => cases hpc.1
  | prepare => exact hpc.elim
  | check => exact hpc.elim

/-- The rows added so far are those of some threads, each thread's once. -/
def GatheredBy (c : Call F) (layer : LayerState) (w : World ℕ Pc Shared) (order : List ℕ) : Prop :=
  order.Nodup ∧ (∀ i ∈ order, Added (w.locals i)) ∧
    (∀ i, tokenStart c i < c.a.ne1 → Added (w.locals i) → i ∈ order) ∧
    w.shared.layer.collectedK = layer.collectedK ++ order.flatMap (gathered c)

theorem gatheredBy_step (hmode : layer.kvMode = .collect) (w : World ℕ Pc Shared) (i : ℕ)
    (hloc : Located c layer before w) {order : List ℕ} (h : GatheredBy c layer w order) :
    ∃ next, GatheredBy c layer (exec (step c) w i) next := by
  obtain ⟨hnodup, hadded, hall, hrows⟩ := h
  have hfits := hloc.fits i
  rw [hmode] at hfits
  have hon : w.shared.layer.kvMode = .collect := by
    rcases hloc.kept.kvMode with hsame | ⟨⟨htile, _⟩, _⟩
    · exact hsame.trans hmode
    · rw [hmode] at htile
      cases htile
  obtain ⟨hnext, hback⟩ := gathered_step hfits hon
  have hkeep : ∀ j, Added (w.locals j) → Added ((exec (step c) w i).locals j) := by
    intro j hj
    by_cases hij : j = i
    · subst hij
      rw [exec_self]
      exact added_step hj
    · rwa [exec_of_ne w hij]
  by_cases hcollect : w.locals i = .collect
  · refine ⟨order ++ [i], ?_, ?_, ?_, ?_⟩
    · apply hnodup.append (List.nodup_singleton i)
      intro j hj hi
      rw [List.mem_singleton.mp hi] at hj
      have hcontra := hadded i hj
      rw [hcollect] at hcontra
      exact hcontra
    · intro j hj
      rcases List.mem_append.mp hj with hj | hj
      · exact hkeep j (hadded j hj)
      · rw [List.mem_singleton.mp hj, exec_self, hcollect]
        exact trivial
    · intro j hwork hj
      by_cases hij : j = i
      · rw [hij]
        exact List.mem_append_right order (List.mem_singleton.mpr rfl)
      · rw [exec_of_ne w hij] at hj
        exact List.mem_append_left [i] (hall j hwork hj)
    · change (step c i (w.locals i) w.shared).2.layer.collectedK = _
      rw [hnext, hcollect, hrows, List.flatMap_append, List.flatMap_singleton, List.append_assoc]
      rfl
  · refine ⟨order, hnodup, fun j hj => hkeep j (hadded j hj), ?_, ?_⟩
    · intro j hwork hj
      by_cases hij : j = i
      · subst hij
        rw [exec_self] at hj
        rcases hback hj with hj | hj | hidle
        · exact hall j hwork hj
        · exact absurd hj hcollect
        · omega
      · rw [exec_of_ne w hij] at hj
        exact hall j hwork hj
    · change (step c i (w.locals i) w.shared).2.layer.collectedK = _
      have hnone : addedBy c i (w.locals i) = [] := by
        cases hpc : w.locals i with
        | collect => exact absurd hpc hcollect
        | _ => rfl
      rw [hnext, hnone, List.append_nil]
      exact hrows

theorem gatheredBy_run (hc : Copying c layer) (hmode : layer.kvMode = .collect)
    (before : Memory) (written : ℕ) (schedule : List ℕ) :
    ∃ order, GatheredBy c layer (run (step c) (start layer before written) schedule) order := by
  have hboth : Located c layer before (run (step c) (start layer before written) schedule) ∧
      ∃ order, GatheredBy c layer (run (step c) (start layer before written) schedule) order := by
    apply run_invariant
      (P := fun w => Located c layer before w ∧ ∃ order, GatheredBy c layer w order)
    · intro w i ⟨hloc, order, horder⟩
      exact ⟨located_step hc w i hloc, gatheredBy_step hmode w i hloc horder⟩
    · refine ⟨located_start written, [], List.nodup_nil, nofun, fun _ _ h => h.elim, ?_⟩
      exact (List.append_nil _).symm
  exact hboth.2

/-- The tokens of a thread. -/
def ownTokens (c : Call F) (i : ℕ) : List ℕ :=
  List.range' (tokenStart c i) (tokenEnd c i - tokenStart c i)

theorem mem_ownTokens {i t : ℕ} : t ∈ ownTokens c i ↔ Owns c i t := by
  rw [ownTokens, List.mem_range'_1]
  unfold Owns
  omega

/-- Threads that have all the tokens have each of them once. -/
theorem flatMap_ownTokens {order : List ℕ} (hn : 0 < c.nth) (hnodup : order.Nodup)
    (hall : ∀ i < c.nth, tokenStart c i < c.a.ne1 → i ∈ order) :
    (order.flatMap (ownTokens c)).Perm (List.range c.a.ne1) := by
  apply (List.perm_ext_iff_of_nodup _ List.nodup_range).mpr
  · intro t
    rw [List.mem_flatMap, List.mem_range]
    constructor
    · rintro ⟨i, _, ht⟩
      exact (mem_ownTokens.mp ht).lt
    · intro ht
      obtain ⟨i, hi, howns⟩ := exists_owner hn ht
      exact ⟨i, hall i hi (howns.1.trans_lt ht), mem_ownTokens.mpr howns⟩
  · apply List.nodup_flatMap.mpr
    refine ⟨fun i _ => List.nodup_range', hnodup.imp ?_⟩
    intro i j hij t hi hj
    exact hij (owner_unique (mem_ownTokens.mp hi) (mem_ownTokens.mp hj))

/-- The places that the threads read rows from. -/
def packedOffsets (c : Call F) : List ℕ :=
  if c.type.isF32 then (List.range c.a.ne1).map fun t => t * rowBytes c else []

theorem flatMap_gathered {order : List ℕ} (hn : 0 < c.nth) (hnodup : order.Nodup)
    (hall : ∀ i < c.nth, tokenStart c i < c.a.ne1 → i ∈ order) :
    (order.flatMap (gathered c)).Perm (rowsAt c.src (rowBytes c) (packedOffsets c)) := by
  unfold gathered packedOffsets rowsAt
  by_cases htype : c.type.isF32 = true
  · simp only [if_pos htype]
    have hrows : ∀ i, gatheredRows c i =
        (ownTokens c i).map fun t => readBytes c.src (t * rowBytes c) (rowBytes c) := by
      intro i
      rw [gatheredRows, ownTokens, List.range'_eq_map_range, List.map_map, rowBytes,
        GgmlType.rowSize_f32 htype]
      rfl
    simp only [hrows]
    rw [← List.map_flatMap, List.map_map]
    exact (flatMap_ownTokens hn hnodup hall).map _
  · simp only [if_neg htype]
    rw [List.flatMap_eq_nil_iff.mpr fun _ _ => rfl]
    exact List.Perm.nil

/-- After all threads the rows of the source have been collected, each once. -/
def CollectsRows (c : Call F) (layer : LayerState) : Prop :=
  ∀ src before written schedule,
    AllDone (withSrc c src) (run (step (withSrc c src)) (start layer before written) schedule) →
      ∃ rows, (run (step (withSrc c src)) (start layer before written)
          schedule).shared.layer.collectedK = layer.collectedK ++ rows ∧
        rows.Perm (rowsAt src (rowBytes c) (logicalOffsets c.a))

theorem collected_done (hc : Copying c layer) (hmode : layer.kvMode = .collect) {written : ℕ}
    {schedule : List ℕ} (hdone : AllDone c (run (step c) (start layer before written) schedule)) :
    ∃ rows, (run (step c) (start layer before written) schedule).shared.layer.collectedK =
        layer.collectedK ++ rows ∧
      rows.Perm (rowsAt c.src (rowBytes c) (packedOffsets c)) := by
  obtain ⟨order, hnodup, _, hall, hrows⟩ :=
    gatheredBy_run hc hmode before written schedule
  refine ⟨_, hrows, flatMap_gathered hc.threads hnodup fun i hi hwork => hall i hwork ?_⟩
  have hend := hdone i hi
  cases hpc : (run (step c) (start layer before written) schedule).locals i with
  | done => trivial
  | _ => rw [hpc] at hend; exact hend.elim

theorem collectsRows_iff (hc : Copying c layer) (hmode : layer.kvMode = .collect) :
    CollectsRows c layer ↔ (logicalOffsets c.a).length = (packedOffsets c).length ∧
      (0 < rowBytes c → (logicalOffsets c.a).Perm (packedOffsets c)) := by
  rw [← perm_rowsAt_iff]
  constructor
  · intro h src
    obtain ⟨schedule, hdone⟩ := exists_allDone (withSrc c src) (start layer (fun _ => 0) 0)
    obtain ⟨rows, hrows, hlogical⟩ := h src _ 0 schedule hdone
    obtain ⟨rows', hrows', hpacked⟩ := collected_done (hc.onSrc src) hmode hdone
    have hsame : rows = rows' := List.append_cancel_left (hrows.symm.trans hrows')
    rw [← hsame] at hpacked
    exact hlogical.symm.trans hpacked
  · intro h src before written schedule hdone
    obtain ⟨rows, hrows, hpacked⟩ := collected_done (hc.onSrc src) hmode hdone
    exact ⟨rows, hrows, hpacked.trans (h src).symm⟩

end Modes

end SlhaV2.CopyModes
