import SlhaV2.ShimState

/-!
# The tables with one entry per layer

A model can have any number of layers, the tables have a fixed one. In the modes that use
them the accesses stay inside, and the summary names the layers that replaced vectors, as
long as models fit the tables and sizing the store does not fail halfway through a start.
-/
namespace SlhaV2.LayerTables
open KTransform (KvMode)
open PassThrough (ScoreMode)
open TileStoreRuns (roomy)
open TileStore ShimState

section Access
variable {t : Table} {i j : ℕ}

theorem load_of_lt (h : i < slhaMaxLayers) : t.load i = some (t.get i) := by
  unfold Table.load Table.get
  rw [dif_pos h, dif_pos h]

theorem storeMax_of_lt (v : ℕ) (h : i < slhaMaxLayers) :
    ∃ next, t.storeMax i v = some next := by
  unfold Table.storeMax
  rw [dif_pos h]
  exact ⟨_, rfl⟩

theorem storeMax_of_le (v : ℕ) (h : slhaMaxLayers ≤ i) : t.storeMax i v = none := by
  unfold Table.storeMax
  rw [dif_neg (not_lt.mpr h)]

theorem get_zero : Table.zero.get i = 0 := by
  unfold Table.get Table.zero
  split_ifs <;> rfl

theorem get_inc (h : i < slhaMaxLayers) :
    (t.inc i).get j = if j = i then t.get i + 1 else t.get j := by
  unfold Table.inc Table.get
  rw [dif_pos h, dif_pos h]
  by_cases hj : j < slhaMaxLayers
  · rw [dif_pos hj, dif_pos hj]
    by_cases hji : j = i
    · subst hji
      rw [if_pos rfl, Function.update_self]
    · rw [if_neg hji, Function.update_of_ne]
      exact fun h => hji (Fin.mk.inj h)
  · rw [dif_neg hj, dif_neg hj, if_neg]
    rintro rfl
    exact hj h

end Access

/-- The layers that `slha_print_score_mask_summary` lists as executed. -/
def executedLayers (s : Shim) : List ℕ :=
  (List.range s.observed).filter fun id => id < slhaMaxLayers ∧ 0 < s.success.get id

/-- The modes in which a callback can get to a table. -/
def UsesTables (kvMode : KvMode) (scoreMode : ScoreMode) : Prop :=
  kvMode = .tilestore ∨ scoreMode ≠ .off ∧ kvMode ≠ .off ∧ kvMode ≠ .passthrough

/-- A layer is in the modes of the shim, or turned off; only some modes set its dimension. -/
structure Mode (s : Shim) (layer : Layer) : Prop where
  kvMode : layer.kvMode = s.kvMode ∨ layer.kvMode = .off
  scoreMode : layer.scoreMode = s.scoreMode
  dim : layer.nEmbdGqa ≠ 0 → s.kvMode ≠ .off ∧ s.kvMode ≠ .passthrough

structure Sound (s : Shim) : Prop where
  modes : ∀ layer ∈ s.layers, Mode s layer
  few : UsesTables s.kvMode s.scoreMode → s.layers.length ≤ slhaMaxLayers
  known : s.layers.length ≤ s.observed
  sized : s.layers.length ≤ s.numLayers
  idle : s.initialized = false → s.layers = []
  counted : ∀ i, i ∈ s.replaced ↔ 0 < s.success.get i
  reported : ∀ i ∈ s.replaced, i < s.observed
  running : s.replaced ≠ [] → s.scoreMode = .replace ∧ s.initialized = true

theorem sound_fresh : Sound .fresh where
  modes := nofun
  few := fun _ => Nat.zero_le _
  known := le_rfl
  sized := le_rfl
  idle := fun _ => rfl
  counted := by
    intro i
    change i ∈ [] ↔ 0 < Table.zero.get i
    rw [get_zero]
    simp
  reported := nofun
  running := fun h => absurd rfl h

theorem mem_executedLayers {s : Shim} (h : Sound s) {id : ℕ} :
    id ∈ executedLayers s ↔ id ∈ s.replaced := by
  unfold executedLayers
  rw [List.mem_filter, List.mem_range, decide_eq_true_iff, h.counted]
  constructor
  · exact fun hid => hid.2.2
  · intro hpos
    refine ⟨h.reported id ((h.counted id).mpr hpos), ?_, hpos⟩
    by_contra hge
    unfold Table.get at hpos
    rw [dif_neg hge] at hpos
    exact Nat.lt_irrefl 0 hpos

/-- Memory for the store of a geometry without positions. -/
def Roomy (alloc : Alloc) : Prop := (alloc (tileAlign - 1)).isSome ∧ (alloc 0).isSome

/-- The store can be sized: it holds no tile, and there is memory. -/
def CanSize (s : Shim) (alloc : Alloc) : Prop := s.store.anyValid = false ∧ Roomy alloc

/-- Modes whose layers are created at the first start. -/
def StartsLayers (x : InitArgs) : Prop :=
  x.weightsDir = true ∧ x.mode ≠ .off ∧ x.mode ≠ .passthrough

/-- The layers fit the tables where these are used, and sizing the store does not fail. -/
def Fits (s : Shim) (x : InitArgs) : Prop :=
  if s.initialized then
    (UsesTables s.kvMode s.scoreMode → x.modelNumLayers ≤ slhaMaxLayers) ∧
      (s.numLayers ≠ x.modelNumLayers → NeedsStore s.kvMode s.scoreMode → CanSize s x.alloc)
  else
    StartsLayers x → (UsesTables x.mode x.scoreMode → x.modelNumLayers ≤ slhaMaxLayers) ∧
      (NeedsStore x.mode x.scoreMode → CanSize s x.alloc)

theorem geometry_empty {n : ℕ} (hn : n ≠ 0) :
    slhaCheckedStoreGeometry n 0 slhaTileSize = some (0, tileAlign - 1) := by
  unfold slhaCheckedStoreGeometry
  rw [if_neg (by rintro (h | h); exacts [hn h, absurd h (by decide)]), if_neg (by simp)]
  dsimp only
  have hslots : wordMul n 0 = 0 := by
    unfold wordMul
    rw [Nat.mul_zero, Nat.zero_mod]
  rw [hslots, if_neg (by simp)]
  rfl

theorem initStore_of_canSize {s : Shim} {alloc : Alloc} {n : ℕ} (hn : n ≠ 0)
    (h : CanSize s alloc) : ∃ store : Store, (store.nLayers = n ∧ store.anyValid = false) ∧
      s.initStore n alloc = (true, { s with store := store }) := by
  obtain ⟨hvalid, hroom, hempty⟩ := h
  obtain ⟨raw, hraw⟩ := Option.isSome_iff_exists.mp hroom
  obtain ⟨raw', hraw'⟩ := Option.isSome_iff_exists.mp hempty
  have hinit : s.store.init n 0 slhaTileSize alloc =
      (⟨n, 0, slhaTileSize, List.replicate (tileAlign - 1) 0, List.replicate 0 0,
        padding raw.1⟩, .accepted true) := by
    unfold Store.init Store.rebuild
    rw [hvalid, if_neg Bool.false_ne_true, geometry_empty hn]
    dsimp only
    rw [hraw, hraw']
  unfold Shim.initStore
  rw [hinit]
  exact ⟨_, ⟨rfl, rfl⟩, rfl⟩

theorem initStore_of_not {s : Shim} {alloc : Alloc} {n : ℕ} (hn : n ≠ 0)
    (h : ¬ CanSize s alloc) : s.initStore n alloc = (false, s) := by
  have hinit : s.store.init n 0 slhaTileSize alloc = (s.store, .accepted false) := by
    unfold Store.init
    split_ifs with hvalid
    · rfl
    · unfold Store.rebuild
      rw [geometry_empty hn]
      dsimp only
      cases hraw : alloc (tileAlign - 1) with
      | none => rfl
      | some raw =>
          cases hraw' : alloc 0 with
          | none => rfl
          | some raw' =>
              refine absurd ⟨by simpa using hvalid, ?_, ?_⟩ h
              · rw [hraw]
                rfl
              · rw [hraw']
                rfl
  unfold Shim.initStore
  rw [hinit]

section Starts
variable {s : Shim}

theorem resetTables_layers : s.resetTables.layers = s.layers := by
  unfold Shim.resetTables
  dsimp only
  split_ifs <;> rfl

theorem resetTables_observed : s.resetTables.observed = s.observed := by
  unfold Shim.resetTables
  dsimp only
  split_ifs <;> rfl

theorem resetTables_numLayers : s.resetTables.numLayers = s.numLayers := by
  unfold Shim.resetTables
  dsimp only
  split_ifs <;> rfl

theorem resetTables_initialized : s.resetTables.initialized = s.initialized := by
  unfold Shim.resetTables
  dsimp only
  split_ifs <;> rfl

theorem resetTables_store : s.resetTables.store = s.store := by
  unfold Shim.resetTables
  dsimp only
  split_ifs <;> rfl

theorem resetTables_modes :
    s.resetTables.kvMode = s.kvMode ∧ s.resetTables.scoreMode = s.scoreMode := by
  unfold Shim.resetTables
  dsimp only
  split_ifs
  · exact ⟨rfl, rfl⟩
  · exact ⟨rfl, rfl⟩

/-- The counters agree with the record, and count in one mode only. -/
structure Counts (s : Shim) : Prop where
  counted : ∀ i, i ∈ s.replaced ↔ 0 < s.success.get i
  running : s.replaced ≠ [] → s.scoreMode = .replace

theorem Sound.counts (h : Sound s) : Counts s := ⟨h.counted, fun hne => (h.running hne).1⟩

/-- Nothing has been replaced. -/
structure Blank (s : Shim) : Prop where
  none : s.replaced = []
  counted : ∀ i, i ∈ s.replaced ↔ 0 < s.success.get i

theorem Counts.resetTables (h : Counts s) : Blank s.resetTables := by
  unfold Shim.resetTables
  dsimp only
  split_ifs with hmode
  · exact ⟨rfl, sound_fresh.counted⟩
  · have hnone : s.replaced = [] := by
      by_contra hne
      exact hmode (h.running hne)
    exact ⟨hnone, h.counted⟩

theorem Blank.sound (h : Blank s) (hmodes : ∀ layer ∈ s.layers, Mode s layer)
    (hfew : UsesTables s.kvMode s.scoreMode → s.layers.length ≤ slhaMaxLayers)
    (hknown : s.layers.length ≤ s.observed) (hsized : s.layers.length ≤ s.numLayers)
    (hidle : s.initialized = false → s.layers = []) : Sound s where
  modes := hmodes
  few := hfew
  known := hknown
  sized := hsized
  idle := hidle
  counted := h.counted
  reported := by
    intro i hi
    rw [h.none] at hi
    cases hi
  running := fun hne => absurd h.none hne

theorem Blank.sound_empty (h : Blank s) (hlayers : s.layers = []) : Sound s := by
  apply h.sound
  · intro layer hlayer
    rw [hlayers] at hlayer
    cases hlayer
  · intro _
    rw [hlayers]
    exact Nat.zero_le _
  · rw [hlayers]
    exact Nat.zero_le _
  · rw [hlayers]
    exact Nat.zero_le _
  · exact fun _ => hlayers

/-- New layers for a shim without counts. -/
theorem Blank.sound_new {n : ℕ} (h : Blank s)
    (hlayers : s.layers = newLayers n s.kvMode s.scoreMode)
    (hfew : UsesTables s.kvMode s.scoreMode → n ≤ slhaMaxLayers) (hknown : s.observed = n)
    (hsized : s.numLayers = n) (hinit : s.initialized = true) : Sound s := by
  have hlength : s.layers.length = n := by
    rw [hlayers]
    exact List.length_replicate
  apply h.sound
  · intro layer hlayer
    rw [hlayers] at hlayer
    rw [List.eq_of_mem_replicate hlayer]
    exact ⟨.inl rfl, rfl, fun hne => absurd rfl hne⟩
  · rw [hlength]
    exact hfew
  · rw [hlength, hknown]
  · rw [hlength, hsized]
  · intro hoff
    rw [hinit] at hoff
    cases hoff

theorem Sound.reinit (h : Sound s) {n : ℕ} {alloc : Alloc} (hn : n ≠ 0)
    (hinit : s.initialized = true)
    (hfew : UsesTables s.kvMode s.scoreMode → n ≤ slhaMaxLayers)
    (hsize : s.numLayers ≠ n → NeedsStore s.kvMode s.scoreMode → CanSize s alloc) :
    Sound (Shim.reinit { s with observed := n } n alloc).2 := by
  unfold Shim.reinit
  dsimp only
  by_cases hsame : s.numLayers = n
  · -- the layers stay, and are as many as before
    rw [if_neg (not_not.mpr hsame)]
    have hkeep : ∀ store : Store,
        Sound (Shim.resetTables { s with observed := n, store := store }) := by
      intro store
      have hcounts : Counts { s with observed := n, store := store } := ⟨h.counts.1, h.counts.2⟩
      apply hcounts.resetTables.sound
      · intro layer hlayer
        rw [resetTables_layers] at hlayer
        have hmode := h.modes layer hlayer
        constructor
        · rw [resetTables_modes.1]
          exact hmode.kvMode
        · rw [resetTables_modes.2]
          exact hmode.scoreMode
        · rw [resetTables_modes.1]
          exact hmode.dim
      · rw [resetTables_modes.1, resetTables_modes.2, resetTables_layers]
        exact h.few
      · rw [resetTables_layers, resetTables_observed]
        exact h.sized.trans_eq hsame
      · rw [resetTables_layers, resetTables_numLayers]
        exact h.sized
      · rw [resetTables_initialized, resetTables_layers]
        exact h.idle
    split_ifs
    · exact hkeep _
    · exact hkeep s.store
  · rw [if_pos hsame]
    have hnew : ∀ store : Store, Sound (Shim.resetTables { s with
        observed := n, numLayers := n, layers := newLayers n s.kvMode s.scoreMode,
        store := store }) := by
      intro store
      have hcounts : Counts { s with
        observed := n, numLayers := n, layers := newLayers n s.kvMode s.scoreMode,
        store := store } := ⟨h.counts.1, h.counts.2⟩
      apply hcounts.resetTables.sound_new (n := n)
      · rw [resetTables_layers, resetTables_modes.1, resetTables_modes.2]
      · rw [resetTables_modes.1, resetTables_modes.2]
        exact hfew
      · rw [resetTables_observed]
      · rw [resetTables_numLayers]
      · rw [resetTables_initialized]
        exact hinit
    split_ifs with hneeds
    · obtain ⟨store, _, hstore⟩ := initStore_of_canSize
        (s := { s with observed := n, numLayers := n, layers := newLayers n s.kvMode s.scoreMode })
        hn (hsize hsame hneeds)
      rw [hstore]
      exact hnew store
    · exact hnew s.store

/-- The layers of a first start go with the modes that it has set. -/
theorem Blank.startLayers (h : Blank s) {x : InitArgs} (hn : x.modelNumLayers ≠ 0)
    (hmodes : s.kvMode = x.mode ∧ s.scoreMode = x.scoreMode)
    (hobserved : s.observed = x.modelNumLayers)
    (hfew : UsesTables x.mode x.scoreMode → x.modelNumLayers ≤ slhaMaxLayers)
    (hsize : NeedsStore x.mode x.scoreMode → CanSize s x.alloc) : Sound (s.startLayers x).2 := by
  have hcounts : Counts { s with
      numLayers := x.modelNumLayers
      layers := newLayers x.modelNumLayers x.mode x.scoreMode } :=
    ⟨h.counted, fun hne => absurd h.none hne⟩
  have hnew : ∀ store : Store, Sound { Shim.resetTables { s with
      numLayers := x.modelNumLayers
      layers := newLayers x.modelNumLayers x.mode x.scoreMode } with
      store := store, initialized := true } := by
    intro store
    apply Blank.sound_new (n := x.modelNumLayers)
    · exact ⟨hcounts.resetTables.1, hcounts.resetTables.2⟩
    · change (Shim.resetTables _).layers = newLayers _ (Shim.resetTables _).kvMode
        (Shim.resetTables _).scoreMode
      rw [resetTables_layers, resetTables_modes.1, resetTables_modes.2, hmodes.1, hmodes.2]
    · change UsesTables (Shim.resetTables _).kvMode (Shim.resetTables _).scoreMode → _
      rw [resetTables_modes.1, resetTables_modes.2, hmodes.1, hmodes.2]
      exact hfew
    · exact resetTables_observed.trans hobserved
    · exact resetTables_numLayers
    · rfl
  unfold Shim.startLayers
  dsimp only
  split_ifs with hneeds
  · have hcan : CanSize (Shim.resetTables { s with
        numLayers := x.modelNumLayers
        layers := newLayers x.modelNumLayers x.mode x.scoreMode }) x.alloc := by
      unfold CanSize
      rw [resetTables_store]
      exact hsize hneeds
    obtain ⟨store, _, hstore⟩ := initStore_of_canSize hn hcan
    rw [hstore]
    exact hnew store
  · exact hnew _

theorem Sound.firstInit (h : Sound s) {x : InitArgs} (hn : x.modelNumLayers ≠ 0)
    (hinit : s.initialized = false)
    (hfits : StartsLayers x → (UsesTables x.mode x.scoreMode → x.modelNumLayers ≤ slhaMaxLayers) ∧
      (NeedsStore x.mode x.scoreMode → CanSize s x.alloc)) :
    Sound (Shim.firstInit { s with observed := x.modelNumLayers } x).2 := by
  have hlayers := h.idle hinit
  have hnone : s.replaced = [] := by
    by_contra hne
    rw [(h.running hne).2] at hinit
    cases hinit
  have hempty : ∀ b : Bool, Sound { s with
      observed := x.modelNumLayers, kvMode := x.mode, scoreMode := x.scoreMode,
      initialized := b } := by
    intro b
    exact Blank.sound_empty ⟨hnone, h.counted⟩ hlayers
  have hstart : x.mode ≠ .off → x.mode ≠ .passthrough →
      Sound (if !x.weightsDir then ((-1 : ℤ), { s with
          observed := x.modelNumLayers, kvMode := x.mode, scoreMode := x.scoreMode })
        else Shim.startLayers { s with
          observed := x.modelNumLayers, kvMode := x.mode, scoreMode := x.scoreMode } x).2 := by
    intro hoff hpass
    split_ifs with hdir
    · exact hempty s.initialized
    · have hfits := hfits ⟨by simpa using hdir, hoff, hpass⟩
      have hblank : Blank { s with
          observed := x.modelNumLayers, kvMode := x.mode, scoreMode := x.scoreMode } :=
        ⟨hnone, h.counted⟩
      exact hblank.startLayers hn ⟨rfl, rfl⟩ rfl hfits.1 hfits.2
  unfold Shim.firstInit
  dsimp only
  cases hmode : x.mode with
  | off =>
      rw [hmode] at hempty
      dsimp only
      split_ifs
      · exact hempty true
      · exact hempty s.initialized
  | passthrough =>
      rw [hmode] at hempty
      exact hempty true
  | roundtrip =>
      rw [hmode] at hstart
      exact hstart nofun nofun
  | collect =>
      rw [hmode] at hstart
      exact hstart nofun nofun
  | tilestore =>
      rw [hmode] at hstart
      exact hstart nofun nofun

theorem Sound.slhaGlobalInit (h : Sound s) {x : InitArgs} (hfits : Fits s x) :
    Sound (s.slhaGlobalInit x).2 := by
  unfold Shim.slhaGlobalInit
  unfold Fits at hfits
  split_ifs with hcount
  · exact h
  · have hn : x.modelNumLayers ≠ 0 := fun hzero => hcount (.inl hzero)
    dsimp only
    split_ifs at hfits ⊢ with hinit
    · exact h.reinit hn hinit hfits.1 hfits.2
    · exact h.firstInit hn (by simpa using hinit) hfits

end Starts

section Steps
variable {s : Shim}

/-- Neither the store nor the tiles written matter to soundness. -/
theorem Sound.tables (h : Sound s) {store : Store} {tilesWritten : Table} :
    Sound { s with store := store, tilesWritten := tilesWritten } where
  modes := fun layer hlayer =>
    ⟨(h.modes layer hlayer).1, (h.modes layer hlayer).2, (h.modes layer hlayer).3⟩
  few := h.few
  known := h.known
  sized := h.sized
  idle := h.idle
  counted := h.counted
  reported := h.reported
  running := h.running

/-- The replaced vectors and the counters start again together. -/
theorem Sound.resetCounters (h : Sound s) : Sound s.resetCounters where
  modes := fun layer hlayer =>
    ⟨(h.modes layer hlayer).1, (h.modes layer hlayer).2, (h.modes layer hlayer).3⟩
  few := h.few
  known := h.known
  sized := h.sized
  idle := h.idle
  counted := sound_fresh.counted
  reported := nofun
  running := fun hne => absurd rfl hne

theorem Sound.slhaGlobalShutdown (h : Sound s) : Sound s.slhaGlobalShutdown := by
  unfold Shim.slhaGlobalShutdown
  dsimp only
  split_ifs with hmode
  · exact Blank.sound_empty ⟨rfl, sound_fresh.counted⟩ rfl
  · have hnone : s.replaced = [] := by
      by_contra hne
      exact hmode (h.running hne).1
    exact Blank.sound_empty ⟨hnone, h.counted⟩ rfl

theorem Sound.slhaKClearAll (h : Sound s) (ccos : Bool) : Sound (s.slhaKClearAll ccos) := by
  unfold Shim.slhaKClearAll
  dsimp only
  split_ifs
  · exact h.tables
  · exact h.tables

theorem Sound.slhaGetLayerState (h : Sound s) (il : ℕ) : Sound (s.slhaGetLayerState il) := by
  unfold Shim.slhaGetLayerState
  split_ifs
  · constructor
    · exact fun layer hlayer =>
        ⟨(h.modes layer hlayer).1, (h.modes layer hlayer).2, (h.modes layer hlayer).3⟩
    · exact h.few
    · exact h.known.trans (le_max_left _ _)
    · exact h.sized
    · exact h.idle
    · exact h.counted
    · exact fun i hi => (h.reported i hi).trans_le (le_max_left _ _)
    · exact h.running
  · exact h

theorem Sound.slhaInterceptKCacheAllocation (h : Sound s) (nTokens : ℕ) (alloc : Alloc) :
    Sound (s.slhaInterceptKCacheAllocation nTokens alloc) := by
  unfold Shim.slhaInterceptKCacheAllocation
  split_ifs
  · exact h.tables
  · exact h

theorem Sound.slhaExternalKPrepareStore (h : Sound s) (capacity : ℕ) (ccos created : Bool)
    (alloc : Alloc) : Sound (s.slhaExternalKPrepareStore capacity ccos created alloc) := by
  unfold Shim.slhaExternalKPrepareStore
  split_ifs
  · exact h
  · exact h.tables
  · exact h.tables
  · exact h

theorem Sound.setLayer (h : Sound s) (il : ℕ) {layer : Layer} (hmode : Mode s layer) :
    Sound (s.setLayer il layer) where
  modes := by
    intro other hother
    rcases List.mem_or_eq_of_mem_set hother with hold | rfl
    · exact ⟨(h.modes other hold).1, (h.modes other hold).2, (h.modes other hold).3⟩
    · exact ⟨hmode.1, hmode.2, hmode.3⟩
  few := by
    change _ → (s.layers.set il layer).length ≤ _
    rw [List.length_set]
    exact h.few
  known := by
    change (s.layers.set il layer).length ≤ _
    rw [List.length_set]
    exact h.known
  sized := by
    change (s.layers.set il layer).length ≤ _
    rw [List.length_set]
    exact h.sized
  idle := by
    intro hinit
    change s.layers.set il layer = []
    rw [h.idle hinit]
    rfl
  counted := h.counted
  reported := h.reported
  running := h.running

theorem Mode.load {layer : Layer} (h : Mode s layer) (loads : ℕ → Bool) :
    Mode s (slhaLoadLayerModel loads layer) := by
  unfold slhaLoadLayerModel
  split_ifs
  · exact h
  · exact ⟨h.1, h.2, h.3⟩
  · exact ⟨.inr rfl, h.2, h.3⟩

/-- The dimension is set in the modes that transform or keep rows. -/
theorem Mode.withDim {layer : Layer} (h : Mode s layer) (d : ℕ)
    (hmode : s.kvMode ≠ .off ∧ s.kvMode ≠ .passthrough) : Mode s (withDim d layer) := by
  unfold ShimState.withDim
  split_ifs
  · exact ⟨h.1, h.2, fun _ => hmode⟩
  · exact h

theorem Sound.lt_of_uses (h : Sound s) {il : ℕ} {layer : Layer}
    (hlayer : s.layers[il]? = some layer) (huses : UsesTables s.kvMode s.scoreMode) :
    il < slhaMaxLayers := by
  obtain ⟨hlt, _⟩ := List.getElem?_eq_some_iff.mp hlayer
  exact hlt.trans_le (h.few huses)

theorem Sound.storeTiles (h : Sound s) {il : ℕ} (x : KThread) (hil : il < slhaMaxLayers) :
    ∃ next, s.storeTiles il x = some next ∧ Sound next := by
  unfold Shim.storeTiles
  dsimp only
  split_ifs
  · obtain ⟨t, ht⟩ := storeMax_of_lt (t := s.tilesWritten)
      (x.tokens.foldl (storeToken x.ccos il) (s.store, 0)).2 hil
    rw [ht]
    exact ⟨_, rfl, h.tables⟩
  · exact ⟨_, rfl, h.tables⟩

theorem Sound.kThread (h : Sound s) (il : ℕ) (x : KThread) :
    ∃ next, s.kThread il x = some next ∧ Sound next := by
  unfold Shim.kThread
  cases hlayer : s.layers[il]? with
  | none => exact ⟨s, rfl, h⟩
  | some layer =>
      have hmode := h.modes layer (List.mem_of_getElem? hlayer)
      dsimp only
      by_cases hoff : layer.kvMode = .off ∨ (!x.busy) = true
      · rw [if_pos hoff]
        exact ⟨s, rfl, h⟩
      · rw [if_neg hoff]
        push Not at hoff
        have hsame : layer.kvMode = s.kvMode := hmode.kvMode.resolve_right hoff.1
        cases hkv : layer.kvMode with
        | off => exact ⟨s, rfl, h⟩
        | passthrough => exact ⟨s, rfl, h⟩
        | collect =>
            have hmodes : s.kvMode ≠ .off ∧ s.kvMode ≠ .passthrough := by
              rw [← hsame, hkv]
              decide
            exact ⟨_, rfl, h.setLayer il (hmode.withDim _ hmodes)⟩
        | roundtrip =>
            have hmodes : s.kvMode ≠ .off ∧ s.kvMode ≠ .passthrough := by
              rw [← hsame, hkv]
              decide
            exact ⟨_, rfl, h.setLayer il ((hmode.withDim _ hmodes).load _)⟩
        | tilestore =>
            have hmodes : s.kvMode ≠ .off ∧ s.kvMode ≠ .passthrough := by
              rw [← hsame, hkv]
              decide
            have hset := h.setLayer il ((hmode.withDim x.nEmbdGqa hmodes).load x.loads)
            have hil := h.lt_of_uses hlayer (.inl (hsame.symm.trans hkv))
            dsimp only
            split_ifs
            · exact ⟨s, rfl, h⟩
            · exact ⟨_, rfl, hset⟩
            · exact hset.storeTiles x hil

theorem shadowVector_of_lt {il : ℕ} (hil : il < slhaMaxLayers) (nKv : ℕ) (scaleFit : Bool)
    (v : ScoreVector) : s.shadowVector il nKv scaleFit v = some () := by
  unfold Shim.shadowVector
  rw [load_of_lt hil]
  cases v.prepared && v.readable && v.scored nKv
  · rfl
  · cases scaleFit
    · rfl
    · rfl

theorem forM_shadowVector {il : ℕ} (hil : il < slhaMaxLayers) (nKv : ℕ) (scaleFit : Bool)
    (vs : List ScoreVector) : vs.forM (s.shadowVector il nKv scaleFit) = some () := by
  induction vs with
  | nil => rfl
  | cons v vs ih =>
      change (s.shadowVector il nKv scaleFit v).bind (fun _ => vs.forM _) = some ()
      rw [shadowVector_of_lt hil]
      exact ih

/-- A replaced vector is counted for its layer. -/
theorem Sound.replaceVector (h : Sound s) {il : ℕ} (hil : il < slhaMaxLayers)
    (hmode : s.scoreMode = .replace) (hlayers : il < s.layers.length) (nKv nWritten : ℕ)
    (v : ScoreVector) : Sound (Shim.replaceVector il nKv nWritten s v) := by
  unfold Shim.replaceVector
  split_ifs
  · exact h
  · exact h
  · exact h
  · constructor
    · exact fun layer hlayer =>
        ⟨(h.modes layer hlayer).1, (h.modes layer hlayer).2, (h.modes layer hlayer).3⟩
    · exact h.few
    · exact h.known
    · exact h.sized
    · exact h.idle
    · intro i
      change i ∈ il :: s.replaced ↔ 0 < (s.success.inc il).get i
      rw [get_inc hil, List.mem_cons, h.counted]
      split_ifs with hi
      · exact ⟨fun _ => Nat.succ_pos _, fun _ => .inl hi⟩
      · exact ⟨fun hor => hor.resolve_left hi, .inr⟩
    · intro i hi
      rcases List.mem_cons.mp hi with rfl | hi
      · exact hlayers.trans_le h.known
      · exact h.reported i hi
    · intro _
      refine ⟨hmode, ?_⟩
      by_contra hoff
      have hnone := h.idle (by simpa using hoff)
      rw [hnone] at hlayers
      cases hlayers

theorem replaceVector_frame (il nKv nWritten : ℕ) (v : ScoreVector) :
    (Shim.replaceVector il nKv nWritten s v).scoreMode = s.scoreMode ∧
      (Shim.replaceVector il nKv nWritten s v).layers = s.layers := by
  unfold Shim.replaceVector
  split_ifs <;> exact ⟨rfl, rfl⟩

theorem Sound.replaceVectors (h : Sound s) {il : ℕ} (hil : il < slhaMaxLayers)
    (hmode : s.scoreMode = .replace) (hlayers : il < s.layers.length) (nKv nWritten : ℕ)
    (vs : List ScoreVector) : Sound (vs.foldl (Shim.replaceVector il nKv nWritten) s) := by
  induction vs generalizing s with
  | nil => exact h
  | cons v vs ih =>
      obtain ⟨hscore, hsame⟩ := replaceVector_frame (s := s) il nKv nWritten v
      apply ih (h.replaceVector hil hmode hlayers nKv nWritten v)
      · exact hscore.trans hmode
      · rw [hsame]
        exact hlayers

theorem Sound.scoreThread (h : Sound s) (il : ℕ) (x : ScoreThread) :
    ∃ next, s.scoreThread il x = some next ∧ Sound next := by
  unfold Shim.scoreThread
  cases hlayer : s.layers[il]? with
  | none => exact ⟨s, rfl, h⟩
  | some layer =>
      have hmode := h.modes layer (List.mem_of_getElem? hlayer)
      have hset := h.setLayer il (hmode.load x.loads)
      have hlt : il < (s.setLayer il (slhaLoadLayerModel x.loads layer)).layers.length := by
        change il < (s.layers.set il _).length
        rw [List.length_set]
        exact (List.getElem?_eq_some_iff.mp hlayer).1
      dsimp only
      by_cases hdim : layer.nEmbdGqa = 0 ∨ (!x.accepted layer.nEmbdGqa) = true
      · rw [if_pos hdim]
        exact ⟨s, rfl, h⟩
      · rw [if_neg hdim]
        push Not at hdim
        have hkv := hmode.dim hdim.1
        cases hscore : layer.scoreMode with
        | off => exact ⟨s, rfl, h⟩
        | shadow =>
            have hon : s.scoreMode = .shadow := hmode.scoreMode.symm.trans hscore
            have hil := h.lt_of_uses hlayer (.inr ⟨by rw [hon]; decide, hkv⟩)
            dsimp only
            split_ifs
            · exact ⟨_, rfl, hset⟩
            · rw [forM_shadowVector hil]
              exact ⟨_, rfl, hset⟩
        | replace =>
            have hon : s.scoreMode = .replace := hmode.scoreMode.symm.trans hscore
            have hil := h.lt_of_uses hlayer (.inr ⟨by rw [hon]; decide, hkv⟩)
            dsimp only
            split_ifs
            · exact ⟨s, rfl, h⟩
            · exact ⟨_, rfl, hset⟩
            · rw [load_of_lt hil]
              exact ⟨_, rfl, hset.replaceVectors hil hon hlt _ _ _⟩

/-- What a step must meet: that a start fits the tables. -/
def Meets (s : Shim) : Event → Prop
  | .init x => Fits s x
  | _ => True

/-- Every start of the run fits the tables. -/
def AllMeet (s : Shim) : List Event → Prop
  | [] => True
  | e :: events => Meets s e ∧ ∀ next, step s e = some next → AllMeet next events

theorem Sound.step (h : Sound s) {e : Event} (hmeets : Meets s e) :
    ∃ next, step s e = some next ∧ Sound next := by
  cases e with
  | init x => exact ⟨_, rfl, h.slhaGlobalInit hmeets⟩
  | shutdown => exact ⟨_, rfl, h.slhaGlobalShutdown⟩
  | clearAll ccos => exact ⟨_, rfl, h.slhaKClearAll ccos⟩
  | printReplaceSummary => exact ⟨_, rfl, h.resetCounters⟩
  | getLayerState il => exact ⟨_, rfl, h.slhaGetLayerState il⟩
  | allocateK nTokens alloc => exact ⟨_, rfl, h.slhaInterceptKCacheAllocation nTokens alloc⟩
  | prepareStore capacity ccos created alloc =>
      exact ⟨_, rfl, h.slhaExternalKPrepareStore capacity ccos created alloc⟩
  | kThread il x => exact h.kThread il x
  | scoreThread il x => exact h.scoreThread il x

theorem Sound.run (h : Sound s) {events : List Event} (hmeet : AllMeet s events) :
    ∃ last, run s events = some last ∧ Sound last := by
  induction events generalizing s with
  | nil => exact ⟨s, rfl, h⟩
  | cons e events ih =>
      obtain ⟨hmeets, hlater⟩ := hmeet
      obtain ⟨next, hnext, hsound⟩ := h.step hmeets
      obtain ⟨last, hlast, hend⟩ := ih hsound (hlater next hnext)
      refine ⟨last, ?_, hend⟩
      unfold ShimState.run
      rw [hnext]
      exact hlast

end Steps

/-- When every start fits, no table is accessed outside, and the summary lists the layers that
replaced a vector. -/
theorem executedLayers_exact (events : List Event) (h : AllMeet .fresh events) :
    ∃ last, run .fresh events = some last ∧
      ∀ id, id ∈ executedLayers last ↔ id ∈ last.replaced := by
  obtain ⟨last, hlast, hsound⟩ := sound_fresh.run h
  exact ⟨last, hlast, fun _ => mem_executedLayers hsound⟩

-- A model that fits the tables, and one with a layer more.
def tileModel (n : ℕ) : InitArgs := ⟨true, .tilestore, .replace, n, roomy⟩

/-- One thread with one token, whose tile the CCOS store takes. -/
def oneToken : KThread where
  busy := true
  nEmbdGqa := 128
  isF32 := true
  hasIdxs := true
  loads := fun _ => true
  tokens := [⟨0, some fun _ => 0⟩]
  ccos := some fun _ => true

def tileRun (n : ℕ) : List Event :=
  [.init (tileModel n), .getLayerState (n - 1), .kThread (n - 1) oneToken]

/-- One vector, which gets the score of the stored tile. -/
def oneVector : ScoreThread where
  accepted := fun _ => true
  selected := true
  nStream := 1
  nKv := 1
  loads := fun _ => true
  scaleFit := false
  vectors := [⟨true, true, fun _ => true⟩]

def replacingRun (n : ℕ) : List Event := tileRun n ++ [.scoreThread (n - 1) oneVector]

theorem executedLayers_replacingRun : AllMeet .fresh (replacingRun 128) ∧
    ∃ last, run .fresh (replacingRun 128) = some last ∧ last.replaced = [127] ∧
      ∀ id, id ∈ executedLayers last ↔ id ∈ last.replaced := by
  have hmeet : AllMeet .fresh (replacingRun 128) := by
    refine ⟨?_, fun _ _ => ⟨trivial, fun _ _ => ⟨trivial, fun _ _ => ?_⟩⟩⟩
    · intro _
      exact ⟨fun _ => le_rfl, fun _ => ⟨rfl, rfl, rfl⟩⟩
    · exact ⟨trivial, fun _ _ => trivial⟩
  have hreplaced : (run .fresh (replacingRun 128)).map (·.replaced) = some [127] := by
    decide +kernel
  obtain ⟨last, hlast, hexact⟩ := executedLayers_exact _ hmeet
  rw [hlast] at hreplaced
  exact ⟨hmeet, last, hlast, Option.some.inj hreplaced, hexact⟩

/-- A start of a model of any size succeeds. -/
theorem slhaGlobalInit_tileModel {n : ℕ} (hn : n ≠ 0) (hmax : n ≤ int32Max) :
    ∃ store, Shim.fresh.slhaGlobalInit (tileModel n) = (0, { Shim.fresh with
      observed := n, initialized := true, kvMode := .tilestore, scoreMode := .replace,
      numLayers := n, layers := newLayers n .tilestore .replace, store := store }) := by
  have hcan : CanSize (Shim.resetTables { Shim.fresh with
      observed := n, kvMode := .tilestore, scoreMode := .replace, numLayers := n,
      layers := newLayers n .tilestore .replace }) roomy := ⟨rfl, rfl, rfl⟩
  obtain ⟨store, _, hstore⟩ := initStore_of_canSize hn hcan
  refine ⟨store, ?_⟩
  unfold Shim.slhaGlobalInit
  rw [if_neg (by rintro (h | h); exacts [hn h, absurd hmax (not_le.mpr h)])]
  dsimp only
  rw [if_neg (by decide)]
  change Shim.startLayers { Shim.fresh with
    observed := n, kvMode := .tilestore, scoreMode := .replace } (tileModel n) = _
  unfold Shim.startLayers tileModel
  dsimp only
  rw [if_pos (.inl rfl), hstore]
  rfl

/-- The tile of a layer that does not fit is counted behind the table. -/
theorem kThread_oneToken {s : Shim} {il : ℕ} (hil : slhaMaxLayers ≤ il)
    (hlayer : s.layers[il]? = some ⟨0, .tilestore, .replace, false⟩) :
    s.kThread il oneToken = none := by
  unfold Shim.kThread
  rw [hlayer]
  change (s.setLayer il _).storeTiles il oneToken = none
  unfold Shim.storeTiles
  dsimp only
  refine (if_pos Nat.zero_lt_one).trans ?_
  rw [storeMax_of_le _ hil]
  rfl

theorem tileRun_eq_none {n : ℕ} (hn : slhaMaxLayers < n) (hmax : n ≤ int32Max) :
    run .fresh (tileRun n) = none := by
  obtain ⟨store, hinit⟩ := slhaGlobalInit_tileModel (by omega) hmax
  have hlayer : (newLayers n .tilestore .replace)[n - 1]? =
      some ⟨0, .tilestore, .replace, false⟩ := by
    unfold newLayers
    rw [List.getElem?_replicate, if_pos (by omega)]
  unfold tileRun
  change ((some ((Shim.fresh.slhaGlobalInit (tileModel n)).2.slhaGetLayerState (n - 1))).bind
    fun s => (s.kThread (n - 1) oneToken).bind some) = none
  rw [hinit]
  change (Shim.kThread (Shim.slhaGetLayerState _ (n - 1)) (n - 1) oneToken).bind some = none
  rw [kThread_oneToken (by omega)]
  · rfl
  · unfold Shim.slhaGetLayerState
    split_ifs
    · exact hlayer
    · exact hlayer

/-- The start succeeds, and a tile of the last layer is counted behind the table. -/
theorem tile_behind_table : (Shim.fresh.slhaGlobalInit (tileModel 129)).1 = 0 ∧
    run .fresh (tileRun 129) = none := by
  obtain ⟨store, hinit⟩ := slhaGlobalInit_tileModel (n := 129) (by decide) (by decide)
  exact ⟨by rw [hinit], tileRun_eq_none (by decide) (by decide)⟩

end SlhaV2.LayerTables
