import SlhaV2.LayerTables

/-!
# Starting for another context

A start of a shim that is already running adopts the layer count of the new model in
several places. It changes them one after the other, and a step in between can fail; with
the count that it already has on record it changes next to nothing.
-/
namespace SlhaV2.Reinitialization
open TileStoreRuns (roomy)
open TileStore ShimState LayerTables

/-- The new count is everywhere, and no tile is left. -/
structure Adopted (s : Shim) (n : ℕ) : Prop where
  layers : s.layers.length = n
  numLayers : s.numLayers = n
  store : NeedsStore s.kvMode s.scoreMode → s.store.nLayers = n
  empty : s.store.anyValid = false

/-- Everything that the count is kept in is as before. -/
structure Untouched (s next : Shim) : Prop where
  layers : next.layers = s.layers
  numLayers : next.numLayers = s.numLayers
  observed : next.observed = s.observed
  store : next.store = s.store

/-- A start adopts the count or leaves everything alone, and says which. -/
def AllOrNothing (s : Shim) (x : InitArgs) : Prop :=
  (s.slhaGlobalInit x).1 = 0 ∧ Adopted (s.slhaGlobalInit x).2 x.modelNumLayers ∨
    (s.slhaGlobalInit x).1 = -1 ∧ Untouched s (s.slhaGlobalInit x).2

/-- The count is refused, or it is new and the store is empty and can be sized where it is needed,
or everything has it already. -/
def Adoptable (s : Shim) (x : InitArgs) : Prop :=
  (x.modelNumLayers = 0 ∨ x.modelNumLayers > int32Max) ∨
    (s.numLayers ≠ x.modelNumLayers ∧ s.store.anyValid = false ∧
      (NeedsStore s.kvMode s.scoreMode → Roomy x.alloc)) ∨
    s.numLayers = x.modelNumLayers ∧ s.layers.length = x.modelNumLayers ∧
      (NeedsStore s.kvMode s.scoreMode → s.store.nLayers = x.modelNumLayers)

def Layered (store : Store) : Prop := store.nLayers = 0 → store.anyValid = false

theorem anyValid_replicate (n : ℕ) :
    (List.replicate n (0 : UInt8)).any (fun v => v ≠ 0) = false := by
  rw [List.any_eq_false]
  intro v hv
  rw [List.eq_of_mem_replicate hv]
  decide

theorem anyValid_reset (store : Store) : store.reset.1.anyValid = false := anyValid_replicate _

theorem layered_reset (store : Store) : Layered store.reset.1 := fun _ => anyValid_reset store

theorem Layered.rebuild {store : Store} (h : Layered store) (n c b : ℕ) (alloc : Alloc) :
    Layered (store.rebuild n c b alloc).1 := by
  unfold Store.rebuild
  cases slhaCheckedStoreGeometry n c b with
  | none => exact h
  | some sizes =>
      dsimp only
      cases alloc sizes.2 with
      | none => exact h
      | some raw =>
          cases alloc sizes.1 with
          | none => exact h
          | some raw' => exact fun _ => anyValid_replicate _

theorem Layered.init {store : Store} (h : Layered store) (n c b : ℕ) (alloc : Alloc) :
    Layered (store.init n c b alloc).1 := by
  unfold Store.init
  split_ifs
  · exact h
  · exact h.rebuild n c b alloc

theorem Layered.resize {store : Store} (h : Layered store) (n c b : ℕ) (alloc : Alloc) :
    Layered (store.slhaResizeEmptyTileStore n c b alloc).1 := by
  unfold Store.slhaResizeEmptyTileStore
  split_ifs
  · exact h
  · exact h
  · exact h.rebuild n c b alloc

theorem write_nLayers (store : Store) (layerId : ℤ) (pos : ℕ) (tile : Option (ℕ → UInt8)) :
    (store.write layerId pos tile).1.nLayers = store.nLayers := by
  unfold Store.write
  split
  · split_ifs
    · rfl
    · split <;> rfl
  · rfl

theorem Layered.write {store : Store} (h : Layered store) (layerId : ℤ) (pos : ℕ)
    (tile : Option (ℕ → UInt8)) : Layered (store.write layerId pos tile).1 := by
  intro hzero
  rw [write_nLayers] at hzero
  rcases TileStoreRuns.Rep.write_cases store layerId pos tile with heq | ⟨l, _, _, _, hlt, _⟩
  · rw [heq]
    exact h hzero
  · omega

theorem Layered.storeToken {acc : Store × ℕ} (h : Layered acc.1) (ccos : Option (ℕ → Bool))
    (il : ℕ) (t : Token) : Layered (storeToken ccos il acc t).1 := by
  unfold ShimState.storeToken
  split_ifs
  · exact h
  · cases t.tile with
    | none => exact h
    | some bytes =>
        dsimp only
        have hwritten : Layered (slhaExternalKWriteTile ccos il t.pos.toNat bytes acc.1).2 := by
          unfold slhaExternalKWriteTile
          cases ccos with
          | some takes => exact h
          | none =>
              have hwrite := h.write il t.pos.toNat (some bytes)
              dsimp only
              split
              · rename_i heq
                rw [heq] at hwrite
                exact hwrite
              · rename_i heq
                rw [heq] at hwrite
                exact hwrite
        split
        · rename_i heq
          rw [heq] at hwritten
          exact hwritten
        · rename_i heq
          rw [heq] at hwritten
          exact hwritten

theorem Layered.storeTokens {acc : Store × ℕ} (h : Layered acc.1) (ccos : Option (ℕ → Bool))
    (il : ℕ) (tokens : List Token) :
    Layered (tokens.foldl (ShimState.storeToken ccos il) acc).1 := by
  induction tokens generalizing acc with
  | nil => exact h
  | cons t tokens ih => exact ih (h.storeToken ccos il t)

section Steps
variable {s : Shim}

theorem initStore_store (n : ℕ) (alloc : Alloc) :
    (s.initStore n alloc).2 = { s with store := (s.store.init n 0 slhaTileSize alloc).1 } := by
  unfold Shim.initStore
  split <;> rename_i heq <;> rw [heq]

theorem Layered.initStore (h : Layered s.store) (n : ℕ) (alloc : Alloc) :
    Layered (s.initStore n alloc).2.store := by
  rw [initStore_store]
  exact h.init n 0 slhaTileSize alloc

theorem Layered.reinit (h : Layered s.store) (n : ℕ) (alloc : Alloc) :
    Layered (s.reinit n alloc).2.store := by
  unfold Shim.reinit
  dsimp only
  split_ifs
  · have hinit := Layered.initStore (s := { s with
        numLayers := n, layers := newLayers n s.kvMode s.scoreMode }) h n alloc
    split
    · rename_i heq
      rw [heq] at hinit
      change Layered (Shim.resetTables _).store
      rw [resetTables_store]
      exact hinit
    · rename_i heq
      rw [heq] at hinit
      exact hinit
  · rw [resetTables_store]
    exact h
  · rw [resetTables_store]
    exact layered_reset _
  · rw [resetTables_store]
    exact h

theorem Layered.startLayers (h : Layered s.store) (x : InitArgs) :
    Layered (s.startLayers x).2.store := by
  unfold Shim.startLayers
  dsimp only
  have hreset : Layered (Shim.resetTables { s with
      numLayers := x.modelNumLayers
      layers := newLayers x.modelNumLayers x.mode x.scoreMode }).store := by
    rw [resetTables_store]
    exact h
  split_ifs
  · have hinit := hreset.initStore x.modelNumLayers x.alloc
    split
    · rename_i heq
      rw [heq] at hinit
      exact hinit
    · rename_i heq
      rw [heq] at hinit
      exact hinit
  · exact hreset

theorem Layered.firstInit (h : Layered s.store) (x : InitArgs) :
    Layered (s.firstInit x).2.store := by
  unfold Shim.firstInit
  dsimp only
  have hstart := Layered.startLayers (s := { s with
    kvMode := x.mode, scoreMode := x.scoreMode }) h x
  cases hmode : x.mode with
  | off =>
      dsimp only
      split_ifs <;> exact h
  | passthrough => exact h
  | _ =>
      rw [hmode] at hstart
      dsimp only
      split_ifs
      · exact h
      · exact hstart

theorem Layered.slhaGlobalInit (h : Layered s.store) (x : InitArgs) :
    Layered (s.slhaGlobalInit x).2.store := by
  unfold Shim.slhaGlobalInit
  dsimp only
  split_ifs
  · exact h
  · exact Layered.reinit (s := { s with observed := x.modelNumLayers }) h _ _
  · exact Layered.firstInit (s := { s with observed := x.modelNumLayers }) h x

theorem Layered.kThread (h : Layered s.store) {il : ℕ} {x : KThread} {next : Shim}
    (hnext : s.kThread il x = some next) : Layered next.store := by
  unfold Shim.kThread at hnext
  cases hlayer : s.layers[il]? with
  | none =>
      rw [hlayer] at hnext
      cases hnext
      exact h
  | some layer =>
      rw [hlayer] at hnext
      dsimp only at hnext
      split at hnext
      · cases hnext
        exact h
      · cases hkv : layer.kvMode <;> rw [hkv] at hnext <;> dsimp only at hnext
        · cases hnext
          exact h
        · cases hnext
          exact h
        · cases hnext
          exact h
        · split at hnext
          · cases hnext
            exact h
          · split at hnext
            · cases hnext
              exact h
            · unfold Shim.storeTiles at hnext
              dsimp only at hnext
              split at hnext
              · obtain ⟨t, _, rfl⟩ := Option.map_eq_some_iff.mp hnext
                exact Layered.storeTokens h x.ccos il x.tokens
              · cases hnext
                exact Layered.storeTokens h x.ccos il x.tokens
        · cases hnext
          exact h

theorem replaceVectors_store (il nKv nWritten : ℕ) (vs : List ScoreVector) :
    (vs.foldl (Shim.replaceVector il nKv nWritten) s).store = s.store := by
  induction vs generalizing s with
  | nil => rfl
  | cons v vs ih =>
      rw [List.foldl_cons, ih]
      unfold Shim.replaceVector
      split_ifs <;> rfl

theorem scoreThread_store {il : ℕ} {x : ScoreThread} {next : Shim}
    (hnext : s.scoreThread il x = some next) : next.store = s.store := by
  unfold Shim.scoreThread at hnext
  cases hlayer : s.layers[il]? with
  | none =>
      rw [hlayer] at hnext
      cases hnext
      rfl
  | some layer =>
      rw [hlayer] at hnext
      dsimp only at hnext
      split at hnext
      · cases hnext
        rfl
      · cases hscore : layer.scoreMode <;> rw [hscore] at hnext <;> dsimp only at hnext
        · cases hnext
          rfl
        · split at hnext
          · cases hnext
            rfl
          · obtain ⟨_, _, rfl⟩ := Option.map_eq_some_iff.mp hnext
            rfl
        · split at hnext
          · cases hnext
            rfl
          · split at hnext
            · cases hnext
              rfl
            · obtain ⟨_, _, rfl⟩ := Option.map_eq_some_iff.mp hnext
              exact replaceVectors_store _ _ _ _

theorem Layered.step (h : Layered s.store) {e : Event} {next : Shim}
    (hnext : step s e = some next) : Layered next.store := by
  cases e with
  | init x =>
      cases hnext
      exact h.slhaGlobalInit x
  | shutdown =>
      cases hnext
      exact layered_reset _
  | clearAll ccos =>
      cases hnext
      unfold Shim.slhaKClearAll
      dsimp only
      split_ifs
      · exact layered_reset _
      · exact h
  | printReplaceSummary =>
      cases hnext
      exact h
  | getLayerState il =>
      cases hnext
      unfold Shim.slhaGetLayerState
      split_ifs <;> exact h
  | allocateK nTokens alloc =>
      cases hnext
      unfold Shim.slhaInterceptKCacheAllocation
      split_ifs
      · exact h.resize _ _ _ _
      · exact h
  | prepareStore capacity ccos created alloc =>
      cases hnext
      unfold Shim.slhaExternalKPrepareStore
      split_ifs
      · exact h
      · exact h.init _ _ _ _
      · exact fun _ => rfl
      · exact h
  | kThread il x => exact h.kThread hnext
  | scoreThread il x =>
      rw [scoreThread_store hnext]
      exact h

theorem Layered.run (h : Layered s.store) {events : List Event} {last : Shim}
    (hlast : run s events = some last) : Layered last.store := by
  induction events generalizing s with
  | nil =>
      cases hlast
      exact h
  | cons e events ih =>
      obtain ⟨next, hnext, hlater⟩ := Option.bind_eq_some_iff.mp hlast
      exact ih (h.step hnext) hlater

end Steps

theorem adopted_resetTables {s : Shim} {n : ℕ} : Adopted s.resetTables n ↔ Adopted s n := by
  constructor
  · intro h
    constructor
    · exact resetTables_layers (s := s) ▸ h.layers
    · exact resetTables_numLayers (s := s) ▸ h.numLayers
    · have hstore := h.store
      rw [resetTables_modes.1, resetTables_modes.2, resetTables_store] at hstore
      exact hstore
    · exact resetTables_store (s := s) ▸ h.empty
  · intro h
    constructor
    · rw [resetTables_layers]
      exact h.layers
    · rw [resetTables_numLayers]
      exact h.numLayers
    · rw [resetTables_modes.1, resetTables_modes.2, resetTables_store]
      exact h.store
    · rw [resetTables_store]
      exact h.empty

theorem length_newLayers {n : ℕ} {kvMode : KTransform.KvMode} {scoreMode : PassThrough.ScoreMode} :
    (newLayers n kvMode scoreMode).length = n := List.length_replicate

/-- With a new count the layers are made first, and the store is sized afterwards. -/
theorem reinit_new_iff {s : Shim} {n : ℕ} {alloc : Alloc} (hn : n ≠ 0) (hnew : s.numLayers ≠ n) :
    ((Shim.reinit { s with observed := n } n alloc).1 = 0 ∧
        Adopted (Shim.reinit { s with observed := n } n alloc).2 n ∨
      (Shim.reinit { s with observed := n } n alloc).1 = -1 ∧
        Untouched s (Shim.reinit { s with observed := n } n alloc).2) ↔
      s.store.anyValid = false ∧ (NeedsStore s.kvMode s.scoreMode → Roomy alloc) := by
  unfold Shim.reinit
  dsimp only
  rw [if_pos hnew]
  by_cases hneeds : NeedsStore s.kvMode s.scoreMode
  · rw [if_pos hneeds]
    by_cases hcan : CanSize s alloc
    · obtain ⟨store, ⟨hlayers, hempty⟩, hstore⟩ := initStore_of_canSize
        (s := { s with observed := n, numLayers := n, layers := newLayers n s.kvMode s.scoreMode })
        hn hcan
      rw [hstore]
      constructor
      · exact fun _ => ⟨hcan.1, fun _ => hcan.2⟩
      · intro _
        refine .inl ⟨rfl, adopted_resetTables.mpr ?_⟩
        exact ⟨length_newLayers, rfl, fun _ => hlayers, hempty⟩
    · rw [initStore_of_not (s := { s with
        observed := n, numLayers := n, layers := newLayers n s.kvMode s.scoreMode }) hn hcan]
      constructor
      · rintro (⟨hzero, _⟩ | ⟨_, hsame⟩)
        · exact absurd hzero (by decide : ¬ (-1 : ℤ) = 0)
        · exact absurd hsame.numLayers.symm hnew
      · exact fun h => absurd ⟨h.1, h.2 hneeds⟩ hcan
  · rw [if_neg hneeds]
    constructor
    · rintro (⟨_, hadopted⟩ | ⟨hminus, _⟩)
      · exact ⟨(adopted_resetTables.mp hadopted).empty, fun h => absurd h hneeds⟩
      · exact absurd hminus (by decide : ¬ (0 : ℤ) = -1)
    · intro h
      refine .inl ⟨rfl, adopted_resetTables.mpr ?_⟩
      exact ⟨length_newLayers, rfl, fun h => absurd h hneeds, h.1⟩

/-- With the count on record only the store is cleared. -/
theorem reinit_same_iff {s : Shim} {n : ℕ} {alloc : Alloc} (hlayered : Layered s.store)
    (hsame : s.numLayers = n) :
    ((Shim.reinit { s with observed := n } n alloc).1 = 0 ∧
        Adopted (Shim.reinit { s with observed := n } n alloc).2 n ∨
      (Shim.reinit { s with observed := n } n alloc).1 = -1 ∧
        Untouched s (Shim.reinit { s with observed := n } n alloc).2) ↔
      s.layers.length = n ∧ (NeedsStore s.kvMode s.scoreMode → s.store.nLayers = n) := by
  have hcleared : ∀ store : Store, store.nLayers = s.store.nLayers → store.anyValid = false →
      (((0 : ℤ) = 0 ∧ Adopted (Shim.resetTables { s with observed := n, store := store }) n ∨
        (0 : ℤ) = -1 ∧ Untouched s (Shim.resetTables { s with observed := n, store := store })) ↔
      s.layers.length = n ∧ (NeedsStore s.kvMode s.scoreMode → s.store.nLayers = n)) := by
    intro store hlayers hempty
    constructor
    · rintro (⟨_, hadopted⟩ | ⟨hminus, _⟩)
      · have hadopted := adopted_resetTables.mp hadopted
        exact ⟨hadopted.layers, fun hneeds => hlayers.symm.trans (hadopted.store hneeds)⟩
      · exact absurd hminus (by decide)
    · intro ⟨hlength, hstore⟩
      refine .inl ⟨rfl, adopted_resetTables.mpr ?_⟩
      exact ⟨hlength, hsame, fun hneeds => hlayers.trans (hstore hneeds), hempty⟩
  unfold Shim.reinit
  dsimp only
  rw [if_neg (not_not.mpr hsame)]
  by_cases hlayers : s.store.nLayers > 0
  · rw [if_pos hlayers]
    exact hcleared s.store.reset.1 rfl (anyValid_reset _)
  · rw [if_neg hlayers]
    exact hcleared s.store rfl (hlayered (by omega))

theorem allOrNothing_iff {s : Shim} (hlayered : Layered s.store) (hinit : s.initialized = true)
    (x : InitArgs) : AllOrNothing s x ↔ Adoptable s x := by
  unfold AllOrNothing Adoptable Shim.slhaGlobalInit
  by_cases hcount : x.modelNumLayers = 0 ∨ x.modelNumLayers > int32Max
  · rw [if_pos hcount]
    exact ⟨fun _ => .inl hcount, fun _ => .inr ⟨rfl, rfl, rfl, rfl, rfl⟩⟩
  · rw [if_neg hcount]
    dsimp only
    rw [if_pos hinit]
    have hn : x.modelNumLayers ≠ 0 := fun hzero => hcount (.inl hzero)
    by_cases hsame : s.numLayers = x.modelNumLayers
    · rw [reinit_same_iff hlayered hsame]
      constructor
      · exact fun h => .inr (.inr ⟨hsame, h⟩)
      · rintro (h | ⟨h, _⟩ | ⟨_, h⟩)
        · exact absurd h hcount
        · exact absurd hsame h
        · exact h
    · rw [reinit_new_iff hn hsame]
      constructor
      · exact fun h => .inr (.inl ⟨hsame, h⟩)
      · rintro (h | ⟨_, h⟩ | ⟨h, _⟩)
        · exact absurd h hcount
        · exact h
        · exact absurd h hsame

/-- From every state that a run reaches, a start for another context is all or nothing exactly
when the count can be adopted. -/
theorem reached_allOrNothing_iff (events : List Event) (s : Shim) (h : run .fresh events = some s)
    (hinit : s.initialized = true) (x : InitArgs) : AllOrNothing s x ↔ Adoptable s x :=
  allOrNothing_iff (Layered.run (fun _ => rfl) h) hinit x

-- A start with a new count, after a run without tiles and after one with a tile.
def liveRun : List Event :=
  [.init (tileModel 1), .allocateK 1 roomy, .kThread 0 { oneToken with ccos := none }]

theorem adopted_after_start : (∃ s, run .fresh [.init (tileModel 3)] = some s) ∧
    ∀ s, run .fresh [.init (tileModel 3)] = some s → AllOrNothing s (tileModel 5) := by
  refine ⟨⟨_, rfl⟩, fun s h => ?_⟩
  have hinit : s.initialized = true := by
    cases h
    rfl
  apply (reached_allOrNothing_iff _ s h hinit (tileModel 5)).mpr
  cases h
  exact .inr (.inl ⟨by decide, rfl, fun _ => ⟨rfl, rfl⟩⟩)

/-- The start fails over the tile, with the layers of the new model in place already. -/
theorem live_tile_halfway : ∃ s, run .fresh liveRun = some s ∧ s.initialized = true ∧
    ¬ AllOrNothing s (tileModel 2) := by
  have hlive : (run .fresh liveRun).any
      (fun s => s.initialized && s.store.anyValid && s.numLayers == 1) = true := by
    decide +kernel
  obtain ⟨s, hs, hstate⟩ := (Option.any_eq_true _ _).mp hlive
  rw [Bool.and_eq_true, Bool.and_eq_true, beq_iff_eq] at hstate
  obtain ⟨⟨hinit, hvalid⟩, hnum⟩ := hstate
  have hlayered : Layered s.store := Layered.run (fun _ => rfl) hs
  refine ⟨s, hs, hinit, fun h => ?_⟩
  rcases (allOrNothing_iff hlayered hinit _).mp h with hcount | ⟨_, hempty, _⟩ | ⟨hsame, _⟩
  · exact absurd hcount (by decide)
  · rw [hvalid] at hempty
    cases hempty
  · rw [hnum] at hsame
    exact absurd hsame (by decide)

end SlhaV2.Reinitialization
