import SlhaV2.GuardedRun
import SlhaV2.CacheWrites

/-!
# Runs of the resident cache

One operation of the public interface is one path. Soundness is therefore an
invariant of every run, whatever succeeds or fails on the way, and the history
of writes says which tile each slot stands for.
-/
namespace SlhaV2.CacheRuns
open MachineWord ByteBuffer TileCodec SlotVector FloatingPoint ByteBudget ControlLoop GuardedRun
open PhysicalCache PhysicalCache.ElasticKvCache ResidencyGraph PhysicalSteps SlotOperations
open CacheOperations CacheWrites
open Relation (ReflTransGen)

/-- The mutating operations, with the allocator's answer where they ask for space. -/
inductive Op where
  | insert (tile : Tile)
  | writeAt (slot : ℕ) (tile : Tile) (reserve : Bool)
  | writeAtDenseBudget (slot : ℕ) (tile : Tile) (target : ℕ) (reserve : Bool)
  | clearSlot (slot : ℕ)
  | clear
  | pin (slot : ℕ)
  | demoteSlot (slot : ℕ)
  | promoteSlot (slot : ℕ)
  | evictSlot (slot : ℕ)
  | restoreSlot (slot : ℕ)
  | demoteTo (target : ℕ)
  | offloadTo (target : ℕ)
  | applyAction (action : ActionRequest) (target : ℕ)
  | step
  | observeScores (scores : List (ℕ × F32)) (temperature : F32)

variable {F : Type} {c c' : ElasticKvCache F} {i : ℕ}

def exec [F64 F] [F32Arith] (c : ElasticKvCache F) : Op → ElasticKvCache F
  | .insert tile => (c.insert tile).2
  | .writeAt slot tile reserve => (c.writeAt slot tile reserve).2
  | .writeAtDenseBudget slot tile target reserve =>
      (c.writeAtDenseBudget slot tile target reserve).2
  | .clearSlot slot => (c.clearSlot slot).2
  | .clear => c.clear
  | .pin slot => (c.pin slot).2
  | .demoteSlot slot => (c.demoteSlot slot).2
  | .promoteSlot slot => (c.promoteSlot slot).2
  | .evictSlot slot => (c.evictSlot slot).2
  | .restoreSlot slot => (c.restoreSlot slot).2
  | .demoteTo target => (c.demoteTo target).2
  | .offloadTo target => (c.offloadTo target).2
  | .applyAction action target => (c.applyAction action target).2
  | .step => c.step.2
  | .observeScores scores temperature => c.observeScores scores temperature

/-- The slot and tile a successful write stores. -/
def written (c : ElasticKvCache F) : Op → Option (ℕ × Tile)
  | .insert tile => some (c.slots.length, tile)
  | .writeAt slot tile reserve =>
      if Succeeded (c.writeAt slot tile reserve).1 then some (slot, tile) else none
  | .writeAtDenseBudget slot tile target reserve =>
      if Succeeded (c.writeAtDenseBudget slot tile target reserve).1 then some (slot, tile)
      else none
  | _ => none

def Op.clears : Op → ℕ → Prop
  | .clearSlot slot, i => i = slot
  | .clear, _ => True
  | _, _ => False

/-- The operation names the slot as the target of a write or a clear. -/
def Op.addresses : Op → ℕ → Prop
  | .writeAt slot _ _, i | .writeAtDenseBudget slot _ _ _, i => i = slot
  | op, i => op.clears i

/-- The slots whose content an operation replaces. -/
def touches (c : ElasticKvCache F) (op : Op) (i : ℕ) : Prop :=
  (∃ tile, written c op = some (i, tile)) ∨ op.clears i

/-- A write that ends as it should only touches what it reports as written. -/
theorem path_of_writeEnds {α : Type} {op : Op} {tile : Tile}
    {r : Outcome α × ElasticKvCache F} (h : WriteEnds c i tile r)
    (hw : written c op = if Succeeded r.1 then some (i, tile) else none) :
    Path (touches c op) c r.2 ∧
      ∀ j u, written c op = some (j, u) → Wrote c r.2 j u := by
  rcases h with ⟨hok, hp, hwrote⟩ | ⟨hno, hp⟩
  · rw [if_pos hok] at hw
    constructor
    · refine Path.mono ?_ hp
      rintro j rfl
      exact .inl ⟨tile, hw⟩
    · intro j u hju
      rw [hw] at hju
      cases hju
      exact hwrote
  · rw [if_neg hno] at hw
    exact ⟨hp _, fun j u hju => by rw [hw] at hju; cases hju⟩

theorem sound_new [F64 F] (budget : ℕ) (id : String) : Sound (new (F := F) budget id) :=
  ⟨rfl, fun i s h => by simp [ElasticKvCache.new, slotAt] at h⟩

theorem fits_new [F64 F] (budget : ℕ) (id : String) : Fits (new (F := F) budget id) := by
  simp [Fits, presentCount, ElasticKvCache.new]

/-- An operation that does not address a present slot leaves it alone. -/
theorem not_touches_of_not_addresses {op : Op} (h : ¬ op.addresses i) {s : PhysicalSlot}
    (hat : slotAt c.slots i = some s) : ¬ touches c op i := by
  have hlt := slotAt_lt hat
  rintro (⟨tile, hw⟩ | hc)
  · cases op with
    | insert t =>
        simp only [written, Option.some.injEq, Prod.mk.injEq] at hw
        omega
    | writeAt slot t reserve | writeAtDenseBudget slot t target reserve =>
        simp only [written, Option.ite_none_right_eq_some, Option.some.injEq,
          Prod.mk.injEq] at hw
        exact h hw.2.1.symm
    | _ => cases hw
  · cases op with
    | writeAt | writeAtDenseBudget => exact hc.elim
    | _ => exact h hc

section Execution
variable [F64 F] [F32Arith]

/-- Every operation is a path that touches only the slots it replaces. -/
theorem exec_path (hs : Sound c) (hfit : Fits c) (op : Op) (hfit' : Fits (exec c op)) :
    Path (touches c op) c (exec c op) ∧
      ∀ i tile, written c op = some (i, tile) → Wrote c (exec c op) i tile := by
  cases op with
  | insert tile =>
      obtain ⟨hp, hw⟩ := insert_path hs hfit'
      constructor
      · refine Path.mono ?_ hp
        rintro j rfl
        exact .inl ⟨tile, rfl⟩
      · rintro j u ⟨⟩
        exact hw
  | writeAt slot tile reserve => exact path_of_writeEnds (writeAt_ends hs hfit slot reserve) rfl
  | writeAtDenseBudget slot tile target reserve =>
      exact path_of_writeEnds (writeAtDenseBudget_ends hs hfit slot target reserve) rfl
  | clearSlot slot =>
      refine ⟨Path.mono ?_ (clearSlot_path slot), by rintro _ _ ⟨⟩⟩
      rintro j rfl
      exact .inr rfl
  | clear => exact ⟨ReflTransGen.single (Prim.clear fun _ => .inr trivial), by rintro _ _ ⟨⟩⟩
  | pin slot => exact ⟨pin_path hs hfit slot, by rintro _ _ ⟨⟩⟩
  | demoteSlot slot =>
      exact ⟨Moves.path (moves_of_acts demoteSlot_acts hs hfit slot) _, by rintro _ _ ⟨⟩⟩
  | promoteSlot slot =>
      exact ⟨Moves.path (moves_of_acts promoteSlot_acts hs hfit slot) _, by rintro _ _ ⟨⟩⟩
  | evictSlot slot =>
      exact ⟨Moves.path (moves_of_acts evictSlot_acts hs hfit slot) _, by rintro _ _ ⟨⟩⟩
  | restoreSlot slot =>
      exact ⟨Moves.path (moves_of_acts restoreSlot_acts hs hfit slot) _, by rintro _ _ ⟨⟩⟩
  | demoteTo target => exact ⟨applyAction_path _ .demote target hs hfit, by rintro _ _ ⟨⟩⟩
  | offloadTo target => exact ⟨applyAction_path _ .offload target hs hfit, by rintro _ _ ⟨⟩⟩
  | applyAction action target =>
      exact ⟨applyAction_path _ action target hs hfit, by rintro _ _ ⟨⟩⟩
  | step => exact ⟨step_path hs hfit, by rintro _ _ ⟨⟩⟩
  | observeScores scores temperature =>
      exact ⟨observeScores_path scores temperature, by rintro _ _ ⟨⟩⟩

theorem slotAt_exec_of_clears {op : Op} (h : op.clears i) :
    slotAt (exec c op).slots i = none := by
  cases op with
  | clear => simp [exec, ElasticKvCache.clear, slotAt]
  | clearSlot slot =>
      obtain rfl : i = slot := h
      cases hat : slotAt c.slots i with
      | none => simp [exec, ElasticKvCache.clearSlot, hat]
      | some s =>
          simp only [exec, ElasticKvCache.clearSlot, hat]
          exact slotAt_set_self (slotAt_lt hat) none
  | _ => exact h.elim

section Run
variable {budget : ℕ} {id : String} {ops : List Op}

theorem Runs.sound_fits {c₀ : ElasticKvCache F} (hs : Sound c₀) (hfit : Fits c₀)
    (h : Runs exec Fits c₀ ops c) : Sound c ∧ Fits c :=
  h.invariant (P := fun c => Sound c ∧ Fits c) ⟨hs, hfit⟩ fun _ op hp hok =>
    ⟨Path.sound hp.1 (exec_path hp.1 hp.2 op hok).1, hok⟩

theorem reachable_sound_fits (h : Runs exec Fits (new (F := F) budget id) ops c) :
    Sound c ∧ Fits c := Runs.sound_fits (sound_new budget id) (fits_new budget id) h

/-- Budgets never change along a run. -/
theorem reachable_limits (h : Runs exec Fits (new (F := F) budget id) ops c) :
    limits c = limits (new (F := F) budget id) := by
  have hp := h.invariant (P := fun c => (Sound c ∧ Fits c) ∧
      limits c = limits (new (F := F) budget id)) ⟨⟨sound_new _ _, fits_new _ _⟩, rfl⟩ ?_
  · exact hp.2
  · rintro u op ⟨⟨hs, hfit⟩, hl⟩ hok
    have hpath := (exec_path hs hfit op hok).1
    exact ⟨⟨Path.sound hs hpath, hok⟩, hpath.limits_eq.trans hl⟩

/-- A slot that no operation of a run addresses keeps its content. -/
theorem Runs.keeps {c₀ : ElasticKvCache F} {s : PhysicalSlot} (hs : Sound c₀) (hfit : Fits c₀)
    (hat : slotAt c₀.slots i = some s) (hops : ∀ op ∈ ops, ¬ op.addresses i)
    (h : Runs exec Fits c₀ ops c) : ∃ s', slotAt c.slots i = some s' ∧ Keeps s s' := by
  have hp := h.invariant_of_mem (P := fun c => (Sound c ∧ Fits c) ∧
      ∃ s', slotAt c.slots i = some s' ∧ Keeps s s') ⟨⟨hs, hfit⟩, s, hat, Keeps.refl s⟩ ?_
  · exact hp.2
  · rintro u op hmem ⟨⟨hsu, hfu⟩, s₁, hat₁, hk₁⟩ hok
    have hpath := (exec_path hsu hfu op hok).1
    obtain ⟨s₂, hat₂, hk₂⟩ := hpath.keeps hsu
      (not_touches_of_not_addresses (hops op hmem) hat₁) hat₁
    exact ⟨⟨Path.sound hsu hpath, hok⟩, s₂, hat₂, hk₁.trans hk₂⟩

end Run

/-- One operation, with a record of the tile last written to each slot. -/
def track (p : ElasticKvCache F × (ℕ → Option Tile)) (op : Op) :
    ElasticKvCache F × (ℕ → Option Tile) :=
  (exec p.1 op, match written p.1 op with
    | some (i, tile) => Function.update p.2 i (some tile)
    | none => p.2)

/-- The tile the last successful write of a run left in the slot. -/
def lastWritten (c : ElasticKvCache F) (ops : List Op) : ℕ → Option Tile :=
  (ops.foldl track (c, fun _ => none)).2

theorem fst_foldl_track (ops : List Op) (p : ElasticKvCache F × (ℕ → Option Tile)) :
    (ops.foldl track p).1 = ops.foldl exec p.1 := by
  induction ops generalizing p with
  | nil => rfl
  | cons op ops ih => exact ih (track p op)

/-- Every present slot recovers the recorded tile. -/
def Recorded (c : ElasticKvCache F) (w : ℕ → Option Tile) : Prop :=
  ∀ i s, slotAt c.slots i = some s → ∃ t, w i = some t ∧ recover s = some (setWarmFlag t false)

theorem track_recorded {w : ℕ → Option Tile} (hs : Sound c) (hfit : Fits c) (op : Op)
    (hfit' : Fits (exec c op)) (hw : Recorded c w) :
    Recorded (exec c op) (track (c, w) op).2 := by
  obtain ⟨hpath, hwrote⟩ := exec_path hs hfit op hfit'
  intro i s' hat'
  by_cases ht : touches c op i
  · rcases ht with ⟨tile, hwr⟩ | hc
    · obtain ⟨⟨s, f, hat, hrep, _⟩, _⟩ := hwrote i tile hwr
      cases hat.symm.trans hat'
      refine ⟨tile, by simp [track, hwr], hrep.recover (clean_setWarmFlag tile)⟩
    · rw [slotAt_exec_of_clears hc] at hat'
      cases hat'
  · have hold : (track (c, w) op).2 i = w i := by
      simp only [track]
      cases hwr : written c op with
      | none => rfl
      | some p =>
          obtain ⟨j, u⟩ := p
          refine Function.update_of_ne ?_ _ _
          rintro rfl
          exact ht (.inl ⟨u, hwr⟩)
    rw [hold]
    cases hat : slotAt c.slots i with
    | none =>
        rw [hpath.slotAt_none ht hat] at hat'
        cases hat'
    | some s =>
        obtain ⟨s₁, hat₁, hk⟩ := hpath.keeps hs ht hat
        cases hat₁.symm.trans hat'
        obtain ⟨t, h₁, h₂⟩ := hw i s hat
        exact ⟨t, h₁, hk.recover.trans h₂⟩

theorem reachable_recorded {budget : ℕ} {id : String} {ops : List Op}
    (h : Runs exec Fits (new (F := F) budget id) ops c) :
    Recorded c (lastWritten (new (F := F) budget id) ops) := by
  generalize hc₀ : new (F := F) budget id = c₀ at h
  induction h with
  | nil =>
      subst hc₀
      intro i s hat
      simp [ElasticKvCache.new, slotAt] at hat
  | @snoc t ops op hrun hok ih =>
      subst hc₀
      obtain ⟨hs, hfit⟩ := reachable_sound_fits hrun
      have hfst : (ops.foldl track (new (F := F) budget id, fun _ => none)).1 = t := by
        rw [fst_foldl_track, ← hrun.eq_foldl]
      have hstep := track_recorded hs hfit op hok ih
      unfold lastWritten at hstep ⊢
      rw [List.foldl_append, List.foldl_cons, List.foldl_nil]
      rw [← hfst] at hstep ⊢
      exact hstep

section Recovery
omit [F64 F] [F32Arith]

/-- A promotion that succeeds leaves the slot HOT. -/
theorem tier_promoteSlot (hs : Sound c) (hfit : Fits c)
    (h : Succeeded (c.promoteSlot i).1) : (c.promoteSlot i).2.tier i = some .hot := by
  by_cases hw : ∃ s, slotAt c.slots i = some s ∧ s.tier = .warm ∧
      c.residentBytes + residualBytes ≤ c.configBudgetBytes
  · obtain ⟨s, hat, ht, hb⟩ := hw
    obtain ⟨s', hat', ht'⟩ := slotAt_moveAt (promoteSlot_warm hs hfit hat ht hb).2
    simp only [ElasticKvCache.tier, hat', Option.map_some, ht']
    rfl
  · obtain ⟨hsame, hhot⟩ := promoteSlot_of_not (i := i) hs hfit fun s hat ht =>
      Nat.lt_of_not_le fun hb => hw ⟨s, hat, ht, hb⟩
    rw [hsame]
    exact hhot h

/-- The slot stands for this tile: as its bytes, as its packed image with the
retained plane, or through restoring and then promoting it. -/
def HoldsTile (c : ElasticKvCache F) (i : ℕ) (s : PhysicalSlot) (t : Tile) : Prop :=
  match s.tier with
  | .hot | .pinned => s.bytes = t.1
  | .warm => ∃ packed residual, s.bytes = packed.1 ∧ s.warmResidual = some residual ∧
      unpackWithResidual packed residual = t
  | .cold => recover s = some t ∧ ∀ c₁ c₂, c.restoreSlot i = (.ok (), c₁) →
      c₁.promoteSlot i = (.ok (), c₂) →
        ∃ s₂, slotAt c₂.slots i = some s₂ ∧ s₂.tier = .hot ∧ s₂.bytes = t.1

theorem bytes_of_recover {s : PhysicalSlot} {t : Tile} (ht : s.tier = .hot ∨ s.tier = .pinned)
    (hr : recover s = some t) : s.bytes = t.1 := by
  rcases ht with ht | ht <;>
    exact tryInto_eq_some.mp (by simpa [recover, PhysicalSlot.restorableHotTile, ht] using hr)

/-- Restoring and promoting keep the tile, so a HOT slot at the end shows it. -/
theorem bytes_of_restore_promote {s : PhysicalSlot} {t : Tile} {c₁ c₂ : ElasticKvCache F}
    (hs : Sound c) (hfit : Fits c) (hat : slotAt c.slots i = some s) (hr : recover s = some t)
    (h₁ : c.restoreSlot i = (.ok (), c₁)) (h₂ : c₁.promoteSlot i = (.ok (), c₂)) :
    ∃ s₂, slotAt c₂.slots i = some s₂ ∧ s₂.tier = .hot ∧ s₂.bytes = t.1 := by
  have hm₁ : Moves c c₁ := by
    have := moves_of_acts restoreSlot_acts hs hfit i
    rwa [h₁] at this
  have hs₁ := Moves.sound hs hm₁
  have hfit₁ := Moves.fits hs hfit hm₁
  have hm₂ : Moves c₁ c₂ := by
    have := moves_of_acts promoteSlot_acts hs₁ hfit₁ i
    rwa [h₂] at this
  have hhot := tier_promoteSlot (i := i) hs₁ hfit₁ (by rw [h₂]; exact ⟨(), rfl⟩)
  obtain ⟨s₂, hat₂, hk⟩ := (Moves.path (hm₁.trans hm₂) fun _ => False).keeps (j := i) hs id hat
  have ht : s₂.tier = .hot := by
    rw [h₂, ElasticKvCache.tier, hat₂] at hhot
    exact Option.some.inj hhot
  exact ⟨s₂, hat₂, ht, bytes_of_recover (.inl ht) (hk.recover.trans hr)⟩

theorem holdsTile_of_recover {s : PhysicalSlot} {t : Tile} (hs : Sound c) (hfit : Fits c)
    (hat : slotAt c.slots i = some s) (hr : recover s = some t) : HoldsTile c i s t := by
  obtain ⟨u, f, hc, hf⟩ := hs.wellFormed i s hat
  obtain rfl : u = t := Option.some.inj ((hf.recover hc).symm.trans hr)
  unfold HoldsTile
  cases ht : s.tier with
  | hot => exact bytes_of_recover (.inl ht) hr
  | pinned => exact bytes_of_recover (.inr ht) hr
  | warm =>
      obtain rfl : f = .warm := tier_warm_iff.mp (hf.tier.symm.trans ht)
      exact ⟨_, _, hf.bytes, hf.warmResidual, (unpackWithResidual_packWarm u).trans hc⟩
  | cold => exact ⟨hr, fun c₁ c₂ => bytes_of_restore_promote hs hfit hat hr⟩

end Recovery

/-- Along any operations that do not address it, a present slot keeps standing
for the tile last written to it, under the same generation, and keeps its pin. -/
theorem unaddressed_slot_keeps_tile {budget : ℕ} {id : String} {ops ops' : List Op}
    {s : PhysicalSlot} (hrun : Runs exec Fits (new (F := F) budget id) ops c)
    (hat : slotAt c.slots i = some s) (hops : ∀ op ∈ ops', ¬ op.addresses i)
    (hrun' : Runs exec Fits c ops' c') :
    ∃ t s', lastWritten (new (F := F) budget id) ops i = some t ∧
      slotAt c'.slots i = some s' ∧ HoldsTile c' i s' (setWarmFlag t false) ∧
      c'.slotGeneration i = c.slotGeneration i ∧
      (s.tier = .pinned → s'.tier = .pinned ∧ s'.bytes = s.bytes) := by
  obtain ⟨hs, hfit⟩ := reachable_sound_fits hrun
  obtain ⟨t, hlast, hrec⟩ := reachable_recorded hrun i s hat
  obtain ⟨s', hat', hk⟩ := Runs.keeps hs hfit hat hops hrun'
  obtain ⟨hs', hfit'⟩ := Runs.sound_fits hs hfit hrun'
  refine ⟨t, s', hlast, hat', ?_, ?_, hk.pinned⟩
  · exact holdsTile_of_recover hs' hfit' hat' (hk.recover.trans hrec)
  · simp only [slotGeneration, hat, hat', Option.map_some, hk.seq]

end Execution

section Example
local instance : F32Arith := F32Arith.trivial

/-- A tile that is written, demoted and evicted. -/
theorem unaddressed_slot_keeps_tile_evicted :
    let c := exec (exec (exec (new (F := ℚ) 256 "kv") (.insert (zeros tileBytes)))
      (.demoteSlot 0)) (.evictSlot 0)
    ∃ t s', lastWritten (new (F := ℚ) 256 "kv") [.insert (zeros tileBytes)] 0 = some t ∧
      slotAt c.slots 0 = some s' ∧ HoldsTile c 0 s' (setWarmFlag t false) := by
  have hrun : Runs exec Fits (new (F := ℚ) 256 "kv") [.insert (zeros tileBytes)] _ :=
    Runs.single (by decide)
  have hrun' : Runs exec Fits (exec (new (F := ℚ) 256 "kv") (.insert (zeros tileBytes)))
      ([.demoteSlot 0] ++ [.evictSlot 0]) _ :=
    Runs.snoc (Runs.single (by decide +kernel)) (by decide +kernel)
  obtain ⟨t, s', h₁, h₂, h₃, _⟩ := unaddressed_slot_keeps_tile hrun (i := 0) rfl
    (by simp [Op.addresses, Op.clears]) hrun'
  exact ⟨t, s', h₁, h₂, h₃⟩

end Example

end SlhaV2.CacheRuns
