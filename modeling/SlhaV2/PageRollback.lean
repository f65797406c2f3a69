import SlhaV2.HardBudget
import SlhaV2.PageRuns

/-!
# Rolling back an applied transition

Applying and restoring walk one edge of the residency graph there and back, and
form, tile, generation and importance determine a slot, so the cache comes back
exactly. Whether the way back is open is for the hard budget to say: inserts and
plain writes may have filled the cache beyond it.
-/
namespace SlhaV2.PageRollback
open MachineWord ByteBuffer TileCodec SlotVector FloatingPoint GuardedRun PhysicalCache
open PhysicalCache.ElasticKvCache ResidencyGraph PhysicalSteps SlotOperations CacheOperations
open CacheWrites CacheRuns HardBudget ControlPlanes PageTransition PageRuns
open PageTransition.SlhaKvTransitionBackend

section Moves
variable {F : Type} {c c' d : ElasticKvCache F} {i : ℕ}

/-- Form and tile determine what a slot stores. -/
theorem eq_of_represents {s s' : PhysicalSlot} {t : Tile} {f : Form} (h : Represents s t f)
    (h' : Represents s' t f) (hseq : s'.seq = s.seq) (himp : s'.importance = s.importance) :
    s' = s := by
  have hb := h'.bytes.trans h.bytes.symm
  have ho := h'.offloaded.trans h.offloaded.symm
  have hw := h'.warmResidual.trans h.warmResidual.symm
  have ht := h'.tier.trans h.tier.symm
  cases s
  cases s'
  simp only at hb ho hw ht hseq himp
  rw [hb, ho, hw, ht, hseq, himp]

/-- Demoting a slot and promoting it again changes nothing. -/
theorem moveAt_back (h : MoveAt c i .hot .warm c') (k : MoveAt c' i .warm .hot d) : d = c := by
  cases h with
  | @mk s s' t r e hat hc hf hg hseq himp hr he =>
      cases k with
      | @mk s₁ s₂ u r₂ e₂ hat₁ hc₁ hf₁ hg₁ hseq₁ himp₁ hr₂ he₂ =>
          obtain rfl : s' = s₁ :=
            Option.some.inj ((slotAt_set_self (slotAt_lt hat) _).symm.trans hat₁)
          obtain rfl : t = u :=
            Option.some.inj ((hg.recover hc).symm.trans (hf₁.recover hc₁))
          obtain rfl : s₂ = s :=
            eq_of_represents hf hg₁ (hseq₁.trans hseq) (himp₁.trans himp)
          have hres : r₂ = c.residentBytes := by
            simp only [Form.residentBytes] at hr hr₂
            omega
          have hev : e₂ = c.evictions := he₂.trans he
          have hslots : (c.slots.set i (some s')).set i (some s₂) = c.slots := by
            rw [List.set_set, set_slotAt_self hat]
          rw [hres, hev, hslots]

end Moves

section Rollback
variable {F I E S T : Type} [DecidableEq I] [DecidableEq E] [DecidableEq S] [DecidableEq T]
  {c : ElasticKvCache F} {b : SlhaKvTransitionBackend I E S}

/-- From WARM a restore succeeds exactly when the budget admits the residual plane. -/
theorem restoreLocked_warm_iff (hb : Bound b) (hs : Sound c) (hfit : Fits c)
    (hpage : HoldsPage b c .warm) :
    (b.restoreLocked c b.source).1 = .ok () ↔
      c.residentBytes + residualBytes ≤ c.configBudgetBytes := by
  have hcur := currentDescriptor_of_holds hb hpage (.inr rfl)
  rw [if_neg (by decide)] at hcur
  obtain ⟨s, hat, _, hrep, _⟩ := id hpage
  constructor
  · intro hok
    by_contra hroom
    obtain ⟨hsame, hfail⟩ := @promoteSlot_of_not F c b.slot hs hfit
      fun _ _ _ => Nat.lt_of_not_le hroom
    unfold restoreLocked at hok
    rw [hcur] at hok
    dsimp only at hok
    rw [if_neg hb.distinct.symm, if_neg (not_not.mpr rfl)] at hok
    rcases hp : c.promoteSlot b.slot with ⟨rp, c'⟩
    rw [hp] at hok hfail
    cases rp with
    | error e => cases hok
    | ok u =>
        have htier := hfail ⟨u, rfl⟩
        simp [ElasticKvCache.tier, hat, hrep.tier, Form.tier] at htier
  · intro hroom
    rcases restoreLocked_cases hb hs hfit with ⟨hok, _⟩ | ⟨⟨m, herr⟩, hsame⟩
    · exact hok
    · exfalso
      obtain ⟨hok, hmv⟩ := promoteSlot_warm hs hfit hat hrep.tier hroom
      unfold restoreLocked at herr
      rw [hcur] at herr
      dsimp only at herr
      rw [if_neg hb.distinct.symm, if_neg (not_not.mpr rfl)] at herr
      rcases hp : c.promoteSlot b.slot with ⟨rp, c'⟩
      rw [hp] at hok hmv herr
      obtain rfl : rp = .ok () := hok
      have hafter := currentDescriptor_of_holds hb (holdsPage_of_moveAt hpage hmv) (.inl rfl)
      rw [if_pos rfl] at hafter
      simp [hafter] at herr

/-- An application that succeeds names the bound source and got the lock. -/
theorem apply_ok [KvContract I E S T] {h : SlhaKvCacheHandle F}
    {source target : KvPageDescriptor I E S} {transition : T}
    (hok : (b.applyTransitionIfSource h source target transition).1 = .ok ()) :
    source = b.source ∧ h.poisoned = false := by
  unfold applyTransitionIfSource at hok
  cases hsame : b.sameTransition source target transition
      "SLHAv2 apply received a foreign KV transition" with
  | error e =>
      rw [hsame] at hok
      cases hok
  | ok u =>
      rw [hsame] at hok
      obtain ⟨hsrc, _⟩ := eq_of_sameTransition hsame
      cases hp : h.poisoned with
      | false => exact ⟨hsrc, rfl⟩
      | true =>
          unfold SlhaKvCacheHandle.lock at hok
          rw [hp] at hok
          cases hok

/-- Restoring the page an application just moved. -/
theorem restorePage_after_apply [KvContract I E S T] {h : SlhaKvCacheHandle F} (hb : Bound b)
    (hs : Sound h.cache) (hfit : Fits h.cache) {source target : KvPageDescriptor I E S}
    {transition : T}
    (hok : (b.applyTransitionIfSource h source target transition).1 = .ok ()) :
    ((b.restorePage (b.applyTransitionIfSource h source target transition).2 source).1 = .ok () ↔
        h.cache.residentBytes ≤ h.cache.configBudgetBytes) ∧
      ((b.restorePage (b.applyTransitionIfSource h source target transition).2 source).1 = .ok () →
        (b.restorePage (b.applyTransitionIfSource h source target transition).2 source).2 = h) ∧
      ((b.restorePage (b.applyTransitionIfSource h source target transition).2 source).1 ≠ .ok () →
        (b.restorePage (b.applyTransitionIfSource h source target transition).2 source).2 =
          (b.applyTransitionIfSource h source target transition).2) := by
  obtain ⟨rfl, hfree⟩ := apply_ok hok
  rcases applyTransitionIfSource_ends hb hs b.source target transition with
    ⟨_, hhot, hmove, hsame⟩ | ⟨⟨m, herr⟩, _⟩
  · generalize (b.applyTransitionIfSource h b.source target transition).2 = h' at *
    have hpage := holdsPage_of_moveAt hhot hmove
    have hs' := hmove.sound hs
    have hfit' : Fits h'.cache := by
      unfold Fits
      rw [presentCount_moveAt hmove]
      exact hfit
    have hres : h'.cache.residentBytes + 128 = h.cache.residentBytes + 96 :=
      residentBytes_moveAt hmove
    have hprim : Prim (fun _ => False) h.cache h'.cache := .move .demote hmove
    have hbud := configBudgetBytes_congr hprim.limits_eq
    have hcall : b.restorePage h' b.source =
        ((b.restoreLocked h'.cache b.source).1,
          { h' with cache := (b.restoreLocked h'.cache b.source).2 }) := by
      unfold restorePage SlhaKvCacheHandle.lock
      rw [if_neg (not_not.mpr rfl), hsame, hfree]
      rfl
    have hiff := restoreLocked_warm_iff hb hs' hfit' hpage
    have hplane : residualBytes = 32 := by decide
    rw [hcall]
    refine ⟨?_, ?_, ?_⟩
    · rw [hiff, hbud, hplane]
      omega
    · intro hback
      rcases restoreLocked_cases hb hs' hfit' with ⟨_, ⟨hhot', _⟩ | ⟨_, hmove'⟩⟩ | ⟨⟨m, herr⟩, _⟩
      · -- The slot cannot be HOT and WARM.
        obtain ⟨s, hat, _, hrep, _⟩ := hpage
        obtain ⟨s', hat', _, hrep', _⟩ := hhot'
        cases hat.symm.trans hat'
        cases hrep.tier.symm.trans hrep'.tier
      · dsimp only
        rw [moveAt_back hmove hmove', hsame]
      · rw [herr] at hback
        cases hback
    · intro hno
      rcases restoreLocked_cases hb hs' hfit' with ⟨hback, _⟩ | ⟨_, hsame'⟩
      · exact (hno hback).elim
      · dsimp only
        rw [hsame']
  · rw [herr] at hok
    cases hok

end Rollback

section Interleaving
variable {F I E S T : Type} [F64 F] [F32Arith] [DecidableEq I] [DecidableEq E] [DecidableEq S]
  [DecidableEq T] [KvContract I E S T] {c₀ : ElasticKvCache F} {h : SlhaKvCacheHandle F}
  {b : SlhaKvTransitionBackend I E S} {slot : ℕ}

/-- No interleaving changes the hard budget. -/
theorem configBudgetBytes_of_runs {budget : ℕ} {id : String} {ops₀ : List Op}
    {ops : List (PageOp I E S T)} (hb : Bound b)
    (hrun₀ : Runs exec Ample (new (F := F) budget id) ops₀ c₀)
    (hrun : Runs (execPage b) (fun h => Ample h.cache) (.new c₀) ops h) :
    h.cache.configBudgetBytes = budget := by
  have hfits : Runs exec Fits (new (F := F) budget id) ops₀ c₀ := by
    clear hrun
    induction hrun₀ with
    | nil => exact Runs.nil _
    | snoc _ hok ih => exact ih.snoc hok.1
  have hh₀ : Steady (SlhaKvCacheHandle.new c₀) := reachable_steady hrun₀ false
  have hlim := hrun.invariant
    (P := fun h => Steady h ∧ limits h.cache = limits c₀) ⟨hh₀, rfl⟩ fun u op hu hok =>
      ⟨execPage_steady hb hu.1 op hok,
        (execPage_path hb hu.1.sound hu.1.fits op hok).limits_eq.trans hu.2⟩
  exact configBudgetBytes_of_limits (hlim.2.trans (reachable_limits hfits))

/-- An application that is rolled back at once leaves no trace, and the rollback
is admitted exactly when the cache was within its hard budget. Beyond it the
rollback is refused and the page stays WARM, complete as the application left it. -/
theorem rollback_of_applied {budget : ℕ} {id : String} {ops₀ : List Op}
    {ops : List (PageOp I E S T)} {epoch : E} {semantics : S} (hid : IdsKeepText I E S T)
    (hrun₀ : Runs exec Ample (new (F := F) budget id) ops₀ c₀)
    (hbind : bindHotSlot T (.new c₀) slot epoch semantics = .ok b)
    (hrun : Runs (execPage b) (fun h => Ample h.cache) (.new c₀) ops h)
    (source target : KvPageDescriptor I E S) (transition : T)
    (hok : (b.applyTransitionIfSource h source target transition).1 = .ok ()) :
    ((b.restorePage (b.applyTransitionIfSource h source target transition).2 source).1 = .ok () ↔
        h.cache.residentBytes ≤ budget) ∧
      ((b.restorePage (b.applyTransitionIfSource h source target transition).2 source).1 = .ok () →
        (b.restorePage (b.applyTransitionIfSource h source target transition).2 source).2 = h) ∧
      ((b.restorePage (b.applyTransitionIfSource h source target transition).2 source).1 ≠ .ok () →
        (b.restorePage (b.applyTransitionIfSource h source target transition).2 source).2 =
          (b.applyTransitionIfSource h source target transition).2) := by
  obtain ⟨hb, _⟩ := bindHotSlot_ok hid hbind
  have hh₀ : Steady (SlhaKvCacheHandle.new c₀) := reachable_steady hrun₀ false
  have hh := runs_steady hb hh₀ hrun
  rw [← configBudgetBytes_of_runs hb hrun₀ hrun]
  exact restorePage_after_apply hb hh.sound hh.fits hok

end Interleaving

deriving instance DecidableEq for SlhaKvTransitionBackend

section Example
local instance : F32Arith := F32Arith.trivial

/-- Zero tiles in a cache with this hard budget. -/
def filled (budget : ℕ) : ElasticKvCache ℚ :=
  exec (exec (new budget "kv") (.insert (zeros tileBytes))) (.insert (zeros tileBytes))

def zeroPage (tier : String) (epoch : ℕ) : KvPageDescriptor String ℕ Unit :=
  ⟨0, "slhav2.int4." ++ tier, 1, epoch, .int4, "slhav2-host-cache", ()⟩

def zeroBackend : SlhaKvTransitionBackend String ℕ Unit :=
  ⟨0, 0, zeroPage "hot" 0, zeroPage "warm" 1, zeros tileBytes, "int4"⟩

/-- The handle after the page has been demoted. -/
def applied (budget : ℕ) : Outcome Unit × SlhaKvCacheHandle ℚ :=
  zeroBackend.applyTransitionIfSource (.new (filled budget)) (zeroPage "hot" 0)
    (zeroPage "warm" 1) ()

theorem rollback_of_applied_within_budget :
    (zeroBackend.restorePage (applied 256).2 (zeroPage "hot" 0)).1 = .ok () ∧
      (zeroBackend.restorePage (applied 256).2 (zeroPage "hot" 0)).2 = .new (filled 256) := by
  have hids : IdsKeepText String ℕ Unit Unit := by
    rintro x y i ⟨⟩ ⟨⟩
    rfl
  have hrun₀ : Runs exec Ample (new (F := ℚ) 256 "kv")
      ([.insert (zeros tileBytes)] ++ [.insert (zeros tileBytes)]) (filled 256) :=
    Runs.snoc (Runs.single (by decide)) (by decide)
  have hbind : bindHotSlot Unit (.new (filled 256)) 0 0 () = .ok zeroBackend := by
    decide +kernel
  have hrun : Runs (execPage zeroBackend) (fun h => Ample h.cache) (.new (filled 256))
      ([] : List (PageOp String ℕ Unit Unit)) (.new (filled 256)) := Runs.nil _
  obtain ⟨hiff, hback, _⟩ := rollback_of_applied hids hrun₀ hbind hrun
    (zeroPage "hot" 0) (zeroPage "warm" 1) () (by decide +kernel)
  have hok := hiff.mpr (by decide)
  exact ⟨hok, hback hok⟩

/-- Two tiles in a budget of one: the demotion is applied and cannot be rolled back. -/
theorem rollback_refused_over_budget :
    bindHotSlot Unit (.new (filled 128)) 0 0 () = .ok zeroBackend ∧
      (applied 128).1 = .ok () ∧
      (zeroBackend.restorePage (applied 128).2 (zeroPage "hot" 0)).1 ≠ .ok () := by
  decide +kernel

end Example

end SlhaV2.PageRollback
