import Mathlib.Data.List.Forall2
import Mathlib.Data.List.Count

/-!
# Phased transactions

A transition of a representation goes through PREPARE, VALIDATE, COMMIT and
RELEASE, and a failed phase is followed at once by ROLLBACK. The phases are the
implementation's own. What the executor adds is atomicity: under the contract
that the phases document, any sequence of runs leaves the live representation
that its committed runs alone would have left, up to the first run that reports
a failed rollback.
-/
namespace SlhaV2.PhasedTransactions

inductive PhaseOutcome where
  | ok | failed
deriving DecidableEq, Repr

/-- An implementation of the protocol: a transaction object and the state it
works on, both of which a call may change. -/
class Transaction (T : Type) (S : outParam Type) where
  prepare : T → S → PhaseOutcome × T × S
  validate : T → S → PhaseOutcome × T × S
  commit : T → S → PhaseOutcome × T × S
  rollback : T → S → PhaseOutcome × T × S
  release : T → S → T × S := fun tx state => (tx, state)

inductive TransitionOutcome where
  | committed | prepareFailed | validationFailed | commitFailed | rollbackFailed
deriving DecidableEq, Repr

open Transaction

section Executor
variable {T S : Type} [Transaction T S]

def rollbackOr (tx : T) (state : S) (failure : TransitionOutcome) : TransitionOutcome × T × S :=
  match rollback tx state with
  | (.ok, tx, state) => (failure, tx, state)
  | (.failed, tx, state) => (.rollbackFailed, tx, state)

def runTransaction (tx : T) (state : S) : TransitionOutcome × T × S :=
  match prepare tx state with
  | (.failed, tx, state) => rollbackOr tx state .prepareFailed
  | (.ok, tx, state) =>
    match validate tx state with
    | (.failed, tx, state) => rollbackOr tx state .validationFailed
    | (.ok, tx, state) =>
      match commit tx state with
      | (.failed, tx, state) => rollbackOr tx state .commitFailed
      | (.ok, tx, state) =>
        let (tx, state) := release tx state
        (.committed, tx, state)

/-- A run: the object as it entered the run, and what the run reported. -/
structure Run (T : Type) where
  tx : T
  outcome : TransitionOutcome

/-- One run after another. Before each the caller may reconfigure the object or
replace it; after a failed rollback it stops, as the outcome demands. -/
def runAll : List (T → T) → T → S → List (Run T) × T × S
  | [], tx, state => ([], tx, state)
  | choose :: rest, tx, state =>
    match runTransaction (choose tx) state with
    | (.rollbackFailed, tx', state') => ([⟨choose tx, .rollbackFailed⟩], tx', state')
    | (outcome, tx', state') =>
      let r := runAll rest tx' state'
      (⟨choose tx, outcome⟩ :: r.1, r.2)

end Executor

section Log

inductive Phase where
  | prepare | validate | commit | rollback | release
deriving DecidableEq, Repr

/-- An object that writes down which of its phases are called. -/
structure Logged (T : Type) where
  tx : T
  calls : List Phase

variable {T S : Type} [Transaction T S]

def Logged.note {A : Type} (phase : Phase) (r : A × T × S) (calls : List Phase) :
    A × Logged T × S :=
  (r.1, ⟨r.2.1, calls ++ [phase]⟩, r.2.2)

instance : Transaction (Logged T) S where
  prepare l s := Logged.note .prepare (prepare l.tx s) l.calls
  validate l s := Logged.note .validate (validate l.tx s) l.calls
  commit l s := Logged.note .commit (commit l.tx s) l.calls
  rollback l s := Logged.note .rollback (rollback l.tx s) l.calls
  release l s := (⟨(release l.tx s).1, l.calls ++ [.release]⟩, (release l.tx s).2)

/-- The calls that a run may make when it reports this outcome. -/
inductive Script : TransitionOutcome → List Phase → Prop
  | committed : Script .committed [.prepare, .validate, .commit, .release]
  | prepareFailed : Script .prepareFailed [.prepare, .rollback]
  | validationFailed : Script .validationFailed [.prepare, .validate, .rollback]
  | commitFailed : Script .commitFailed [.prepare, .validate, .commit, .rollback]
  | lost {failure : TransitionOutcome} {calls : List Phase} : failure ≠ .committed →
      Script failure calls → Script .rollbackFailed calls

theorem Script.rollbacks {outcome : TransitionOutcome} {calls : List Phase}
    (h : Script outcome calls) :
    calls.count .rollback = (if outcome = .committed then 0 else 1) ∧
      calls.count .release = (if outcome = .committed then 1 else 0) := by
  induction h with
  | committed => decide
  | prepareFailed => decide
  | validationFailed => decide
  | commitFailed => decide
  | lost hf _ ih =>
      rw [if_neg hf, if_neg hf] at ih
      exact ih

/-- The run of a logged object is the run of the object, with its calls. -/
structure Traces (calls : List Phase) (r : TransitionOutcome × Logged T × S)
    (plain : TransitionOutcome × T × S) : Prop where
  outcome : r.1 = plain.1
  tx : r.2.1.tx = plain.2.1
  state : r.2.2 = plain.2.2
  calls : ∃ script, Script plain.1 script ∧ r.2.1.calls = calls ++ script

theorem rollbackOr_traces {l : Logged T} {s : S} {calls : List Phase}
    {failure : TransitionOutcome} (before : List Phase) (hf : failure ≠ .committed)
    (hl : l.calls = calls ++ before)
    (h : Script failure (before ++ [.rollback])) :
    Traces calls (rollbackOr l s failure) (rollbackOr l.tx s failure) := by
  have hr : rollback l s = Logged.note .rollback (rollback l.tx s) l.calls := rfl
  unfold rollbackOr
  rw [hr, Logged.note]
  rcases rollback l.tx s with ⟨_ | _, tx', s'⟩
  · refine ⟨rfl, rfl, rfl, before ++ [.rollback], h, ?_⟩
    simp [hl]
  · refine ⟨rfl, rfl, rfl, before ++ [.rollback], .lost hf h, ?_⟩
    simp [hl]

theorem runTransaction_traces (l : Logged T) (s : S) :
    Traces l.calls (runTransaction l s) (runTransaction l.tx s) := by
  have hp : prepare l s = Logged.note .prepare (prepare l.tx s) l.calls := rfl
  unfold runTransaction
  rw [hp, Logged.note]
  rcases prepare l.tx s with ⟨_ | _, tx₁, s₁⟩
  swap
  · exact rollbackOr_traces [.prepare] (by decide) rfl .prepareFailed
  have hv : validate (⟨tx₁, l.calls ++ [.prepare]⟩ : Logged T) s₁ =
      Logged.note .validate (validate tx₁ s₁) (l.calls ++ [.prepare]) := rfl
  simp only
  rw [hv, Logged.note]
  rcases validate tx₁ s₁ with ⟨_ | _, tx₂, s₂⟩
  swap
  · exact rollbackOr_traces [.prepare, .validate] (by decide) (List.append_assoc _ _ _)
      .validationFailed
  have hc : commit (⟨tx₂, l.calls ++ [.prepare] ++ [.validate]⟩ : Logged T) s₂ =
      Logged.note .commit (commit tx₂ s₂) (l.calls ++ [.prepare] ++ [.validate]) := rfl
  simp only
  rw [hc, Logged.note]
  rcases commit tx₂ s₂ with ⟨_ | _, tx₃, s₃⟩
  swap
  · refine rollbackOr_traces [.prepare, .validate, .commit] (by decide) ?_ .commitFailed
    simp only [List.append_assoc]
    rfl
  refine ⟨rfl, rfl, rfl, _, .committed, ?_⟩
  simp only [release, List.append_assoc]
  rfl

/-- Reconfigurations of the object leave its log alone. -/
def Logged.map (f : T → T) (l : Logged T) : Logged T := ⟨f l.tx, l.calls⟩

def Run.erase (r : Run (Logged T)) : Run T := ⟨r.tx.tx, r.outcome⟩

/-- A sequence of logged runs is the sequence of runs, with one script a run. -/
theorem runAll_traces (choices : List (T → T)) : ∀ (l : Logged T) (s : S),
    let r := runAll (choices.map Logged.map) l s
    let plain := runAll choices l.tx s
    r.1.map Run.erase = plain.1 ∧ r.2.1.tx = plain.2.1 ∧ r.2.2 = plain.2.2 ∧
      ∃ scripts, List.Forall₂ (fun run script => Script run.outcome script) plain.1 scripts ∧
        r.2.1.calls = l.calls ++ scripts.flatten := by
  induction choices with
  | nil =>
      intro l s
      exact ⟨rfl, rfl, rfl, [], .nil, by simp [runAll]⟩
  | cons choose rest ih =>
      intro l s
      simp only [List.map_cons, runAll]
      have ht := runTransaction_traces (Logged.map choose l) s
      rcases hp : runTransaction (choose l.tx) s with ⟨outcome, tx', s'⟩
      rcases hl : runTransaction (Logged.map choose l) s with ⟨o, l', t'⟩
      rw [hl, show (Logged.map choose l).tx = choose l.tx from rfl, hp] at ht
      obtain ⟨rfl, rfl, rfl, script, hscript, hcalls⟩ := ht
      simp only at hscript hcalls
      by_cases hlost : o = .rollbackFailed
      · subst hlost
        exact ⟨rfl, rfl, rfl, [script], .cons hscript .nil, by simpa [Logged.map] using hcalls⟩
      · obtain ⟨h₁, h₂, h₃, scripts, hs, hc⟩ := ih l' t'
        have hrun : runAll (List.map Logged.map rest) l' t' =
            ((runAll (rest.map Logged.map) l' t').1, (runAll (rest.map Logged.map) l' t').2) := rfl
        cases o with
        | rollbackFailed => exact absurd rfl hlost
        | committed | prepareFailed | validationFailed | commitFailed =>
            refine ⟨?_, h₂, h₃, script :: scripts, .cons hscript hs, ?_⟩
            · exact congrArg₂ List.cons rfl h₁
            · simp only [List.flatten_cons]
              rw [hc, hcalls, List.append_assoc]
              rfl

end Log

/-- What the phases of an implementation promise about the live representation.
`building` holds while scratch state may exist beside the one that was live when
the run began, `ready` once the scratch is validated. -/
structure Contract (T S L : Type) [Transaction T S] where
  live : S → L
  clean : S → Prop
  effect : T → L → L
  building : T → L → T → S → Prop
  ready : T → L → T → S → Prop
  prepares : ∀ tx s, clean s → building tx (live s) (prepare tx s).2.1 (prepare tx s).2.2
  validates : ∀ {tx₀ l tx s}, building tx₀ l tx s → (validate tx s).1 = .ok →
    ready tx₀ l (validate tx s).2.1 (validate tx s).2.2
  rejects : ∀ {tx₀ l tx s}, building tx₀ l tx s → (validate tx s).1 = .failed →
    building tx₀ l (validate tx s).2.1 (validate tx s).2.2
  commits : ∀ {tx₀ l tx s}, ready tx₀ l tx s → (commit tx s).1 = .ok →
    live (release (commit tx s).2.1 (commit tx s).2.2).2 = effect tx₀ l ∧
      clean (release (commit tx s).2.1 (commit tx s).2.2).2
  aborts : ∀ {tx₀ l tx s}, ready tx₀ l tx s → (commit tx s).1 = .failed →
    building tx₀ l (commit tx s).2.1 (commit tx s).2.2
  restores : ∀ {tx₀ l tx s}, building tx₀ l tx s → (rollback tx s).1 = .ok →
    live (rollback tx s).2.2 = l ∧ clean (rollback tx s).2.2

namespace Contract
variable {T S L : Type} [Transaction T S] (c : Contract T S L)

/-- A run as one atomic step on the live representation. -/
def settle (run : Run T) (l : L) : L :=
  if run.outcome = .committed then c.effect run.tx l else l

theorem rollbackOr_restores {tx₀ tx : T} {l : L} {s : S} {failure : TransitionOutcome}
    (hb : c.building tx₀ l tx s) (hf : failure ≠ .committed)
    (h : (rollbackOr tx s failure).1 ≠ .rollbackFailed) :
    c.live (rollbackOr tx s failure).2.2 = c.settle ⟨tx₀, (rollbackOr tx s failure).1⟩ l ∧
      c.clean (rollbackOr tx s failure).2.2 := by
  have hr := c.restores hb
  unfold rollbackOr at h ⊢
  rcases hroll : rollback tx s with ⟨_ | _, tx', s'⟩
  · rw [hroll] at hr
    rw [settle, if_neg hf]
    exact hr rfl
  · rw [hroll] at h
    exact absurd rfl h

theorem runTransaction_settles (tx : T) {s : S} (hs : c.clean s)
    (h : (runTransaction tx s).1 ≠ .rollbackFailed) :
    c.live (runTransaction tx s).2.2 = c.settle ⟨tx, (runTransaction tx s).1⟩ (c.live s) ∧
      c.clean (runTransaction tx s).2.2 := by
  have hb := c.prepares tx s hs
  unfold runTransaction at h ⊢
  rcases hp : prepare tx s with ⟨_ | _, tx₁, s₁⟩
  · rw [hp] at hb
    simp only [hp] at h ⊢
    have hready := c.validates hb
    have hreject := c.rejects hb
    simp only at hready hreject
    rcases hv : validate tx₁ s₁ with ⟨_ | _, tx₂, s₂⟩
    · rw [hv] at hready
      simp only [hv] at h ⊢
      have hcommit := c.commits (hready rfl)
      have habort := c.aborts (hready rfl)
      simp only at hcommit habort
      rcases hc : commit tx₂ s₂ with ⟨_ | _, tx₃, s₃⟩
      · rw [hc] at hcommit
        rw [settle, if_pos rfl]
        exact hcommit rfl
      · rw [hc] at habort
        simp only [hc] at h ⊢
        exact c.rollbackOr_restores (habort rfl) (by decide) h
    · rw [hv] at hreject
      simp only [hv] at h ⊢
      exact c.rollbackOr_restores (hreject rfl) (by decide) h
  · rw [hp] at hb
    simp only [hp] at h ⊢
    exact c.rollbackOr_restores hb (by decide) h

end Contract

section Runs
variable {T S L : Type} [Transaction T S]

theorem runAll_cons (choose : T → T) (rest : List (T → T)) (tx : T) (s : S) :
    runAll (choose :: rest) tx s =
      let r := runTransaction (choose tx) s
      if r.1 = .rollbackFailed then ([⟨choose tx, .rollbackFailed⟩], r.2)
      else (⟨choose tx, r.1⟩ :: (runAll rest r.2.1 r.2.2).1, (runAll rest r.2.1 r.2.2).2) := by
  rw [runAll]
  rcases runTransaction (choose tx) s with ⟨outcome, tx', s'⟩
  cases outcome with
  | rollbackFailed => rfl
  | committed | prepareFailed | validationFailed | commitFailed => rfl

/-- Only the last run can have lost its state. -/
theorem runAll_stops (choices : List (T → T)) : ∀ (tx : T) (s : S),
    ∀ run ∈ (runAll choices tx s).1.dropLast, run.outcome ≠ .rollbackFailed := by
  induction choices with
  | nil => simp [runAll]
  | cons choose rest ih =>
      intro tx s
      rw [runAll_cons]
      simp only
      split
      · simp
      · next h =>
          intro run hrun
          simp only at hrun
          cases hs : (runAll rest (runTransaction (choose tx) s).2.1
              (runTransaction (choose tx) s).2.2).1 with
          | nil =>
              rw [hs] at hrun
              simp at hrun
          | cons x xs =>
              rw [hs, List.dropLast_cons_cons, ← hs] at hrun
              rcases List.mem_cons.mp hrun with rfl | hrun
              · exact h
              · exact ih _ _ run hrun

theorem runAll_settles (c : Contract T S L) (choices : List (T → T)) : ∀ (tx : T) (s : S),
    c.clean s → (∀ run ∈ (runAll choices tx s).1, run.outcome ≠ .rollbackFailed) →
      (runAll choices tx s).1.length = choices.length ∧ c.clean (runAll choices tx s).2.2 ∧
      c.live (runAll choices tx s).2.2 =
        (runAll choices tx s).1.foldl (fun l run => c.settle run l) (c.live s) := by
  induction choices with
  | nil =>
      intro tx s hs _
      exact ⟨rfl, hs, rfl⟩
  | cons choose rest ih =>
      intro tx s hs h
      rw [runAll_cons] at h ⊢
      simp only at h ⊢
      by_cases hlost : (runTransaction (choose tx) s).1 = .rollbackFailed
      · rw [if_pos hlost] at h
        exact absurd rfl (h _ List.mem_cons_self)
      · rw [if_neg hlost] at h ⊢
        obtain ⟨hlive, hclean⟩ := c.runTransaction_settles (choose tx) hs hlost
        obtain ⟨hlen, hc, hl⟩ := ih (runTransaction (choose tx) s).2.1 _ hclean
          fun run hrun => h run (List.mem_cons_of_mem _ hrun)
        refine ⟨by rw [List.length_cons, List.length_cons, hlen], hc, ?_⟩
        rw [hl, hlive]
        rfl

theorem count_scripts {runs : List (Run T)} {scripts : List (List Phase)}
    (h : List.Forall₂ (fun run script => Script run.outcome script) runs scripts) :
    scripts.flatten.count .rollback = runs.countP (fun run => run.outcome ≠ .committed) ∧
      scripts.flatten.count .release = runs.countP (fun run => run.outcome = .committed) := by
  induction h with
  | nil => exact ⟨rfl, rfl⟩
  | @cons run script runs scripts hr _ ih =>
      rw [List.flatten_cons, List.count_append, List.count_append, List.countP_cons,
        List.countP_cons, ih.1, ih.2, hr.rollbacks.1, hr.rollbacks.2]
      by_cases hc : run.outcome = .committed
      · simp [hc, Nat.add_comm]
      · simp [hc, Nat.add_comm]

/-- Any sequence of runs, of one object or of many, over one state. Each run
calls its phases in order, rolls back exactly once if one fails and releases
exactly once if none does; a run that loses the state is the last. Short of
that, the state is clean and its live representation is the one that the
committed runs alone produce, each as a single step. -/
theorem transactions_atomic (c : Contract T S L) (choices : List (T → T)) (tx : T) (s : S)
    (hs : c.clean s) :
    let r := runAll (choices.map Logged.map) ⟨tx, []⟩ s
    let runs := r.1.map Run.erase
    (∃ scripts, List.Forall₂ (fun run script => Script run.outcome script) runs scripts ∧
      r.2.1.calls = scripts.flatten) ∧
    r.2.1.calls.count .rollback = runs.countP (fun run => run.outcome ≠ .committed) ∧
    r.2.1.calls.count .release = runs.countP (fun run => run.outcome = .committed) ∧
    (∀ run ∈ runs.dropLast, run.outcome ≠ .rollbackFailed) ∧
    ((∀ run ∈ runs, run.outcome ≠ .rollbackFailed) →
      runs.length = choices.length ∧ c.clean r.2.2 ∧
      c.live r.2.2 = runs.foldl (fun l run => c.settle run l) (c.live s)) := by
  intro r runs
  obtain ⟨hruns, -, hstate, scripts, hscripts, hcalls⟩ := runAll_traces choices ⟨tx, []⟩ s
  have hruns' : runs = (runAll choices tx s).1 := hruns
  have hstate' : r.2.2 = (runAll choices tx s).2.2 := hstate
  have hcalls' : r.2.1.calls = scripts.flatten := hcalls
  obtain ⟨hrollback, hrelease⟩ := count_scripts hscripts
  rw [hruns', hstate', hcalls']
  exact ⟨⟨scripts, hscripts, rfl⟩, hrollback, hrelease, runAll_stops choices tx s,
    runAll_settles c choices tx s hs⟩

end Runs

section Flip

structure RepState where
  live : UInt8
  scratch : Option UInt8
  released : Bool
deriving DecidableEq, Repr

/-- The transaction of the source's tests: it flips the live byte, and its
switches make single phases fail. -/
structure FlipTx where
  failPrepareAfterScratch : Bool
  failValidate : Bool
  failCommit : Bool
  failRollback : Bool
  rollbackCalls : ℕ
deriving DecidableEq, Repr

def outcomeOf (failed : Bool) : PhaseOutcome := if failed then .failed else .ok

/-- COMMIT takes the scratch byte; without one, which VALIDATE excludes, the
source panics. -/
instance : Transaction FlipTx RepState where
  prepare tx s := (outcomeOf tx.failPrepareAfterScratch, tx,
    { s with scratch := some (s.live ^^^ 0xFF) })
  validate tx s := (outcomeOf (tx.failValidate || s.scratch.isNone), tx, s)
  commit tx s :=
    if tx.failCommit then (.failed, tx, s)
    else (.ok, tx, { s with live := s.scratch.getD s.live, scratch := none })
  rollback tx s :=
    let tx := { tx with rollbackCalls := tx.rollbackCalls + 1 }
    if tx.failRollback then (.failed, tx, s) else (.ok, tx, { s with scratch := none })
  release tx s := (tx, { s with released := true })

theorem outcomeOf_eq_ok {b : Bool} : outcomeOf b = .ok ↔ b = false := by
  cases b <;> decide

def flipContract : Contract FlipTx RepState UInt8 where
  live s := s.live
  clean s := s.scratch = none
  effect _ l := l ^^^ 0xFF
  building _ l _ s := s.live = l ∧ ∀ x ∈ s.scratch, x = l ^^^ 0xFF
  ready _ l _ s := s.live = l ∧ s.scratch = some (l ^^^ 0xFF)
  prepares tx s _ := ⟨rfl, fun x hx => (Option.mem_some.mp hx).symm⟩
  validates := by
    intro tx₀ l tx s hb h
    obtain ⟨hl, hx⟩ := hb
    have hs : tx.failValidate = false ∧ s.scratch.isNone = false := by
      simpa using outcomeOf_eq_ok.mp h
    obtain ⟨x, hsx⟩ := Option.isSome_iff_exists.mp (by simpa using hs.2)
    exact ⟨hl, by rw [← hx x hsx]; exact hsx⟩
  rejects := by
    intro tx₀ l tx s hb _
    exact hb
  commits := by
    intro tx₀ l tx s hr h
    simp only [commit, release] at h ⊢
    split at h
    · cases h
    · next hf =>
        rw [if_neg hf]
        exact ⟨by rw [hr.2]; rfl, rfl⟩
  aborts := by
    intro tx₀ l tx s hr h
    simp only [commit] at h ⊢
    split at h
    · next hf =>
        rw [if_pos hf]
        exact ⟨hr.1, fun x hx => by rw [hr.2] at hx; exact (Option.mem_some.mp hx).symm⟩
    · cases h
  restores := by
    intro tx₀ l tx s hb h
    simp only [rollback] at h ⊢
    split at h
    · cases h
    · next hf =>
        rw [if_neg hf]
        exact ⟨hb.1, rfl⟩

/-- A failed validation and then, with the same object, a commit. -/
def flipChoices : List (FlipTx → FlipTx) :=
  [fun tx => { tx with failValidate := true }, fun tx => { tx with failValidate := false }]

theorem transactions_atomic_flips :
    let s : RepState := ⟨1, none, false⟩
    let r := runAll (flipChoices.map Logged.map) ⟨⟨false, false, false, false, 0⟩, []⟩ s
    (r.1.map Run.erase).length = 2 ∧
      r.2.1.calls.count .rollback = 1 ∧ flipContract.live r.2.2 = 0xFE := by
  have h := transactions_atomic flipContract flipChoices ⟨false, false, false, false, 0⟩
    ⟨1, none, false⟩ rfl
  obtain ⟨-, hrollback, -, -, hlast⟩ := h
  obtain ⟨hlen, -, hlive⟩ := hlast (by decide)
  exact ⟨hlen, hrollback.trans (by decide), hlive.trans (by decide)⟩

end Flip
end SlhaV2.PhasedTransactions
