import SlhaV2.AtomicPrograms
import SlhaV2.PrefixChecks
import Mathlib.Logic.Relation

/-!
# Validated tier machines

A tier machine is a list of named, ranked tiers and a list of directed edges
between them. Building one checks the graph, so a machine carries the check it
passed; a typed state carries that its tier is one the machine knows. What the
machine is for is the graph its builder was given, read by name alone: the
states one can be moved to are the ends of its walks, and no others.
-/
namespace SlhaV2.TierGraphs
open PrefixChecks
open AtomicPrograms (bind_eq_ok)

@[ext]
structure Tier where
  name : String
  rank : UInt8
deriving DecidableEq, Repr

structure TierTransition where
  source : Tier
  destination : Tier
deriving DecidableEq, Repr

inductive TierError where
  | transitionNotAllowed (source destination : String)
  | unknownTier (name : String)
  | tierDescriptorMismatch (name : String) (expectedRank actualRank : UInt8)
  | duplicateTier (name : String)
  | duplicateTransition (source destination : String)
deriving DecidableEq, Repr

def findTier (tiers : List Tier) (name : String) : Option Tier :=
  tiers.find? fun tier => tier.name = name

def validateDescriptor (tiers : List Tier) (tier : Tier) : Except TierError Unit :=
  match findTier tiers tier.name with
  | none => .error (.unknownTier tier.name)
  | some canonical =>
    if canonical.rank ≠ tier.rank then
      .error (.tierDescriptorMismatch tier.name canonical.rank tier.rank)
    else .ok ()

/-- One turn of the first loop of `try_new`: the name is new. -/
def checkTier (seen : List Tier) (tier : Tier) : Except TierError Unit :=
  if seen.any fun candidate => candidate.name = tier.name then
    .error (.duplicateTier tier.name)
  else .ok ()

/-- One turn of the second loop: both ends are declared and the edge is new. -/
def checkTransition (tiers : List Tier) (seen : List TierTransition) (t : TierTransition) :
    Except TierError Unit := do
  validateDescriptor tiers t.source
  validateDescriptor tiers t.destination
  if seen.contains t then
    .error (.duplicateTransition t.source.name t.destination.name)
  else .ok ()

def checkGraph (tiers : List Tier) (transitions : List TierTransition) :
    Except TierError Unit := do
  checkEach checkTier [] tiers
  checkEach (checkTransition tiers) [] transitions

/-- The fields are private in the source: every machine has passed the check. -/
structure TierMachine where
  tiers : List Tier
  transitions : List TierTransition
  checked : checkGraph tiers transitions = .ok ()

namespace TierMachine

def tryNew (tiers : List Tier) (transitions : List TierTransition) :
    Except TierError TierMachine :=
  match h : checkGraph tiers transitions with
  | .error e => .error e
  | .ok () => .ok ⟨tiers, transitions, h⟩

def find (m : TierMachine) (name : String) : Option Tier := findTier m.tiers name

/-- A move between exact descriptors. -/
def transition (m : TierMachine) (source destination : Tier) : Except TierError Unit := do
  validateDescriptor m.tiers source
  validateDescriptor m.tiers destination
  if m.transitions.any fun t => t.source = source ∧ t.destination = destination then .ok ()
  else .error (.transitionNotAllowed source.name destination.name)

end TierMachine

/-- A name resolved to its descriptor by `machine_from_lists`. -/
def resolve (tiers : List Tier) (name : String) : Except TierError Tier :=
  match findTier tiers name with
  | none => .error (.unknownTier name)
  | some tier => .ok tier

def resolveEdge (tiers : List Tier) (edge : String × String) : Except TierError TierTransition := do
  let source ← resolve tiers edge.1
  let destination ← resolve tiers edge.2
  return ⟨source, destination⟩

def tierList (tiers : List (String × UInt8)) : List Tier := tiers.map fun t => ⟨t.1, t.2⟩

def machineFromLists (tiers : List (String × UInt8)) (edges : List (String × String)) :
    Except TierError TierMachine := do
  let transitions ← edges.mapM (resolveEdge (tierList tiers))
  TierMachine.tryNew (tierList tiers) transitions

/-- The bridge from a user's tier type. -/
class TierLike (T : Type) where
  asTier : T → Tier

section State
variable {T : Type} [TierLike T]

/-- Built only around a descriptor that the machine knows. -/
structure TierState (T : Type) [TierLike T] where
  current : T
  machine : TierMachine
  known : validateDescriptor machine.tiers (TierLike.asTier current) = .ok ()

namespace TierState

def new (current : T) (machine : TierMachine) : Except TierError (TierState T) :=
  match h : validateDescriptor machine.tiers (TierLike.asTier current) with
  | .error e => .error e
  | .ok () => .ok ⟨current, machine, h⟩

end TierState
end State

theorem bind_eq_error {α β ε : Type} {x : Except ε α} {f : α → Except ε β} {e : ε} :
    (x >>= f) = .error e ↔ x = .error e ∨ ∃ a, x = .ok a ∧ f a = .error e := by
  cases x with
  | error e' => simp [bind, Except.bind]
  | ok a => simp [bind, Except.bind]

theorem transition_ok {m : TierMachine} {a b : Tier} (h : m.transition a b = .ok ()) :
    validateDescriptor m.tiers b = .ok () := by
  unfold TierMachine.transition at h
  rw [bind_eq_ok] at h
  obtain ⟨_, _, h⟩ := h
  rw [bind_eq_ok] at h
  exact h.choose_spec.1

section State
variable {T : Type} [TierLike T]

namespace TierState

/-- A refused move leaves the state as it was. -/
def tryMove (s : TierState T) (dest : T) : Except TierError Unit × TierState T :=
  match h : s.machine.transition (TierLike.asTier s.current) (TierLike.asTier dest) with
  | .error e => (.error e, s)
  | .ok () => (.ok (), ⟨dest, s.machine, transition_ok h⟩)

/-- One request after another, whatever each of them answers. -/
def tryMoves (s : TierState T) (moves : List T) : TierState T :=
  moves.foldl (fun s dest => (s.tryMove dest).2) s

end TierState
end State

section Descriptors
variable {tiers : List Tier} {t : Tier} {name : String}

def Distinct (tiers : List Tier) : Prop := (tiers.map Tier.name).Nodup

theorem Distinct.eq {u : Tier} (h : Distinct tiers) (ht : t ∈ tiers) (hu : u ∈ tiers)
    (hn : t.name = u.name) : t = u := List.inj_on_of_nodup_map h ht hu hn

theorem findTier_eq_none : findTier tiers name = none ↔ name ∉ tiers.map Tier.name := by
  simp [findTier]

theorem findTier_mem (h : findTier tiers name = some t) : t ∈ tiers ∧ t.name = name :=
  ⟨List.mem_of_find?_eq_some h, by simpa using List.find?_some h⟩

theorem findTier_eq_some (h : Distinct tiers) :
    findTier tiers name = some t ↔ t ∈ tiers ∧ t.name = name := by
  constructor
  · exact findTier_mem
  · intro ht
    cases hf : findTier tiers name with
    | none =>
        rw [findTier_eq_none] at hf
        exact absurd (List.mem_map.mpr ⟨t, ht⟩) hf
    | some u =>
        have hu := findTier_mem hf
        rw [h.eq hu.1 ht.1 (hu.2.trans ht.2.symm)]

/-- What refusing a descriptor says about it. -/
def Unfit (tiers : List Tier) (t : Tier) : TierError → Prop
  | .unknownTier name => t.name = name ∧ name ∉ tiers.map Tier.name
  | .tierDescriptorMismatch name expected actual =>
    t = ⟨name, actual⟩ ∧ ⟨name, expected⟩ ∈ tiers ∧ expected ≠ actual
  | _ => False

theorem validateDescriptor_eq_ok (h : Distinct tiers) :
    validateDescriptor tiers t = .ok () ↔ t ∈ tiers := by
  unfold validateDescriptor
  cases hf : findTier tiers t.name with
  | none =>
      rw [findTier_eq_none] at hf
      constructor
      · intro hok
        cases hok
      · intro ht
        exact absurd (List.mem_map_of_mem ht) hf
  | some u =>
      have hu := (findTier_eq_some h).mp hf
      constructor
      · intro hok
        by_cases hr : u.rank = t.rank
        · rw [← show u = t from Tier.ext hu.2 hr]
          exact hu.1
        · simp only [if_pos (show u.rank ≠ t.rank from hr)] at hok
          cases hok
      · intro ht
        rw [h.eq hu.1 ht hu.2]
        exact if_neg (not_not.mpr rfl)

theorem validateDescriptor_error {e : TierError} (h : validateDescriptor tiers t = .error e) :
    Unfit tiers t e := by
  unfold validateDescriptor at h
  cases hf : findTier tiers t.name with
  | none =>
      rw [hf] at h
      cases h
      exact ⟨rfl, findTier_eq_none.mp hf⟩
  | some u =>
      rw [hf] at h
      have hu := findTier_mem hf
      by_cases hr : u.rank = t.rank
      · simp only [if_neg (not_not.mpr hr)] at h
        cases h
      · simp only [if_pos (show u.rank ≠ t.rank from hr)] at h
        cases h
        refine ⟨rfl, ?_, hr⟩
        rw [← hu.2]
        exact hu.1

end Descriptors

/-- A graph with one descriptor for each name, one edge for each pair and both
ends of every edge declared. -/
structure Graph (tiers : List Tier) (transitions : List TierTransition) : Prop where
  distinct : Distinct tiers
  simple : transitions.Nodup
  declared : ∀ t ∈ transitions, t.source ∈ tiers ∧ t.destination ∈ tiers

section Checks
variable {tiers : List Tier} {transitions seen : List TierTransition} {t : TierTransition}

theorem checkTier_eq_ok {seen : List Tier} {tier : Tier} :
    checkTier seen tier = .ok () ↔ ∀ u ∈ seen, u.name ≠ tier.name := by
  unfold checkTier
  by_cases h : (seen.any fun candidate => candidate.name = tier.name) = true
  · rw [if_pos h]
    constructor
    · intro hok
      cases hok
    · intro hn
      obtain ⟨u, hu, he⟩ := List.any_eq_true.mp h
      exact absurd (of_decide_eq_true he) (hn u hu)
  · rw [if_neg h]
    simpa using h

theorem checkTiers_eq_ok : checkEach checkTier [] tiers = .ok () ↔ Distinct tiers := by
  unfold Distinct
  rw [checkEach_eq_ok, nodup_map_iff]
  simp only [List.nil_append, checkTier_eq_ok]

theorem checkTransition_eq_ok (h : Distinct tiers) : checkTransition tiers seen t = .ok () ↔
    (t.source ∈ tiers ∧ t.destination ∈ tiers) ∧ t ∉ seen := by
  unfold checkTransition
  rw [bind_eq_ok]
  simp only [bind_eq_ok, validateDescriptor_eq_ok h]
  by_cases hs : seen.contains t = true
  · have hm : t ∈ seen := by simpa using hs
    simp [hm]
  · have hm : t ∉ seen := by simpa using hs
    simp [hm]

/-- The check accepts exactly the graphs. -/
theorem checkGraph_eq_ok : checkGraph tiers transitions = .ok () ↔ Graph tiers transitions := by
  unfold checkGraph
  rw [bind_eq_ok]
  constructor
  · rintro ⟨_, hd, h⟩
    replace hd := checkTiers_eq_ok.mp hd
    rw [checkEach_eq_ok] at h
    simp only [List.nil_append, checkTransition_eq_ok hd] at h
    refine ⟨hd, ?_, ?_⟩
    · have hn : (transitions.map id).Nodup := by
        rw [nodup_map_iff]
        intro before x after hx y hy he
        have hxy : y = x := he
        exact (h before x after hx).2 (by rwa [hxy] at hy)
      rwa [List.map_id] at hn
    · intro x hx
      obtain ⟨before, after, hx⟩ := List.append_of_mem hx
      exact (h before x after hx).1
  · intro h
    refine ⟨(), checkTiers_eq_ok.mpr h.distinct, ?_⟩
    rw [checkEach_eq_ok]
    intro before x after hx
    rw [List.nil_append, checkTransition_eq_ok h.distinct]
    refine ⟨h.declared x (by rw [hx]; simp), ?_⟩
    intro hm
    have hn := h.simple
    rw [hx, List.nodup_append] at hn
    exact hn.2.2 x hm x List.mem_cons_self rfl

theorem tryNew_eq_ok {m : TierMachine} : TierMachine.tryNew tiers transitions = .ok m ↔
    m.tiers = tiers ∧ m.transitions = transitions := by
  unfold TierMachine.tryNew
  constructor
  · intro h
    split at h
    · cases h
    · cases h
      exact ⟨rfl, rfl⟩
  · rintro ⟨rfl, rfl⟩
    split
    · next e he => exact absurd (he.symm.trans m.checked) (by simp)
    · rfl

theorem tryNew_eq_error {e : TierError} : TierMachine.tryNew tiers transitions = .error e ↔
    checkGraph tiers transitions = .error e := by
  unfold TierMachine.tryNew
  split
  · next e' he => simp [he]
  · next he => simp [he]

end Checks

namespace TierMachine
variable {m : TierMachine} {a b : Tier}

theorem graph (m : TierMachine) : Graph m.tiers m.transitions := checkGraph_eq_ok.mp m.checked

theorem transition_eq_ok : m.transition a b = .ok () ↔ ⟨a, b⟩ ∈ m.transitions := by
  have hmem : (m.transitions.any fun t => t.source = a ∧ t.destination = b) = true ↔
      ⟨a, b⟩ ∈ m.transitions := by
    rw [List.any_eq_true]
    constructor
    · rintro ⟨⟨_, _⟩, ht, he⟩
      obtain ⟨rfl, rfl⟩ := of_decide_eq_true he
      exact ht
    · intro h
      exact ⟨⟨a, b⟩, h, by simp⟩
  unfold transition
  simp only [bind_eq_ok, validateDescriptor_eq_ok m.graph.distinct, exists_const]
  constructor
  · rintro ⟨_, _, h⟩
    split at h
    · next hm => exact hmem.mp hm
    · cases h
  · intro h
    refine ⟨(m.graph.declared _ h).1, (m.graph.declared _ h).2, ?_⟩
    rw [if_pos (hmem.mpr h)]

/-- Why a machine refuses to move from a tier it knows. -/
def Refuses (m : TierMachine) (a b : Tier) (e : TierError) : Prop :=
  Unfit m.tiers b e ∨
    (b ∈ m.tiers ∧ ⟨a, b⟩ ∉ m.transitions ∧ e = .transitionNotAllowed a.name b.name)

theorem transition_error {e : TierError} (ha : validateDescriptor m.tiers a = .ok ())
    (h : m.transition a b = .error e) : m.Refuses a b e := by
  have hne : ⟨a, b⟩ ∉ m.transitions := by
    rw [← transition_eq_ok, h]
    simp
  unfold transition at h
  simp only [bind_eq_error, ha] at h
  rcases h with h | ⟨_, _, h | ⟨_, hb, h⟩⟩
  · cases h
  · exact Or.inl (validateDescriptor_error h)
  · split at h
    · cases h
    · cases h
      exact Or.inr ⟨(validateDescriptor_eq_ok m.graph.distinct).mp hb, hne, rfl⟩

end TierMachine

section Walks
variable {T : Type} [TierLike T] {s : TierState T} {dest goal : T}

/-- The graph of a machine, on the user's tiers. -/
def TierMachine.Edge (T : Type) [TierLike T] (m : TierMachine) (a b : T) : Prop :=
  ⟨TierLike.asTier a, TierLike.asTier b⟩ ∈ m.transitions

namespace TierState

/-- A request moves the state along an edge or is refused for a reason. -/
theorem tryMove_cases (s : TierState T) (dest : T) :
    (s.machine.Edge T s.current dest ∧ (s.tryMove dest).1 = .ok () ∧
      (s.tryMove dest).2.current = dest ∧ (s.tryMove dest).2.machine = s.machine) ∨
    ∃ e, ¬ s.machine.Edge T s.current dest ∧ s.tryMove dest = (.error e, s) ∧
      s.machine.Refuses (TierLike.asTier s.current) (TierLike.asTier dest) e := by
  unfold tryMove
  split
  · next e h =>
      refine Or.inr ⟨e, ?_, rfl, TierMachine.transition_error s.known h⟩
      intro he
      rw [TierMachine.transition_eq_ok.mpr he] at h
      cases h
  · next h => exact Or.inl ⟨TierMachine.transition_eq_ok.mp h, rfl, rfl, rfl⟩

@[simp] theorem machine_tryMove : (s.tryMove dest).2.machine = s.machine := by
  rcases s.tryMove_cases dest with ⟨_, _, _, h⟩ | ⟨e, _, h, _⟩
  · exact h
  · rw [h]

theorem tryMove_edge (h : s.machine.Edge T s.current dest) : (s.tryMove dest).2.current = dest := by
  rcases s.tryMove_cases dest with ⟨_, _, hc, _⟩ | ⟨_, hn, _, _⟩
  · exact hc
  · exact absurd h hn

/-- Whatever is requested, the state walks along edges of its machine. -/
theorem tryMoves_walk (moves : List T) : ∀ s : TierState T,
    Relation.ReflTransGen (s.machine.Edge T) s.current (s.tryMoves moves).current := by
  induction moves with
  | nil => exact fun s => .refl
  | cons d moves ih =>
      intro s
      have hm := ih (s.tryMove d).2
      rw [machine_tryMove] at hm
      rcases s.tryMove_cases d with ⟨he, _, hc, _⟩ | ⟨_, _, hs, _⟩
      · rw [hc] at hm
        exact .head he hm
      · rw [hs] at hm
        show Relation.ReflTransGen _ _ (TierState.tryMoves (s.tryMove d).2 moves).current
        rw [hs]
        exact hm

/-- Every walk is taken by requesting its tiers in order. -/
theorem exists_moves {m : TierMachine} {start : T}
    (h : Relation.ReflTransGen (m.Edge T) start goal) :
    ∃ moves, ∀ s : TierState T, s.machine = m → s.current = start →
      (s.tryMoves moves).current = goal := by
  induction h using Relation.ReflTransGen.head_induction_on with
  | refl => exact ⟨[], fun s _ hs => hs⟩
  | @head a b hab _ ih =>
      obtain ⟨moves, hmoves⟩ := ih
      refine ⟨b :: moves, ?_⟩
      intro s hm hs
      apply hmoves (s.tryMove b).2 (machine_tryMove.trans hm)
      apply tryMove_edge
      rw [hm, hs]
      exact hab

theorem reaches_iff (s : TierState T) (goal : T) : (∃ moves, (s.tryMoves moves).current = goal) ↔
    Relation.ReflTransGen (s.machine.Edge T) s.current goal := by
  constructor
  · rintro ⟨moves, rfl⟩
    exact s.tryMoves_walk moves
  · intro h
    obtain ⟨moves, hmoves⟩ := exists_moves h
    exact ⟨moves, hmoves s rfl rfl⟩

end TierState
end Walks

section Lists
variable {tiers : List (String × UInt8)} {edges : List (String × String)}
variable {transitions : List TierTransition}

def TierTransition.names (t : TierTransition) : String × String :=
  (t.source.name, t.destination.name)

theorem names_tierList : (tierList tiers).map Tier.name = tiers.map Prod.fst := by
  rw [tierList, List.map_map]
  rfl

theorem resolve_eq_error {ts : List Tier} {name : String} {e : TierError}
    (h : resolve ts name = .error e) : name ∉ ts.map Tier.name ∧ e = .unknownTier name := by
  unfold resolve at h
  cases hf : findTier ts name with
  | none =>
      rw [hf] at h
      cases h
      exact ⟨findTier_eq_none.mp hf, rfl⟩
  | some t =>
      rw [hf] at h
      cases h

theorem resolve_eq_ok {ts : List Tier} {name : String} {t : Tier} (h : resolve ts name = .ok t) :
    t ∈ ts ∧ t.name = name := by
  unfold resolve at h
  cases hf : findTier ts name with
  | none =>
      rw [hf] at h
      cases h
  | some u =>
      rw [hf] at h
      cases h
      exact findTier_mem hf

/-- The list of descriptors stands for the list of names. -/
structure Resolved (ts : List Tier) (edges : List (String × String))
    (transitions : List TierTransition) : Prop where
  names : transitions.map TierTransition.names = edges
  declared : ∀ t ∈ transitions, t.source ∈ ts ∧ t.destination ∈ ts

theorem resolved_of_mapM {ts : List Tier}
    (h : edges.mapM (resolveEdge ts) = .ok transitions) : Resolved ts edges transitions := by
  rw [mapM_eq_ok] at h
  induction h with
  | nil => exact ⟨rfl, by simp⟩
  | @cons e t es rest he _ ih =>
      unfold resolveEdge at he
      simp only [bind_eq_ok, pure, Except.pure] at he
      obtain ⟨a, ha, b, hb, ht⟩ := he
      cases ht
      have ha' := resolve_eq_ok ha
      have hb' := resolve_eq_ok hb
      constructor
      · rw [List.map_cons, ih.names, TierTransition.names, ha'.2, hb'.2]
      · intro u hu
        rcases List.mem_cons.mp hu with rfl | hu
        · exact ⟨ha'.1, hb'.1⟩
        · exact ih.declared u hu

theorem Resolved.nodup_iff {ts : List Tier} (h : Resolved ts edges transitions)
    (hd : Distinct ts) : transitions.Nodup ↔ edges.Nodup := by
  rw [← h.names]
  constructor
  · intro hn
    apply hn.map_on
    intro x hx y hy he
    obtain ⟨hs, ht⟩ := Prod.mk.inj he
    have hxs := hd.eq (h.declared x hx).1 (h.declared y hy).1 hs
    have hxd := hd.eq (h.declared x hx).2 (h.declared y hy).2 ht
    cases x
    cases y
    simp only at hxs hxd
    rw [hxs, hxd]
  · exact List.Nodup.of_map _

theorem Resolved.mem_iff {ts : List Tier} (h : Resolved ts edges transitions) (hd : Distinct ts)
    {a b : Tier} : ⟨a, b⟩ ∈ transitions ↔ (a ∈ ts ∧ b ∈ ts) ∧ (a.name, b.name) ∈ edges := by
  constructor
  · intro hm
    refine ⟨h.declared _ hm, ?_⟩
    rw [← h.names]
    exact List.mem_map_of_mem hm
  · rintro ⟨⟨ha, hb⟩, he⟩
    rw [← h.names] at he
    obtain ⟨⟨x, y⟩, ht, hn⟩ := List.mem_map.mp he
    obtain ⟨hx, hy⟩ := Prod.mk.inj hn
    have hs := h.declared _ ht
    rw [← hd.eq hs.1 ha hx, ← hd.eq hs.2 hb hy]
    exact ht

/-- What a builder's lists must be: distinct tiers, distinct edges, and tiers
at both ends of every edge. -/
structure Declares (tiers : List (String × UInt8)) (edges : List (String × String)) : Prop where
  distinct : (tiers.map Prod.fst).Nodup
  simple : edges.Nodup
  ends : ∀ e ∈ edges, e.1 ∈ tiers.map Prod.fst ∧ e.2 ∈ tiers.map Prod.fst

/-- What each error of the builder says about its lists. -/
def Defect (tiers : List (String × UInt8)) (edges : List (String × String)) : TierError → Prop
  | .unknownTier name => name ∉ tiers.map Prod.fst ∧ ∃ e ∈ edges, name = e.1 ∨ name = e.2
  | .duplicateTier name =>
    ∃ before rank after, tiers = before ++ (name, rank) :: after ∧ name ∈ before.map Prod.fst
  | .duplicateTransition a b => ∃ before after, edges = before ++ (a, b) :: after ∧ (a, b) ∈ before
  | _ => False

theorem Defect.not_declares {e : TierError} (h : Defect tiers edges e) :
    ¬ Declares tiers edges := by
  intro hd
  cases e with
  | unknownTier name =>
      obtain ⟨hn, e, he, rfl | rfl⟩ := h
      · exact hn (hd.ends e he).1
      · exact hn (hd.ends e he).2
  | duplicateTier name =>
      obtain ⟨before, rank, after, hs, hm⟩ := h
      obtain ⟨y, hy, hn⟩ := List.mem_map.mp hm
      exact (nodup_map_iff Prod.fst).mp hd.distinct before _ after hs y hy hn
  | duplicateTransition a b =>
      obtain ⟨before, after, hs, hm⟩ := h
      have hn := hd.simple
      rw [hs, List.nodup_append] at hn
      exact hn.2.2 _ hm _ List.mem_cons_self rfl
  | transitionNotAllowed => exact h
  | tierDescriptorMismatch => exact h

theorem checkTiers_defect {e : TierError} (h : checkEach checkTier [] (tierList tiers) = .error e) :
    Defect tiers edges e := by
  obtain ⟨before, x, after, hs, _, hx⟩ := checkEach_eq_error h
  unfold checkTier at hx
  split at hx
  · next hany =>
      cases hx
      obtain ⟨u, hu, hn⟩ := List.any_eq_true.mp hany
      obtain ⟨first, rest, htiers, hf, hr⟩ := List.map_eq_append_iff.mp hs
      obtain ⟨y, last, hrest, hy, _⟩ := List.map_eq_cons_iff.mp hr
      rw [List.nil_append, ← hf] at hu
      obtain ⟨z, hz, hzu⟩ := List.mem_map.mp hu
      have hyx : y.1 = x.name := by rw [← hy]
      refine ⟨first, y.2, last, by rw [htiers, hrest, ← hyx], ?_⟩
      rw [← of_decide_eq_true hn, ← hzu]
      exact List.mem_map_of_mem hz
  · cases hx

/-- Descriptors that were looked up fit, so only a repeated edge is refused. -/
theorem checkTransitions_defect {e : TierError} (hd : Distinct (tierList tiers))
    (hr : Resolved (tierList tiers) edges transitions)
    (h : checkEach (checkTransition (tierList tiers)) [] transitions = .error e) :
    Defect tiers edges e := by
  obtain ⟨before, x, after, hs, _, hx⟩ := checkEach_eq_error h
  have hxm := hr.declared x (by rw [hs]; simp)
  have hsrc := (validateDescriptor_eq_ok hd).mpr hxm.1
  have hdst := (validateDescriptor_eq_ok hd).mpr hxm.2
  unfold checkTransition at hx
  simp only [bind_eq_error, hsrc, hdst] at hx
  rcases hx with hx | ⟨_, _, hx | ⟨_, _, hx⟩⟩
  · cases hx
  · cases hx
  · split at hx
    · next hc =>
        cases hx
        rw [List.nil_append, List.contains_iff_mem] at hc
        refine ⟨before.map TierTransition.names, after.map TierTransition.names, ?_, ?_⟩
        · rw [← hr.names, hs, List.map_append, List.map_cons]
          rfl
        · exact List.mem_map_of_mem hc
    · cases hx

theorem machineFromLists_defect {e : TierError} (h : machineFromLists tiers edges = .error e) :
    Defect tiers edges e := by
  unfold machineFromLists at h
  rw [bind_eq_error] at h
  rcases h with h | ⟨transitions, hm, h⟩
  · obtain ⟨edge, he, hr⟩ := mapM_eq_error h
    unfold resolveEdge at hr
    rw [bind_eq_error] at hr
    rcases hr with hr | ⟨_, _, hr⟩
    · obtain ⟨hn, rfl⟩ := resolve_eq_error hr
      rw [names_tierList] at hn
      exact ⟨hn, edge, he, Or.inl rfl⟩
    · rw [bind_eq_error] at hr
      rcases hr with hr | ⟨_, _, hr⟩
      · obtain ⟨hn, rfl⟩ := resolve_eq_error hr
        rw [names_tierList] at hn
        exact ⟨hn, edge, he, Or.inr rfl⟩
      · cases hr
  · rw [tryNew_eq_error] at h
    unfold checkGraph at h
    rw [bind_eq_error] at h
    rcases h with h | ⟨_, hd, h⟩
    · exact checkTiers_defect h
    · exact checkTransitions_defect (checkTiers_eq_ok.mp hd) (resolved_of_mapM hm) h

/-- The graph of a built machine is the one its builder names. -/
theorem machineFromLists_ok {m : TierMachine} (h : machineFromLists tiers edges = .ok m) :
    Declares tiers edges ∧ m.tiers = tierList tiers ∧ ∀ a b, ⟨a, b⟩ ∈ m.transitions ↔
      (a ∈ tierList tiers ∧ b ∈ tierList tiers) ∧ (a.name, b.name) ∈ edges := by
  unfold machineFromLists at h
  rw [bind_eq_ok] at h
  obtain ⟨transitions, hm, h⟩ := h
  obtain ⟨ht, htr⟩ := tryNew_eq_ok.mp h
  have hr := resolved_of_mapM hm
  have hg := m.graph
  rw [ht, htr] at hg
  refine ⟨⟨?_, (hr.nodup_iff hg.distinct).mp hg.simple, ?_⟩, ht, ?_⟩
  · rw [← names_tierList]
    exact hg.distinct
  · intro e he
    rw [← hr.names] at he
    obtain ⟨x, hx, rfl⟩ := List.mem_map.mp he
    rw [← names_tierList]
    exact ⟨List.mem_map_of_mem (hr.declared x hx).1, List.mem_map_of_mem (hr.declared x hx).2⟩
  · intro a b
    rw [htr]
    exact hr.mem_iff hg.distinct

end Lists

/-- Two tiers of the user joined by an edge of the builder's lists. -/
def Adjacent (T : Type) [TierLike T] (tiers : List (String × UInt8))
    (edges : List (String × String)) (a b : T) : Prop :=
  (TierLike.asTier a ∈ tierList tiers ∧ TierLike.asTier b ∈ tierList tiers) ∧
    ((TierLike.asTier a).name, (TierLike.asTier b).name) ∈ edges

/-- The builder accepts exactly the lists that declare a graph, and names a
defect of the others. A state of the machine it builds reaches exactly the ends
of the walks in that graph, whatever is requested of it and in any order: each
request goes along one edge or changes nothing and says why. -/
theorem states_walk_declared_graph (T : Type) [TierLike T] (tiers : List (String × UInt8))
    (edges : List (String × String)) :
    match machineFromLists tiers edges with
    | .error e => Defect tiers edges e ∧ ¬ Declares tiers edges
    | .ok m => Declares tiers edges ∧ ∀ s : TierState T, s.machine = m →
        (∀ dest, (Adjacent T tiers edges s.current dest ∧ (s.tryMove dest).1 = .ok () ∧
            (s.tryMove dest).2.current = dest) ∨
          ∃ e, ¬ Adjacent T tiers edges s.current dest ∧ s.tryMove dest = (.error e, s) ∧
            m.Refuses (TierLike.asTier s.current) (TierLike.asTier dest) e) ∧
        ∀ goal, (∃ moves, (s.tryMoves moves).current = goal) ↔
          Relation.ReflTransGen (Adjacent T tiers edges) s.current goal := by
  cases h : machineFromLists tiers edges with
  | error e =>
      have hd := machineFromLists_defect h
      exact ⟨hd, hd.not_declares⟩
  | ok m =>
      obtain ⟨hdecl, -, hedges⟩ := machineFromLists_ok h
      have hadj : m.Edge T = Adjacent T tiers edges := by
        funext a b
        exact propext (hedges _ _)
      refine ⟨hdecl, ?_⟩
      rintro s rfl
      rw [← hadj]
      constructor
      · intro dest
        rcases s.tryMove_cases dest with ⟨he, hok, hc, _⟩ | hrefused
        · exact Or.inl ⟨he, hok, hc⟩
        · exact Or.inr hrefused
      · exact s.reaches_iff

end SlhaV2.TierGraphs
