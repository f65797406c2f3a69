import SlhaV2.Quarantine

/-!
# The cache and model handles of the C interface

Handles are the addresses of token boxes owned by two process-wide registries;
they are compared and never followed. Both registries, and everything else in
the process, draw on one allocator. What is allocated is what somebody still
owns: a token box stays allocated exactly as long as a registry keeps it.
-/
namespace SlhaV2.HandleRegistries
open OrderedMap Quarantine

structure FfiError where
  code : ℤ
  message : String
deriving DecidableEq, Repr

def slhaErrNull : ℤ := -1
def slhaErrInvalidHandle : ℤ := -7

/-- Both token types are aligned to eight bytes. -/
def pointerIsAligned (pointer : ℕ) : Bool := pointer % 8 = 0

variable {C M : Type}

/-- The registries of shared objects, and the other allocations of the process. -/
structure Process (C M : Type) where
  caches : Registry C
  models : Registry M
  others : List ℕ

def Process.Allocated (p : Process C M) (a : ℕ) : Prop :=
  p.caches.Owns a ∨ p.models.Owns a ∨ a ∈ p.others

/-- Resolution of a handle, with the name that the messages give it. -/
def arc {α : Type} (name : String) (r : Registry α) (handle : ℕ) : Except FfiError α :=
  if handle = 0 then .error ⟨slhaErrNull, name ++ " handle is NULL"⟩
  else if ¬ pointerIsAligned handle then
    .error ⟨slhaErrInvalidHandle, name ++ " handle is misaligned"⟩
  else match r.find handle with
    | none => .error ⟨slhaErrInvalidHandle, name ++ " handle is not a live SLHA handle"⟩
    | some inner => .ok inner

def cacheArc (p : Process C M) (handle : ℕ) : Except FfiError C :=
  arc "elastic cache" p.caches handle

def modelArc (p : Process C M) (model : ℕ) : Except FfiError M := arc "model" p.models model

def registerCache (p : Process C M) (address : ℕ) (inner : C) :
    Process C M × Option (Entry C) :=
  ({ p with caches := (p.caches.register address inner).1 },
    (p.caches.register address inner).2)

def registerModel (p : Process C M) (address : ℕ) (inner : M) :
    Process C M × Option (Entry M) :=
  ({ p with models := (p.models.register address inner).1 },
    (p.models.register address inner).2)

def unregisterCache (p : Process C M) (handle : ℕ) : Process C M × Bool :=
  ({ p with caches := (p.caches.unregister handle).1 }, (p.caches.unregister handle).2)

def unregisterModel (p : Process C M) (model : ℕ) : Process C M × Bool :=
  ({ p with models := (p.models.unregister model).1 }, (p.models.unregister model).2)

/-- A new cache, or NULL with this last error. The cache may fail to be made, and in a
build with assertions registering it over another entry unwinds. -/
def slhaElasticCacheNew (assertions : Bool) (p : Process C M) (made : Option C)
    (address : ℕ) : Process C M × Except String ℕ :=
  match made with
  | none => (p, .error "panic caught while creating elastic KV cache")
  | some inner => match registerCache p address inner with
    | (q, previous) =>
      if assertions && previous.isSome then
        (q, .error "panic caught while creating elastic KV cache")
      else (q, .ok address)

def slhaElasticCacheFree (p : Process C M) (handle : ℕ) :
    Process C M × Except FfiError Unit :=
  let refused : FfiError :=
    ⟨slhaErrInvalidHandle, "elastic cache handle is not a live SLHA handle"⟩
  if handle = 0 then (p, .ok ())
  else if ¬ pointerIsAligned handle then (p, .error refused)
  else match unregisterCache p handle with
    | (q, false) => (q, .error refused)
    | (q, true) => (q, .ok ())

/-- The handle of a loaded model, or NULL with this last error. What reading the file
comes to is given: a model, a message, or a panic. -/
def slhaWeightsLoad (assertions : Bool) (p : Process C M) (loaded : Option (Except String M))
    (address : ℕ) : Process C M × Except String ℕ :=
  match loaded with
  | none => (p, .error "panic caught while loading SLHA weights")
  | some (.error e) => (p, .error e)
  | some (.ok inner) => match registerModel p address inner with
    | (q, previous) =>
      if assertions && previous.isSome then
        (q, .error "panic caught while loading SLHA weights")
      else (q, .ok address)

def slhaWeightsRelease (p : Process C M) (model : ℕ) : Process C M × Except FfiError Unit :=
  if model = 0 then (p, .ok ())
  else if ¬ pointerIsAligned model then
    (p, .error ⟨slhaErrInvalidHandle, "model handle is misaligned"⟩)
  else match unregisterModel p model with
    | (q, false) => (q, .error ⟨slhaErrInvalidHandle, "model handle is not a live SLHA handle"⟩)
    | (q, true) => (q, .ok ())

inductive Op (C M : Type) where
  | newCache (made : Option C) (address : ℕ)
  | freeCache (handle : ℕ)
  | useCache (handle : ℕ)
  | loadModel (loaded : Option (Except String M)) (address : ℕ)
  | releaseModel (model : ℕ)
  | useModel (model : ℕ)
  | allocate (address : ℕ)
  | deallocate (address : ℕ)

/-- A process with what its calls answered: the handles returned, with the objects they
were created for, and the handles whose release was accepted. -/
structure Recorded (C M : Type) where
  process : Process C M
  caches : List (Event C)
  models : List (Event M)

/-- What the caller learns from the answer of a creation. -/
def created {α : Type} (o : Option α) : Except String ℕ → List (Event α)
  | .error _ => []
  | .ok h => o.toList.map (.created h)

/-- What the caller learns from the answer of a release; releasing NULL does nothing. -/
def released {α : Type} (h : ℕ) : Except FfiError Unit → List (Event α)
  | .error _ => []
  | .ok _ => if h = 0 then [] else [.released h]

def Recorded.start : Recorded C M := ⟨⟨.empty, .empty, []⟩, [], []⟩

def Recorded.step (assertions : Bool) (s : Recorded C M) : Op C M → Recorded C M
  | .newCache made address =>
    let r := slhaElasticCacheNew assertions s.process made address
    { s with process := r.1, caches := s.caches ++ created made r.2 }
  | .freeCache handle =>
    let r := slhaElasticCacheFree s.process handle
    { s with process := r.1, caches := s.caches ++ released handle r.2 }
  | .useCache _ => s
  | .loadModel loaded address =>
    let r := slhaWeightsLoad assertions s.process loaded address
    { s with process := r.1, models := s.models ++ created (loaded.bind Except.toOption) r.2 }
  | .releaseModel model =>
    let r := slhaWeightsRelease s.process model
    { s with process := r.1, models := s.models ++ released model r.2 }
  | .useModel _ => s
  | .allocate address => { s with process := { s.process with
      others := address :: s.process.others } }
  | .deallocate address => { s with process := { s.process with
      others := s.process.others.erase address } }

def Recorded.run (assertions : Bool) (s : Recorded C M) (ops : List (Op C M)) : Recorded C M :=
  ops.foldl (Recorded.step assertions) s

/-- What the allocator promises for a token box. -/
def Process.MayReturn (p : Process C M) (a : ℕ) : Prop :=
  ¬ p.Allocated a ∧ a ≠ 0 ∧ pointerIsAligned a = true

/-- An allocation of the operation gets no address that is in use. -/
def Op.Allowed (p : Process C M) : Op C M → Prop
  | .newCache (some _) address => p.MayReturn address
  | .loadModel (some (.ok _)) address => p.MayReturn address
  | .allocate address => ¬ p.Allocated address
  | _ => True

def AllowedAlong (assertions : Bool) : Recorded C M → List (Op C M) → Prop
  | _, [] => True
  | s, op :: ops => op.Allowed s.process ∧ AllowedAlong assertions (s.step assertions op) ops

section
variable {α : Type}

/-- The registry follows its history, and its boxes lie where boxes can lie. -/
structure Good (r : Registry α) (history : List (Event α)) : Prop where
  tracks : r.Tracks history
  placed : ∀ a, r.Owns a → a ≠ 0 ∧ pointerIsAligned a = true

variable {r : Registry α} {history : List (Event α)}

theorem good_empty : Good (Registry.empty : Registry α) [] := by
  constructor
  · exact Registry.tracks_empty
  · intro a ha
    rw [Registry.tracks_empty.kept] at ha
    cases ha

theorem Good.placed_of_holds (g : Good r history) {h : ℕ} {o : α} (hh : Holds history h o) :
    h ≠ 0 ∧ pointerIsAligned h = true := by
  apply g.placed
  rw [g.tracks.kept, Registry.mem_handles]
  exact ⟨o, hh.1⟩

theorem Good.arc_eq_ok (g : Good r history) (name : String) (h : ℕ) (o : α) :
    arc name r h = .ok o ↔ Holds history h o := by
  constructor
  · intro ha
    unfold arc at ha
    split_ifs at ha
    cases hf : r.find h with
    | none =>
        rw [hf] at ha
        cases ha
    | some inner =>
        rw [hf] at ha
        cases ha
        exact (g.tracks.find_eq_some h o).mp hf
  · intro hh
    obtain ⟨hz, hp⟩ := g.placed_of_holds hh
    unfold arc
    rw [if_neg hz, if_neg (not_not.mpr hp), (g.tracks.find_eq_some h o).mpr hh]

theorem Good.owns_register (g : Good r history) {a : ℕ} (ha : ¬ r.Owns a) (o : α) (x : ℕ) :
    (r.register a o).1.Owns x ↔ r.Owns x ∨ x = a := by
  rw [(g.tracks.register ha o).kept, Registry.handles_append, List.mem_append, g.tracks.kept]
  apply or_congr Iff.rfl
  exact List.mem_singleton

theorem Good.register (g : Good r history) {a : ℕ} (ha : ¬ r.Owns a)
    (hp : a ≠ 0 ∧ pointerIsAligned a = true) (o : α) :
    Good (r.register a o).1 (history ++ [.created a o]) := by
  constructor
  · exact g.tracks.register ha o
  · intro x hx
    cases (g.owns_register ha o x).mp hx with
    | inl hx => exact g.placed x hx
    | inr hx =>
        rw [hx]
        exact hp

theorem Good.owns_unregister (g : Good r history) {h : ℕ} {o : α} (hh : Holds history h o)
    (x : ℕ) : (r.unregister h).1.Owns x ↔ r.Owns x := by
  rw [(g.tracks.unregister hh).2.kept, Registry.handles_append, List.mem_append, g.tracks.kept]
  apply or_iff_left
  exact List.not_mem_nil

theorem Good.unregister (g : Good r history) {h : ℕ} {o : α} (hh : Holds history h o) :
    Good (r.unregister h).1 (history ++ [.released h]) := by
  constructor
  · exact (g.tracks.unregister hh).2
  · intro x hx
    exact g.placed x ((g.owns_unregister hh x).mp hx)

end

structure Recorded.Sound (s : Recorded C M) : Prop where
  caches : Good s.process.caches s.caches
  models : Good s.process.models s.models
  apart : ∀ a, s.process.caches.Owns a → ¬ s.process.models.Owns a

theorem slhaElasticCacheNew_eq {s : Recorded C M} (hs : s.Sound) {address : ℕ}
    (ha : ¬ s.process.caches.Owns address) (assertions : Bool) (o : C) :
    slhaElasticCacheNew assertions s.process (some o) address =
      ((registerCache s.process address o).1, .ok address) := by
  have hp : (registerCache s.process address o).2 = none :=
    hs.caches.tracks.register_previous ha o
  unfold slhaElasticCacheNew
  dsimp only
  rw [hp]
  simp

theorem slhaWeightsLoad_eq {s : Recorded C M} (hs : s.Sound) {address : ℕ}
    (ha : ¬ s.process.models.Owns address) (assertions : Bool) (o : M) :
    slhaWeightsLoad assertions s.process (some (.ok o)) address =
      ((registerModel s.process address o).1, .ok address) := by
  have hp : (registerModel s.process address o).2 = none :=
    hs.models.tracks.register_previous ha o
  unfold slhaWeightsLoad
  dsimp only
  rw [hp]
  simp

theorem slhaElasticCacheFree_held {s : Recorded C M} (hs : s.Sound) {h : ℕ} {o : C}
    (hh : Holds s.caches h o) :
    slhaElasticCacheFree s.process h = ((unregisterCache s.process h).1, .ok ()) := by
  obtain ⟨hz, hp⟩ := hs.caches.placed_of_holds hh
  have hu : (unregisterCache s.process h).2 = true := (hs.caches.tracks.unregister hh).1
  unfold slhaElasticCacheFree
  rw [if_neg hz, if_neg (not_not.mpr hp)]
  rcases he : unregisterCache s.process h with ⟨q, b⟩
  rw [he] at hu
  rw [show b = true from hu]

theorem slhaElasticCacheFree_stale {s : Recorded C M} (hs : s.Sound) {h : ℕ} (hz : h ≠ 0)
    (hh : ∀ o, ¬ Holds s.caches h o) :
    ∃ e, slhaElasticCacheFree s.process h = (s.process, .error e) := by
  have hu : unregisterCache s.process h = (s.process, false) := by
    unfold unregisterCache
    rw [hs.caches.tracks.unregister_stale hh]
  unfold slhaElasticCacheFree
  rw [if_neg hz, hu]
  split_ifs
  · exact ⟨_, rfl⟩
  · exact ⟨_, rfl⟩

theorem slhaWeightsRelease_held {s : Recorded C M} (hs : s.Sound) {h : ℕ} {o : M}
    (hh : Holds s.models h o) :
    slhaWeightsRelease s.process h = ((unregisterModel s.process h).1, .ok ()) := by
  obtain ⟨hz, hp⟩ := hs.models.placed_of_holds hh
  have hu : (unregisterModel s.process h).2 = true := (hs.models.tracks.unregister hh).1
  unfold slhaWeightsRelease
  rw [if_neg hz, if_neg (not_not.mpr hp)]
  rcases he : unregisterModel s.process h with ⟨q, b⟩
  rw [he] at hu
  rw [show b = true from hu]

theorem slhaWeightsRelease_stale {s : Recorded C M} (hs : s.Sound) {h : ℕ} (hz : h ≠ 0)
    (hh : ∀ o, ¬ Holds s.models h o) :
    ∃ e, slhaWeightsRelease s.process h = (s.process, .error e) := by
  have hu : unregisterModel s.process h = (s.process, false) := by
    unfold unregisterModel
    rw [hs.models.tracks.unregister_stale hh]
  unfold slhaWeightsRelease
  rw [if_neg hz, hu]
  split_ifs
  · exact ⟨_, rfl⟩
  · exact ⟨_, rfl⟩

theorem Recorded.start_sound : (start : Recorded C M).Sound := by
  constructor
  · exact good_empty
  · exact good_empty
  · intro a ha
    cases (Registry.tracks_empty.kept a).mp ha

theorem Recorded.Sound.newCache {s : Recorded C M} (hs : s.Sound) {a : ℕ}
    (ha : s.process.MayReturn a) (assertions : Bool) (o : C) :
    (s.step assertions (.newCache (some o) a)).Sound := by
  have hc : ¬ s.process.caches.Owns a := fun h => ha.1 (Or.inl h)
  have hm : ¬ s.process.models.Owns a := fun h => ha.1 (Or.inr (Or.inl h))
  unfold Recorded.step
  dsimp only
  rw [slhaElasticCacheNew_eq hs hc]
  constructor
  · exact hs.caches.register hc ha.2 o
  · exact hs.models
  · intro x hx
    cases (hs.caches.owns_register hc o x).mp hx with
    | inl hx => exact hs.apart x hx
    | inr hx =>
        rw [hx]
        exact hm

theorem Recorded.Sound.loadModel {s : Recorded C M} (hs : s.Sound) {a : ℕ}
    (ha : s.process.MayReturn a) (assertions : Bool) (o : M) :
    (s.step assertions (.loadModel (some (.ok o)) a)).Sound := by
  have hc : ¬ s.process.caches.Owns a := fun h => ha.1 (Or.inl h)
  have hm : ¬ s.process.models.Owns a := fun h => ha.1 (Or.inr (Or.inl h))
  unfold Recorded.step
  dsimp only
  rw [slhaWeightsLoad_eq hs hm]
  constructor
  · exact hs.caches
  · exact hs.models.register hm ha.2 o
  · intro x hx ho
    cases (hs.models.owns_register hm o x).mp ho with
    | inl ho => exact hs.apart x hx ho
    | inr ho =>
        rw [ho] at hx
        exact hc hx

theorem Recorded.Sound.freeCache {s : Recorded C M} (hs : s.Sound) (assertions : Bool)
    (h : ℕ) : (s.step assertions (.freeCache h)).Sound := by
  unfold Recorded.step
  dsimp only
  by_cases hh : ∃ o, Holds s.caches h o
  · obtain ⟨o, hh⟩ := hh
    rw [slhaElasticCacheFree_held hs hh]
    unfold released
    dsimp only
    rw [if_neg (hs.caches.placed_of_holds hh).1]
    constructor
    · exact hs.caches.unregister hh
    · exact hs.models
    · intro x hx
      exact hs.apart x ((hs.caches.owns_unregister hh x).mp hx)
  · by_cases hz : h = 0
    · have hn : slhaElasticCacheFree s.process h = (s.process, .ok ()) := if_pos hz
      rw [hn]
      unfold released
      dsimp only
      rw [if_pos hz, List.append_nil]
      exact hs
    · obtain ⟨e, he⟩ := slhaElasticCacheFree_stale hs hz (not_exists.mp hh)
      rw [he]
      unfold released
      dsimp only
      rw [List.append_nil]
      exact hs

theorem Recorded.Sound.releaseModel {s : Recorded C M} (hs : s.Sound) (assertions : Bool)
    (h : ℕ) : (s.step assertions (.releaseModel h)).Sound := by
  unfold Recorded.step
  dsimp only
  by_cases hh : ∃ o, Holds s.models h o
  · obtain ⟨o, hh⟩ := hh
    rw [slhaWeightsRelease_held hs hh]
    unfold released
    dsimp only
    rw [if_neg (hs.models.placed_of_holds hh).1]
    constructor
    · exact hs.caches
    · exact hs.models.unregister hh
    · intro x hx ho
      exact hs.apart x hx ((hs.models.owns_unregister hh x).mp ho)
  · by_cases hz : h = 0
    · have hn : slhaWeightsRelease s.process h = (s.process, .ok ()) := if_pos hz
      rw [hn]
      unfold released
      dsimp only
      rw [if_pos hz, List.append_nil]
      exact hs
    · obtain ⟨e, he⟩ := slhaWeightsRelease_stale hs hz (not_exists.mp hh)
      rw [he]
      unfold released
      dsimp only
      rw [List.append_nil]
      exact hs

/-- A creation that failed before it registered anything leaves no trace. -/
theorem Recorded.step_unmade (assertions : Bool) (s : Recorded C M) (a : ℕ) (e : String) :
    s.step assertions (.newCache none a) = s ∧ s.step assertions (.loadModel none a) = s ∧
      s.step assertions (.loadModel (some (.error e)) a) = s := by
  unfold Recorded.step slhaElasticCacheNew slhaWeightsLoad created
  simp

theorem Recorded.Sound.step {s : Recorded C M} (hs : s.Sound) (assertions : Bool)
    {op : Op C M} (h : op.Allowed s.process) : (s.step assertions op).Sound := by
  cases op with
  | newCache made a =>
      cases made with
      | none =>
          rw [(s.step_unmade assertions a "").1]
          exact hs
      | some o => exact hs.newCache h assertions o
  | freeCache handle => exact hs.freeCache assertions handle
  | useCache handle => exact hs
  | loadModel loaded a =>
      rcases loaded with _ | e | o
      · rw [(s.step_unmade assertions a "").2.1]
        exact hs
      · rw [(s.step_unmade assertions a e).2.2]
        exact hs
      · exact hs.loadModel h assertions o
  | releaseModel model => exact hs.releaseModel assertions model
  | useModel model => exact hs
  | allocate a => exact ⟨hs.caches, hs.models, hs.apart⟩
  | deallocate a => exact ⟨hs.caches, hs.models, hs.apart⟩

theorem Recorded.Sound.run {s : Recorded C M} (hs : s.Sound) {assertions : Bool}
    {ops : List (Op C M)} (h : AllowedAlong assertions s ops) :
    (s.run assertions ops).Sound := by
  induction ops generalizing s with
  | nil => exact hs
  | cons op ops ih => exact ih (s := s.step assertions op) (hs.step assertions h.1) h.2

theorem allowedAlong_append {assertions : Bool} {s : Recorded C M} {before later : List (Op C M)}
    (h : AllowedAlong assertions s (before ++ later)) :
    AllowedAlong assertions s before ∧ AllowedAlong assertions (s.run assertions before) later := by
  induction before generalizing s with
  | nil => exact ⟨trivial, h⟩
  | cons op ops ih =>
      have h' := ih (s := s.step assertions op) h.2
      exact ⟨⟨h.1, h'.1⟩, h'.2⟩

/-- Histories only grow. -/
theorem Recorded.step_grows (assertions : Bool) (s : Recorded C M) (op : Op C M) :
    s.caches <+: (s.step assertions op).caches ∧ s.models <+: (s.step assertions op).models := by
  cases op <;> unfold Recorded.step <;>
    exact ⟨by first | exact List.prefix_append _ _ | exact List.prefix_rfl,
      by first | exact List.prefix_append _ _ | exact List.prefix_rfl⟩

theorem Recorded.run_grows (assertions : Bool) (s : Recorded C M) (ops : List (Op C M)) :
    s.caches <+: (s.run assertions ops).caches ∧ s.models <+: (s.run assertions ops).models := by
  induction ops generalizing s with
  | nil => exact ⟨List.prefix_rfl, List.prefix_rfl⟩
  | cons op ops ih =>
      have h₁ := s.step_grows assertions op
      have h₂ := ih (s.step assertions op)
      exact ⟨h₁.1.trans h₂.1, h₁.2.trans h₂.2⟩

/-- What the handles of a process mean, read off its history. -/
structure Recorded.Exact (s : Recorded C M) : Prop where
  useCache : ∀ h o, cacheArc s.process h = .ok o ↔ Holds s.caches h o
  useModel : ∀ h o, modelArc s.process h = .ok o ↔ Holds s.models h o
  freeCache : ∀ h, (slhaElasticCacheFree s.process h).2 = .ok () ↔
    h = 0 ∨ ∃ o, Holds s.caches h o
  releaseModel : ∀ h, (slhaWeightsRelease s.process h).2 = .ok () ↔
    h = 0 ∨ ∃ o, Holds s.models h o
  distinct : (handles s.caches ++ handles s.models).Nodup

theorem Recorded.Sound.exact {s : Recorded C M} (hs : s.Sound) : s.Exact := by
  constructor
  · exact hs.caches.arc_eq_ok "elastic cache"
  · exact hs.models.arc_eq_ok "model"
  · intro h
    by_cases hz : h = 0
    · exact iff_of_true (congrArg Prod.snd (if_pos hz)) (Or.inl hz)
    · by_cases hh : ∃ o, Holds s.caches h o
      · obtain ⟨o, ho⟩ := hh
        rw [slhaElasticCacheFree_held hs ho]
        exact iff_of_true rfl (Or.inr ⟨o, ho⟩)
      · obtain ⟨e, he⟩ := slhaElasticCacheFree_stale hs hz (not_exists.mp hh)
        rw [he]
        apply iff_of_false
        · intro h'
          cases h'
        · exact not_or.mpr ⟨hz, hh⟩
  · intro h
    by_cases hz : h = 0
    · exact iff_of_true (congrArg Prod.snd (if_pos hz)) (Or.inl hz)
    · by_cases hh : ∃ o, Holds s.models h o
      · obtain ⟨o, ho⟩ := hh
        rw [slhaWeightsRelease_held hs ho]
        exact iff_of_true rfl (Or.inr ⟨o, ho⟩)
      · obtain ⟨e, he⟩ := slhaWeightsRelease_stale hs hz (not_exists.mp hh)
        rw [he]
        apply iff_of_false
        · intro h'
          cases h'
        · exact not_or.mpr ⟨hz, hh⟩
  · apply List.Nodup.append hs.caches.tracks.distinct hs.models.tracks.distinct
    intro h hc hm
    rw [← hs.caches.tracks.kept] at hc
    rw [← hs.models.tracks.kept] at hm
    exact hs.apart h hc hm

/-- Whatever a release was accepted for by `s` stays dead in `t`, and was not handed out
on the way there. -/
structure Recorded.NeverAgain (s t : Recorded C M) : Prop where
  caches : ∀ h, .released h ∈ s.caches → ∀ o, cacheArc t.process h ≠ .ok o
  models : ∀ h, .released h ∈ s.models → ∀ o, modelArc t.process h ≠ .ok o
  fresh : ∃ newCaches newModels,
    t.caches = s.caches ++ newCaches ∧ t.models = s.models ++ newModels ∧
      ∀ h, .released h ∈ s.caches ∨ .released h ∈ s.models →
        h ∉ handles newCaches ∧ h ∉ handles newModels

theorem Recorded.Sound.neverAgain {s t : Recorded C M} (hs : s.Sound) (ht : t.Sound)
    (hc : s.caches <+: t.caches) (hm : s.models <+: t.models) : s.NeverAgain t := by
  obtain ⟨newCaches, hc⟩ := hc
  obtain ⟨newModels, hm⟩ := hm
  constructor
  · intro h hr o ho
    have hh := (ht.exact.useCache h o).mp ho
    apply hh.2
    rw [← hc]
    exact List.mem_append_left _ hr
  · intro h hr o ho
    have hh := (ht.exact.useModel h o).mp ho
    apply hh.2
    rw [← hm]
    exact List.mem_append_left _ hr
  · refine ⟨newCaches, newModels, hc.symm, hm.symm, ?_⟩
    intro h hr
    have hd := ht.exact.distinct
    rw [← hc, ← hm, Registry.handles_append, Registry.handles_append] at hd
    have hold : h ∈ handles s.caches ∨ h ∈ handles s.models := by
      cases hr with
      | inl hr => exact Or.inl (hs.caches.tracks.released h hr)
      | inr hr => exact Or.inr (hs.models.tracks.released h hr)
    simp only [List.nodup_append, List.mem_append] at hd
    obtain ⟨⟨-, -, hcc⟩, ⟨-, -, hmm⟩, hcm⟩ := hd
    cases hold with
    | inl hold =>
        exact ⟨fun hn => hcc h hold h hn rfl, fun hn => hcm h (.inl hold) h (.inr hn) rfl⟩
    | inr hold =>
        exact ⟨fun hn => hcm h (.inr hn) h (.inl hold) rfl, fun hn => hmm h hold h hn rfl⟩

/-- Under an allocator that never returns an address in use, for any mixture of creations,
releases and uses with any pointer values: handles mean what the history says, and what
was once released is gone for good. -/
theorem handles_exact (assertions : Bool) (before later : List (Op C M))
    (h : AllowedAlong assertions .start (before ++ later)) :
    (Recorded.run assertions .start (before ++ later)).Exact ∧
      (Recorded.run assertions .start before).NeverAgain
        (Recorded.run assertions .start (before ++ later)) := by
  obtain ⟨hb, hl⟩ := allowedAlong_append h
  have hs := Recorded.start_sound.run hb
  have happ : Recorded.run assertions .start (before ++ later) =
      Recorded.run assertions (Recorded.run assertions .start before) later :=
    List.foldl_append
  rw [happ]
  have ht := hs.run hl
  have hg := Recorded.run_grows assertions (Recorded.run assertions .start before) later
  exact ⟨ht.exact, hs.neverAgain ht hg.1 hg.2⟩

instance {α : Type} (r : Registry α) (a : ℕ) : Decidable (r.Owns a) :=
  inferInstanceAs (Decidable ((∃ e ∈ r.live.entries, e.2.token = a) ∨ a ∈ r.retiredTokens))

instance (p : Process C M) (a : ℕ) : Decidable (p.MayReturn a) :=
  inferInstanceAs (Decidable (¬ (_ ∨ _ ∨ _) ∧ _ ∧ _))

instance (p : Process C M) (op : Op C M) : Decidable (op.Allowed p) :=
  match op with
  | .newCache (some _) address => inferInstanceAs (Decidable (p.MayReturn address))
  | .newCache none _ => isTrue trivial
  | .loadModel (some (.ok _)) address => inferInstanceAs (Decidable (p.MayReturn address))
  | .loadModel (some (.error _)) _ => isTrue trivial
  | .loadModel none _ => isTrue trivial
  | .allocate address => inferInstanceAs (Decidable (¬ (_ ∨ _ ∨ address ∈ p.others)))
  | .freeCache _ => isTrue trivial
  | .useCache _ => isTrue trivial
  | .releaseModel _ => isTrue trivial
  | .useModel _ => isTrue trivial
  | .deallocate _ => isTrue trivial

instance decideAllowedAlong (assertions : Bool) (s : Recorded C M) (ops : List (Op C M)) :
    Decidable (AllowedAlong assertions s ops) :=
  match ops with
  | [] => isTrue trivial
  | op :: ops =>
    have := decideAllowedAlong assertions (s.step assertions op) ops
    inferInstanceAs (Decidable (_ ∧ _))

/-- A cache is made and freed, freed again, and foreign pointers are freed. -/
def freedTwice : List (Op ℕ ℕ) :=
  [.newCache (some 7) 64, .allocate 80, .freeCache 64, .freeCache 64, .freeCache 3, .freeCache 80]

/-- Another cache, a model where the other allocation was, and a release in the wrong registry. -/
def madeAgain : List (Op ℕ ℕ) :=
  [.newCache (some 8) 72, .useCache 64, .deallocate 80, .loadModel (some (.ok 9)) 80,
    .releaseModel 72]

theorem handles_exact_freedTwice :
    (Recorded.run true .start (freedTwice ++ madeAgain)).Exact ∧
      (Recorded.run true .start freedTwice).NeverAgain
        (Recorded.run true .start (freedTwice ++ madeAgain)) :=
  handles_exact true freedTwice madeAgain (by decide +kernel)

example : cacheArc (Recorded.run true .start (freedTwice ++ madeAgain)).process 72 = .ok 8 := by
  decide +kernel

end SlhaV2.HandleRegistries
