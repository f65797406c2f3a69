import Mathlib.Logic.Relation
import SlhaV2.ResidencyGraph

/-!
# What the cache operations can do

Every operation is a path of primitive steps: a slot moves along one edge of
the residency graph, an importance is noted, a slot is erased or a tile stored.
The primitives are parameterized by the slots that may be erased or stored to.
Invariants are proved for one primitive; each operation is analysed once.
-/
namespace SlhaV2.PhysicalSteps
open MachineWord ByteBuffer TileCodec SlotVector FloatingPoint ByteBudget ControlLoop
open PhysicalCache PhysicalCache.ElasticKvCache ResidencyGraph
open Relation (ReflTransGen)

variable {F : Type}

/-- The count is exact and every slot represents a tile. -/
structure Sound (c : ElasticKvCache F) : Prop where
  accounting : c.residentBytes = total PhysicalSlot.allocatedBytes c.slots
  wellFormed : ∀ i s, slotAt c.slots i = some s → WellFormed s

/-- Resident and backing bytes of all slots together fit a word. -/
def Fits (c : ElasticKvCache F) : Prop := tileBytes * c.presentCount ≤ maxWord

instance (c : ElasticKvCache F) : Decidable (Fits c) := by unfold Fits; infer_instance

/-- Budgets and configuration, which no operation changes. -/
def limits (c : ElasticKvCache F) :=
  (c.budget, c.budgetNode, c.config, c.controller.limits)

theorem configBudgetBytes_congr {c c' : ElasticKvCache F} (h : limits c' = limits c) :
    c'.configBudgetBytes = c.configBudgetBytes := by
  simp only [limits, Prod.mk.injEq] at h
  unfold configBudgetBytes
  rw [h.1, h.2.1]

/-- Slot `i` moved from one form to another and the count followed. -/
inductive MoveAt (c : ElasticKvCache F) (i : ℕ) (f g : Form) : ElasticKvCache F → Prop
  | mk {s s' : PhysicalSlot} {t : Tile} {r e : ℕ} : slotAt c.slots i = some s → Clean t →
      Represents s t f → Represents s' t g → s'.seq = s.seq → s'.importance = s.importance →
      r + f.residentBytes = c.residentBytes + g.residentBytes →
      e = (if g.tier = .cold then satAdd c.evictions 1 else c.evictions) →
      MoveAt c i f g { c with
        slots := c.slots.set i (some s')
        residentBytes := r
        evictions := e }

/-- One primitive step; only slots in `touch` are erased or stored to. -/
inductive Prim (touch : ℕ → Prop) (c : ElasticKvCache F) : ElasticKvCache F → Prop
  | move {i : ℕ} {f g : Form} {c' : ElasticKvCache F} : Form.Move f g → MoveAt c i f g c' →
      Prim touch c c'
  | note {i : ℕ} {s : PhysicalSlot} (x : F32) : slotAt c.slots i = some s →
      Prim touch c { c with slots := c.slots.set i (some { s with importance := x }) }
  | control {c' : ElasticKvCache F} : c'.slots = c.slots → c'.residentBytes = c.residentBytes →
      c'.nextSeq = c.nextSeq → limits c' = limits c → Prim touch c c'
  | grow (n : ℕ) : Prim touch c { c with slots := c.slots ++ List.replicate n none }
  | erase {i : ℕ} {s : PhysicalSlot} : touch i → slotAt c.slots i = some s →
      Prim touch c { c with
        slots := c.slots.set i none
        residentBytes := c.residentBytes - s.allocatedBytes }
  | store {i : ℕ} {s : PhysicalSlot} {t : Tile} {f : Form} : touch i → i < c.slots.length →
      slotAt c.slots i = none → Clean t → Represents s t f → s.seq = c.nextSeq →
      Prim touch c { c with
        slots := c.slots.set i (some s)
        nextSeq := satAdd c.nextSeq 1
        residentBytes := c.residentBytes + f.residentBytes }
  | clear : (∀ i, touch i) → Prim touch c c.clear

abbrev Path (touch : ℕ → Prop) := ReflTransGen (Prim (F := F) touch)

/-- A path that only moves slots along the graph. -/
abbrev Moves := ReflTransGen fun c c' : ElasticKvCache F =>
  ∃ i f g, Form.Move f g ∧ MoveAt c i f g c'

theorem Moves.path {c c' : ElasticKvCache F} (h : Moves c c') (touch : ℕ → Prop) :
    Path touch c c' := by
  induction h with
  | refl => exact .refl
  | tail _ hp ih =>
      obtain ⟨_, _, _, hm, hat⟩ := hp
      exact ih.tail (Prim.move hm hat)

theorem Path.mono {touch touch' : ℕ → Prop} (h : ∀ i, touch i → touch' i)
    {c c' : ElasticKvCache F} (hp : Path touch c c') : Path touch' c c' := by
  refine ReflTransGen.mono ?_ _ _ hp
  intro a b hab
  cases hab with
  | move hm hat => exact .move hm hat
  | note x hat => exact .note x hat
  | control h₁ h₂ h₃ h₄ => exact .control h₁ h₂ h₃ h₄
  | grow n => exact .grow n
  | erase ht hat => exact .erase (h _ ht) hat
  | store ht hi hat hc hr hq => exact .store (h _ ht) hi hat hc hr hq
  | clear ht => exact .clear fun i => h i (ht i)

section Slots
variable {c c' : ElasticKvCache F} {i j : ℕ} {s : PhysicalSlot}

theorem Sound.allocated_le (hs : Sound c) (h : slotAt c.slots i = some s) :
    s.allocatedBytes ≤ c.residentBytes := by
  rw [hs.accounting]
  exact weight_le_total _ h

/-- Replacing one slot by a well-formed one keeps soundness when the count follows. -/
theorem Sound.set (hs : Sound c) (hi : i < c.slots.length) {o : Option PhysicalSlot} {r : ℕ}
    (ho : ∀ s, o = some s → WellFormed s)
    (hr : r + weight PhysicalSlot.allocatedBytes (slotAt c.slots i) =
      c.residentBytes + weight PhysicalSlot.allocatedBytes o)
    (hc : c'.slots = c.slots.set i o) (hb : c'.residentBytes = r) : Sound c' := by
  constructor
  · have ht := total_set PhysicalSlot.allocatedBytes c.slots i o hi
    rw [hc, hb]
    rw [hs.accounting] at hr
    omega
  · intro j s h
    rw [hc] at h
    by_cases hij : i = j
    · subst hij
      rw [slotAt_set_self hi] at h
      exact ho s h
    · rw [slotAt_set_of_ne hij] at h
      exact hs.wellFormed j s h

theorem MoveAt.sound {f g : Form} (hs : Sound c) (h : MoveAt c i f g c') : Sound c' := by
  obtain ⟨hat, hc, hf, hg, _, _, hr, _⟩ := h
  refine hs.set (slotAt_lt hat) (o := some _) ?_ ?_ rfl rfl
  · rintro _ ⟨⟩
    exact hg.wellFormed hc
  · rw [hat, weight_some, weight_some, hf.allocatedBytes, hg.allocatedBytes]
    exact hr

theorem Prim.sound {touch : ℕ → Prop} (hs : Sound c) (h : Prim touch c c') : Sound c' := by
  cases h with
  | move _ hm => exact hm.sound hs
  | note x hat =>
      obtain ⟨t, f, hc, hf⟩ := hs.wellFormed _ _ hat
      refine hs.set (slotAt_lt hat) (o := some _) (r := c.residentBytes) ?_ ?_ rfl rfl
      · rintro _ ⟨⟩
        exact (hf.withImportance x).wellFormed hc
      · rw [hat, weight_some, weight_some]
        rfl
  | control h₁ h₂ _ _ =>
      exact ⟨by rw [h₁, h₂]; exact hs.accounting, by rw [h₁]; exact hs.wellFormed⟩
  | grow n =>
      constructor
      · rw [hs.accounting, total_append, total_replicate_none, Nat.add_zero]
      · intro i s h
        rw [slotAt_append_none] at h
        exact hs.wellFormed i s h
  | erase _ hat =>
      refine hs.set (slotAt_lt hat) (o := none) (by simp) ?_ rfl rfl
      rw [hat, weight_some, weight_none]
      exact Nat.sub_add_cancel (hs.allocated_le hat)
  | store _ hi hat hc hf _ =>
      refine hs.set hi (o := some _) ?_ ?_ rfl rfl
      · rintro _ ⟨⟩
        exact hf.wellFormed hc
      · rw [hat, weight_some, weight_none, hf.allocatedBytes, Nat.add_zero]
  | clear _ =>
      refine ⟨by simp [ElasticKvCache.clear], ?_⟩
      intro i s h
      simp [ElasticKvCache.clear, slotAt] at h

theorem Path.sound {touch : ℕ → Prop} (hs : Sound c) (h : Path touch c c') : Sound c' := by
  induction h with
  | refl => exact hs
  | tail _ hp ih => exact hp.sound ih

theorem Prim.limits_eq {touch : ℕ → Prop} (h : Prim touch c c') : limits c' = limits c := by
  cases h with
  | move _ hm => obtain ⟨⟩ := hm; rfl
  | control _ _ _ h => exact h
  | note | grow | erase | store | clear => rfl

theorem Path.limits_eq {touch : ℕ → Prop} (h : Path touch c c') : limits c' = limits c := by
  induction h with
  | refl => rfl
  | tail _ hp ih => exact hp.limits_eq.trans ih

/-- What an untouched slot keeps: its tile, its generation and its pin. -/
structure Keeps (s s' : PhysicalSlot) : Prop where
  recover : recover s' = recover s
  seq : s'.seq = s.seq
  pinned : s.tier = .pinned → s'.tier = .pinned ∧ s'.bytes = s.bytes

theorem Keeps.refl (s : PhysicalSlot) : Keeps s s := ⟨rfl, rfl, fun h => ⟨h, rfl⟩⟩

theorem Keeps.trans {a b d : PhysicalSlot} (h : Keeps a b) (k : Keeps b d) : Keeps a d where
  recover := k.recover.trans h.recover
  seq := k.seq.trans h.seq
  pinned hp := ⟨(k.pinned (h.pinned hp).1).1,
    (k.pinned (h.pinned hp).1).2.trans (h.pinned hp).2⟩

theorem keeps_of_move {s s' : PhysicalSlot} {t : Tile} {f g : Form} (hm : Form.Move f g)
    (hc : Clean t) (hf : Represents s t f) (hg : Represents s' t g) (hq : s'.seq = s.seq) :
    Keeps s s' where
  recover := by rw [hf.recover hc, hg.recover hc]
  seq := hq
  pinned hp := by
    rw [hf.tier, tier_pinned_iff] at hp
    subst hp
    cases hm

/-- A primitive that may not touch a slot keeps what the slot holds. -/
theorem Prim.keeps {touch : ℕ → Prop} (hs : Sound c) (h : Prim touch c c') (hj : ¬ touch j)
    (hat : slotAt c.slots j = some s) : ∃ s', slotAt c'.slots j = some s' ∧ Keeps s s' := by
  have stay : ∀ (i : ℕ) (o : Option PhysicalSlot), i ≠ j →
      ∃ s', slotAt (c.slots.set i o) j = some s' ∧ Keeps s s' := fun i o hij =>
    ⟨s, by rw [slotAt_set_of_ne hij]; exact hat, Keeps.refl s⟩
  cases h with
  | @move i f g _ hm hmv =>
      obtain ⟨hi, hc, hf, hg, hq, _, _, _⟩ := hmv
      by_cases hij : i = j
      · subst hij
        cases hi.symm.trans hat
        exact ⟨_, slotAt_set_self (slotAt_lt hat) _, keeps_of_move hm hc hf hg hq⟩
      · exact stay i _ hij
  | @note i s₀ x hi =>
      by_cases hij : i = j
      · subst hij
        cases hi.symm.trans hat
        obtain ⟨t, f, hc, hf⟩ := hs.wellFormed _ _ hat
        refine ⟨_, slotAt_set_self (slotAt_lt hat) _, ?_, rfl, fun hp => ⟨hp, rfl⟩⟩
        rw [(hf.withImportance x).recover hc, hf.recover hc]
      · exact stay i _ hij
  | control h₁ _ _ _ => exact ⟨s, by rw [h₁]; exact hat, Keeps.refl s⟩
  | grow n => exact ⟨s, by rw [slotAt_append_none]; exact hat, Keeps.refl s⟩
  | @erase i _ ht _ => exact stay i _ (fun hij => hj (hij ▸ ht))
  | @store i _ _ _ ht _ _ _ _ _ => exact stay i _ (fun hij => hj (hij ▸ ht))
  | clear ht => exact (hj (ht j)).elim

theorem Path.keeps {touch : ℕ → Prop} (hs : Sound c) (h : Path touch c c') (hj : ¬ touch j)
    (hat : slotAt c.slots j = some s) : ∃ s', slotAt c'.slots j = some s' ∧ Keeps s s' := by
  induction h with
  | refl => exact ⟨s, hat, Keeps.refl s⟩
  | tail hpath hp ih =>
      obtain ⟨s₁, h₁, k₁⟩ := ih
      obtain ⟨s₂, h₂, k₂⟩ := hp.keeps (Path.sound hs hpath) hj h₁
      exact ⟨s₂, h₂, k₁.trans k₂⟩

/-- A primitive that may not touch a hole does not fill it. -/
theorem Prim.slotAt_none {touch : ℕ → Prop} (h : Prim touch c c') (hj : ¬ touch j)
    (hat : slotAt c.slots j = none) : slotAt c'.slots j = none := by
  have stay : ∀ (i : ℕ) (o : Option PhysicalSlot), i ≠ j →
      slotAt (c.slots.set i o) j = none := fun i o hij => by
    rw [slotAt_set_of_ne hij]
    exact hat
  have present : ∀ {i : ℕ} {s : PhysicalSlot}, slotAt c.slots i = some s → i ≠ j := by
    rintro i s hi rfl
    rw [hat] at hi
    cases hi
  cases h with
  | move _ hmv =>
      obtain ⟨hi, _⟩ := hmv
      exact stay _ _ (present hi)
  | note _ hi => exact stay _ _ (present hi)
  | control h₁ => rw [h₁]; exact hat
  | grow n => rw [slotAt_append_none]; exact hat
  | erase _ hi => exact stay _ _ (present hi)
  | @store i _ _ _ ht => exact stay i _ (fun hij => hj (hij ▸ ht))
  | clear ht => exact (hj (ht j)).elim

theorem Path.slotAt_none {touch : ℕ → Prop} (h : Path touch c c') (hj : ¬ touch j)
    (hat : slotAt c.slots j = none) : slotAt c'.slots j = none := by
  induction h with
  | refl => exact hat
  | tail _ hp ih => exact hp.slotAt_none hj ih

end Slots

end SlhaV2.PhysicalSteps
