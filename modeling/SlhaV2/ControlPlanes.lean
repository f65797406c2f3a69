import SlhaV2.HardBudget

/-!
# Control-plane projections of the resident cache

Three read-only encodings of the slot vector: a sparse plane with explicit slot
ids, a dense plane with one word a position, and a hybrid of generation lanes
and three Boolean planes. Word planes and bit planes come from another library;
they are an interface here, with the behaviour relied on stated as laws.
-/
namespace SlhaV2.ControlPlanes
open MachineWord SlotVector TileCodec FloatingPoint GuardedRun PhysicalCache
open PhysicalCache.ElasticKvCache ResidencyGraph PhysicalSteps SlotOperations CacheRuns

/-- Planes of words with one width; `lanes` are 64-bit. -/
class ElasticWordPlane (W : Type) where
  Width : Type
  fromBits : ℕ → Except String Width
  new : Width → List ℕ → Except String W
  asLanes : W → List ℕ
  word : W → ℕ → Except String (List ℕ)

/-- Bit vectors packed into 64-bit words. -/
class PackedBitPlane (P : Type) where
  zeroed : ℕ → P
  set : P → ℕ → Bool → Except String P
  get : P → ℕ → Option Bool
  words : P → List ℕ

def PackedBitPlane.backingBits {P : Type} [PackedBitPlane P] (p : P) : ℕ :=
  (PackedBitPlane.words p).length * 64

/-- Whole words of a supported width are accepted and stored verbatim. -/
structure LawfulWordPlane (W : Type) [ElasticWordPlane W] : Prop where
  verbatim : ∀ bits ∈ [64, 128, 512], ∃ width, ElasticWordPlane.fromBits (W := W) bits = .ok width ∧
    ∀ lanes : List ℕ, lanes.length % (bits / 64) = 0 →
      ∃ p : W, ElasticWordPlane.new width lanes = .ok p ∧ ElasticWordPlane.asLanes p = lanes ∧
        ∀ i, i * (bits / 64) < lanes.length →
          ElasticWordPlane.word p i = .ok ((lanes.drop (i * (bits / 64))).take (bits / 64))

/-- A bit vector that starts at zero and occupies the words it needs. -/
structure LawfulBitPlane (P : Type) [PackedBitPlane P] : Prop where
  get_zeroed : ∀ n i, PackedBitPlane.get (PackedBitPlane.zeroed n : P) i =
    if i < n then some false else none
  words_zeroed : ∀ n, (PackedBitPlane.words (PackedBitPlane.zeroed n : P)).length = divCeil n 64
  set_ok : ∀ (p : P) i b, PackedBitPlane.get p i ≠ none → ∃ p', PackedBitPlane.set p i b = .ok p' ∧
    (∀ j, PackedBitPlane.get p' j = if j = i then some b else PackedBitPlane.get p j) ∧
    (PackedBitPlane.words p').length = (PackedBitPlane.words p).length

/-- A cache behind a mutex. -/
structure SlhaKvCacheHandle (F : Type) where
  cache : ElasticKvCache F
  poisoned : Bool

variable {F : Type}

def SlhaKvCacheHandle.new (cache : ElasticKvCache F) : SlhaKvCacheHandle F := ⟨cache, false⟩

def SlhaKvCacheHandle.lock (h : SlhaKvCacheHandle F) : Outcome (ElasticKvCache F) :=
  if h.poisoned then .error (.err "SLHAv2 KV cache mutex is poisoned") else .ok h.cache

structure SlotMetadata where
  generation : ℕ
  tier : PhysicalTier
  residentBytes : ℕ
  backingBytes : ℕ

def metadata (s : PhysicalSlot) : SlotMetadata := ⟨s.seq, s.tier, s.allocatedBytes, s.offloadedBytes⟩

/-- Present slots with their indices, in slot order. -/
def slotControlMetadata (c : ElasticKvCache F) : List (ℕ × SlotMetadata) :=
  c.slots.zipIdx.filterMap fun p => p.1.map fun s => (p.2, metadata s)

/-- Every position, holes included. -/
def slotControlMetadataDense (c : ElasticKvCache F) : List (Option SlotMetadata) :=
  c.slots.map (Option.map metadata)

def presentBit : ℕ := 1
def hotBit : ℕ := 2
def warmBit : ℕ := 4
def coldBit : ℕ := 8
def pinnedBit : ℕ := 16

def tierBit : PhysicalTier → ℕ
  | .hot => hotBit
  | .warm => warmBit
  | .cold => coldBit
  | .pinned => pinnedBit

def denseStateBits (t : PhysicalTier) : ℕ := presentBit ||| tierBit t

def derivedBytesForTier : PhysicalTier → ℕ × ℕ
  | .hot | .pinned => (tileBytes, 0)
  | .warm => (warmPackedBytes, residualWords * 8)
  | .cold => (0, tileBytes)

def physicalTierCode : PhysicalTier → ℕ
  | .hot => 0
  | .warm => 1
  | .cold => 2
  | .pinned => 3

def PhysicalTier.debug : PhysicalTier → String
  | .hot => "Hot"
  | .warm => "Warm"
  | .cold => "Cold"
  | .pinned => "Pinned"

/-- The message for a slot whose bytes are not those of its tier. -/
def driftMessage (m : SlotMetadata) : String :=
  let tier := PhysicalTier.debug m.tier
  let resident := m.residentBytes
  let backing := m.backingBytes
  let expectedResident := (derivedBytesForTier m.tier).1
  let expectedBacking := (derivedBytesForTier m.tier).2
  s!"SLHAv2 tier {tier} byte accounting drifted: resident={resident} backing={backing}, expected resident={expectedResident} backing={expectedBacking}"

def Drifted (m : SlotMetadata) : Prop :=
  m.residentBytes ≠ (derivedBytesForTier m.tier).1 ∨ m.backingBytes ≠ (derivedBytesForTier m.tier).2

instance (m : SlotMetadata) : Decidable (Drifted m) := by unfold Drifted; infer_instance

/-- An error of another library, reported with a leading text. -/
def reported {α : Type} (text : String) : Except String α → Outcome α
  | .ok a => .ok a
  | .error e => .error (.err (text ++ e))

section Planes
variable (W P : Type) [ElasticWordPlane W] [PackedBitPlane P]

def makePlane (bits : ℕ) (lanes : List ℕ) : Outcome W :=
  match reported "" (ElasticWordPlane.fromBits (W := W) bits) with
  | .error e => .error e
  | .ok width => reported "" (ElasticWordPlane.new width lanes)

def sparseWord (p : ℕ × SlotMetadata) : List ℕ :=
  [p.1, p.2.generation, physicalTierCode p.2.tier, p.2.residentBytes, p.2.backingBytes, 0, 0, 0]

/-- W512 with eight lanes a present slot. -/
def elasticWordControlPlane (h : SlhaKvCacheHandle F) : Outcome W :=
  match h.lock with
  | .error e => .error e
  | .ok cache =>
    let counts := cache.counts
    match ((checkedAdd counts.1 counts.2.1).bind (checkedAdd · counts.2.2.1)).bind
        (checkedAdd · counts.2.2.2) with
    | none => .error (.err "SLHAv2 present-slot count overflow")
    | some presentSlots =>
      match checkedMul presentSlots 8 with
      | none => .error (.err "SLHAv2 ElasticWord lane capacity overflow")
      | some _ => makePlane W 512 ((slotControlMetadata cache).flatMap sparseWord)

/-- The loop of the dense snapshot: two lanes a position, or a drift report. -/
def denseLanes : List (Option SlotMetadata) → Outcome (List ℕ)
  | [] => .ok []
  | none :: rest => (denseLanes rest).map ([0, 0] ++ ·)
  | some m :: rest =>
    if Drifted m then .error (.err (driftMessage m))
    else (denseLanes rest).map ([m.generation, denseStateBits m.tier] ++ ·)

/-- W128 with one word a position. -/
def elasticWordDenseControlPlane (h : SlhaKvCacheHandle F) : Outcome W :=
  match h.lock with
  | .error e => .error e
  | .ok cache =>
    match checkedMul (slotControlMetadataDense cache).length 2 with
    | none => .error (.err "SLHAv2 dense ElasticWord lane capacity overflow")
    | some _ =>
      match denseLanes (slotControlMetadataDense cache) with
      | .error e => .error e
      | .ok lanes => makePlane W 128 lanes

/-- The planes while the hybrid loop fills them. -/
structure HybridLanes where
  generations : List ℕ
  presence : P
  tierLow : P
  tierHigh : P

structure HybridControlPlane where
  slotCount : ℕ
  generations : W
  presence : P
  tierLow : P
  tierHigh : P

variable {W P}

/-- Set a bit when the condition holds. -/
def setIf (b : Bool) (text : String) (p : P) (slot : ℕ) : Outcome P :=
  if b then reported text (PackedBitPlane.set p slot true) else .ok p

/-- One present slot of the hybrid loop. -/
def hybridSlot (slot : ℕ) (m : SlotMetadata) (st : HybridLanes P) : Outcome (HybridLanes P) :=
  if Drifted m then .error (.err (driftMessage m))
  else
    let code := physicalTierCode m.tier
    match setIf true "SLHAv2 presence bitplane update failed: " st.presence slot with
    | .error e => .error e
    | .ok presence =>
      match setIf (code &&& 1 ≠ 0) "SLHAv2 tier-low bitplane update failed: " st.tierLow slot with
      | .error e => .error e
      | .ok low =>
        match setIf (code &&& 2 ≠ 0) "SLHAv2 tier-high bitplane update failed: "
            st.tierHigh slot with
        | .error e => .error e
        | .ok high => .ok ⟨st.generations.set slot m.generation, presence, low, high⟩

/-- The loop over all positions from the given one on. -/
def hybridLoop : ℕ → List (Option SlotMetadata) → HybridLanes P → Outcome (HybridLanes P)
  | _, [], st => .ok st
  | slot, none :: rest, st => hybridLoop (slot + 1) rest st
  | slot, some m :: rest, st =>
    match hybridSlot slot m st with
    | .error e => .error e
    | .ok st => hybridLoop (slot + 1) rest st

def HybridLanes.zeroed (n : ℕ) : HybridLanes P :=
  ⟨List.replicate n 0, PackedBitPlane.zeroed n, PackedBitPlane.zeroed n, PackedBitPlane.zeroed n⟩

variable (W P) in
/-- Generation lanes and three Boolean planes. -/
def elasticWordHybridControlPlane (h : SlhaKvCacheHandle F) : Outcome (HybridControlPlane W P) :=
  match h.lock with
  | .error e => .error e
  | .ok cache =>
    let slotCount := (slotControlMetadataDense cache).length
    match hybridLoop 0 (slotControlMetadataDense cache) (HybridLanes.zeroed slotCount) with
    | .error e => .error e
    | .ok st =>
      match makePlane W 64 st.generations with
      | .error e => .error e
      | .ok generations => .ok ⟨slotCount, generations, st.presence, st.tierLow, st.tierHigh⟩

/-- Exact payload bits; the sum is unchecked machine arithmetic. -/
def HybridControlPlane.payloadBits (h : HybridControlPlane W P) : Outcome ℕ :=
  checkedSum [(ElasticWordPlane.asLanes h.generations).length * 64,
    PackedBitPlane.backingBits h.presence, PackedBitPlane.backingBits h.tierLow,
    PackedBitPlane.backingBits h.tierHigh]

def tierOfBits : Bool → Bool → PhysicalTier
  | false, false => .hot
  | true, false => .warm
  | false, true => .cold
  | true, true => .pinned

/-- Decode one slot; `expect` panics when a plane is shorter than the slot count. -/
def HybridControlPlane.slotState (h : HybridControlPlane W P) (slot : ℕ) :
    Outcome (Option (ℕ × PhysicalTier)) :=
  let count := h.slotCount
  if slot ≥ h.slotCount then
    .error (.err s!"SLHAv2 hybrid control slot {slot} out of range for {count} slots")
  else match PackedBitPlane.get h.presence slot, PackedBitPlane.get h.tierLow slot,
      PackedBitPlane.get h.tierHigh slot with
  | some present, some low, some high =>
    if !present then
      if low || high then
        .error (.err s!"SLHAv2 hybrid absent slot {slot} carries non-zero tier bits")
      else .ok none
    else match ElasticWordPlane.word h.generations slot with
      | .error e => .error (.err e)
      | .ok [] => .error .panic
      | .ok (generation :: _) => .ok (some (generation, tierOfBits low high))
  | _, _, _ => .error .panic

end Planes

structure ControlProfileAccounting where
  slotCount : ℕ
  presentSlots : ℕ
  sparsePayloadBits : ℕ
  densePayloadBits : ℕ
  hybridPayloadBits : ℕ
deriving DecidableEq

/-- The third checked product is of words, planes and bits in a word. -/
def elasticControlProfileAccounting (h : SlhaKvCacheHandle F) : Outcome ControlProfileAccounting :=
  match h.lock with
  | .error e => .error e
  | .ok cache =>
    let dense := slotControlMetadataDense cache
    let slotCount := dense.length
    let presentSlots := (dense.filter Option.isSome).length
    let bitmapWords := divCeil slotCount 64
    match checkedMul presentSlots 512 with
    | none => .error (.err "SLHAv2 sparse W512 payload accounting overflow")
    | some sparse =>
      match checkedMul slotCount 128 with
      | none => .error (.err "SLHAv2 dense W128 payload accounting overflow")
      | some denseBits =>
        match checkedMul slotCount 64 with
        | none => .error (.err "SLHAv2 hybrid generation payload accounting overflow")
        | some generationBits =>
          match (checkedMul bitmapWords 3).bind (checkedMul · 64) with
          | none => .error (.err "SLHAv2 hybrid Boolean payload accounting overflow")
          | some booleanBits =>
            match checkedAdd generationBits booleanBits with
            | none => .error (.err "SLHAv2 hybrid total payload accounting overflow")
            | some hybrid => .ok ⟨slotCount, presentSlots, sparse, denseBits, hybrid⟩

section Laws
variable {c : ElasticKvCache F}

/-- What a tier says about the bytes of its slot. -/
theorem bytes_of_represents {s : PhysicalSlot} {t : Tile} {f : Form} (h : Represents s t f) :
    (s.allocatedBytes, s.offloadedBytes) = derivedBytesForTier s.tier := by
  rw [h.allocatedBytes, h.offloadedBytes, h.tier]
  cases f <;> rfl

theorem not_drifted (hs : Sound c) {i : ℕ} {s : PhysicalSlot} (hat : slotAt c.slots i = some s) :
    ¬ Drifted (metadata s) := by
  obtain ⟨t, f, _, hf⟩ := hs.wellFormed i s hat
  have hb := bytes_of_represents hf
  simp only [Drifted, metadata, ← hb, ne_eq, not_true_eq_false, or_self, not_false_eq_true]

theorem getElem?_dense (c : ElasticKvCache F) (i : ℕ) :
    (slotControlMetadataDense c)[i]?.join = (slotAt c.slots i).map metadata := by
  unfold slotControlMetadataDense slotAt
  rw [List.getElem?_map]
  rcases c.slots[i]? with _ | (_ | s) <;> rfl

theorem length_dense (c : ElasticKvCache F) :
    (slotControlMetadataDense c).length = c.slots.length := List.length_map _

theorem not_drifted_of_mem (hs : Sound c) {m : SlotMetadata}
    (hm : some m ∈ slotControlMetadataDense c) : ¬ Drifted m := by
  obtain ⟨i, hi⟩ := List.getElem?_of_mem hm
  have hj := getElem?_dense c i
  rw [hi] at hj
  obtain ⟨s, hat, rfl⟩ := Option.map_eq_some_iff.mp hj.symm
  exact not_drifted hs hat

/-- The dense word of a position. -/
def denseWord : Option SlotMetadata → List ℕ
  | none => [0, 0]
  | some m => [m.generation, denseStateBits m.tier]

theorem denseLanes_ok {ms : List (Option SlotMetadata)} (h : ∀ m, some m ∈ ms → ¬ Drifted m) :
    denseLanes ms = .ok (ms.flatMap denseWord) := by
  induction ms with
  | nil => rfl
  | cons o ms ih =>
      have hrest := ih fun m hm => h m (List.mem_cons_of_mem _ hm)
      cases o with
      | none => simp only [denseLanes, hrest, Except.map, List.flatMap_cons, denseWord]
      | some m =>
          have hm := h m (by simp)
          simp only [denseLanes, if_neg hm, hrest, Except.map, List.flatMap_cons, denseWord]

end Laws

section Words
variable {α : Type} {k : ℕ} {g : α → List ℕ}

theorem length_flatMap_of_forall (h : ∀ a, (g a).length = k) (xs : List α) :
    (xs.flatMap g).length = xs.length * k := by
  induction xs with
  | nil => simp
  | cons x xs ih => simp [ih, h, Nat.succ_mul, Nat.add_comm]

/-- Cutting equal words out of their concatenation. -/
theorem take_drop_flatMap (h : ∀ a, (g a).length = k) {xs : List α} {i : ℕ} {a : α}
    (hi : xs[i]? = some a) : ((xs.flatMap g).drop (i * k)).take k = g a := by
  induction xs generalizing i with
  | nil => simp at hi
  | cons x xs ih =>
      cases i with
      | zero =>
          obtain rfl : x = a := by simpa using hi
          simp [← h x]
      | succ i =>
          have hd : (i + 1) * k = (g x).length + i * k := by rw [h, Nat.succ_mul, Nat.add_comm]
          rw [List.flatMap_cons, hd, List.drop_length_add_append]
          simp only [List.getElem?_cons_succ] at hi
          exact ih hi

end Words

section Hybrid
variable {P : Type} [PackedBitPlane P] {ms : List (Option SlotMetadata)} {k : ℕ}

/-- A Boolean plane holds the bit of every position before `k` and zeros after. -/
def FilledBits (ms : List (Option SlotMetadata)) (bit : SlotMetadata → Bool) (k : ℕ) (p : P) :
    Prop :=
  (∀ j, PackedBitPlane.get p j =
    if j < ms.length then some (decide (j < k) && ms[j]?.join.elim false bit) else none) ∧
  (PackedBitPlane.words p).length = divCeil ms.length 64

/-- The same for the generation lanes. -/
def FilledGenerations (ms : List (Option SlotMetadata)) (k : ℕ) (gs : List ℕ) : Prop :=
  ∀ j, gs[j]? = if j < ms.length then
    some (if j < k then ms[j]?.join.elim 0 SlotMetadata.generation else 0) else none

def lowBit (m : SlotMetadata) : Bool := physicalTierCode m.tier &&& 1 ≠ 0
def highBit (m : SlotMetadata) : Bool := physicalTierCode m.tier &&& 2 ≠ 0

structure Filled (ms : List (Option SlotMetadata)) (k : ℕ) (st : HybridLanes P) : Prop where
  generations : FilledGenerations ms k st.generations
  presence : FilledBits ms (fun _ => true) k st.presence
  tierLow : FilledBits ms lowBit k st.tierLow
  tierHigh : FilledBits ms highBit k st.tierHigh

theorem filledBits_zeroed (hP : LawfulBitPlane P) (ms : List (Option SlotMetadata))
    (bit : SlotMetadata → Bool) :
    FilledBits ms bit 0 (PackedBitPlane.zeroed ms.length : P) := by
  refine ⟨fun j => ?_, hP.words_zeroed _⟩
  rw [hP.get_zeroed]
  simp

theorem filled_zeroed (hP : LawfulBitPlane P) (ms : List (Option SlotMetadata)) :
    Filled ms 0 (HybridLanes.zeroed ms.length : HybridLanes P) where
  generations j := by
    simp only [HybridLanes.zeroed, List.getElem?_replicate, Nat.not_lt_zero, if_false]
  presence := filledBits_zeroed hP ms _
  tierLow := filledBits_zeroed hP ms _
  tierHigh := filledBits_zeroed hP ms _

/-- Passing a hole changes nothing: its bit is zero already. -/
theorem FilledBits.skip {bit : SlotMetadata → Bool} {p : P} (h : FilledBits ms bit k p)
    (hk : ms[k]? = some none) : FilledBits ms bit (k + 1) p := by
  refine ⟨fun j => ?_, h.2⟩
  rw [h.1 j]
  by_cases hj : j = k
  · subst hj
    simp [hk]
  · have : j < k + 1 ↔ j < k := by omega
    simp only [this]

theorem FilledBits.full {bit : SlotMetadata → Bool} {p : P} (h : FilledBits ms bit k p)
    (hk : ms.length ≤ k) : FilledBits ms bit ms.length p := by
  refine ⟨fun j => ?_, h.2⟩
  rw [h.1 j]
  by_cases hj : j < ms.length
  · simp only [hj, hj.trans_le hk]
  · simp only [hj, if_false]

theorem FilledGenerations.skip {gs : List ℕ} (h : FilledGenerations ms k gs)
    (hk : ms[k]? = some none) : FilledGenerations ms (k + 1) gs := by
  intro j
  rw [h j]
  by_cases hj : j = k
  · subst hj
    simp [hk]
  · have : j < k + 1 ↔ j < k := by omega
    simp only [this]

theorem Filled.skip {st : HybridLanes P} (h : Filled ms k st) (hk : ms[k]? = some none) :
    Filled ms (k + 1) st :=
  ⟨h.generations.skip hk, h.presence.skip hk, h.tierLow.skip hk, h.tierHigh.skip hk⟩

/-- Setting the bit of a present slot, when it has one. -/
theorem FilledBits.setIf (hP : LawfulBitPlane P) {bit : SlotMetadata → Bool} {p : P}
    {m : SlotMetadata} (h : FilledBits ms bit k p) (hk : ms[k]? = some (some m))
    (text : String) : ∃ p', setIf (bit m) text p k = .ok p' ∧ FilledBits ms bit (k + 1) p' := by
  have hlt : k < ms.length := (List.getElem?_eq_some_iff.mp hk).1
  have hstep : ∀ j, j ≠ k → (j < k + 1 ↔ j < k) := by omega
  cases hb : bit m with
  | false =>
      refine ⟨p, rfl, fun j => ?_, h.2⟩
      rw [h.1 j]
      by_cases hj : j = k
      · subst hj
        simp [hk, hb]
      · simp only [hstep j hj]
  | true =>
      obtain ⟨p', hset, hget, hlen⟩ := hP.set_ok p k true (by rw [h.1 k, if_pos hlt]; simp)
      refine ⟨p', by simp [ControlPlanes.setIf, hset, reported], fun j => ?_, hlen.trans h.2⟩
      rw [hget j]
      by_cases hj : j = k
      · subst hj
        rw [if_pos rfl, if_pos hlt, hk]
        simp [hb]
      · rw [if_neg hj, h.1 j]
        simp only [hstep j hj]

theorem FilledGenerations.set {gs : List ℕ} {m : SlotMetadata} (h : FilledGenerations ms k gs)
    (hk : ms[k]? = some (some m)) : FilledGenerations ms (k + 1) (gs.set k m.generation) := by
  have hlt : k < ms.length := (List.getElem?_eq_some_iff.mp hk).1
  intro j
  by_cases hj : j = k
  · subst hj
    have hin : j < gs.length := by
      have := h j
      rw [if_pos hlt] at this
      exact (List.getElem?_eq_some_iff.mp this).1
    rw [List.getElem?_set_self hin, if_pos hlt, hk]
    simp
  · have hstep : j < k + 1 ↔ j < k := by omega
    rw [List.getElem?_set_ne (Ne.symm hj), h j]
    simp only [hstep]

theorem Filled.slot (hP : LawfulBitPlane P) {st : HybridLanes P} {m : SlotMetadata}
    (h : Filled ms k st) (hk : ms[k]? = some (some m)) (hm : ¬ Drifted m) :
    ∃ st', hybridSlot k m st = .ok st' ∧ Filled ms (k + 1) st' := by
  obtain ⟨p, hp, fp⟩ := h.presence.setIf hP hk "SLHAv2 presence bitplane update failed: "
  obtain ⟨lo, hlo, flo⟩ := h.tierLow.setIf hP hk "SLHAv2 tier-low bitplane update failed: "
  obtain ⟨hi, hhi, fhi⟩ := h.tierHigh.setIf hP hk "SLHAv2 tier-high bitplane update failed: "
  refine ⟨⟨st.generations.set k m.generation, p, lo, hi⟩, ?_, h.generations.set hk, fp, flo, fhi⟩
  unfold lowBit at hlo
  unfold highBit at hhi
  simp only [hybridSlot, if_neg hm, hp, hlo, hhi]

/-- The loop over the positions that are left fills the planes. -/
theorem hybridLoop_filled (hP : LawfulBitPlane P) (hm : ∀ m, some m ∈ ms → ¬ Drifted m)
    {rest : List (Option SlotMetadata)} {st : HybridLanes P} (hrest : ms.drop k = rest)
    (h : Filled ms k st) : ∃ st', hybridLoop k rest st = .ok st' ∧ Filled ms ms.length st' := by
  induction rest generalizing k st with
  | nil =>
      have hk : ms.length ≤ k := List.drop_eq_nil_iff.mp hrest
      refine ⟨st, rfl, fun j => ?_, h.presence.full hk, h.tierLow.full hk, h.tierHigh.full hk⟩
      rw [h.generations j]
      split_ifs with h₁ h₂ <;> first | rfl | omega
  | cons o rest ih =>
      have hk : ms[k]? = some o := by
        have := congrArg (·[0]?) hrest
        simpa [List.getElem?_drop] using this
      have hdrop : ms.drop (k + 1) = rest := by
        rw [← List.drop_drop, hrest]
        rfl
      cases o with
      | none => exact ih hdrop (h.skip hk)
      | some m =>
          obtain ⟨st', hst, hf⟩ := h.slot hP hk (hm m (List.mem_of_getElem? hk))
          obtain ⟨st'', hrun, hf'⟩ := ih hdrop hf
          exact ⟨st'', by simp only [hybridLoop, hst, hrun], hf'⟩

end Hybrid

section Projections
variable {W P : Type} [ElasticWordPlane W] [PackedBitPlane P] {c : ElasticKvCache F}

theorem makePlane_ok (hW : LawfulWordPlane W) {bits : ℕ} (hb : bits ∈ [64, 128, 512])
    (lanes : List ℕ) (hl : lanes.length % (bits / 64) = 0) :
    ∃ p : W, makePlane W bits lanes = .ok p ∧ ElasticWordPlane.asLanes p = lanes ∧
      ∀ i, i * (bits / 64) < lanes.length →
        ElasticWordPlane.word p i = .ok ((lanes.drop (i * (bits / 64))).take (bits / 64)) := by
  obtain ⟨width, hw, hnew⟩ := hW.verbatim bits hb
  obtain ⟨p, hp, hlanes, hword⟩ := hnew lanes hl
  exact ⟨p, by simp only [makePlane, hw, hp, reported], hlanes, hword⟩

/-- A plane of equal words gives each of them back. -/
theorem makePlane_flatMap (hW : LawfulWordPlane W) (bits : ℕ) (hb : bits ∈ [64, 128, 512])
    {α : Type} {g : α → List ℕ} (hg : ∀ a, (g a).length = bits / 64) (xs : List α) :
    ∃ p : W, makePlane W bits (xs.flatMap g) = .ok p ∧
      (ElasticWordPlane.asLanes p).length = xs.length * (bits / 64) ∧
      ∀ i a, xs[i]? = some a → ElasticWordPlane.word p i = .ok (g a) := by
  have hlen := length_flatMap_of_forall hg xs
  obtain ⟨p, hp, hlanes, hword⟩ := makePlane_ok hW hb (xs.flatMap g)
    (by rw [hlen, Nat.mul_mod_left])
  refine ⟨p, hp, by rw [hlanes, hlen], fun i a hi => ?_⟩
  have hpos : 0 < bits / 64 := by
    simp only [List.mem_cons, List.not_mem_nil, or_false] at hb
    omega
  have hlt : i < xs.length := (List.getElem?_eq_some_iff.mp hi).1
  rw [hword i (by rw [hlen]; exact Nat.mul_lt_mul_of_pos_right hlt hpos),
    take_drop_flatMap hg hi]

theorem mem_slotControlMetadata {i : ℕ} {m : SlotMetadata} :
    (i, m) ∈ slotControlMetadata c ↔ ∃ s, slotAt c.slots i = some s ∧ m = metadata s := by
  unfold slotControlMetadata slotAt
  simp only [List.mem_filterMap, Option.map_eq_some_iff, Prod.mk.injEq, Prod.exists,
    List.mem_zipIdx_iff_getElem?, Option.join_eq_some_iff]
  constructor
  · rintro ⟨o, j, hj, s, rfl, rfl, rfl⟩
    exact ⟨s, hj, rfl⟩
  · rintro ⟨s, hs, rfl⟩
    exact ⟨some s, i, hs, s, rfl, rfl, rfl⟩

theorem pairwise_slotControlMetadata :
    (slotControlMetadata c).Pairwise (fun a b => a.1 < b.1) := by
  unfold slotControlMetadata
  rw [List.pairwise_filterMap]
  have hidx : c.slots.zipIdx.Pairwise (fun a b => a.2 < b.2) := by
    rw [← List.pairwise_map, List.zipIdx_map_snd]
    exact List.pairwise_lt_range'
  refine hidx.imp ?_
  rintro ⟨oa, ia⟩ ⟨ob, ib⟩ hab a ha b hb
  obtain ⟨_, _, rfl⟩ := Option.map_eq_some_iff.mp ha
  obtain ⟨_, _, rfl⟩ := Option.map_eq_some_iff.mp hb
  exact hab

theorem length_slotControlMetadata : (slotControlMetadata c).length = c.presentCount := by
  have hgen : ∀ (xs : List (Option PhysicalSlot)) (n : ℕ),
      ((xs.zipIdx n).filterMap fun p => p.1.map fun s => (p.2, metadata s)).length =
        total (fun _ => 1) xs := by
    intro xs
    induction xs with
    | nil => intro n; rfl
    | cons o xs ih =>
        intro n
        cases o with
        | none => simp [ih, total_cons]
        | some s => simp [ih, total_cons, Nat.add_comm]
  exact hgen c.slots 0

theorem length_filter_dense :
    ((slotControlMetadataDense c).filter Option.isSome).length = c.presentCount := by
  unfold slotControlMetadataDense presentCount
  induction c.slots with
  | nil => rfl
  | cons o xs ih => cases o <;> simp [ih, total_cons, Nat.add_comm]

theorem counts_sum : c.counts.1 + c.counts.2.1 + c.counts.2.2.1 + c.counts.2.2.2 =
    c.presentCount := by
  unfold counts presentCount
  dsimp only
  rw [← total_add, ← total_add, ← total_add]
  refine total_congr fun _ s _ => ?_
  cases s.tier <;> rfl

end Projections

section Planes
variable {W P : Type} [ElasticWordPlane W] [PackedBitPlane P] {c : ElasticKvCache F}

/-- The sparse plane lists the present slots in order, one word each. -/
def SparseLists (c : ElasticKvCache F) (p : W) : Prop :=
  ∃ slots : List ℕ, slots.Pairwise (· < ·) ∧
    (∀ i, i ∈ slots ↔ (slotAt c.slots i).isSome) ∧
    64 * (ElasticWordPlane.asLanes p).length = 512 * c.presentCount ∧
    ∀ k i, slots[k]? = some i → ∃ s, slotAt c.slots i = some s ∧
      ElasticWordPlane.word p k = .ok [i, s.seq, physicalTierCode s.tier, s.allocatedBytes,
        s.offloadedBytes, 0, 0, 0]

theorem elasticWordControlPlane_lists (hW : LawfulWordPlane W) (hfit : Fits c) :
    ∃ p : W, elasticWordControlPlane W (.new c) = .ok p ∧ SparseLists c p := by
  obtain ⟨p, hp, hlen, hword⟩ := makePlane_flatMap hW 512 (by decide)
    (g := sparseWord) (fun _ => rfl) (slotControlMetadata c)
  have hsum := counts_sum (c := c)
  have hroom : c.presentCount * 128 ≤ maxWord := by
    unfold Fits at hfit
    simp only [tileBytes] at hfit
    omega
  have hcount : ((checkedAdd c.counts.1 c.counts.2.1).bind (checkedAdd · c.counts.2.2.1)).bind
      (checkedAdd · c.counts.2.2.2) = some c.presentCount := by
    simp only [checkedAdd, Option.bind_eq_some_iff, Option.ite_none_right_eq_some,
      Option.some.injEq]
    exact ⟨_, ⟨_, ⟨by omega, rfl⟩, by omega, rfl⟩, by omega, hsum⟩
  have hlanes : checkedMul c.presentCount 8 = some (c.presentCount * 8) :=
    checkedMul_eq_some.mpr ⟨by omega, rfl⟩
  refine ⟨p, ?_, (slotControlMetadata c).map Prod.fst, ?_, fun i => ?_, ?_, fun k i hk => ?_⟩
  · simp only [elasticWordControlPlane, SlhaKvCacheHandle.lock, SlhaKvCacheHandle.new, hcount,
      hlanes, hp, Bool.false_eq_true, if_false]
  · rw [List.pairwise_map]
    exact pairwise_slotControlMetadata
  · rw [List.mem_map, Option.isSome_iff_exists]
    constructor
    · rintro ⟨⟨j, m⟩, hm, rfl⟩
      obtain ⟨s, hs, _⟩ := mem_slotControlMetadata.mp hm
      exact ⟨s, hs⟩
    · rintro ⟨s, hs⟩
      exact ⟨(i, metadata s), mem_slotControlMetadata.mpr ⟨s, hs, rfl⟩, rfl⟩
  · rw [hlen, length_slotControlMetadata]
    omega
  · rw [List.getElem?_map, Option.map_eq_some_iff] at hk
    obtain ⟨⟨j, m⟩, hkm, rfl⟩ := hk
    obtain ⟨s, hs, rfl⟩ := mem_slotControlMetadata.mp (List.mem_of_getElem? hkm)
    exact ⟨s, hs, hword k _ hkm⟩

/-- The dense word a position should have. -/
def denseSlotWord : Option PhysicalSlot → List ℕ
  | none => [0, 0]
  | some s => [s.seq, presentBit ||| tierBit s.tier]

/-- A zero word is a hole, even for generation zero. -/
theorem denseSlotWord_eq_zero {o : Option PhysicalSlot} : denseSlotWord o = [0, 0] ↔ o = none := by
  cases o with
  | none => simp [denseSlotWord]
  | some s =>
      have hbit : presentBit ||| tierBit s.tier ≠ 0 := by cases s.tier <;> decide
      simp [denseSlotWord, hbit]

def DenseLists (c : ElasticKvCache F) (p : W) : Prop :=
  64 * (ElasticWordPlane.asLanes p).length = 128 * c.slots.length ∧
    ∀ i, i < c.slots.length →
      ElasticWordPlane.word p i = .ok (denseSlotWord (slotAt c.slots i)) ∧
        (ElasticWordPlane.word p i = .ok [0, 0] ↔ slotAt c.slots i = none)

theorem elasticWordDenseControlPlane_lists (hW : LawfulWordPlane W) (hs : Sound c)
    (hroom : c.slots.length * 2 ≤ maxWord) :
    ∃ p : W, elasticWordDenseControlPlane W (.new c) = .ok p ∧ DenseLists c p := by
  have hlanes := denseLanes_ok fun m hm => not_drifted_of_mem (c := c) hs hm
  obtain ⟨p, hp, hlen, hword⟩ := makePlane_flatMap hW 128 (by decide)
    (g := denseWord) (fun o => by cases o <;> rfl) (slotControlMetadataDense c)
  have hmul : checkedMul (slotControlMetadataDense c).length 2 = some (c.slots.length * 2) := by
    rw [length_dense]
    exact checkedMul_eq_some.mpr ⟨hroom, rfl⟩
  refine ⟨p, ?_, ?_, fun i hi => ?_⟩
  · simp only [elasticWordDenseControlPlane, SlhaKvCacheHandle.lock, SlhaKvCacheHandle.new, hmul,
      hlanes, hp, Bool.false_eq_true, if_false]
  · rw [hlen, length_dense]
    omega
  · have hi' : i < (slotControlMetadataDense c).length := by rw [length_dense]; exact hi
    have hat := getElem?_dense c i
    have hw : ElasticWordPlane.word p i = .ok (denseSlotWord (slotAt c.slots i)) := by
      rw [hword i _ (List.getElem?_eq_getElem hi')]
      rw [List.getElem?_eq_getElem hi', Option.join_some] at hat
      rw [hat]
      cases slotAt c.slots i <;> rfl
    refine ⟨hw, ?_⟩
    rw [hw, Except.ok.injEq, denseSlotWord_eq_zero]

/-- Every position of the hybrid plane decodes to the slot it stands for. -/
def HybridDecodes (c : ElasticKvCache F) (p : HybridControlPlane W P) : Prop :=
  (∀ i, i < c.slots.length →
    p.slotState i = .ok ((slotAt c.slots i).map fun s => (s.seq, s.tier))) ∧
  (∀ i, c.slots.length ≤ i → ∃ m, p.slotState i = .error (.err m)) ∧
  p.payloadBits = .ok (64 * c.slots.length + 3 * 64 * divCeil c.slots.length 64)

theorem tierOfBits_code (t : PhysicalTier) :
    tierOfBits (physicalTierCode t &&& 1 ≠ 0) (physicalTierCode t &&& 2 ≠ 0) = t := by
  cases t <;> rfl

theorem slotState_filled {ms : List (Option SlotMetadata)} {st : HybridLanes P} {gens : W}
    (h : Filled ms ms.length st) (hgen : ∀ i g, st.generations[i]? = some g →
      ElasticWordPlane.word gens i = .ok [g]) {i : ℕ} (hi : i < ms.length) :
    HybridControlPlane.slotState ⟨ms.length, gens, st.presence, st.tierLow, st.tierHigh⟩ i =
      .ok (ms[i]?.join.map fun m => (m.generation, m.tier)) := by
  have hp := h.presence.1 i
  have hl := h.tierLow.1 i
  have hh := h.tierHigh.1 i
  have hg := h.generations i
  rw [if_pos hi, decide_eq_true hi, Bool.true_and] at hp hl hh
  rw [if_pos hi, if_pos hi] at hg
  unfold HybridControlPlane.slotState
  dsimp only
  rw [if_neg (Nat.not_le.mpr hi), hp, hl, hh]
  cases hm : ms[i]?.join with
  | none => rfl
  | some m =>
      rw [hm] at hg
      simp only [Option.elim, Bool.not_true, Bool.false_eq_true, if_false, hgen i _ hg,
        Option.map_some, lowBit, highBit]
      rw [tierOfBits_code]

theorem divCeil_le (n : ℕ) : divCeil n 64 ≤ n := by
  unfold divCeil
  split_ifs <;> omega

theorem elasticWordHybridControlPlane_decodes (hW : LawfulWordPlane W) (hP : LawfulBitPlane P)
    (hs : Sound c) (hroom : 512 * c.slots.length ≤ maxWord) :
    ∃ p, elasticWordHybridControlPlane W P (.new c) = .ok p ∧ HybridDecodes c p := by
  obtain ⟨st, hloop, hst⟩ := hybridLoop_filled (k := 0) hP
    (fun m hm => not_drifted_of_mem (c := c) hs hm) rfl
    (filled_zeroed hP (slotControlMetadataDense c))
  obtain ⟨gens, hgens, hlanes, hword⟩ := makePlane_ok hW
    (show 64 ∈ [64, 128, 512] by decide) st.generations (Nat.mod_one _)
  have hlen := length_dense c
  have hglen : st.generations.length = c.slots.length := by
    refine le_antisymm ?_ ?_
    · by_contra hlt
      have := hst.generations c.slots.length
      rw [hlen, if_neg (lt_irrefl _), List.getElem?_eq_none_iff] at this
      omega
    · by_contra hlt
      have := hst.generations st.generations.length
      rw [hlen, if_pos (by omega), List.getElem?_eq_none_iff.mpr le_rfl] at this
      cases this
  refine ⟨⟨(slotControlMetadataDense c).length, gens, st.presence, st.tierLow, st.tierHigh⟩,
    ?_, fun i hi => ?_, fun i hi => ?_, ?_⟩
  · simp only [elasticWordHybridControlPlane, SlhaKvCacheHandle.lock, SlhaKvCacheHandle.new,
      Bool.false_eq_true, if_false, List.drop_zero] at hloop ⊢
    simp only [hloop, hgens]
  · rw [slotState_filled hst (fun i g hg => ?_) (by rw [hlen]; exact hi), getElem?_dense,
      Option.map_map]
    · rfl
    · have hlt := (List.getElem?_eq_some_iff.mp hg).1
      rw [hword i (by simpa using hlt)]
      simp only [Nat.reduceDiv, Nat.mul_one]
      rw [List.take_one, List.head?_drop, hg]
      rfl
  · unfold HybridControlPlane.slotState
    dsimp only
    rw [if_pos (by rw [hlen]; exact hi)]
    exact ⟨_, rfl⟩
  · have hceil := divCeil_le c.slots.length
    simp only [HybridControlPlane.payloadBits, PackedBitPlane.backingBits, hlanes, hglen,
      hst.presence.2, hst.tierLow.2, hst.tierHigh.2, hlen, checkedSum, List.sum_cons, List.sum_nil]
    rw [if_pos (by omega)]
    congr 1
    omega

end Planes

theorem elasticControlProfileAccounting_ok {c : ElasticKvCache F}
    (hroom : 512 * c.slots.length ≤ maxWord) :
    elasticControlProfileAccounting (.new c) = .ok ⟨c.slots.length, c.presentCount,
      512 * c.presentCount, 128 * c.slots.length,
      64 * c.slots.length + 3 * 64 * divCeil c.slots.length 64⟩ := by
  have hceil := divCeil_le c.slots.length
  have hpres : c.presentCount ≤ c.slots.length := by
    rw [← length_filter_dense, ← length_dense c]
    exact List.length_filter_le _ _
  have h₁ : checkedMul c.presentCount 512 = some (512 * c.presentCount) :=
    checkedMul_eq_some.mpr ⟨by omega, by omega⟩
  have h₂ : checkedMul c.slots.length 128 = some (128 * c.slots.length) :=
    checkedMul_eq_some.mpr ⟨by omega, by omega⟩
  have h₃ : checkedMul c.slots.length 64 = some (64 * c.slots.length) :=
    checkedMul_eq_some.mpr ⟨by omega, by omega⟩
  have h₄ : (checkedMul (divCeil c.slots.length 64) 3).bind (checkedMul · 64) =
      some (3 * 64 * divCeil c.slots.length 64) :=
    Option.bind_eq_some_iff.mpr ⟨_, checkedMul_eq_some.mpr ⟨by omega, rfl⟩,
      checkedMul_eq_some.mpr ⟨by omega, by omega⟩⟩
  have h₅ : checkedAdd (64 * c.slots.length) (3 * 64 * divCeil c.slots.length 64) =
      some (64 * c.slots.length + 3 * 64 * divCeil c.slots.length 64) :=
    checkedAdd_eq_some.mpr ⟨by omega, rfl⟩
  simp only [elasticControlProfileAccounting, SlhaKvCacheHandle.lock, SlhaKvCacheHandle.new,
    Bool.false_eq_true, if_false, length_dense, length_filter_dense, h₁, h₂, h₃, h₄, h₅]

section Reachable
variable [F64 F] [F32Arith] {c : ElasticKvCache F} {budget : ℕ} {id : String} {ops : List Op}

/-- In every reachable state the running count is exact, every slot holds the
bytes of its tier, and the snapshot loops find no drift. -/
theorem reachable_accounting_exact (hrun : Runs exec Fits (new (F := F) budget id) ops c) :
    c.verifyAccounting = .ok () ∧
      c.residentBytes = total PhysicalSlot.allocatedBytes c.slots ∧
      (∀ i s, slotAt c.slots i = some s →
        (s.allocatedBytes, s.offloadedBytes) = (match s.tier with
          | .hot | .pinned => (128, 0)
          | .warm => (96, 32)
          | .cold => (0, 128)) ∧
        derivedBytesForTier s.tier = (s.allocatedBytes, s.offloadedBytes)) ∧
      (∃ lanes, denseLanes (slotControlMetadataDense c) = .ok lanes) ∧
      ∀ (P : Type) [PackedBitPlane P], LawfulBitPlane P →
        ∃ st : HybridLanes P, hybridLoop 0 (slotControlMetadataDense c)
          (HybridLanes.zeroed (slotControlMetadataDense c).length) = .ok st := by
  obtain ⟨hs, hfit⟩ := reachable_sound_fits hrun
  refine ⟨verifyAccounting_ok hs (HardBudget.resident_le_maxWord hs hfit), hs.accounting,
    fun i s hat => ?_, ⟨_, denseLanes_ok fun m hm => not_drifted_of_mem hs hm⟩,
    fun P _ hP => ?_⟩
  · obtain ⟨t, f, _, hf⟩ := hs.wellFormed i s hat
    have hb := bytes_of_represents hf
    refine ⟨?_, hb.symm⟩
    rw [hb]
    cases s.tier <;> rfl
  · obtain ⟨st, hst, _⟩ := hybridLoop_filled (k := 0) hP
      (fun m hm => not_drifted_of_mem (c := c) hs hm) rfl
      (filled_zeroed hP (slotControlMetadataDense c))
    exact ⟨st, hst⟩

end Reachable

section Example
local instance : F32Arith := F32Arith.trivial

/-- One HOT tile that became WARM. -/
theorem reachable_accounting_exact_warm :
    (exec (exec (new (F := ℚ) 256 "kv") (.insert (ByteBuffer.zeros tileBytes)))
      (.demoteSlot 0)).verifyAccounting = .ok () := by
  have hrun : Runs exec Fits (new (F := ℚ) 256 "kv")
      ([.insert (ByteBuffer.zeros tileBytes)] ++ [.demoteSlot 0]) _ :=
    Runs.snoc (Runs.single (by decide)) (by decide +kernel)
  exact (reachable_accounting_exact hrun).1

end Example

section Agreement
variable [F64 F] [F32Arith] {c : ElasticKvCache F} {budget : ℕ} {id : String} {ops : List Op}

/-- The three projections of a reachable cache describe the same slots, and the
accounting counts the bits of the planes that are built. -/
theorem projections_agree {W P : Type} [ElasticWordPlane W] [PackedBitPlane P]
    (hW : LawfulWordPlane W) (hP : LawfulBitPlane P)
    (hrun : Runs exec Fits (new (F := F) budget id) ops c)
    (hroom : 512 * c.slots.length ≤ maxWord) :
    (∃ p : W, elasticWordControlPlane W (.new c) = .ok p ∧ SparseLists c p) ∧
      (∃ p : W, elasticWordDenseControlPlane W (.new c) = .ok p ∧ DenseLists c p) ∧
      (∃ p, elasticWordHybridControlPlane W P (.new c) = .ok p ∧ HybridDecodes c p) ∧
      elasticControlProfileAccounting (.new c) = .ok ⟨c.slots.length, c.presentCount,
        512 * c.presentCount, 128 * c.slots.length,
        64 * c.slots.length + 3 * 64 * divCeil c.slots.length 64⟩ := by
  obtain ⟨hs, hfit⟩ := reachable_sound_fits hrun
  exact ⟨elasticWordControlPlane_lists hW hfit,
    elasticWordDenseControlPlane_lists hW hs (by omega),
    elasticWordHybridControlPlane_decodes hW hP hs hroom,
    elasticControlProfileAccounting_ok hroom⟩

end Agreement

/-- Word planes as a lane list with its word size. -/
structure LaneList where
  size : ℕ
  lanes : List ℕ

instance : ElasticWordPlane LaneList where
  Width := ℕ
  fromBits bits := if bits % 64 = 0 ∧ 0 < bits then .ok (bits / 64) else .error "invalid width"
  new size lanes := if lanes.length % size = 0 then .ok ⟨size, lanes⟩ else .error "partial word"
  asLanes p := p.lanes
  word p i := if i * p.size < p.lanes.length then .ok ((p.lanes.drop (i * p.size)).take p.size)
    else .error "word index out of range"

theorem lawful_laneList : LawfulWordPlane LaneList where
  verbatim bits hb := by
    have hw : bits % 64 = 0 ∧ 0 < bits := by
      simp only [List.mem_cons, List.not_mem_nil, or_false] at hb
      omega
    refine ⟨bits / 64, if_pos hw, fun lanes hl => ⟨⟨bits / 64, lanes⟩, if_pos hl, rfl, ?_⟩⟩
    intro i hi
    exact if_pos hi

/-- Bit planes as the list of their bits; words are cut from it. -/
structure BitList where
  bits : List Bool

instance : PackedBitPlane BitList where
  zeroed n := ⟨List.replicate n false⟩
  set p i b := if i < p.bits.length then .ok ⟨p.bits.set i b⟩ else .error "bit index out of range"
  get p i := p.bits[i]?
  words p := (List.range (divCeil p.bits.length 64)).map fun w =>
    ((p.bits.drop (64 * w)).take 64).foldr (fun b n => 2 * n + b.toNat) 0

theorem lawful_bitList : LawfulBitPlane BitList where
  get_zeroed n i := List.getElem?_replicate
  words_zeroed n := by simp [PackedBitPlane.words, PackedBitPlane.zeroed]
  set_ok p i b hi := by
    have hlt : i < p.bits.length := by
      by_contra hge
      exact hi (List.getElem?_eq_none (Nat.le_of_not_lt hge))
    refine ⟨⟨p.bits.set i b⟩, if_pos hlt, fun j => ?_, by simp [PackedBitPlane.words]⟩
    change (p.bits.set i b)[j]? = if j = i then some b else p.bits[j]?
    by_cases hj : j = i
    · subst hj
      rw [if_pos rfl, List.getElem?_set_self hlt]
    · rw [if_neg hj, List.getElem?_set_ne (Ne.symm hj)]

section Example
local instance : F32Arith := F32Arith.trivial

/-- A hole followed by a present slot of generation zero. -/
theorem projections_agree_hole :
    let c := exec (new (F := ℚ) 256 "kv") (.writeAt 1 (ByteBuffer.zeros tileBytes) true)
    (c.slots.length = 2 ∧ c.presentCount = 1) ∧
      ∃ p, elasticWordHybridControlPlane LaneList BitList (.new c) = .ok p ∧ HybridDecodes c p := by
  intro c
  have hrun : Runs exec Fits (new (F := ℚ) 256 "kv")
      [.writeAt 1 (ByteBuffer.zeros tileBytes) true] c := Runs.single (by decide)
  exact ⟨by decide,
    (projections_agree lawful_laneList lawful_bitList hrun (by decide)).2.2.1⟩

end Example

end SlhaV2.ControlPlanes
