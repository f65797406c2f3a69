import SlhaV2.TileStore

/-!
# What the tile store holds after any calls

The representation ties the three sizes, the alignment offset and the byte map
to the tiles written since they were last cleared. Every call keeps it, and
what a read returns is read off it.
-/
namespace SlhaV2.TileStoreRuns
open MachineWord ByteBuffer TileStore

/-- The store holds exactly the written tiles, each in its own cell. -/
structure Rep (s : Store) (w : Written) : Prop where
  slots : s.valid.length = s.nLayers * s.capacity
  room : s.tileBaseOffset + s.nLayers * s.capacity * s.tileBytes ≤ s.tiles.length
  validWord : s.valid.length ≤ maxWord
  tilesWord : s.tiles.length ≤ maxWord
  slack : s.nLayers * s.capacity * s.tileBytes + (tileAlign - 1) ≤ maxWord
  inside : ∀ l p t, w l p = some t → l < s.nLayers ∧ p < s.capacity
  wide : ∀ l p t, w l p = some t → s.tileBytes ≠ 0
  live : ∀ l p, l < s.nLayers → p < s.capacity →
    (s.valid[l * s.capacity + p]? = some 0 ↔ w l p = none)
  bytes : ∀ l p t, w l p = some t →
    slice s.tiles (s.tileBaseOffset + (l * s.capacity + p) * s.tileBytes) s.tileBytes = t

namespace Rep

variable {s : Store} {w : Written}

/-- Products and sums for a range of positions are exact, and the range is inside. -/
theorem indices (r : Rep s w) {l p k : ℕ} (hl : l < s.nLayers) (hp : p + k ≤ s.capacity) :
    s.validIndex l p = l * s.capacity + p ∧
      l * s.capacity + p + k ≤ s.valid.length ∧
      s.tileIndex l p = s.tileBaseOffset + (l * s.capacity + p) * s.tileBytes ∧
      s.tileBaseOffset + (l * s.capacity + p) * s.tileBytes + k * s.tileBytes ≤
        s.tiles.length := by
  have hg := grid_le hl hp
  have hb := Nat.mul_le_mul_right s.tileBytes hg
  rw [Nat.add_mul] at hb
  have hv := r.slots
  have hvw := r.validWord
  have htw := r.tilesWord
  have hroom := r.room
  have h₁ : wordMul l s.capacity = l * s.capacity := wordMul_eq (by omega)
  have h₂ : wordAdd (l * s.capacity) p = l * s.capacity + p := wordAdd_eq (by omega)
  have h₃ : wordMul (l * s.capacity + p) s.tileBytes = (l * s.capacity + p) * s.tileBytes :=
    wordMul_eq (by omega)
  refine ⟨?_, by omega, ?_, by omega⟩
  · unfold Store.validIndex
    rw [h₁, h₂]
  · unfold Store.tileIndex
    rw [h₁, h₂, h₃]
    exact wordAdd_eq (by omega)

theorem empty : Rep .empty Written.none where
  slots := rfl
  room := le_rfl
  validWord := Nat.zero_le _
  tilesWord := Nat.zero_le _
  slack := by decide
  inside l p t h := by cases h
  wide l p t h := by cases h
  live l p hl := by cases hl
  bytes l p t h := by cases h

/-- A store of the same shape whose byte map is blank represents no tile. -/
theorem blank {t : Store} (hs : t.valid = List.replicate (t.nLayers * t.capacity) 0)
    (hroom : t.tileBaseOffset + t.nLayers * t.capacity * t.tileBytes ≤ t.tiles.length)
    (hv : t.nLayers * t.capacity ≤ maxWord) (ht : t.tiles.length ≤ maxWord)
    (hsl : t.nLayers * t.capacity * t.tileBytes + (tileAlign - 1) ≤ maxWord) :
    Rep t Written.none where
  slots := by rw [hs, List.length_replicate]
  room := hroom
  validWord := by
    rw [hs, List.length_replicate]
    exact hv
  tilesWord := ht
  slack := hsl
  inside l p t h := by cases h
  wide l p t h := by cases h
  live l p hl hp := by
    have hg := grid_le (k := 1) hl hp
    rw [hs, List.getElem?_replicate_of_lt (by omega)]
    exact iff_of_true rfl rfl
  bytes l p t h := by cases h

theorem reset (r : Rep s w) : Rep s.reset.1 Written.none := by
  have hs := r.slots
  apply blank
  · unfold Store.reset
    dsimp only
    rw [hs]
  · unfold Store.reset
    dsimp only
    rw [List.length_replicate]
    exact r.room
  · unfold Store.reset
    dsimp only
    rw [← hs]
    exact r.validWord
  · unfold Store.reset
    dsimp only
    rw [List.length_replicate]
    exact r.tilesWord
  · exact r.slack

/-- A rebuild either refuses and leaves the store, or makes an empty one. -/
theorem rebuild_cases (s : Store) (n c b : ℕ) (alloc : Alloc) :
    s.rebuild n c b alloc = (s, .accepted false) ∨
      (s.rebuild n c b alloc).2 = .accepted true ∧
        Rep (s.rebuild n c b alloc).1 Written.none := by
  unfold Store.rebuild
  rcases hg : slhaCheckedStoreGeometry n c b with _ | ⟨slots, allocation⟩
  · exact Or.inl rfl
  · dsimp only
    rcases ha : alloc allocation with _ | raw
    · exact Or.inl rfl
    · rcases alloc slots with _ | raw'
      · exact Or.inl rfl
      · right
        obtain ⟨hslots, hall, hw, haw⟩ := geometry_eq_some hg
        refine ⟨rfl, ?_⟩
        apply blank
        · dsimp only
          rw [hslots]
        · dsimp only
          have hpad : padding raw.1 ≤ tileAlign - 1 := by
            unfold padding tileAlign
            omega
          rw [List.length_replicate]
          omega
        · exact hw
        · dsimp only
          rw [List.length_replicate, hall]
          exact haw
        · exact haw

/-- A written tile keeps the guards of both resizing calls up. -/
theorem anyValid (r : Rep s w) {l p : ℕ} {t : List UInt8} (h : w l p = some t) :
    s.anyValid = true := by
  obtain ⟨hl, hp⟩ := r.inside l p t h
  have hlen : l * s.capacity + p < s.valid.length := (r.indices (k := 1) hl hp).2.1
  have hv : s.valid[l * s.capacity + p]? = some s.valid[l * s.capacity + p] :=
    List.getElem?_eq_getElem hlen
  unfold Store.anyValid
  rw [List.any_eq_true]
  refine ⟨_, List.mem_of_getElem? hv, ?_⟩
  rw [decide_eq_true_eq]
  intro hz
  rw [hz] at hv
  rw [(r.live l p hl hp).mp hv] at h
  cases h

theorem copyInto_eq {l src : List UInt8} {off : ℕ} (h : off + src.length ≤ l.length) :
    Store.copyInto l off src = some (splice l off src) := if_pos h

/-- A write that is accepted fills the cell of its position. -/
theorem write_eq (r : Rep s w) {layerId : ℤ} {l p : ℕ} (hid : Store.layerOf layerId = some l)
    (hl : l < s.nLayers) (hp : p < s.capacity) (hb : s.tileBytes ≠ 0) (bytes : ℕ → UInt8) :
    s.write layerId p (some bytes) =
      ({ s with
          tiles := splice s.tiles (s.tileBaseOffset + (l * s.capacity + p) * s.tileBytes)
            ((List.range s.tileBytes).map bytes)
          valid := splice s.valid (l * s.capacity + p) [1] }, .accepted true) := by
  obtain ⟨hv, hvl, ht, htl⟩ := r.indices (k := 1) hl hp
  unfold Store.write
  rw [hid]
  dsimp only
  rw [if_neg (by omega), hv, ht,
    copyInto_eq (by rw [List.length_map, List.length_range]; omega),
    copyInto_eq (by rw [List.length_singleton]; omega)]

/-- Any other write is refused. -/
theorem write_refused {layerId : ℤ} {p : ℕ} {tile : Option (ℕ → UInt8)}
    (h : ∀ l, Store.layerOf layerId = some l → tile.isSome →
      l ≥ s.nLayers ∨ p ≥ s.capacity ∨ s.tileBytes = 0) :
    s.write layerId p tile = (s, .accepted false) := by
  unfold Store.write
  rcases tile with _ | bytes
  · rfl
  · rcases hid : Store.layerOf layerId with _ | l
    · rfl
    · exact if_pos (h l hid rfl)

theorem layerOf_eq_some {layerId : ℤ} {l : ℕ} :
    Store.layerOf layerId = some l ↔ (l : ℤ) = layerId := by
  unfold Store.layerOf
  split_ifs with h
  · constructor
    · intro hn
      cases hn
    · intro he
      omega
  · rw [Option.some.injEq]
    constructor
    · intro he
      omega
    · intro he
      omega

theorem splice_one {l : List UInt8} {i : ℕ} (h : i < l.length) (j : ℕ) (b : UInt8) :
    (splice l i [b])[j]? = if j = i then some b else l[j]? := by
  rw [getElem?_splice (by rw [List.length_singleton]; omega), List.length_singleton]
  by_cases hj : j = i
  · rw [if_pos (by omega), if_pos hj, hj, Nat.sub_self]
    rfl
  · rw [if_neg (by omega), if_neg hj]

/-- A written cell holds its tile, and no other cell has changed. -/
theorem write (r : Rep s w) {layerId : ℤ} {l p : ℕ} (hid : Store.layerOf layerId = some l)
    (hl : l < s.nLayers) (hp : p < s.capacity) (hb : s.tileBytes ≠ 0) (bytes : ℕ → UInt8) :
    Rep (s.write layerId p (some bytes)).1 fun l' p' =>
      if (l' : ℤ) = layerId ∧ p' = p then some ((List.range s.tileBytes).map bytes)
      else w l' p' := by
  obtain ⟨-, hvl, -, htl⟩ := r.indices (k := 1) hl hp
  have hsrc : ((List.range s.tileBytes).map bytes).length = s.tileBytes := by
    rw [List.length_map, List.length_range]
  have hin : s.tileBaseOffset + (l * s.capacity + p) * s.tileBytes +
      ((List.range s.tileBytes).map bytes).length ≤ s.tiles.length := by
    rw [hsrc]
    omega
  have hlid : ∀ l' : ℕ, (l' : ℤ) = layerId ↔ l' = l := by
    intro l'
    rw [layerOf_eq_some] at hid
    omega
  rw [r.write_eq hid hl hp hb]
  constructor
  · dsimp only
    rw [length_splice (by rw [List.length_singleton]; omega)]
    exact r.slots
  · dsimp only
    rw [length_splice hin]
    exact r.room
  · dsimp only
    rw [length_splice (by rw [List.length_singleton]; omega)]
    exact r.validWord
  · dsimp only
    rw [length_splice hin]
    exact r.tilesWord
  · exact r.slack
  · intro l' p' t ht
    by_cases hc : (l' : ℤ) = layerId ∧ p' = p
    · rw [hlid] at hc
      rw [hc.1, hc.2]
      exact ⟨hl, hp⟩
    · rw [if_neg hc] at ht
      exact r.inside l' p' t ht
  · intro l' p' t ht
    exact hb
  · intro l' p' hl' hp'
    dsimp only at hl' hp' ⊢
    rw [splice_one (by omega)]
    by_cases hc : (l' : ℤ) = layerId ∧ p' = p
    · rw [if_pos hc, if_pos (by rw [((hlid l').mp hc.1), hc.2])]
      constructor
      · intro he
        cases he
      · intro he
        cases he
    · rw [if_neg hc, if_neg]
      · exact r.live l' p' hl' hp'
      · intro he
        obtain ⟨h₁, h₂⟩ := grid_inj hp' hp he
        exact hc ⟨(hlid l').mpr h₁, h₂⟩
  · intro l' p' t ht
    dsimp only
    by_cases hc : (l' : ℤ) = layerId ∧ p' = p
    · rw [if_pos hc] at ht
      rw [((hlid l').mp hc.1), hc.2, ← Option.some.inj ht]
      have hs := slice_splice_same hin
      rw [hsrc] at hs
      exact hs
    · rw [if_neg hc] at ht
      obtain ⟨hl', hp'⟩ := r.inside l' p' t ht
      rw [slice_splice_of_disjoint hin]
      · exact r.bytes l' p' t ht
      · rw [hsrc]
        have hne : l' * s.capacity + p' ≠ l * s.capacity + p := by
          intro he
          obtain ⟨h₁, h₂⟩ := grid_inj hp' hp he
          exact hc ⟨(hlid l').mpr h₁, h₂⟩
        rcases cells_disjoint (b := s.tileBytes) hne with hd | hd
        · left
          omega
        · right
          omega

/-- A layer the clear skips has no written tile. -/
theorem clear_skipped (r : Rep s w) {layerId : ℤ}
    (h : ∀ l, Store.layerOf layerId = some l → l ≥ s.nLayers ∨ s.capacity = 0 ∨ s.tileBytes = 0) :
    s.clearLayer layerId = (s, .done) ∧
      (fun l p : ℕ => if (l : ℤ) = layerId then none else w l p) = w := by
  constructor
  · unfold Store.clearLayer
    rcases hid : Store.layerOf layerId with _ | l
    · rfl
    · exact if_pos (h l hid)
  · funext l p
    by_cases hl : (l : ℤ) = layerId
    · rw [if_pos hl]
      cases hw : w l p with
      | none => rfl
      | some t =>
          have hin := r.inside l p t hw
          have hwide := r.wide l p t hw
          have hs := h l (layerOf_eq_some.mpr hl)
          omega
    · rw [if_neg hl]

theorem clear_eq (r : Rep s w) {layerId : ℤ} {l : ℕ} (hid : Store.layerOf layerId = some l)
    (hl : l < s.nLayers) (hc : s.capacity ≠ 0) (hb : s.tileBytes ≠ 0) :
    s.clearLayer layerId =
      ({ s with
          valid := splice s.valid (l * s.capacity) (List.replicate s.capacity 0)
          tiles := splice s.tiles (s.tileBaseOffset + l * s.capacity * s.tileBytes)
            (List.replicate (s.capacity * s.tileBytes) 0) }, .done) := by
  obtain ⟨-, hv, -, ht⟩ := r.indices (p := 0) (k := s.capacity) hl (by omega)
  rw [Nat.add_zero] at hv ht
  have hvw := r.validWord
  have htw := r.tilesWord
  have h₁ : wordMul l s.capacity = l * s.capacity := wordMul_eq (by omega)
  have h₂ : wordMul (l * s.capacity) s.tileBytes = l * s.capacity * s.tileBytes :=
    wordMul_eq (by omega)
  have h₃ : wordMul s.capacity s.tileBytes = s.capacity * s.tileBytes := wordMul_eq (by omega)
  have h₄ : wordAdd s.tileBaseOffset (l * s.capacity * s.tileBytes) =
      s.tileBaseOffset + l * s.capacity * s.tileBytes := wordAdd_eq (by omega)
  unfold Store.clearLayer
  rw [hid]
  dsimp only
  rw [if_neg (by omega), h₁, h₂, h₃, h₄, copyInto_eq (by rw [List.length_replicate]; omega),
    copyInto_eq (by rw [List.length_replicate]; omega)]

/-- A cleared layer holds no tile, and no other layer has changed. -/
theorem clear (r : Rep s w) (layerId : ℤ) :
    Rep (s.clearLayer layerId).1 (fun l p => if (l : ℤ) = layerId then none else w l p) ∧
      (s.clearLayer layerId).2 = .done := by
  by_cases h : ∀ l, Store.layerOf layerId = some l →
      l ≥ s.nLayers ∨ s.capacity = 0 ∨ s.tileBytes = 0
  · rw [(r.clear_skipped h).1, (r.clear_skipped h).2]
    exact ⟨r, rfl⟩
  · simp only [not_forall, not_or, not_le] at h
    obtain ⟨l, hid, hl, hc, hb⟩ := h
    obtain ⟨-, hv, -, ht⟩ := r.indices (p := 0) (k := s.capacity) hl (by omega)
    rw [Nat.add_zero] at hv ht
    have hlid : ∀ l' : ℕ, (l' : ℤ) = layerId ↔ l' = l := by
      intro l'
      rw [layerOf_eq_some] at hid
      omega
    have hvalid : l * s.capacity + (List.replicate s.capacity (0 : UInt8)).length ≤
        s.valid.length := by
      rw [List.length_replicate]
      exact hv
    have htiles : s.tileBaseOffset + l * s.capacity * s.tileBytes +
        (List.replicate (s.capacity * s.tileBytes) (0 : UInt8)).length ≤ s.tiles.length := by
      rw [List.length_replicate]
      exact ht
    rw [r.clear_eq hid hl hc hb]
    refine ⟨?_, rfl⟩
    constructor
    · dsimp only
      rw [length_splice hvalid]
      exact r.slots
    · dsimp only
      rw [length_splice htiles]
      exact r.room
    · dsimp only
      rw [length_splice hvalid]
      exact r.validWord
    · dsimp only
      rw [length_splice htiles]
      exact r.tilesWord
    · exact r.slack
    · intro l' p' t hw
      split_ifs at hw
      exact r.inside l' p' t hw
    · intro l' p' t hw
      exact hb
    · intro l' p' hl' hp'
      dsimp only at hl' hp' ⊢
      rw [getElem?_splice hvalid, List.length_replicate]
      by_cases hsame : (l' : ℤ) = layerId
      · rw [if_pos hsame, (hlid l').mp hsame, if_pos (by omega), List.getElem?_replicate_of_lt
          (by omega)]
        exact iff_of_true rfl rfl
      · rw [if_neg hsame, if_neg]
        · exact r.live l' p' hl' hp'
        · intro hr
          have hp'' : l' * s.capacity + p' - l * s.capacity < s.capacity := by omega
          have he : l * s.capacity + (l' * s.capacity + p' - l * s.capacity) =
            l' * s.capacity + p' := by omega
          exact hsame ((hlid l').mpr (grid_inj hp'' hp' he).1.symm)
    · intro l' p' t hw
      dsimp only at hw ⊢
      split_ifs at hw with hsame
      obtain ⟨hl', hp'⟩ := r.inside l' p' t hw
      rw [slice_splice_of_disjoint htiles]
      · exact r.bytes l' p' t hw
      · rw [List.length_replicate]
        have hne : l' ≠ l := fun he => hsame ((hlid l').mpr he)
        have hrow := Nat.mul_le_mul_right s.tileBytes (Nat.succ_le_of_lt hp')
        rw [Nat.succ_mul] at hrow
        rcases cells_disjoint (b := s.capacity) hne with hd | hd
        · left
          have hm := Nat.mul_le_mul_right s.tileBytes hd
          rw [Nat.add_mul] at hm
          rw [Nat.add_mul]
          omega
        · right
          have hm := Nat.mul_le_mul_right s.tileBytes hd
          rw [Nat.add_mul] at hm
          rw [Nat.add_mul]
          omega

theorem slice_slice {l : List UInt8} {a b m n : ℕ} (h : b + m ≤ n) :
    slice (slice l a n) b m = slice l (a + b) m := by
  apply List.ext_getElem?
  intro k
  rw [getElem?_slice, getElem?_slice, getElem?_slice]
  split_ifs
  · rw [Nat.add_assoc]
  · omega
  · rfl

theorem snapshotOffset_le {raw size : ℕ} (h : raw + (size + tileAlign - 1) ≤ 2 ^ 64)
    (hs : 0 < size) : Store.snapshotOffset raw ≤ tileAlign - 1 := by
  have hw : raw + (tileAlign - 1) ≤ maxWord := by
    unfold tileAlign at *
    unfold maxWord
    omega
  have hm : wordAdd raw (tileAlign - 1) &&& (maxWord - (tileAlign - 1)) =
      (raw + (tileAlign - 1)) / DeviceArena.align * DeviceArena.align := by
    rw [wordAdd_eq hw]
    exact ArenaSteps.and_wordNot hw
  unfold Store.snapshotOffset
  rw [hm]
  unfold DeviceArena.align tileAlign
  omega

/-- All the positions of the range hold a written tile. -/
def Readable (s : Store) (w : Written) (layerId : ℤ) (p n : ℕ) : Prop :=
  ∃ l : ℕ, (l : ℤ) = layerId ∧ 1 ≤ n ∧ l < s.nLayers ∧ p + n ≤ s.capacity ∧
    ∀ i < n, (w l (p + i)).isSome = true

theorem any_blank (r : Rep s w) {l p n : ℕ} (hl : l < s.nLayers) (hp : p + n ≤ s.capacity) :
    (slice s.valid (l * s.capacity + p) n).any (fun value => value = 0) = false ↔
      ∀ i < n, (w l (p + i)).isSome = true := by
  have hlen := (r.indices hl hp).2.1
  rw [List.any_eq_false]
  constructor
  · intro h i hi
    rw [Option.isSome_iff_ne_none]
    intro hn
    have hz := (r.live l (p + i) hl (by omega)).mpr hn
    have hg : (slice s.valid (l * s.capacity + p) n)[i]? = some 0 := by
      rw [getElem?_slice, if_pos hi, Nat.add_assoc]
      exact hz
    exact h 0 (List.mem_of_getElem? hg) rfl
  · intro h b hb hz
    rw [decide_eq_true_eq] at hz
    obtain ⟨i, hi⟩ := List.mem_iff_getElem?.mp hb
    rw [getElem?_slice] at hi
    split_ifs at hi with hin
    rw [Nat.add_assoc, hz] at hi
    have hn := (r.live l (p + i) hl (by omega)).mp hi
    have hs := h i hin
    rw [hn] at hs
    cases hs

/-- A readable range is copied out in one piece, unless its storage cannot grow. -/
theorem readRange_readable (r : Rep s w) (hb : s.tileBytes = 128) {l p n : ℕ}
    (hn : 1 ≤ n) (hl : l < s.nLayers) (hp : p + n ≤ s.capacity)
    (hw : ∀ i < n, (w l (p + i)).isSome = true) (alloc : Alloc) :
    s.readRange l p n alloc =
      if (alloc (n * 128 + tileAlign - 1)).isSome then
        .snapshot (some (slice s.tiles
          (s.tileBaseOffset + (l * s.capacity + p) * s.tileBytes) (n * 128)))
      else .badAlloc := by
  obtain ⟨hv, hvl, ht, htl⟩ := r.indices hl hp
  have hslack := r.slack
  have hg := Nat.mul_le_mul_right s.tileBytes (grid_le hl hp)
  rw [Nat.add_mul] at hg
  have hany := (r.any_blank hl hp).mpr hw
  have hcount : ¬ n > maxWord / 128 := by
    rw [not_lt, Nat.le_div_iff_mul_le (by decide)]
    rw [hb] at hg hslack
    omega
  have hbytes : wordMul n 128 = n * 128 := by
    apply wordMul_eq
    rw [hb] at hg hslack
    omega
  have hsmall : ¬ n * 128 > maxWord - (tileAlign - 1) := by
    rw [hb] at hg hslack
    omega
  unfold Store.readRange
  rw [layerOf_eq_some.mpr rfl]
  dsimp only
  rw [if_neg (by omega), if_neg (by omega), hb, if_neg hcount, hbytes, if_neg hsmall, hv,
    if_neg (by omega), hany, if_neg Bool.false_ne_true, ht, hb]
  rw [hb] at htl
  rw [if_neg (by omega)]
  rcases ha : alloc (n * 128 + tileAlign - 1) with _ | raw
  · rfl
  · have hoff := snapshotOffset_le raw.2 (by omega)
    dsimp only
    rw [if_pos (by unfold tileAlign at *; omega)]
    rfl

/-- Any other range is refused. -/
theorem readRange_refused (r : Rep s w) {layerId : ℤ} {p n : ℕ} (alloc : Alloc)
    (h : ¬ (s.tileBytes = 128 ∧ Readable s w layerId p n)) :
    s.readRange layerId p n alloc = .snapshot none := by
  unfold Store.readRange
  rcases hid : Store.layerOf layerId with _ | l
  · rfl
  · dsimp only
    by_cases hn : n = 0
    · exact if_pos hn
    · rw [if_neg hn]
      by_cases hr : s.tileBytes ≠ 128 ∨ l ≥ s.nLayers ∨ p ≥ s.capacity ∨ n > s.capacity - p
      · exact if_pos hr
      · rw [if_neg hr]
        have hl : l < s.nLayers := by omega
        have hp : p + n ≤ s.capacity := by omega
        have hany : (slice s.valid (l * s.capacity + p) n).any (fun value => value = 0) = true := by
          rw [← Bool.not_eq_false]
          intro hf
          apply h
          refine ⟨by omega, l, layerOf_eq_some.mp hid, by omega, hl, hp, ?_⟩
          exact (r.any_blank hl hp).mp hf
        rw [(r.indices hl hp).1, hany]
        split_ifs <;> first | rfl | contradiction

/-- What a snapshot shows of each position. -/
theorem readRange_tiles (r : Rep s w) {layerId : ℤ} {p n : ℕ} {alloc : Alloc}
    {bytes : List UInt8} (h : s.readRange layerId p n alloc = .snapshot (some bytes)) :
    bytes.length = n * 128 ∧
      ∀ i < n, w layerId.toNat (p + i) = some (slice bytes (i * 128) 128) := by
  by_cases hr : s.tileBytes = 128 ∧ Readable s w layerId p n
  · obtain ⟨hb, l, hid, hn, hl, hp, hw⟩ := hr
    obtain ⟨-, -, -, htl⟩ := r.indices hl hp
    rw [← hid, r.readRange_readable hb hn hl hp hw] at h
    split_ifs at h
    cases h
    rw [hb] at htl ⊢
    constructor
    · exact length_slice htl
    · intro i hi
      obtain ⟨t, ht⟩ := Option.isSome_iff_exists.mp (hw i hi)
      rw [← hid, Int.toNat_natCast, ht, slice_slice (by omega)]
      have hbytes := r.bytes l (p + i) t ht
      rw [hb] at hbytes
      rw [← hbytes]
      congr 2
      rw [← Nat.add_assoc (l * s.capacity), Nat.add_mul _ i, Nat.add_assoc]
  · rw [r.readRange_refused alloc hr] at h
    cases h

theorem init (r : Rep s w) (n c b : ℕ) (alloc : Alloc) :
    s.init n c b alloc = (s, .accepted false) ∨
      (∀ l p, w l p = none) ∧ (s.init n c b alloc).2 = .accepted true ∧
        Rep (s.init n c b alloc).1 Written.none := by
  unfold Store.init
  split_ifs with hv
  · exact Or.inl rfl
  · apply (rebuild_cases s n c b alloc).imp id
    intro h
    refine ⟨?_, h⟩
    intro l p
    rw [Option.eq_none_iff_forall_ne_some]
    intro t ht
    exact hv (r.anyValid ht)

theorem resize (r : Rep s w) (n c b : ℕ) (alloc : Alloc) :
    s.slhaResizeEmptyTileStore n c b alloc = (s, .accepted (decide (s.Fits n c b))) ∨
      (∀ l p, w l p = none) ∧ ¬ s.Fits n c b ∧
        (s.slhaResizeEmptyTileStore n c b alloc).2 = .accepted true ∧
        Rep (s.slhaResizeEmptyTileStore n c b alloc).1 Written.none := by
  unfold Store.slhaResizeEmptyTileStore
  by_cases hf : s.Fits n c b
  · rw [if_pos hf, decide_eq_true hf]
    exact Or.inl rfl
  · rw [if_neg hf, decide_eq_false hf]
    have hi := r.init n c b alloc
    unfold Store.init at hi
    apply hi.imp id
    intro h
    exact ⟨h.1, hf, h.2⟩

/-- A write is refused, or its arguments name a cell. -/
theorem write_cases (s : Store) (layerId : ℤ) (p : ℕ) (tile : Option (ℕ → UInt8)) :
    s.write layerId p tile = (s, .accepted false) ∨
      ∃ l bytes, Store.layerOf layerId = some l ∧ tile = some bytes ∧ l < s.nLayers ∧
        p < s.capacity ∧ s.tileBytes ≠ 0 := by
  by_cases h : ∀ l, Store.layerOf layerId = some l → tile.isSome →
      l ≥ s.nLayers ∨ p ≥ s.capacity ∨ s.tileBytes = 0
  · exact Or.inl (write_refused h)
  · right
    simp only [not_forall, not_or, not_le] at h
    obtain ⟨l, hid, ht, hl, hp, hb⟩ := h
    obtain ⟨bytes, ht⟩ := Option.isSome_iff_exists.mp ht
    exact ⟨l, bytes, hid, ht, hl, hp, hb⟩

theorem readRange_defined (r : Rep s w) (layerId : ℤ) (p n : ℕ) (alloc : Alloc) :
    s.readRange layerId p n alloc ≠ .undefined := by
  by_cases hr : s.tileBytes = 128 ∧ Readable s w layerId p n
  · obtain ⟨hb, l, hid, hn, hl, hp, hw⟩ := hr
    rw [← hid, r.readRange_readable hb hn hl hp hw]
    split_ifs
    · intro h
      cases h
    · intro h
      cases h
  · rw [r.readRange_refused alloc hr]
    intro h
    cases h

end Rep

variable {o : Observed}

/-- Every call keeps the representation of what has been written, and is defined. -/
theorem step_rep (r : Rep o.store o.written) (op : Op) :
    Rep (o.step op).store (o.step op).written ∧ (op.apply o.store).2 ≠ .undefined := by
  unfold Observed.step
  cases op with
  | init n c b alloc =>
      unfold Op.apply
      dsimp only
      rcases r.init n c b alloc with h | ⟨-, h, hr⟩
      · rw [h]
        exact ⟨r, by intro hu; cases hu⟩
      · rw [h]
        exact ⟨hr, by intro hu; cases hu⟩
  | resize n c b alloc =>
      unfold Op.apply
      dsimp only
      rcases r.resize n c b alloc with h | ⟨-, hf, h, hr⟩
      · rw [h]
        refine ⟨?_, by intro hu; cases hu⟩
        by_cases hf : o.store.Fits n c b
        · rw [decide_eq_true hf]
          unfold Op.record
          dsimp only
          rw [if_pos hf]
          exact r
        · rw [decide_eq_false hf]
          exact r
      · rw [h]
        refine ⟨?_, by intro hu; cases hu⟩
        unfold Op.record
        dsimp only
        rw [if_neg hf]
        exact hr
  | reset => exact ⟨r.reset, by intro hu; cases hu⟩
  | clearLayer layerId =>
      refine ⟨(r.clear layerId).1, ?_⟩
      unfold Op.apply
      dsimp only
      rw [(r.clear layerId).2]
      intro hu
      cases hu
  | write layerId p tile =>
      unfold Op.apply
      dsimp only
      rcases Rep.write_cases o.store layerId p tile with h | ⟨l, bytes, hid, ht, hl, hp, hb⟩
      · rw [h]
        refine ⟨?_, by intro hu; cases hu⟩
        cases tile <;> exact r
      · subst ht
        have hw := r.write hid hl hp hb bytes
        rw [r.write_eq hid hl hp hb] at hw ⊢
        exact ⟨hw, by intro hu; cases hu⟩
  | read layerId p alloc => exact ⟨r, r.readRange_defined layerId p 1 alloc⟩
  | readRange layerId p n alloc => exact ⟨r, r.readRange_defined layerId p n alloc⟩

theorem run_rep (r : Rep o.store o.written) (ops : List Op) :
    Rep (o.run ops).store (o.run ops).written := by
  induction ops generalizing o with
  | nil => exact r
  | cons op ops ih => exact ih (o := o.step op) (step_rep r op).1

/-- What a store says and does, read off what has been written to it. -/
structure Exact (o : Observed) : Prop where
  readRange : ∀ layerId p n alloc, o.store.tileBytes = 128 →
    ((∃ bytes, o.store.readRange layerId p n alloc = .snapshot (some bytes)) ↔
      Rep.Readable o.store o.written layerId p n ∧ (alloc (n * 128 + tileAlign - 1)).isSome = true)
  throws : ∀ layerId p n alloc, o.store.readRange layerId p n alloc = .badAlloc ↔
    (o.store.tileBytes = 128 ∧ Rep.Readable o.store o.written layerId p n) ∧
      (alloc (n * 128 + tileAlign - 1)).isSome = false
  tiles : ∀ layerId p n alloc bytes,
    o.store.readRange layerId p n alloc = .snapshot (some bytes) → bytes.length = n * 128 ∧
      ∀ i < n, o.written layerId.toNat (p + i) = some (slice bytes (i * 128) 128)
  rejected : ∀ op : Op, (op.apply o.store).2 ≠ .accepted true → (op.apply o.store).2 ≠ .done →
    o.step op = o
  apart : ∀ layerId p tile (l' p' : ℕ) alloc, ¬ ((l' : ℤ) = layerId ∧ p' = p) →
    (o.store.write layerId p tile).1.read l' p' alloc = o.store.read l' p' alloc
  live : ∀ l p, o.written l p ≠ none → ∀ n c b alloc,
    (o.store.init n c b alloc).1 = o.store ∧
      (o.store.slhaResizeEmptyTileStore n c b alloc).1 = o.store
  defined : ∀ op : Op, (op.apply o.store).2 ≠ .undefined
  indices : ∀ l p, l < o.store.nLayers → p < o.store.capacity →
    o.store.validIndex l p = l * o.store.capacity + p ∧
      l * o.store.capacity + p < o.store.valid.length ∧
      o.store.tileIndex l p =
        o.store.tileBaseOffset + (l * o.store.capacity + p) * o.store.tileBytes ∧
      o.store.tileBaseOffset + (l * o.store.capacity + p) * o.store.tileBytes +
        o.store.tileBytes ≤ o.store.tiles.length

theorem Rep.readRange_iff {s : Store} {w : Written} (r : Rep s w) (layerId : ℤ) (p n : ℕ)
    (alloc : Alloc) :
    ((∃ bytes, s.readRange layerId p n alloc = .snapshot (some bytes)) ↔
      (s.tileBytes = 128 ∧ Readable s w layerId p n) ∧
        (alloc (n * 128 + tileAlign - 1)).isSome = true) ∧
    (s.readRange layerId p n alloc = .badAlloc ↔
      (s.tileBytes = 128 ∧ Readable s w layerId p n) ∧
        (alloc (n * 128 + tileAlign - 1)).isSome = false) := by
  by_cases hr : s.tileBytes = 128 ∧ Readable s w layerId p n
  · have hr' := hr
    obtain ⟨hb, l, hid, hn, hl, hp, hw⟩ := hr'
    rw [← hid] at hr ⊢
    rw [r.readRange_readable hb hn hl hp hw]
    cases ha : (alloc (n * 128 + tileAlign - 1)).isSome with
    | true =>
        rw [if_pos rfl]
        exact ⟨iff_of_true ⟨_, rfl⟩ ⟨hr, rfl⟩,
          iff_of_false (fun h => by cases h) (fun h => by cases h.2)⟩
    | false =>
        rw [if_neg Bool.false_ne_true]
        exact ⟨iff_of_false (fun h => by cases h.choose_spec) (fun h => by cases h.2),
          iff_of_true rfl ⟨hr, rfl⟩⟩
  · rw [r.readRange_refused alloc hr]
    exact ⟨iff_of_false (fun h => by cases h.choose_spec) (fun h => hr h.1),
      iff_of_false (fun h => by cases h) (fun h => hr h.1)⟩

/-- Reading one position sees the written tile of that position and nothing else. -/
theorem Rep.read_eq {s t : Store} {w v : Written} (r : Rep s w) (q : Rep t v)
    (hn : t.nLayers = s.nLayers) (hc : t.capacity = s.capacity) (hb : t.tileBytes = s.tileBytes)
    {l p : ℕ} (hw : v l p = w l p) (alloc : Alloc) :
    t.read l p alloc = s.read l p alloc := by
  have hsame : Readable t v l p 1 ↔ Readable s w l p 1 := by
    unfold Readable
    simp only [Nat.cast_inj, exists_eq_left, Nat.lt_one_iff, forall_eq, Nat.add_zero, hn, hc, hw]
  unfold Store.read
  by_cases hr : s.tileBytes = 128 ∧ Readable s w l p 1
  · have hr' : t.tileBytes = 128 ∧ Readable t v l p 1 := ⟨hb.trans hr.1, hsame.mpr hr.2⟩
    obtain ⟨hb₁, l₁, hid₁, hn₁, hl₁, hp₁, hw₁⟩ := hr
    obtain ⟨hb₂, l₂, hid₂, hn₂, hl₂, hp₂, hw₂⟩ := hr'
    rw [Nat.cast_inj] at hid₁ hid₂
    subst hid₁ hid₂
    obtain ⟨x, hx⟩ := Option.isSome_iff_exists.mp (hw₁ 0 (by omega))
    rw [Nat.add_zero] at hx
    have hs := r.bytes _ _ x hx
    have ht := q.bytes _ _ x (hw.trans hx)
    rw [hb₁] at hs
    rw [hb₂] at ht
    rw [r.readRange_readable hb₁ hn₁ hl₁ hp₁ hw₁, q.readRange_readable hb₂ hn₂ hl₂ hp₂ hw₂,
      Nat.one_mul, hb₁, hb₂, hs, ht]
  · rw [r.readRange_refused alloc hr, q.readRange_refused alloc]
    intro h
    exact hr ⟨hb ▸ h.1, hsame.mp h.2⟩

theorem Rep.apart {s : Store} {w : Written} (r : Rep s w) (layerId : ℤ) (p : ℕ)
    (tile : Option (ℕ → UInt8)) (l' p' : ℕ) (alloc : Alloc)
    (h : ¬ ((l' : ℤ) = layerId ∧ p' = p)) :
    (s.write layerId p tile).1.read l' p' alloc = s.read l' p' alloc := by
  rcases Rep.write_cases s layerId p tile with hw | ⟨l, bytes, hid, ht, hl, hp, hb⟩
  · rw [hw]
  · subst ht
    have hq := r.write hid hl hp hb bytes
    rw [r.write_eq hid hl hp hb] at hq ⊢
    exact Rep.read_eq r hq rfl rfl rfl (if_neg h) alloc

theorem Rep.rejected {o : Observed} (r : Rep o.store o.written) {op : Op}
    (hacc : (op.apply o.store).2 ≠ .accepted true) (hdone : (op.apply o.store).2 ≠ .done) :
    o.step op = o := by
  unfold Observed.step
  cases op with
  | init n c b alloc =>
      unfold Op.apply at *
      rcases r.init n c b alloc with h | ⟨-, h, -⟩
      · dsimp only
        rw [h]
        rfl
      · exact absurd h hacc
  | resize n c b alloc =>
      unfold Op.apply at *
      rcases r.resize n c b alloc with h | ⟨-, -, h, -⟩
      · dsimp only at hacc ⊢
        rw [h] at hacc ⊢
        have hf : ¬ o.store.Fits n c b := fun hf => hacc (by rw [decide_eq_true hf])
        rw [decide_eq_false hf]
        rfl
      · exact absurd h hacc
  | reset => exact absurd rfl hdone
  | clearLayer layerId => exact absurd (r.clear layerId).2 hdone
  | write layerId p tile =>
      unfold Op.apply at *
      rcases Rep.write_cases o.store layerId p tile with h | ⟨l, bytes, hid, ht, hl, hp, hb⟩
      · dsimp only
        rw [h]
        cases tile <;> rfl
      · subst ht
        dsimp only at hacc
        rw [r.write_eq hid hl hp hb] at hacc
        exact absurd rfl hacc
  | read layerId p alloc => rfl
  | readRange layerId p n alloc => rfl

theorem Rep.exact {o : Observed} (r : Rep o.store o.written) : Exact o where
  readRange layerId p n alloc hb := by
    rw [(r.readRange_iff layerId p n alloc).1]
    constructor
    · intro h
      exact ⟨h.1.2, h.2⟩
    · intro h
      exact ⟨⟨hb, h.1⟩, h.2⟩
  throws layerId p n alloc := (r.readRange_iff layerId p n alloc).2
  tiles layerId p n alloc bytes h := r.readRange_tiles h
  rejected op := r.rejected
  apart layerId p tile l' p' alloc h := r.apart layerId p tile l' p' alloc h
  live l p h n c b alloc := by
    constructor
    · rcases r.init n c b alloc with hi | ⟨hi, -⟩
      · rw [hi]
      · exact absurd (hi l p) h
    · rcases r.resize n c b alloc with hi | ⟨hi, -⟩
      · rw [hi]
      · exact absurd (hi l p) h
  defined op := (step_rep r op).2
  indices l p hl hp := by
    have hi := r.indices (k := 1) hl hp
    rw [Nat.one_mul] at hi
    exact ⟨hi.1, by omega, hi.2.2.1, hi.2.2.2⟩

/-- Whatever has been called, with whatever sizes and failed allocations, the store is read
exactly as it was written. -/
theorem tile_store_exact (ops : List Op) : Exact (Observed.start.run ops) :=
  (run_rep Rep.empty ops).exact

/-- An allocator that always finds room. -/
def roomy : Alloc := fun size => if h : size ≤ 2 ^ 64 then some ⟨0, by omega⟩ else none

/-- One tile in a store of one position. -/
def oneTile : List Op := [.init 1 1 128 roomy, .write 0 0 (some fun _ => 7)]

/-- A resize to the geometry the store has succeeds without clearing it, so a tile is read
that nobody has written since; and a read whose storage cannot grow throws. -/
theorem resize_keeps_tile :
    ((Observed.start.run oneTile).store.slhaResizeEmptyTileStore 1 1 128 roomy).2 =
        .accepted true ∧
      ((Observed.start.run oneTile).store.slhaResizeEmptyTileStore 1 1 128 roomy).1.readRange
        0 0 1 roomy = .snapshot (some (List.replicate 128 7)) ∧
      (Observed.start.run oneTile).store.readRange 0 0 1 (fun _ => none) = .badAlloc := by
  refine ⟨?_, ?_, ?_⟩
  · decide +kernel
  · decide +kernel
  · decide +kernel

end SlhaV2.TileStoreRuns
