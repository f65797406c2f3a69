import SlhaV2.CheckedSteps

/-!
# Readers over a byte string

A reader takes a value from the front of what is left of a byte string, and
reports an error or moves on. A reader denotes a relation between values and
byte strings when it returns exactly the values related to a prefix of what is
left. Sequences and counted loops of such readers denote the composition.
-/
namespace SlhaV2.ByteReader
open MachineWord ByteBuffer CheckedSteps

/-- A position in a byte string. -/
structure Cursor where
  bytes : List UInt8
  offset : ℕ
  inBounds : offset ≤ bytes.length

def Cursor.rest (c : Cursor) : List UInt8 := c.bytes.drop c.offset

abbrev Reader (α : Type) := StateT Cursor (Except Fault) α

variable {α β : Type}

/-- A step that reads nothing. -/
def still (x : Outcome α) : Reader α := fun c => x >>= fun a => .ok (a, c)

/-- Take `n` bytes; `tooFar` is reported when the end is no word, and
`truncated` when it lies behind the last byte. -/
def takeBytes (n : ℕ) (tooFar : String) (truncated : Cursor → String) : Reader (List UInt8) :=
  fun c =>
    if c.offset + n ≤ maxWord then
      if h : c.offset + n ≤ c.bytes.length then
        .ok (slice c.bytes c.offset n, ⟨c.bytes, c.offset + n, h⟩)
      else .error (.err (truncated c))
    else .error (.err tooFar)

/-- Read `n` values, with their indices from `i` on. -/
def collect (step : ℕ → Reader α) : ℕ → ℕ → Reader (List α)
  | 0, _ => pure []
  | n + 1, i => do
      let x ← step i
      let xs ← collect step n (i + 1)
      pure (x :: xs)

/-- The cursor moves over the bytes `bs`. -/
structure Cursor.Moves (c : Cursor) (bs : List UInt8) (c' : Cursor) : Prop where
  bytes : c'.bytes = c.bytes
  rest : c.rest = bs ++ c'.rest

theorem Cursor.length_rest (c : Cursor) : c.rest.length = c.bytes.length - c.offset :=
  List.length_drop

theorem Cursor.Moves.offset {c c' : Cursor} {bs : List UInt8} (h : c.Moves bs c') :
    c'.offset = c.offset + bs.length := by
  have hl := congrArg List.length h.rest
  rw [List.length_append, c.length_rest, c'.length_rest, h.bytes] at hl
  have h₁ := c.inBounds
  have h₂ := c'.inBounds
  rw [h.bytes] at h₂
  omega

theorem Cursor.Moves.unique {c c₁ c₂ : Cursor} {bs : List UInt8} (h₁ : c.Moves bs c₁)
    (h₂ : c.Moves bs c₂) : c₁ = c₂ := by
  have hb := h₁.bytes.trans h₂.bytes.symm
  have ho := h₁.offset.trans h₂.offset.symm
  cases c₁
  cases c₂
  simp only at hb ho
  subst hb
  subst ho
  rfl

theorem Cursor.Moves.refl (c : Cursor) : c.Moves [] c := ⟨rfl, rfl⟩

theorem Cursor.Moves.trans {c c₁ c₂ : Cursor} {as bs : List UInt8} (h₁ : c.Moves as c₁)
    (h₂ : c₁.Moves bs c₂) : c.Moves (as ++ bs) c₂ where
  bytes := h₂.bytes.trans h₁.bytes
  rest := by rw [h₁.rest, h₂.rest, List.append_assoc]

/-- Bytes at the front of what is left can be passed over. -/
theorem Cursor.exists_moves {c : Cursor} {bs t : List UInt8} (h : c.rest = bs ++ t) :
    ∃ c', c.Moves bs c' ∧ c'.rest = t := by
  have hl := congrArg List.length h
  rw [List.length_append, c.length_rest] at hl
  have hb := c.inBounds
  have ht : c.bytes.drop (c.offset + bs.length) = t := by
    rw [← List.drop_drop]
    unfold Cursor.rest at h
    rw [h, List.drop_left']
    rfl
  refine ⟨⟨c.bytes, c.offset + bs.length, by omega⟩, ⟨rfl, ?_⟩, ht⟩
  rw [h]
  exact congrArg (bs ++ ·) ht.symm

/-- The reader returns a value exactly when bytes related to it come first. -/
def Denotes (r : Reader α) (R : α → List UInt8 → Prop) : Prop :=
  ∀ c a c', c.bytes.length ≤ maxWord → (r c = .ok (a, c') ↔ ∃ bs, R a bs ∧ c.Moves bs c')

theorem Denotes.congr {r : Reader α} {R S : α → List UInt8 → Prop} (h : Denotes r R)
    (hRS : ∀ a bs, R a bs ↔ S a bs) : Denotes r S := by
  intro c a c' hc
  rw [h c a c' hc]
  simp only [hRS]

theorem Denotes.pure (a : α) : Denotes (pure a : Reader α) fun b bs => b = a ∧ bs = [] := by
  intro c b c' _
  constructor
  · intro h
    have hp := Except.ok.inj h
    rw [← (Prod.mk.inj hp).1, ← (Prod.mk.inj hp).2]
    exact ⟨[], ⟨rfl, rfl⟩, Cursor.Moves.refl c⟩
  · rintro ⟨bs, ⟨rfl, rfl⟩, hm⟩
    rw [hm.unique (Cursor.Moves.refl c)]
    rfl

theorem Denotes.bind {r : Reader α} {f : α → Reader β} {R : α → List UInt8 → Prop}
    {S : α → β → List UInt8 → Prop} (hr : Denotes r R) (hf : ∀ a, Denotes (f a) (S a)) :
    Denotes (r >>= f) fun b bs => ∃ a xs ys, R a xs ∧ S a b ys ∧ bs = xs ++ ys := by
  intro c b c' hc
  have hrun : (r >>= f) c = (r c >>= fun p => f p.1 p.2) := rfl
  rw [hrun, bind_eq_ok]
  constructor
  · rintro ⟨⟨a, c₁⟩, ha, hb⟩
    obtain ⟨xs, hxs, hm₁⟩ := (hr c a c₁ hc).mp ha
    obtain ⟨ys, hys, hm₂⟩ := (hf a c₁ b c' (by rw [hm₁.bytes]; exact hc)).mp hb
    exact ⟨xs ++ ys, ⟨a, xs, ys, hxs, hys, rfl⟩, hm₁.trans hm₂⟩
  · rintro ⟨bs, ⟨a, xs, ys, hxs, hys, rfl⟩, hm⟩
    obtain ⟨c₁, hm₁, hrest⟩ := Cursor.exists_moves (hm.rest.trans (List.append_assoc xs ys _))
    have hm₂ : c₁.Moves ys c' := ⟨hm.bytes.trans hm₁.bytes.symm, hrest⟩
    refine ⟨(a, c₁), (hr c a c₁ hc).mpr ⟨xs, hxs, hm₁⟩, ?_⟩
    exact (hf a c₁ b c' (by rw [hm₁.bytes]; exact hc)).mpr ⟨ys, hys, hm₂⟩

theorem Denotes.still (x : Outcome α) : Denotes (still x) fun a bs => x = .ok a ∧ bs = [] := by
  intro c a c' _
  unfold ByteReader.still
  rw [bind_eq_ok]
  constructor
  · rintro ⟨b, hb, hp⟩
    have hp := Except.ok.inj hp
    rw [← (Prod.mk.inj hp).1, ← (Prod.mk.inj hp).2]
    exact ⟨[], ⟨hb, rfl⟩, Cursor.Moves.refl c⟩
  · rintro ⟨bs, ⟨hx, rfl⟩, hm⟩
    rw [hm.unique (Cursor.Moves.refl c)]
    exact ⟨a, hx, rfl⟩

theorem Denotes.still_bind {x : Outcome α} {f : α → Reader β} {S : α → β → List UInt8 → Prop}
    (hf : ∀ a, Denotes (f a) (S a)) :
    Denotes (ByteReader.still x >>= f) fun b bs => ∃ a, x = .ok a ∧ S a b bs := by
  refine ((Denotes.still x).bind hf).congr ?_
  intro b bs
  constructor
  · rintro ⟨a, _, ys, ⟨hx, rfl⟩, hS, rfl⟩
    exact ⟨a, hx, hS⟩
  · rintro ⟨a, hx, hS⟩
    exact ⟨a, [], bs, ⟨hx, rfl⟩, hS, rfl⟩

/-- A value with one image is read, and then the rest. -/
theorem Denotes.bind_image {r : Reader α} {f : α → Reader β} {P : α → Prop}
    {enc : α → List UInt8} {S : α → β → List UInt8 → Prop}
    (hr : Denotes r fun a bs => P a ∧ bs = enc a) (hf : ∀ a, Denotes (f a) (S a)) :
    Denotes (r >>= f) fun b bs => ∃ a, P a ∧ ∃ ys, S a b ys ∧ bs = enc a ++ ys := by
  refine (hr.bind hf).congr ?_
  intro b bs
  constructor
  · rintro ⟨a, _, ys, ⟨hP, rfl⟩, hS, rfl⟩
    exact ⟨a, hP, ys, hS, rfl⟩
  · rintro ⟨a, hP, ys, hS, rfl⟩
    exact ⟨a, enc a, ys, ⟨hP, rfl⟩, hS, rfl⟩

theorem Denotes.takeBytes (n : ℕ) (tooFar : String) (truncated : Cursor → String) :
    Denotes (takeBytes n tooFar truncated) fun a bs => a.length = n ∧ bs = a := by
  intro c a c' hc
  have hb := c.inBounds
  unfold ByteReader.takeBytes
  constructor
  · intro h
    split_ifs at h with h₁ h₂
    have hp := Prod.mk.inj (Except.ok.inj h)
    rw [← hp.1, ← hp.2]
    refine ⟨_, ⟨length_slice h₂, rfl⟩, rfl, ?_⟩
    unfold slice Cursor.rest
    rw [← List.drop_drop, List.take_append_drop]
  · rintro ⟨bs, ⟨rfl, rfl⟩, hm⟩
    have ho := hm.offset
    have hb' := c'.inBounds
    rw [hm.bytes] at hb'
    have hs : slice c.bytes c.offset bs.length = bs := by
      unfold slice
      rw [show c.bytes.drop c.offset = bs ++ c'.rest from hm.rest, List.take_left']
      rfl
    have hin : c.offset + bs.length ≤ c.bytes.length := by omega
    have hm' : c.Moves bs ⟨c.bytes, c.offset + bs.length, hin⟩ := by
      constructor
      · rfl
      · rw [hm.rest]
        unfold Cursor.rest
        rw [hm.bytes, ho]
    rw [if_pos (by omega), dif_pos hin, hs, hm'.unique hm]

/-- A loop reads the concatenation of what its turns read. -/
theorem Denotes.collect {step : ℕ → Reader α} {P : ℕ → α → Prop} {enc : α → List UInt8}
    (h : ∀ i, Denotes (step i) fun a bs => P i a ∧ bs = enc a) (n i : ℕ) :
    Denotes (collect step n i) fun xs bs =>
      (xs.length = n ∧ ∀ j x, xs[j]? = some x → P (i + j) x) ∧ bs = xs.flatMap enc := by
  induction n generalizing i with
  | zero =>
      refine (Denotes.pure []).congr ?_
      intro xs bs
      constructor
      · rintro ⟨rfl, rfl⟩
        exact ⟨⟨rfl, fun j x hx => by cases hx⟩, rfl⟩
      · rintro ⟨⟨hl, -⟩, rfl⟩
        rw [List.length_eq_zero_iff] at hl
        subst hl
        exact ⟨rfl, rfl⟩
  | succ n ih =>
      have hc := (h i).bind fun x => (ih (i + 1)).bind fun xs => Denotes.pure (x :: xs)
      refine hc.congr ?_
      intro zs bs
      constructor
      · rintro ⟨x, b₁, b₂, ⟨hx, rfl⟩, ⟨xs, b₃, b₄, ⟨⟨hl, hxs⟩, rfl⟩, ⟨rfl, rfl⟩, rfl⟩, rfl⟩
        refine ⟨⟨by rw [List.length_cons, hl], ?_⟩, ?_⟩
        · intro j y hy
          cases j with
          | zero =>
              rw [← Option.some.inj hy]
              exact hx
          | succ j =>
              rw [show i + (j + 1) = i + 1 + j by omega]
              exact hxs j y hy
        · rw [List.append_nil, List.flatMap_cons]
      · rintro ⟨⟨hl, hP⟩, rfl⟩
        cases zs with
        | nil => cases hl
        | cons x xs =>
            refine ⟨x, enc x, xs.flatMap enc, ⟨hP 0 x rfl, rfl⟩,
              ⟨xs, xs.flatMap enc, [], ⟨⟨by simpa using hl, ?_⟩, rfl⟩, ⟨rfl, rfl⟩, ?_⟩, ?_⟩
            · intro j y hy
              rw [show i + 1 + j = i + (j + 1) by omega]
              exact hP (j + 1) y hy
            · rw [List.append_nil]
            · rw [List.flatMap_cons]

/-- A reader of the whole of what is left. -/
theorem Denotes.run_to_end {r : Reader α} {R : α → List UInt8 → Prop} (h : Denotes r R)
    {c : Cursor} (hc : c.bytes.length ≤ maxWord) {a : α} :
    (∃ c', r c = .ok (a, c') ∧ c'.offset = c.bytes.length) ↔ R a c.rest := by
  constructor
  · rintro ⟨c', hr, ho⟩
    obtain ⟨bs, hR, hm⟩ := (h c a c' hc).mp hr
    have hnil : c'.rest = [] := by
      unfold Cursor.rest
      rw [hm.bytes, ho, List.drop_length]
    rw [hm.rest, hnil, List.append_nil]
    exact hR
  · intro hR
    obtain ⟨c', hm, hrest⟩ := Cursor.exists_moves (List.append_nil c.rest).symm
    refine ⟨c', (h c a c' hc).mpr ⟨c.rest, hR, hm⟩, ?_⟩
    rw [hm.offset, c.length_rest]
    have hb := c.inBounds
    omega

end SlhaV2.ByteReader
