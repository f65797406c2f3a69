import SlhaV2.JsonGrammar
import SlhaV2.JsonParser

/-!
# What the scanner reads

A position in the bytes stands for the characters that remain. Each scanning
function is described by those characters: which of them it passes over when it
succeeds, and which texts of the grammar it accepts.
-/
namespace SlhaV2.JsonScanner
open MachineWord CheckedSteps ExactValues DecimalText JsonGrammar JsonValue Utf8Text JsonParser

/-- The characters `cs` remain. A slice leaves room for the few positions past its end. -/
structure At (p : Parser) (cs : List Char) : Prop where
  small : p.b.length + 4 ≤ maxWord
  bound : p.i ≤ p.b.length
  rest : p.b.drop p.i = encode cs

/-- The position after some of the remaining characters. -/
def after (p : Parser) (cs : List Char) : Parser := { p with i := p.i + (encode cs).length }

@[simp] theorem after_b (p : Parser) (cs : List Char) : (after p cs).b = p.b := rfl

@[simp] theorem after_depth (p : Parser) (cs : List Char) : (after p cs).depth = p.depth := rfl

@[simp] theorem after_nil (p : Parser) : after p [] = p := rfl

theorem after_after (p : Parser) (cs ds : List Char) :
    after (after p cs) ds = after p (cs ++ ds) := by
  unfold after
  simp [encode_append, Nat.add_assoc]

theorem At.length_eq {p : Parser} {cs : List Char} (h : At p cs) :
    p.i + (encode cs).length = p.b.length := by
  have hb := h.bound
  rw [← h.rest, List.length_drop]
  omega

theorem At.after {p : Parser} {pre rest : List Char} (h : At p (pre ++ rest)) :
    At (after p pre) rest := by
  have hlen := h.length_eq
  rw [encode_append, List.length_append] at hlen
  constructor
  · exact h.small
  · change p.i + (encode pre).length ≤ p.b.length
    omega
  · change p.b.drop (p.i + (encode pre).length) = _
    rw [← List.drop_drop, h.rest, encode_append, List.drop_left]

theorem length_le_encode (cs : List Char) : cs.length ≤ (encode cs).length := by
  induction cs with
  | nil => simp
  | cons c cs ih =>
      obtain ⟨tail, htail⟩ := utf8EncodeChar_eq_cons c
      rw [encode_cons, htail]
      simp only [List.length_cons, List.length_append]
      omega

theorem At.length_le {p : Parser} {cs : List Char} (h : At p cs) : cs.length ≤ p.b.length := by
  have hle := length_le_encode cs
  have hlen := h.length_eq
  omega

theorem peek_eq {p : Parser} {cs : List Char} (h : At p cs) :
    peek p = cs.head?.map headByte := by
  have hpeek : peek p = (p.b.drop p.i).head? := by
    unfold peek
    rw [List.head?_drop]
  rw [hpeek, h.rest]
  cases cs with
  | nil => rfl
  | cons c cs =>
      obtain ⟨tail, htail⟩ := utf8EncodeChar_eq_cons c
      rw [encode_cons, htail]
      rfl

theorem peek_eq_byte {p : Parser} {cs : List Char} {k : Char} (h : At p cs)
    (hk : k.toNat < 128) : peek p = some (byte k) ↔ cs.head? = some k := by
  rw [peek_eq h]
  cases cs with
  | nil => simp
  | cons c cs => simp [headByte_eq_iff hk]

theorem length_encode_ascii {c : Char} (h : c.toNat < 128) : (encode [c]).length = 1 := by
  rw [encode_cons, utf8EncodeChar_ascii h]
  rfl

theorem advance_eq {p : Parser} {cs : List Char} {n : ℕ} (h : At p cs) (hn : n ≤ 4) :
    advance p n = .ok { p with i := p.i + n } := by
  have hs := h.small
  have hb := h.bound
  unfold advance
  rw [wordAdd_of_le (by omega)]
  rfl

theorem advance_ascii {p : Parser} {c : Char} {cs : List Char} (h : At p (c :: cs))
    (hc : c.toNat < 128) : advance p 1 = .ok (after p [c]) := by
  rw [advance_eq h (by decide)]
  unfold JsonScanner.after
  rw [length_encode_ascii hc]

theorem At.tail {p : Parser} {c : Char} {cs : List Char} (h : At p (c :: cs)) :
    At (JsonScanner.after p [c]) cs := At.after (show At p ([c] ++ cs) from h)

/-- A test of bytes agrees with a test of ASCII characters. -/
def Agree (f : UInt8 → Bool) (g : Char → Bool) : Prop :=
  ∀ c, f (headByte c) = g c ∧ (g c = true → c.toNat < 128)

theorem any_peek {p : Parser} {cs : List Char} {f : UInt8 → Bool} {g : Char → Bool}
    (hfg : Agree f g) (h : At p cs) : (peek p).any f = cs.head?.any g := by
  rw [peek_eq h]
  cases cs with
  | nil => rfl
  | cons c cs => simp [(hfg c).1]

theorem skipWhile_eq {f : UInt8 → Bool} {g : Char → Bool} (hfg : Agree f g) {n : ℕ}
    {p : Parser} {cs : List Char} (h : At p cs) (hn : (cs.takeWhile g).length ≤ n) :
    skipWhile f n p = .ok (after p (cs.takeWhile g)) := by
  induction n generalizing p cs with
  | zero =>
      have hnil : cs.takeWhile g = [] := List.eq_nil_of_length_eq_zero (by omega)
      have hhead : cs.head?.any g = false := by
        cases cs with
        | nil => rfl
        | cons c cs =>
            by_cases hc : g c = true
            · simp [hc] at hnil
            · simpa using hc
      unfold skipWhile
      rw [any_peek hfg h, hhead, hnil]
      rfl
  | succ n ih =>
      unfold skipWhile
      rw [any_peek hfg h]
      cases cs with
      | nil => rfl
      | cons c cs =>
          by_cases hc : g c = true
          · have htail := ih h.tail (by simpa [hc] using hn)
            rw [List.head?_cons, Option.any_some, if_pos hc, advance_ascii h ((hfg c).2 hc),
              ok_bind, htail, after_after, List.takeWhile_cons_of_pos hc]
            rfl
          · simp [hc]

theorem agree_of_ascii {f : UInt8 → Bool} {g : Char → Bool}
    (hlow : ∀ n < 128, f (byte (Char.ofNat n)) = g (Char.ofNat n))
    (hbyte : ∀ n < 64, f (UInt8.ofNat (192 + n)) = false)
    (hchar : ∀ c : Char, 128 ≤ c.toNat → g c = false) : Agree f g := by
  intro c
  by_cases hc : c.toNat < 128
  · refine ⟨?_, fun _ => hc⟩
    have h := hlow c.toNat hc
    rwa [Char.ofNat_toNat, ← headByte_ascii hc] at h
  · have hge := Nat.le_of_not_lt hc
    have hlt := (headByte c).toNat_lt
    have hle := le_headByte hge
    have h := hbyte ((headByte c).toNat - 192) (by omega)
    rw [Nat.add_sub_cancel' hle, UInt8.ofNat_toNat] at h
    rw [h, hchar c hge]
    exact ⟨rfl, fun h => absurd h (by decide)⟩

theorem agree_ws : Agree isWs isWhitespace := by
  apply agree_of_ascii (by decide) (by decide)
  intro c hc
  unfold isWhitespace
  rw [decide_eq_false_iff_not]
  rintro (rfl | rfl | rfl | rfl) <;> exact absurd hc (by decide)

theorem agree_digit : Agree isAsciiDigit Char.isDigit := by
  apply agree_of_ascii (by decide) (by decide)
  intro c hc
  by_contra hd
  have hle := (Char.isDigit_iff_toNat.mp (by simpa using hd)).2
  have h9 : '9'.toNat = 57 := rfl
  omega

theorem agree_nonzero : Agree (fun c => byte '1' ≤ c ∧ c ≤ byte '9')
    (fun c => c.isDigit && c != '0') := by
  apply agree_of_ascii (by decide) (by decide)
  intro c hc
  have h := agree_digit c
  by_cases hd : c.isDigit = true
  · exact absurd (h.2 hd) (by omega)
  · simp [hd]

theorem agree_byte {k : Char} (hk : k.toNat < 128) :
    Agree (fun c => c = byte k) fun c => c = k := by
  intro c
  simp only [headByte_eq_iff hk, decide_eq_true_eq, true_and]
  rintro rfl
  exact hk

theorem agree_or {k l : Char} (hk : k.toNat < 128) (hl : l.toNat < 128) :
    Agree (fun c => c = byte k ∨ c = byte l) fun c => c = k ∨ c = l := by
  intro c
  simp only [headByte_eq_iff hk, headByte_eq_iff hl, decide_eq_true_eq, true_and]
  rintro (rfl | rfl)
  · exact hk
  · exact hl

/-- An optional character of a class is passed over when it is there. -/
theorem skipOne_append {f : UInt8 → Bool} {g : Char → Bool} (hfg : Agree f g) {p : Parser}
    {o : Option Char} {rest : List Char} (h : At p (o.toList ++ rest))
    (ho : ∀ c ∈ o, g c = true) (hrest : o = none → rest.head?.any g = false) :
    skipOne f p = .ok (after p o.toList) := by
  unfold skipOne
  rw [any_peek hfg h]
  cases o with
  | none => exact if_neg (Bool.eq_false_iff.mp (hrest rfl))
  | some c =>
      have hc := ho c rfl
      replace h : At p (c :: rest) := h
      exact (if_pos hc).trans (advance_ascii h ((hfg c).2 hc))

theorem skipOne_meets {f : UInt8 → Bool} {g : Char → Bool} (hfg : Agree f g) {p : Parser}
    {cs : List Char} (h : At p cs) :
    Meets (skipOne f p) fun q => ∃ (o : Option Char) (rest : List Char),
      (∀ c ∈ o, g c = true) ∧ cs = o.toList ++ rest ∧ q = after p o.toList := by
  cases cs with
  | nil =>
      rw [skipOne_append (o := none) hfg h (by simp) fun _ => rfl]
      exact Meets.ok ⟨none, [], by simp, rfl, rfl⟩
  | cons c cs =>
      by_cases hc : g c = true
      · rw [skipOne_append (o := some c) hfg h (by simpa using hc) (by simp)]
        exact Meets.ok ⟨some c, cs, by simpa using hc, rfl, rfl⟩
      · rw [skipOne_append (o := none) hfg h (by simp) fun _ => by simpa using hc]
        exact Meets.ok ⟨none, c :: cs, by simp, rfl, rfl⟩

theorem ws_eq {p : Parser} {cs : List Char} (h : At p cs) :
    ws p = .ok (after p (cs.takeWhile isWhitespace)) := by
  apply skipWhile_eq agree_ws h
  exact (List.takeWhile_prefix _).length_le.trans h.length_le

theorem digits_eq {p : Parser} {cs : List Char} (h : At p cs) :
    digits p = .ok (after p (cs.takeWhile Char.isDigit)) := by
  apply skipWhile_eq agree_digit h
  exact (List.takeWhile_prefix _).length_le.trans h.length_le

theorem takeWhile_append_of_head {g : Char → Bool} {w rest : List Char}
    (hw : ∀ c ∈ w, g c = true) (hrest : rest.head?.any g = false) :
    (w ++ rest).takeWhile g = w := by
  rw [List.takeWhile_append_of_pos hw]
  cases rest with
  | nil => simp
  | cons c rest => simp_all

/-- Whitespace is passed over up to the next other character. -/
theorem ws_append {p : Parser} {w rest : List Char} (h : At p (w ++ rest)) (hw : Whitespace w)
    (hrest : rest.head?.any isWhitespace = false) : ws p = .ok (after p w) := by
  rw [ws_eq h, takeWhile_append_of_head hw hrest]

/-- Whatever remains, some whitespace is passed over. -/
theorem ws_meets {p : Parser} {cs : List Char} (h : At p cs) :
    Meets (ws p) fun q => ∃ w rest, Whitespace w ∧ cs = w ++ rest ∧ q = after p w := by
  rw [ws_eq h]
  apply Meets.ok
  exact ⟨_, _, fun c hc => List.mem_takeWhile_imp hc, (List.takeWhile_append_dropWhile).symm, rfl⟩

theorem isPrefixOf_encode {lit : List Char} (hlit : ∀ c ∈ lit, c.toNat < 128)
    (cs : List Char) : (encode lit).isPrefixOf (encode cs) = lit.isPrefixOf cs := by
  induction lit generalizing cs with
  | nil => simp [encode]
  | cons k lit ih =>
      have hk := hlit k (by simp)
      rw [encode_cons, utf8EncodeChar_ascii hk]
      cases cs with
      | nil => rfl
      | cons c cs =>
          obtain ⟨tail, htail⟩ := utf8EncodeChar_eq_cons c
          by_cases hc : c = k
          · subst hc
            have h := ih (fun d hd => hlit d (by simp [hd])) cs
            rw [encode_cons, utf8EncodeChar_ascii hk]
            simpa [List.isPrefixOf] using h
          · have hbyte : byte k ≠ headByte c := fun h => hc ((headByte_eq_iff hk).mp h.symm)
            rw [encode_cons, htail]
            simp [List.isPrefixOf, beq_false_of_ne hbyte, beq_false_of_ne (Ne.symm hc)]

theorem literal_eq {p : Parser} {cs lit : List Char} (h : At p cs)
    (hlit : ∀ c ∈ lit, c.toNat < 128) (val : Json) :
    literal p lit val = if lit.isPrefixOf cs then .ok (val, after p lit)
      else .error (.err s!"invalid literal at {p.i}") := by
  have hs := h.small
  have hb := h.bound
  unfold literal
  rw [indexBetween_of_le hb le_rfl, ok_bind, ← List.length_drop, List.take_length, h.rest,
    isPrefixOf_encode hlit]
  split_ifs with hpre
  · obtain ⟨rest, rfl⟩ := List.isPrefixOf_iff_prefix.mp hpre
    have hlen' := h.length_eq
    rw [encode_append, List.length_append] at hlen'
    unfold advance
    rw [wordAdd_of_le (by omega)]
    rfl
  · rfl

theorem literal_meets {p : Parser} {cs lit : List Char} (h : At p cs)
    (hlit : ∀ c ∈ lit, c.toNat < 128) (val : Json) :
    Meets (literal p lit val) fun r => ∃ rest, cs = lit ++ rest ∧ r = (val, after p lit) := by
  rw [literal_eq h hlit]
  split_ifs with hpre
  · obtain ⟨rest, hrest⟩ := List.isPrefixOf_iff_prefix.mp hpre
    exact Meets.ok ⟨rest, hrest.symm, rfl⟩
  · exact Meets.err _

theorem literal_append {p : Parser} {lit rest : List Char} (h : At p (lit ++ rest))
    (hlit : ∀ c ∈ lit, c.toNat < 128) (val : Json) :
    literal p lit val = .ok (val, after p lit) := by
  rw [literal_eq h hlit, if_pos (List.isPrefixOf_iff_prefix.mpr ⟨rest, rfl⟩)]

/-- The text between two positions is cut out of the input. -/
theorem source_eq {p : Parser} {text rest : List Char} (h : At p (text ++ rest)) :
    indexBetween p.b p.i (after p text).i = .ok (encode text) := by
  have hlen := h.length_eq
  rw [encode_append, List.length_append] at hlen
  have hi : (after p text).i = p.i + (encode text).length := rfl
  rw [hi, indexBetween_of_le (by omega) (by omega), h.rest, Nat.add_sub_cancel_left,
    encode_append, List.take_left]

end SlhaV2.JsonScanner
