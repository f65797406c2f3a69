import SlhaV2.ScoreScale

/-!
# Numbers in scale files

The reader of a scale file hands the text of a value to `strtod` and wants a positive finite double
with nothing behind it. Of the text of a JSON number `strtod` returns the nearest double.
-/
namespace SlhaV2.ScaleNumbers
open Utf8Text LayerMasks SingleFloat ExactValues DecimalText JsonGrammar JsonNumbers ScoreScale

theorem isDigit_byte {c : Char} (h : c.toNat < 128) : ScoreScale.isDigit (byte c) = c.isDigit :=
  of_ascii (p := fun c => ScoreScale.isDigit (byte c) = c.isDigit) (by decide) h

theorem digitValue_byte {c : Char} (h : c.isDigit = true) :
    digitValue (byte c) = c.toNat - '0'.toNat :=
  of_ascii (p := fun c => c.isDigit = true → digitValue (byte c) = c.toNat - '0'.toNat) (by decide)
    (isDigit_lt h) h

theorem encode_digits {ds : List Char} (h : ∀ c ∈ ds, c.isDigit = true) :
    encode ds = ds.map byte := encode_ascii fun c hc => isDigit_lt (h c hc)

theorem valueIn_digits {ds : List Char} (h : ∀ c ∈ ds, c.isDigit = true) :
    valueIn 10 (encode ds) = digitsValue ds := by
  have hfold : ∀ (ds : List Char) (v : ℕ), (∀ c ∈ ds, c.isDigit = true) →
      (ds.map byte).foldl (fun v c => 10 * v + digitValue c) v = Nat.ofDigitChars 10 ds v := by
    intro ds
    induction ds with
    | nil => exact fun _ _ => rfl
    | cons c ds ih =>
        intro v hds
        rw [List.map_cons, List.foldl_cons, digitValue_byte (hds c List.mem_cons_self),
          ih _ fun d hd => hds d (List.mem_cons_of_mem c hd)]
        rfl
  rw [encode_digits h]
  exact hfold ds 0 h

/-- The digits at the front of a text, and what stands behind them. -/
theorem span_digits {ds : List Char} (h : ∀ c ∈ ds, c.isDigit = true) (rest : Bytes)
    (hrest : ∀ b ∈ rest.head?, ScoreScale.isDigit b = false) :
    (encode ds ++ rest).takeWhile ScoreScale.isDigit = encode ds ∧
      (encode ds ++ rest).dropWhile ScoreScale.isDigit = rest := by
  have hall : ∀ b ∈ encode ds, ScoreScale.isDigit b = true := by
    intro b hb
    rw [encode_digits h] at hb
    obtain ⟨c, hc, rfl⟩ := List.mem_map.mp hb
    rw [isDigit_byte (isDigit_lt (h c hc))]
    exact h c hc
  have hstop : rest.takeWhile ScoreScale.isDigit = [] ∧
      rest.dropWhile ScoreScale.isDigit = rest := by
    cases rest with
    | nil => exact ⟨rfl, rfl⟩
    | cons b rest =>
        have hb := hrest b rfl
        rw [List.takeWhile_cons, List.dropWhile_cons, hb]
        exact ⟨rfl, rfl⟩
  rw [List.takeWhile_append_of_pos hall, List.dropWhile_append_of_pos hall, hstop.1, hstop.2,
    List.append_nil]
  exact ⟨rfl, rfl⟩

/-- Digits that stand in front of a text without a sign. -/
theorem sign_digits (ds : Digits) (rest : Bytes) :
    sign (encode ds.chars ++ rest) = (false, encode ds.chars ++ rest) := by
  obtain ⟨c, cs, hds⟩ := List.exists_cons_of_ne_nil ds.ne_nil
  have hdigit := ds.isDigit c (hds ▸ List.mem_cons_self)
  have hsign : byte c ≠ 45 ∧ byte c ≠ 43 :=
    of_ascii (p := fun c => c.isDigit = true → byte c ≠ 45 ∧ byte c ≠ 43) (by decide)
      (isDigit_lt hdigit) hdigit
  unfold sign
  rw [hds, encode_cons_ascii (isDigit_lt hdigit)]
  simp [hsign.1, hsign.2]

theorem exponent_text (e : Option Exponent) :
    exponent 101 (encode (exponentText e)) = (exponentValue e, []) := by
  cases e with
  | none => rfl
  | some e =>
      have hmark : e.mark.toNat < 128 ∧ lower (byte e.mark) = 101 := by
        rcases e.mark_eq with hm | hm
        · rw [hm]
          decide
        · rw [hm]
          decide
      have hspan := span_digits e.digits.isDigit [] nofun
      rw [List.append_nil] at hspan
      have hne : encode e.digits.chars ≠ [] := by
        rw [encode_digits e.digits.isDigit]
        exact List.map_eq_nil_iff.not.mpr e.digits.ne_nil
      have hsigned : sign (encode (e.sign.toList ++ e.digits.chars)) =
          (decide (e.sign = some '-'), encode e.digits.chars) := by
        cases hsign : e.sign with
        | none =>
            have hs := sign_digits e.digits []
            rw [List.append_nil] at hs
            exact hs
        | some c =>
            rcases e.sign_eq c hsign with hc | hc
            · subst hc
              rfl
            · subst hc
              rfl
      unfold exponent exponentText
      rw [encode_cons_ascii hmark.1]
      refine (if_pos ⟨congrArg some hmark.2, ?_⟩).trans ?_
      · rw [List.tail_cons, hsigned, hspan.1, hspan.2, valueIn_digits e.digits.isDigit]
        by_cases hminus : e.sign = some '-'
        · rw [if_pos (decide_eq_true hminus), exponentValue, if_pos hminus]
        · rw [if_neg (by simpa using hminus), exponentValue, if_neg hminus]
      · rw [List.tail_cons, hsigned, hspan.1]
        exact hne

theorem head_exponentText {e : Option Exponent} {b : UInt8}
    (h : b ∈ (encode (exponentText e)).head?) : lower b = 101 ∧ b ≠ 46 := by
  cases e with
  | none => cases h
  | some e =>
      have htext : exponentText (some e) = e.mark :: (e.sign.toList ++ e.digits.chars) := rfl
      rw [htext] at h
      rcases e.mark_eq with hm | hm
      · rw [hm, encode_cons_ascii (by decide)] at h
        cases h
        decide
      · rw [hm, encode_cons_ascii (by decide)] at h
        cases h
        decide

theorem not_digit_of_lower {b : UInt8} (h : lower b = 101) : ScoreScale.isDigit b = false := by
  revert b
  decide +kernel

theorem mantissa_whole {digit : UInt8 → Bool} {w whole rest : Bytes}
    (htake : w.takeWhile digit = whole) (hdrop : w.dropWhile digit = rest) (hne : whole ≠ [])
    (hpoint : rest.head? ≠ some 46) : mantissa digit w = some (whole, 0, rest) := by
  unfold mantissa
  simp [htake, hdrop, hpoint, hne]

theorem mantissa_point {digit : UInt8 → Bool} {w whole v : Bytes}
    (htake : w.takeWhile digit = whole) (hdrop : w.dropWhile digit = 46 :: v)
    (hne : whole ≠ []) :
    mantissa digit w =
      some (whole ++ v.takeWhile digit, (v.takeWhile digit).length, v.dropWhile digit) := by
  unfold mantissa
  simp [htake, hdrop, hne]

/-- The digits of a number without its sign, up to the exponent. -/
theorem mantissa_number (n : Number) :
    mantissa ScoreScale.isDigit (encode (n.int.chars ++ (fractionText n.frac ++
        exponentText n.exp))) =
      some (encode (n.int.chars ++ n.fraction), n.fraction.length,
        encode (exponentText n.exp)) := by
  have hne : encode n.int.chars ≠ [] := by
    rw [encode_digits n.int.isDigit]
    exact List.map_eq_nil_iff.not.mpr n.int.ne_nil
  unfold Number.fraction
  rw [encode_append, encode_append]
  cases n.frac with
  | none =>
      have hspan := span_digits n.int.isDigit (encode (exponentText n.exp))
        fun b hb => not_digit_of_lower (head_exponentText hb).1
      rw [fractionText, encode_nil, List.nil_append, List.append_nil]
      rw [mantissa_whole hspan.1 hspan.2 hne fun hb => (head_exponentText (b := 46) hb).2 rfl]
      rfl
  | some ds =>
      have htext : encode (fractionText (some ds)) = 46 :: encode ds.chars := rfl
      have hspan := span_digits n.int.isDigit
        (46 :: (encode ds.chars ++ encode (exponentText n.exp)))
        (by
          intro b hb
          cases hb
          decide)
      have hinner := span_digits ds.isDigit (encode (exponentText n.exp))
        fun b hb => not_digit_of_lower (head_exponentText hb).1
      rw [htext, List.cons_append, mantissa_point hspan.1 hspan.2 hne, hinner.1, hinner.2,
        encode_append, encode_digits ds.isDigit, List.length_map]

theorem mem_digits {ds : Option Digits} {c : Char} (h : c ∈ fractionText ds) :
    c = '.' ∨ c.isDigit = true := by
  cases ds with
  | none => cases h
  | some ds =>
      rcases List.mem_cons.mp h with h | h
      · exact .inl h
      · exact .inr (ds.isDigit c h)

theorem mem_exponentText {e : Option Exponent} {c : Char} (h : c ∈ exponentText e) :
    c ∈ ['e', 'E', '+', '-'] ∨ c.isDigit = true := by
  cases e with
  | none => cases h
  | some e =>
      rcases List.mem_cons.mp h with h | h
      · rcases e.mark_eq with hm | hm
        · exact .inl (by simp [h, hm])
        · exact .inl (by simp [h, hm])
      · rcases List.mem_append.mp h with h | h
        · rcases e.sign_eq c (Option.mem_toList.mp h) with hc | hc
          · exact .inl (by simp [hc])
          · exact .inl (by simp [hc])
        · exact .inr (e.digits.isDigit c h)

theorem mem_number {n : Number} {c : Char} (h : c ∈ n.text) :
    c ∈ ['-', '.', 'e', 'E', '+'] ∨ c.isDigit = true := by
  rcases List.mem_append.mp h with h | h
  · unfold signText at h
    split_ifs at h
    · exact .inl (by simp [List.mem_singleton.mp h])
    · cases h
  · rcases List.mem_append.mp h with h | h
    · exact .inr (n.int.isDigit c h)
    · rcases List.mem_append.mp h with h | h
      · rcases mem_digits h with h | h
        · exact .inl (by simp [h])
        · exact .inr h
      · rcases mem_exponentText h with h | h
        · refine .inl ?_
          simp only [List.mem_cons, List.not_mem_nil, or_false] at h ⊢
          tauto
        · exact .inr h

/-- No byte of a number ends a value, and none is a letter of another word for a number. -/
structure NumberByte (b : UInt8) : Prop where
  space : isSpace b = false
  stop : isStop b = false
  zero : b ≠ 0
  quote : b ≠ 34
  brace : b ≠ 123
  letter : lower b ≠ 110 ∧ lower b ≠ 120

theorem numberByte {c : Char} (h : c ∈ ['-', '.', 'e', 'E', '+'] ∨ c.isDigit = true) :
    c.toNat < 128 ∧ NumberByte (byte c) := by
  have hascii : c.toNat < 128 := by
    rcases h with h | h
    · simp only [List.mem_cons, List.not_mem_nil, or_false] at h
      rcases h with rfl | rfl | rfl | rfl | rfl <;> decide
    · exact isDigit_lt h
  refine ⟨hascii, ?_⟩
  have hall := of_ascii (p := fun c => c ∈ ['-', '.', 'e', 'E', '+'] ∨ c.isDigit = true →
    isSpace (byte c) = false ∧ isStop (byte c) = false ∧ byte c ≠ 0 ∧ byte c ≠ 34 ∧
      byte c ≠ 123 ∧ lower (byte c) ≠ 110 ∧ lower (byte c) ≠ 120) (by decide +kernel) hascii h
  exact ⟨hall.1, hall.2.1, hall.2.2.1, hall.2.2.2.1, hall.2.2.2.2.1, hall.2.2.2.2.2⟩

theorem numberByte_of_mem {n : Number} {b : UInt8} (h : b ∈ encode n.text) : NumberByte b := by
  rw [encode_ascii fun c hc => (numberByte (mem_number hc)).1] at h
  obtain ⟨c, hc, rfl⟩ := List.mem_map.mp h
  exact (numberByte (mem_number hc)).2

theorem sign_text (n : Number) :
    sign (encode n.text) =
      (n.neg, encode (n.int.chars ++ (fractionText n.frac ++ exponentText n.exp))) := by
  unfold Number.text signText
  cases n.neg with
  | false =>
      rw [if_neg nofun, List.nil_append, encode_append]
      exact sign_digits n.int _
  | true => rfl

theorem hexadecimal_number (n : Number) :
    hexadecimal (encode (n.int.chars ++ (fractionText n.frac ++ exponentText n.exp))) = none := by
  unfold hexadecimal
  rw [if_neg]
  rintro ⟨-, h⟩
  obtain ⟨b, hb, hx⟩ := Option.map_eq_some_iff.mp h
  have hin : b ∈ encode n.text := by
    unfold Number.text
    rw [encode_append]
    exact List.mem_append_right _ (List.mem_of_mem_tail (List.mem_of_mem_head? hb))
  exact (numberByte_of_mem hin).letter.2 hx

/-- Of a number, the whole text is read, as the nearest double. -/
theorem strtod_number (n : Number) : strtod (encode n.text) = some (n.toFloat, []) := by
  have hspace : (encode n.text).dropWhile isSpace = encode n.text := by
    rw [List.dropWhile_eq_self_iff]
    intro hl
    rw [(numberByte_of_mem (List.getElem_mem hl)).space]
    exact nofun
  have hdigits : ∀ c ∈ n.int.chars ++ n.fraction, c.isDigit = true := by
    intro c hc
    rcases List.mem_append.mp hc with hc | hc
    · exact n.int.isDigit c hc
    · unfold Number.fraction at hc
      split at hc
      · cases hc
      · rename_i ds _
        exact ds.isDigit c hc
  unfold strtod
  rw [hspace, sign_text]
  dsimp only
  rw [hexadecimal_number]
  dsimp only
  rw [mantissa_number]
  dsimp only
  rw [exponent_text, valueIn_digits hdigits]
  rfl

theorem number_ne_nil (n : Number) : encode n.text ≠ [] := by
  intro h
  have hread := strtod_number n
  have hnone : strtod [] = none := rfl
  rw [h, hnone] at hread
  cases hread

theorem parsePosDouble_number {n : Number} {x : Float} :
    parsePosDouble (encode n.text) = some x ↔ x = n.toFloat ∧ Positive n.toFloat := by
  have hbyte : ∀ b ∈ encode n.text, NumberByte b := fun b hb => numberByte_of_mem hb
  have hword : ¬(bytes "nan" <:+: (encode n.text).map lower ∨
      bytes "inf" <:+: (encode n.text).map lower) := by
    have hletter : (110 : UInt8) ∉ (encode n.text).map lower := by
      intro h
      obtain ⟨b, hb, heq⟩ := List.mem_map.mp h
      exact (hbyte b hb).letter.1 heq
    rintro (h | h)
    · exact hletter (h.subset (by decide))
    · exact hletter (h.subset (by decide))
  have hzero : (encode n.text).takeWhile (· ≠ 0) = encode n.text := by
    rw [List.takeWhile_eq_self_iff]
    exact fun b hb => decide_eq_true (hbyte b hb).zero
  unfold parsePosDouble
  rw [if_neg (number_ne_nil n), if_neg hword, hzero, strtod_number]
  dsimp only
  rw [if_neg (not_not.mpr rfl)]
  constructor
  · intro h
    split_ifs at h with hfinite hle
    cases h
    exact ⟨rfl, Bool.not_eq_false _ ▸ hfinite, hle⟩
  · rintro ⟨rfl, hx⟩
    rw [if_neg (by simp [hx.finite]), if_neg hx.positive]

end SlhaV2.ScaleNumbers
