import SlhaV2.JsonScanner

/-!
# Numbers in JSON texts

The scanner accepts the numbers of the grammar, reads each as far as it goes,
and gives it the value of its text.
-/
namespace SlhaV2.JsonNumbers
open MachineWord CheckedSteps ExactValues DecimalText JsonGrammar JsonValue Utf8Text JsonParser
open JsonScanner

def NoDigit (rest : List Char) : Prop := rest.head?.any Char.isDigit = false

theorem isDigit_lt {c : Char} (h : c.isDigit = true) : c.toNat < 128 := (agree_digit c).2 h

theorem someDigits_meets {part : String} {p : Parser} {cs : List Char} (h : At p cs) :
    Meets (someDigits part p) fun q =>
      ∃ (ds : Digits) (rest : List Char), cs = ds.chars ++ rest ∧ q = after p ds.chars := by
  unfold someDigits
  rw [any_peek agree_digit h]
  split_ifs with hd
  · rw [digits_eq h]
    have hne : cs.takeWhile Char.isDigit ≠ [] := by
      cases cs with
      | nil => exact absurd hd (by decide)
      | cons c cs =>
          rw [List.takeWhile_cons_of_pos (by simpa using hd)]
          exact List.cons_ne_nil _ _
    exact Meets.ok ⟨⟨_, hne, fun c hc => List.mem_takeWhile_imp hc⟩, _,
      (List.takeWhile_append_dropWhile).symm, rfl⟩
  · exact Meets.err _

theorem someDigits_append {part : String} {p : Parser} {ds : Digits} {rest : List Char}
    (h : At p (ds.chars ++ rest)) (hrest : NoDigit rest) :
    someDigits part p = .ok (after p ds.chars) := by
  have hhead : (ds.chars ++ rest).head?.any Char.isDigit = true := by
    cases hds : ds.chars with
    | nil => exact absurd hds ds.ne_nil
    | cons c cs => simpa using ds.isDigit c (by simp [hds])
  unfold someDigits
  rw [any_peek agree_digit h, if_pos hhead, digits_eq h,
    takeWhile_append_of_head ds.isDigit hrest]

theorem integerPart_meets {start : ℕ} {p : Parser} {cs : List Char} (h : At p cs) :
    Meets (integerPart start p) fun q => ∃ ds : Digits,
      (ds.chars.head? = some '0' → ds.chars = ['0']) ∧
        ∃ rest, cs = ds.chars ++ rest ∧ q = after p ds.chars := by
  unfold integerPart
  split_ifs with hzero hdigit
  · obtain ⟨cs, rfl⟩ := List.head?_eq_some_iff.mp ((peek_eq_byte h (by decide)).mp hzero)
    rw [advance_ascii h (by decide), ok_bind, any_peek agree_digit h.tail]
    split_ifs
    · exact Meets.err _
    · exact Meets.ok ⟨⟨['0'], by decide, by simp⟩, fun _ => rfl, cs, rfl, rfl⟩
  · rw [any_peek agree_nonzero h] at hdigit
    cases cs with
    | nil => exact absurd hdigit (by decide)
    | cons c cs =>
        have hc : c.isDigit = true ∧ c ≠ '0' := by simpa using hdigit
        rw [advance_ascii h (isDigit_lt hc.1), ok_bind, digits_eq h.tail, after_after]
        refine Meets.ok ⟨⟨c :: cs.takeWhile Char.isDigit, List.cons_ne_nil _ _, ?_⟩, ?_,
          cs.dropWhile Char.isDigit, ?_, rfl⟩
        · intro d hd
          rcases List.mem_cons.mp hd with rfl | hd
          · exact hc.1
          · exact List.mem_takeWhile_imp hd
        · intro h0
          exact absurd (by simpa using h0) hc.2
        · simp [List.takeWhile_append_dropWhile]
  · exact Meets.err _

theorem integerPart_append {start : ℕ} {p : Parser} {ds : Digits} {rest : List Char}
    (h : At p (ds.chars ++ rest)) (hlead : ds.chars.head? = some '0' → ds.chars = ['0'])
    (hrest : NoDigit rest) : integerPart start p = .ok (after p ds.chars) := by
  cases hds : ds.chars with
  | nil => exact absurd hds ds.ne_nil
  | cons c cs =>
      have hc : c.isDigit = true := ds.isDigit c (by simp [hds])
      rw [hds] at hlead
      replace h : At p (c :: (cs ++ rest)) := by rwa [hds] at h
      unfold integerPart
      by_cases h0 : c = '0'
      · subst h0
        have hcs : cs = [] := by simpa using hlead rfl
        subst hcs
        rw [if_pos ((peek_eq_byte h (by decide)).mpr rfl), advance_ascii h (by decide), ok_bind,
          any_peek agree_digit h.tail, if_neg (by simpa [NoDigit] using hrest)]
      · rw [if_neg fun hp => h0 (by simpa using (peek_eq_byte h (by decide)).mp hp),
          any_peek agree_nonzero h, if_pos (by simp [hc, h0]), advance_ascii h (isDigit_lt hc),
          ok_bind, digits_eq h.tail, after_after]
        have hcs : ∀ d ∈ cs, d.isDigit = true := fun d hd => ds.isDigit d (by simp [hds, hd])
        rw [takeWhile_append_of_head hcs hrest]
        rfl

theorem fractionPart_meets {p : Parser} {cs : List Char} (h : At p cs) :
    Meets (fractionPart p) fun q => ∃ (frac : Option Digits) (rest : List Char),
      cs = fractionText frac ++ rest ∧ q = after p (fractionText frac) := by
  unfold fractionPart
  split_ifs with hpoint
  · obtain ⟨cs, rfl⟩ := List.head?_eq_some_iff.mp ((peek_eq_byte h (by decide)).mp hpoint)
    rw [advance_ascii h (by decide), ok_bind]
    apply (someDigits_meets h.tail).mono
    rintro q ⟨ds, rest, rfl, rfl⟩
    exact ⟨some ds, rest, rfl, after_after p _ _⟩
  · exact Meets.ok ⟨none, cs, rfl, rfl⟩

theorem fractionPart_append {p : Parser} {frac : Option Digits} {rest : List Char}
    (h : At p (fractionText frac ++ rest)) (hrest : NoDigit rest)
    (hpoint : rest.head?.any (fun c => c = '.') = false) :
    fractionPart p = .ok (after p (fractionText frac)) := by
  unfold fractionPart
  cases frac with
  | none =>
      apply if_neg
      intro hp
      have hhead : rest.head? = some '.' := (peek_eq_byte h (by decide)).mp hp
      rw [hhead] at hpoint
      exact absurd hpoint (by decide)
  | some ds =>
      replace h : At p ('.' :: (ds.chars ++ rest)) := h
      rw [if_pos ((peek_eq_byte h (by decide)).mpr rfl), advance_ascii h (by decide), ok_bind,
        someDigits_append h.tail hrest, after_after]
      rfl

theorem ascii_of_or {c k l : Char} (hk : k.toNat < 128) (hl : l.toNat < 128)
    (h : c = k ∨ c = l) : c.toNat < 128 := by
  cases h with
  | inl h => exact h ▸ hk
  | inr h => exact h ▸ hl

theorem exponentPart_meets {p : Parser} {cs : List Char} (h : At p cs) :
    Meets (exponentPart p) fun q => ∃ (exp : Option Exponent) (rest : List Char),
      cs = exponentText exp ++ rest ∧ q = after p (exponentText exp) := by
  unfold exponentPart
  rw [any_peek (agree_or (by decide) (by decide)) h]
  split_ifs with hmark
  · cases cs with
    | nil => exact absurd hmark (by decide)
    | cons c cs =>
        have hc : c = 'e' ∨ c = 'E' := by simpa using hmark
        rw [advance_ascii h (ascii_of_or (by decide) (by decide) hc), ok_bind]
        apply (skipOne_meets (agree_or (by decide) (by decide)) h.tail).bind
        rintro q ⟨sign, rest, hsign, rfl, rfl⟩
        apply (someDigits_meets h.tail.after).mono
        rintro q ⟨ds, rest, rfl, rfl⟩
        refine ⟨some ⟨c, hc, sign, by simpa using hsign, ds⟩, rest, ?_, ?_⟩
        · simp [exponentText]
        · rw [after_after, after_after]
          rfl
  · exact Meets.ok ⟨none, cs, rfl, rfl⟩

theorem Digits.head_any {ds : Digits} {rest : List Char} {g : Char → Bool}
    (hg : ∀ c, c.isDigit = true → g c = false) : (ds.chars ++ rest).head?.any g = false := by
  cases hds : ds.chars with
  | nil => exact absurd hds ds.ne_nil
  | cons d cs => simpa using hg d (ds.isDigit d (by simp [hds]))

theorem exponentPart_append {p : Parser} {exp : Option Exponent} {rest : List Char}
    (h : At p (exponentText exp ++ rest)) (hrest : NoDigit rest)
    (hmark : rest.head?.any (fun c => c = 'e' ∨ c = 'E') = false) :
    exponentPart p = .ok (after p (exponentText exp)) := by
  unfold exponentPart
  rw [any_peek (agree_or (by decide) (by decide)) h]
  cases exp with
  | none => exact if_neg (Bool.eq_false_iff.mp hmark)
  | some e =>
      replace h : At p (e.mark :: (e.sign.toList ++ (e.digits.chars ++ rest))) := by
        simpa [exponentText] using h
      have hsign : ∀ c, c.isDigit = true → decide (c = '+' ∨ c = '-') = false := by
        intro c hc
        rw [decide_eq_false_iff_not]
        rintro (rfl | rfl) <;> exact absurd hc (by decide)
      have hskip := skipOne_append (agree_or (k := '+') (l := '-') (by decide) (by decide)) h.tail
        (by simpa using e.sign_eq) fun _ => Digits.head_any hsign
      rw [if_pos (by simpa [exponentText] using e.mark_eq),
        advance_ascii h (ascii_of_or (by decide) (by decide) e.mark_eq), ok_bind, hskip, ok_bind,
        someDigits_append h.tail.after hrest, after_after, after_after]
      simp [exponentText]

theorem dropWhile_append_of_head {g : Char → Bool} {w rest : List Char}
    (hw : ∀ c ∈ w, g c = true) (hrest : rest.head?.any g = false) :
    (w ++ rest).dropWhile g = rest := by
  have h := List.takeWhile_append_dropWhile (p := g) (l := w ++ rest)
  rw [takeWhile_append_of_head hw hrest] at h
  exact List.append_cancel_left h

theorem takeSign_signText (neg : Bool) {ds : Digits} {rest : List Char} :
    takeSign (signText neg ++ (ds.chars ++ rest)) = (neg, ds.chars ++ rest) := by
  cases neg with
  | true => rfl
  | false =>
      cases hds : ds.chars with
      | nil => exact absurd hds ds.ne_nil
      | cons d cs =>
          have hd := ds.isDigit d (by simp [hds])
          change takeSign (d :: (cs ++ rest)) = _
          unfold takeSign
          split
          · rename_i heq
            rw [(List.cons.inj heq).1] at hd
            exact absurd hd (by decide)
          · rename_i heq
            rw [(List.cons.inj heq).1] at hd
            exact absurd hd (by decide)
          · rfl

theorem noDigit_exponentText (exp : Option Exponent) : NoDigit (exponentText exp) := by
  cases exp with
  | none => rfl
  | some e =>
      cases e.mark_eq with
      | inl he => simp [NoDigit, exponentText, he]
      | inr he => simp [NoDigit, exponentText, he]

theorem takeFraction_text (frac : Option Digits) (exp : Option Exponent) :
    takeFraction (fractionText frac ++ exponentText exp) =
      ((frac.map Digits.chars).getD [], exponentText exp) := by
  cases frac with
  | none =>
      cases exp with
      | none => rfl
      | some e =>
          change takeFraction (e.mark :: _) = _
          unfold takeFraction
          split
          · rename_i heq
            have hmark := e.mark_eq
            rw [(List.cons.inj heq).1] at hmark
            exact absurd hmark (by decide)
          · rfl
  | some ds =>
      change ((ds.chars ++ _).takeWhile _, (ds.chars ++ _).dropWhile _) = _
      rw [takeWhile_append_of_head ds.isDigit (noDigit_exponentText exp),
        dropWhile_append_of_head ds.isDigit (noDigit_exponentText exp)]
      rfl

theorem parseExponent_text (exp : Option Exponent) :
    parseExponent (exponentText exp) = some (exponentValue exp) := by
  cases exp with
  | none => rfl
  | some e =>
      have hall : e.digits.chars.all Char.isDigit = true := List.all_eq_true.mpr e.digits.isDigit
      have hsign : takeSign (e.sign.toList ++ e.digits.chars) =
          (decide (e.sign = some '-'), e.digits.chars) := by
        cases hs : e.sign with
        | none =>
            have h : takeSign (signText false ++ (e.digits.chars ++ [])) = (false, _) :=
              takeSign_signText false
            simpa [signText] using h
        | some c =>
            have hc : c = '+' ∨ c = '-' := e.sign_eq c (by simp [hs])
            cases hc with
            | inl hc => subst hc; rfl
            | inr hc => subst hc; rfl
      unfold exponentText parseExponent exponentValue
      simp only [hsign]
      rw [if_pos ⟨e.mark_eq, e.digits.ne_nil, hall⟩]
      simp

/-- A number of the grammar is read with its value. -/
theorem parseF64_text (n : Number) : parseF64 n.text = some n.toFloat := by
  have hpoint : NoDigit (fractionText n.frac ++ exponentText n.exp) := by
    cases n.frac with
    | none => exact noDigit_exponentText n.exp
    | some ds => rfl
  have hfrac : (n.frac.map Digits.chars).getD [] = n.fraction := by
    unfold Number.fraction
    cases n.frac <;> rfl
  unfold parseF64 Number.text
  simp only [takeSign_signText, takeWhile_append_of_head n.int.isDigit hpoint,
    dropWhile_append_of_head n.int.isDigit hpoint, takeFraction_text, parseExponent_text,
    n.int.ne_nil, false_and, if_false, Option.map_some, hfrac]
  rfl

/-- What may stand after a number: nothing that would prolong it. -/
def Follows (rest : List Char) : Prop :=
  rest.head?.any (fun c => c.isDigit || c == '.' || c == 'e' || c == 'E') = false

theorem Follows.any_false {rest : List Char} (h : Follows rest) {g : Char → Bool}
    (hg : ∀ c, g c = true → (c.isDigit || c == '.' || c == 'e' || c == 'E') = true) :
    rest.head?.any g = false := by
  unfold Follows at h
  cases rest with
  | nil => rfl
  | cons c rest =>
      by_contra hc
      have hgc := hg c (by simpa using hc)
      rw [List.head?_cons, Option.any_some, hgc] at h
      exact absurd h (by decide)

/-- What is read after the last part of a number depends on its text only. -/
theorem number_tail {p : Parser} {n : Number} {rest : List Char} (h : At p (n.text ++ rest)) :
    (do
      let source ← orErr (fromUtf8 (← indexBetween p.b p.i (after p n.text).i))
        "bad utf8 in number"
      let number ← orErr (parseF64 source.toList) s!"bad number '{source}'"
      require (number.isFinite = true) s!"number out of finite range '{source}'"
      .ok (.num number, after p n.text) : Outcome (Json × Parser)) =
    (require (n.toFloat.isFinite = true)
      s!"number out of finite range '{String.ofList n.text}'" >>= fun _ =>
        .ok (.num n.toFloat, after p n.text)) := by
  rw [source_eq h, ok_bind, fromUtf8_encode, orErr_some, ok_bind, String.toList_ofList,
    parseF64_text, orErr_some, ok_bind]

theorem number_meets {p : Parser} {cs : List Char} (h : At p cs) :
    Meets (number p) fun r => ∃ (n : Number) (rest : List Char), cs = n.text ++ rest ∧
      n.toFloat.isFinite = true ∧ r = (.num n.toFloat, after p n.text) := by
  unfold number
  apply (skipOne_meets (agree_byte (by decide)) h).bind
  rintro q ⟨sign, rest, hsign, rfl, rfl⟩
  apply (integerPart_meets h.after).bind
  rintro q ⟨int, hlead, rest, rfl, rfl⟩
  apply (fractionPart_meets h.after.after).bind
  rintro q ⟨frac, rest, rfl, rfl⟩
  apply (exponentPart_meets h.after.after.after).bind
  rintro q ⟨exp, rest, rfl, rfl⟩
  obtain ⟨n, hn⟩ : ∃ n : Number, n = ⟨sign.isSome, int, hlead, frac, exp⟩ := ⟨_, rfl⟩
  have hsignText : sign.toList = signText n.neg := by
    rw [hn]
    cases sign with
    | none => rfl
    | some c =>
        have hc : c = '-' := by simpa using hsign
        rw [hc]
        rfl
  have htext : n.text = sign.toList ++ (int.chars ++ (fractionText frac ++ exponentText exp)) := by
    rw [hsignText, hn]
    rfl
  have hcs : sign.toList ++ (int.chars ++ (fractionText frac ++ (exponentText exp ++ rest))) =
      n.text ++ rest := by
    rw [htext]
    simp only [List.append_assoc]
  have hpos : after (after (after (after p sign.toList) int.chars) (fractionText frac))
      (exponentText exp) = after p n.text := by
    rw [htext]
    simp only [after_after, List.append_assoc]
  rw [hcs] at h ⊢
  rw [hpos]
  apply (congrArg (Meets · _) (number_tail h)).mpr
  apply Meets.require
  intro hfin
  exact Meets.ok ⟨n, rest, rfl, hfin, rfl⟩

theorem head_exponentText_append {exp : Option Exponent} {rest : List Char} {g : Char → Bool}
    (hg : ∀ c, c = 'e' ∨ c = 'E' → g c = false) (hrest : rest.head?.any g = false) :
    (exponentText exp ++ rest).head?.any g = false := by
  cases exp with
  | none => exact hrest
  | some e => exact hg e.mark e.mark_eq

theorem head_fractionText_append {frac : Option Digits} {rest : List Char} {g : Char → Bool}
    (hg : g '.' = false) (hrest : rest.head?.any g = false) :
    (fractionText frac ++ rest).head?.any g = false := by
  cases frac with
  | none => exact hrest
  | some ds => exact hg

/-- A finite number of the grammar is read as far as it goes. -/
theorem number_append {p : Parser} {n : Number} {rest : List Char} (h : At p (n.text ++ rest))
    (hfin : n.toFloat.isFinite = true) (hrest : Follows rest) :
    number p = .ok (.num n.toFloat, after p n.text) := by
  have hdigit : NoDigit rest := hrest.any_false fun c hc => by simp [hc]
  have hmark : rest.head?.any (fun c => c = 'e' ∨ c = 'E') = false :=
    hrest.any_false fun c hc => by
      rcases (by simpa using hc : c = 'e' ∨ c = 'E') with rfl | rfl <;> simp
  have hpoint : rest.head?.any (fun c => c = '.') = false :=
    hrest.any_false fun c hc => by simp [show c = '.' by simpa using hc]
  have hsign : signText n.neg = (if n.neg then some '-' else none : Option Char).toList := by
    cases n.neg <;> rfl
  have hcs : n.text ++ rest = (if n.neg then some '-' else none : Option Char).toList ++
      (n.int.chars ++ (fractionText n.frac ++ (exponentText n.exp ++ rest))) := by
    rw [← hsign]
    simp only [Number.text, List.append_assoc]
  have hpos : after (after (after (after p (signText n.neg)) n.int.chars) (fractionText n.frac))
      (exponentText n.exp) = after p n.text := by
    simp only [after_after, List.append_assoc, Number.text]
  have htext := h
  rw [hcs] at h
  have hminus := skipOne_append (agree_byte (k := '-') (by decide)) h
    (by cases n.neg <;> simp) fun _ => Digits.head_any fun c hc => by
      rw [decide_eq_false_iff_not]
      rintro rfl
      exact absurd hc (by decide)
  have hexpDigit : NoDigit (exponentText n.exp ++ rest) :=
    head_exponentText_append (by rintro c (rfl | rfl) <;> decide) hdigit
  have hexpPoint : (exponentText n.exp ++ rest).head?.any (fun c => c = '.') = false :=
    head_exponentText_append (by rintro c (rfl | rfl) <;> decide) hpoint
  unfold number
  rw [hminus, ok_bind, integerPart_append h.after n.leading
    (head_fractionText_append (by decide) hexpDigit), ok_bind,
    fractionPart_append h.after.after hexpDigit hexpPoint, ok_bind,
    exponentPart_append h.after.after.after hdigit hmark, ok_bind, ← hsign, hpos]
  apply (number_tail htext).trans
  rw [require_of hfin, ok_bind]

end SlhaV2.JsonNumbers
