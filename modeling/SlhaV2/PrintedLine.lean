import SlhaV2.JsonPrinting

/-!
# The compact form is one line

Without indentation the printer writes no control character: those of a string are
escaped, and everything else it writes is printable. So no byte of the compact form
ends a line, whatever the value and however deep it is nested.
-/
namespace SlhaV2.PrintedLine
open DecimalText Documents JsonGrammar JsonValue JsonPrinting Utf8Text

/-- Characters above the control characters. -/
def Printable (cs : List Char) : Prop := ∀ c ∈ cs, 0x20 ≤ c.toNat

theorem Printable.nil : Printable [] := by simp [Printable]

theorem Printable.cons {c : Char} {cs : List Char} (hc : 0x20 ≤ c.toNat) (h : Printable cs) :
    Printable (c :: cs) := by
  intro d hd
  rcases List.mem_cons.mp hd with rfl | hd
  · exact hc
  · exact h d hd

theorem Printable.append {cs ds : List Char} (hc : Printable cs) (hd : Printable ds) :
    Printable (cs ++ ds) := by
  intro c h
  rcases List.mem_append.mp h with h | h
  · exact hc c h
  · exact hd c h

theorem Printable.flatMap {α : Type} {f : α → List Char} {l : List α}
    (h : ∀ a ∈ l, Printable (f a)) : Printable (l.flatMap f) := by
  intro c hc
  obtain ⟨a, ha, hca⟩ := List.mem_flatMap.mp hc
  exact h a ha c hca

theorem Printable.intercalate {sep : List Char} {ls : List (List Char)} (hsep : Printable sep)
    (h : ∀ l ∈ ls, Printable l) : Printable (List.intercalate sep ls) := by
  induction ls with
  | nil => exact Printable.nil
  | cons l ls ih =>
      have hl := h l (List.mem_cons_self ..)
      have hls := ih fun k hk => h k (List.mem_cons_of_mem l hk)
      cases ls with
      | nil => simpa [List.intercalate] using hl
      | cons k ls =>
          rw [List.intercalate_cons_cons]
          exact (hl.append hsep).append hls

/-- A literal of the program is checked character by character. -/
theorem Printable.of_all {cs : List Char} (h : cs.all (fun c => 0x20 ≤ c.toNat) = true) :
    Printable cs := by
  intro c hc
  exact of_decide_eq_true (List.all_eq_true.mp h c hc)

theorem digit_printable {c : Char} (h : c.isDigit = true) : 0x20 ≤ c.toNat := by
  have hle := (Char.isDigit_iff_toNat.mp h).1
  exact le_trans (by decide) hle

theorem Digits.printable (ds : Digits) : Printable ds.chars :=
  fun c hc => digit_printable (ds.isDigit c hc)

theorem Number.printable (n : Number) : Printable n.text := by
  have hsign : Printable (signText n.neg) := by
    cases n.neg with
    | true => exact Printable.of_all rfl
    | false => exact Printable.nil
  have hfrac : Printable (fractionText n.frac) := by
    cases n.frac with
    | none => exact Printable.nil
    | some ds => exact (Digits.printable ds).cons (by decide)
  have hexp : Printable (exponentText n.exp) := by
    cases n.exp with
    | none => exact Printable.nil
    | some e =>
        have hmark : 0x20 ≤ e.mark.toNat := by
          rcases e.mark_eq with h | h <;> rw [h] <;> decide
        have hesign : Printable e.sign.toList := by
          intro c hc
          rcases e.sign_eq c (by simpa using hc) with rfl | rfl <;> decide
        exact (hesign.append (Digits.printable e.digits)).cons hmark
  exact hsign.append ((Digits.printable n.int).append (hfrac.append hexp))

theorem writeNum_printable (x : Float) : Printable (writeNum x) := by
  by_cases hfin : x.isFinite = true
  · obtain ⟨n, htext, -⟩ := exists_number hfin
    rw [← htext]
    exact Number.printable n
  · unfold writeNum
    rw [if_pos (by simpa using hfin)]
    exact Printable.of_all rfl

theorem hexDigit_printable {c : Char} (h : (hexDigit c).isSome = true) : 0x20 ≤ c.toNat := by
  unfold hexDigit at h
  have hle : ∀ {k : Char}, k ≤ c → k.toNat ≤ c.toNat := fun hk => hk
  split_ifs at h with h₁ h₂ h₃
  · exact le_trans (by decide) (hle h₁.1)
  · exact le_trans (by decide) (hle h₂.1)
  · exact le_trans (by decide) (hle h₃.1)
  · cases h

/-- A letter behind a backslash. -/
theorem unescape_printable {c : Char} (h : (unescape c).isSome = true) : 0x20 ≤ c.toNat := by
  unfold unescape at h
  split_ifs at h with h₀ h₁ h₂ h₃ h₄ h₅
  · rcases h₀ with rfl | rfl | rfl <;> decide
  · subst h₁; decide
  · subst h₂; decide
  · subst h₃; decide
  · subst h₄; decide
  · subst h₅; decide
  · cases h

theorem Piece.printable (q : Piece) : Printable q.text := by
  cases q with
  | plain c h => exact Printable.nil.cons h.1
  | escape c h => exact (Printable.nil.cons (unescape_printable h)).cons (by decide)
  | unicode u =>
      have hu : Printable u.chars := fun c hc => hexDigit_printable (u.isHex c hc)
      exact (hu.cons (by decide)).cons (by decide)

theorem writeEscaped_printable (s : String) : Printable (writeEscaped s) := by
  obtain ⟨ps, htext, -⟩ := exists_string s
  rw [← htext]
  have hps : Printable (ps.flatMap Piece.text) := Printable.flatMap fun q _ => Piece.printable q
  exact (hps.append (Printable.of_all rfl)).cons (by decide)

/-- The compact form, at any depth. -/
theorem write_printable (room : ℕ) (v : Json) : Printable (write none room v) := by
  induction room generalizing v with
  | zero =>
      cases v with
      | null => exact Printable.of_all rfl
      | bool b => cases b <;> exact Printable.of_all rfl
      | num n => exact writeNum_printable n
      | str s => exact writeEscaped_printable s
      | arr a => exact Printable.of_all rfl
      | obj m => exact Printable.of_all rfl
  | succ room ih =>
      cases v with
      | null => exact Printable.of_all rfl
      | bool b => cases b <;> exact Printable.of_all rfl
      | num n => exact writeNum_printable n
      | str s => exact writeEscaped_printable s
      | arr a =>
          rw [write]
          split_ifs
          · exact Printable.of_all rfl
          · refine Printable.cons (by decide) (Printable.append ?_ (Printable.of_all rfl))
            refine Printable.append (Printable.intercalate (Printable.of_all rfl) ?_) Printable.nil
            intro l hl
            obtain ⟨u, -, rfl⟩ := List.mem_map.mp hl
            exact ih u
      | obj m =>
          rw [write]
          by_cases hm : m = []
          · rw [if_pos hm]
            exact Printable.of_all rfl
          · rw [if_neg hm]
            refine Printable.cons (by decide) (Printable.append ?_ (Printable.of_all rfl))
            refine Printable.append (Printable.intercalate (Printable.of_all rfl) ?_) Printable.nil
            intro l hl
            obtain ⟨e, -, rfl⟩ := List.mem_map.mp hl
            have hname := writeEscaped_printable e.1
            exact (Printable.nil.append hname).append ((ih e.2).cons (by decide))

theorem encode_printable {cs : List Char} (h : Printable cs) : ∀ b ∈ encode cs, 0x20 ≤ b.toNat := by
  intro b hb
  obtain ⟨c, hc, hbc⟩ := List.mem_flatMap.mp hb
  exact le_utf8EncodeChar (by decide) (h c hc) b hbc

/-- No byte of the compact form of any value is a control character. -/
theorem toCompact_printable (v : Json) : ∀ b ∈ bytes (toCompact v), 0x20 ≤ b.toNat := by
  unfold bytes toCompact
  rw [String.toList_ofList]
  exact encode_printable (write_printable maxDepth v)

end SlhaV2.PrintedLine
