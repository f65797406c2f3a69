import SlhaV2.DocumentText
import SlhaV2.PrintedLine

/-!
# Printed values and the depth limit

The printer cuts sequences below the depth limit off and writes three points in
their place. Outside strings a text of the grammar has a point only behind a
digit, so a cut-off value has no such text. A value within the limit has one,
whatever its strings and numbers are.
-/
namespace SlhaV2.PrintedDepth
open DecimalText Documents DocumentText JsonGrammar JsonValue JsonPrinting PrintedLine Utf8Text

/-- Where a reader of a text stands. -/
inductive Place where
  /-- Outside strings; whether the last character was a digit. -/
  | outside (digit : Bool)
  | string
  | escape
deriving DecidableEq

/-- Read a character; a point that follows no digit is refused. -/
def readChar : Place → Char → Option Place
  | .outside digit, c =>
      if c = '"' then some .string
      else if c = '.' then (if digit then some (.outside false) else none)
      else some (.outside c.isDigit)
  | .string, c =>
      if c = '"' then some (.outside false)
      else if c = '\\' then some .escape
      else some .string
  | .escape, _ => some .string

def readChars (p : Place) (cs : List Char) : Option Place := cs.foldlM readChar p

/-- From outside strings to outside strings, with no point out of place. -/
def Clean (cs : List Char) : Prop :=
  ∀ digit, ∃ digit', readChars (.outside digit) cs = some (.outside digit')

/-- A point out of place. -/
def Spoilt (cs : List Char) : Prop := ∀ digit, readChars (.outside digit) cs = none

theorem readChars_append (p : Place) (cs ds : List Char) :
    readChars p (cs ++ ds) = (readChars p cs).bind fun q => readChars q ds :=
  List.foldlM_append

theorem readChars_cons (p : Place) (c : Char) (cs : List Char) :
    readChars p (c :: cs) = (readChar p c).bind fun q => readChars q cs :=
  List.foldlM_cons

section Clean
variable {cs ds : List Char}

theorem Clean.not_spoilt (h : Clean cs) : ¬ Spoilt cs := by
  intro hs
  obtain ⟨digit', hrun⟩ := h false
  rw [hs false] at hrun
  cases hrun

theorem Clean.nil : Clean [] := fun digit => ⟨digit, rfl⟩

theorem Clean.append (h : Clean cs) (h' : Clean ds) : Clean (cs ++ ds) := by
  intro digit
  obtain ⟨d₁, h₁⟩ := h digit
  obtain ⟨d₂, h₂⟩ := h' d₁
  refine ⟨d₂, ?_⟩
  rw [readChars_append, h₁, Option.bind_some, h₂]

theorem Clean.append_spoilt (h : Clean cs) (h' : Spoilt ds) : Spoilt (cs ++ ds) := by
  intro digit
  obtain ⟨d₁, h₁⟩ := h digit
  rw [readChars_append, h₁, Option.bind_some, h']

theorem Spoilt.append (h : Spoilt cs) (ds : List Char) : Spoilt (cs ++ ds) := by
  intro digit
  rw [readChars_append, h digit, Option.bind_none]

theorem Clean.singleton {c : Char} (h : c ≠ '"' ∧ c ≠ '.') : Clean [c] := by
  intro digit
  refine ⟨c.isDigit, ?_⟩
  rw [readChars_cons, readChar, if_neg h.1, if_neg h.2]
  rfl

theorem Clean.cons {c : Char} (h : c ≠ '"' ∧ c ≠ '.') (hcs : Clean cs) : Clean (c :: cs) :=
  (Clean.singleton h).append hcs

theorem Clean.of_forall (h : ∀ c ∈ cs, c ≠ '"' ∧ c ≠ '.') : Clean cs := by
  induction cs with
  | nil => exact Clean.nil
  | cons c cs ih =>
      exact Clean.cons (h c List.mem_cons_self) (ih fun d hd => h d (List.mem_cons_of_mem c hd))

theorem Clean.of_all (h : cs.all (fun c => c ≠ '"' ∧ c ≠ '.') = true) : Clean cs :=
  Clean.of_forall fun c hc => of_decide_eq_true (List.all_eq_true.mp h c hc)

end Clean

theorem ne_of_isDigit {c : Char} (h : c.isDigit = true) : c ≠ '"' ∧ c ≠ '.' := by
  constructor
  · rintro rfl
    cases h
  · rintro rfl
    cases h

theorem clean_whitespace {w : List Char} (h : Whitespace w) : Clean w := by
  refine Clean.of_forall fun c hc => ?_
  have hc := h c hc
  constructor
  · rintro rfl
    cases hc
  · rintro rfl
    cases hc

/-- Digits end at a digit. -/
theorem readChars_digits {cs : List Char} (hne : cs ≠ []) (h : ∀ c ∈ cs, c.isDigit = true)
    (digit : Bool) : readChars (.outside digit) cs = some (.outside true) := by
  induction cs generalizing digit with
  | nil => exact absurd rfl hne
  | cons c cs ih =>
      have hc := h c List.mem_cons_self
      have hstep : readChar (.outside digit) c = some (.outside true) := by
        rw [readChar, if_neg (ne_of_isDigit hc).1, if_neg (ne_of_isDigit hc).2, hc]
      rw [readChars_cons, hstep, Option.bind_some]
      cases cs with
      | nil => rfl
      | cons d ds => exact ih (List.cons_ne_nil d ds) (fun e he => h e (List.mem_cons_of_mem c he)) _

theorem Digits.clean (ds : Digits) : Clean ds.chars :=
  Clean.of_forall fun c hc => ne_of_isDigit (ds.isDigit c hc)

/-- The point of a number follows the digits of its integer part. -/
theorem Number.clean (n : Number) : Clean n.text := by
  have hsign : Clean (signText n.neg) := by
    unfold signText
    split_ifs
    · exact Clean.singleton (by decide)
    · exact Clean.nil
  have hexp : Clean (exponentText n.exp) := by
    unfold exponentText
    cases n.exp with
    | none => exact Clean.nil
    | some e =>
        refine Clean.cons ?_ (Clean.append (Clean.of_forall fun c hc => ?_) (Digits.clean e.digits))
        · rcases e.mark_eq with h | h <;> rw [h] <;> decide
        · rcases e.sign_eq c (by simpa using hc) with rfl | rfl <;> decide
  have hmain : Clean (n.int.chars ++ fractionText n.frac) := by
    intro digit
    rw [readChars_append, readChars_digits n.int.ne_nil n.int.isDigit, Option.bind_some]
    cases n.frac with
    | none => exact ⟨true, rfl⟩
    | some ds =>
        refine ⟨true, ?_⟩
        unfold fractionText
        rw [readChars_cons]
        exact readChars_digits ds.ne_nil ds.isDigit false
  have hall := hsign.append (hmain.append hexp)
  rwa [List.append_assoc] at hall

theorem readChars_hex {cs : List Char} (h : ∀ c ∈ cs, (hexDigit c).isSome = true) :
    readChars .string cs = some .string := by
  induction cs with
  | nil => rfl
  | cons c cs ih =>
      have hc := h c List.mem_cons_self
      have hquote : c ≠ '"' := by
        rintro rfl
        cases hc
      have hback : c ≠ '\\' := by
        rintro rfl
        cases hc
      rw [readChars_cons, readChar, if_neg hquote, if_neg hback]
      exact ih fun d hd => h d (List.mem_cons_of_mem c hd)

theorem readChars_piece (q : Piece) : readChars .string q.text = some .string := by
  cases q with
  | plain c h =>
      unfold Piece.text
      rw [readChars_cons, readChar, if_neg h.2.1, if_neg h.2.2]
      rfl
  | escape c h => rfl
  | unicode u =>
      have hhex := readChars_hex u.isHex
      exact hhex

theorem readChars_pieces (ps : List Piece) :
    readChars .string (ps.flatMap Piece.text) = some .string := by
  induction ps with
  | nil => rfl
  | cons q ps ih => rw [List.flatMap_cons, readChars_append, readChars_piece, Option.bind_some, ih]

theorem clean_stringText (ps : List Piece) : Clean (stringText ps) := by
  intro digit
  refine ⟨false, ?_⟩
  unfold stringText
  rw [readChars_cons, readChar, if_pos rfl, Option.bind_some, readChars_append, readChars_pieces]
  rfl

/-- No text of the grammar has a point out of place. -/
theorem clean_parts : OfParts Clean where
  nil := Clean.nil
  append := Clean.append
  space h := clean_whitespace fun d hd => List.mem_singleton.mp hd ▸ h
  mark h := by
    have hall : marks.all (fun c => c ≠ '"' ∧ c ≠ '.') = true := rfl
    exact Clean.singleton (of_decide_eq_true (List.all_eq_true.mp hall _ h))
  word h := by
    simp only [List.mem_cons, List.not_mem_nil, or_false] at h
    rcases h with rfl | rfl | rfl <;> exact Clean.of_all rfl
  number := Number.clean
  string := clean_stringText

/-- A number has a text, or is printed as null. -/
theorem exists_value_num (x : Float) : ∃ t, Value t (writeNum x) := by
  by_cases hfin : x.isFinite = true
  · obtain ⟨n, htext, -⟩ := exists_number hfin
    exact ⟨.num n, htext ▸ Value.num n⟩
  · refine ⟨.null, ?_⟩
    unfold writeNum
    rw [if_pos (by simpa using hfin)]
    exact Value.null

/-- Within the limit the printed form is a text of the grammar, whatever the strings, the names
and the numbers. -/
theorem exists_value (indent : Option ℕ) {room : ℕ} {v : Json} (h : v.Within room) :
    ∃ t, Value t (write indent room v) := by
  induction h with
  | null d => exact ⟨.null, by rw [write]; exact Value.null⟩
  | bool d b =>
      refine ⟨.bool b, ?_⟩
      rw [write]
      cases b with
      | true => exact Value.true
      | false => exact Value.false
  | num d x =>
      rw [write]
      exact exists_value_num x
  | str d s =>
      obtain ⟨ps, htext, -⟩ := exists_string s
      refine ⟨.str ps, ?_⟩
      rw [write, ← htext]
      exact Value.str ps
  | arr d a _ ih =>
      have htree : ∀ v : Json, ∃ t, v ∈ a → Value t (write indent d v) := by
        intro v
        by_cases hv : v ∈ a
        · obtain ⟨t, ht⟩ := ih v hv
          exact ⟨t, fun _ => ht⟩
        · exact ⟨.null, fun h => absurd h hv⟩
      choose f hf using htree
      refine ⟨.arr (a.map f), ?_⟩
      rw [write]
      by_cases ha : a = []
      · subst ha
        exact Value.emptyArr (w := []) (by simp [Whitespace])
      · rw [if_neg ha]
        exact Value.arr (items_intercalate (whitespace_newlineIndent indent _)
          (whitespace_newlineIndent indent _) ha hf)
  | obj d m _ ih =>
      have htree : ∀ e : String × Json, ∃ t, e ∈ m → Member Value t (writeEscaped e.1 ++
          ':' :: ((if indent.isSome then [' '] else []) ++ write indent d e.2)) := by
        intro e
        by_cases he : e ∈ m
        · obtain ⟨ps, htext, -⟩ := exists_string e.1
          obtain ⟨t, ht⟩ := ih e he
          have hspace : Whitespace (if indent.isSome then [' '] else []) := by
            intro c hc
            split_ifs at hc
            · rw [List.mem_singleton.mp hc]
              rfl
            · cases hc
          have hmember := Member.mk (k := ps) (w := []) (by simp [Whitespace]) hspace ht
          rw [htext] at hmember
          exact ⟨(ps, t), fun _ => hmember⟩
        · exact ⟨([], .null), fun h => absurd h he⟩
      choose f hf using htree
      refine ⟨.obj (m.map f), ?_⟩
      rw [write]
      by_cases hm : m = []
      · subst hm
        exact Value.emptyObj (w := []) (by simp [Whitespace])
      · have hitems := items_intercalate
          (whitespace_newlineIndent indent (maxDepth - (d + 1) + 1))
          (whitespace_newlineIndent indent (maxDepth - (d + 1))) hm hf
        rw [if_neg hm]
        simp only [List.append_assoc] at hitems ⊢
        have hobj := Value.obj hitems
        simpa only [List.append_assoc] using hobj

/-- One spoilt part spoils the joined text when the others are clean. -/
theorem spoilt_intercalate {ls : List (List Char)} (h : ∀ l ∈ ls, Clean l ∨ Spoilt l)
    (hex : ∃ l ∈ ls, Spoilt l) (rest : List Char) :
    Spoilt (List.intercalate [','] ls ++ rest) := by
  induction ls with
  | nil =>
      obtain ⟨l, hl, -⟩ := hex
      cases hl
  | cons l ls ih =>
      have hjoin : ∃ r, List.intercalate [','] (l :: ls) ++ rest = l ++ r ∧
          (ls ≠ [] → r = ',' :: (List.intercalate [','] ls ++ rest)) := by
        cases ls with
        | nil => exact ⟨rest, by simp [List.intercalate], fun hne => absurd rfl hne⟩
        | cons k ks =>
            exact ⟨',' :: (List.intercalate [','] (k :: ks) ++ rest),
              by simp [List.intercalate], fun _ => rfl⟩
      obtain ⟨r, hr, hrest⟩ := hjoin
      rw [hr]
      rcases h l List.mem_cons_self with hclean | hspoilt
      · have hex' : ∃ k ∈ ls, Spoilt k := by
          obtain ⟨k, hk, hs⟩ := hex
          rcases List.mem_cons.mp hk with rfl | hk
          · exact absurd hs hclean.not_spoilt
          · exact ⟨k, hk, hs⟩
        obtain ⟨k, hk, -⟩ := id hex'
        rw [hrest (List.ne_nil_of_mem hk)]
        refine hclean.append_spoilt ?_
        exact (Clean.singleton (by decide)).append_spoilt
          (ih (fun k hk => h k (List.mem_cons_of_mem l hk)) hex')
      · exact hspoilt.append r

theorem clean_newlineIndent (indent : Option ℕ) (level : ℕ) : Clean (newlineIndent indent level) :=
  clean_whitespace (whitespace_newlineIndent indent level)

theorem clean_writeEscaped (s : String) : Clean (writeEscaped s) := by
  obtain ⟨ps, htext, -⟩ := exists_string s
  rw [← htext]
  exact clean_stringText ps

/-- Below the limit the three points follow a bracket. -/
theorem spoilt_write (indent : Option ℕ) {room : ℕ} {v : Json} (h : ¬ v.Within room) :
    Spoilt (write indent room v) := by
  have hdots : ∀ c : Char, c ≠ '"' ∧ c ≠ '.' → c.isDigit = false → ∀ cs, Spoilt (c :: '.' :: cs) := by
    intro c hc hdigit cs digit
    rw [readChars_cons, readChar, if_neg hc.1, if_neg hc.2, hdigit]
    rfl
  induction room generalizing v with
  | zero =>
      cases v with
      | null => exact absurd (.null 0) h
      | bool b => exact absurd (.bool 0 b) h
      | num n => exact absurd (.num 0 n) h
      | str s => exact absurd (.str 0 s) h
      | arr a => exact hdots '[' (by decide) rfl _
      | obj m => exact hdots '{' (by decide) rfl _
  | succ room ih =>
      have hpart : ∀ u : Json, Clean (write indent room u) ∨ Spoilt (write indent room u) := by
        intro u
        by_cases hu : u.Within room
        · obtain ⟨t, ht⟩ := exists_value indent hu
          exact Or.inl (clean_parts.value ht)
        · exact Or.inr (ih hu)
      cases v with
      | null => exact absurd (.null _) h
      | bool b => exact absurd (.bool _ b) h
      | num n => exact absurd (.num _ n) h
      | str s => exact absurd (.str _ s) h
      | arr a =>
          have hdeep : ∃ u ∈ a, ¬ u.Within room := by
            by_contra hall
            push Not at hall
            exact h (.arr room a hall)
          obtain ⟨u, hu, hnot⟩ := hdeep
          rw [write]
          rw [if_neg (List.ne_nil_of_mem hu), List.append_assoc]
          refine (Clean.singleton (by decide)).append_spoilt (spoilt_intercalate ?_ ?_ _)
          · intro l hl
            obtain ⟨x, -, rfl⟩ := List.mem_map.mp hl
            exact (hpart x).imp (clean_newlineIndent indent _).append
              (clean_newlineIndent indent _).append_spoilt
          · exact ⟨_, List.mem_map_of_mem hu,
              (clean_newlineIndent indent _).append_spoilt (ih hnot)⟩
      | obj m =>
          have hdeep : ∃ e ∈ m, ¬ e.2.Within room := by
            by_contra hall
            push Not at hall
            exact h (.obj room m hall)
          obtain ⟨e, he, hnot⟩ := hdeep
          have hspace : Clean (if indent.isSome then [' '] else []) := by
            split_ifs
            · exact Clean.singleton (by decide)
            · exact Clean.nil
          have hname : ∀ e : String × Json,
              Clean (newlineIndent indent (maxDepth - (room + 1) + 1) ++ writeEscaped e.1) :=
            fun e => (clean_newlineIndent indent _).append (clean_writeEscaped e.1)
          rw [write]
          rw [if_neg (List.ne_nil_of_mem he), List.append_assoc]
          refine (Clean.singleton (by decide)).append_spoilt (spoilt_intercalate ?_ ?_ _)
          · intro l hl
            obtain ⟨x, -, rfl⟩ := List.mem_map.mp hl
            refine (hpart x.2).imp (fun hx => ?_) fun hx => ?_
            · exact (hname x).append ((hspace.append hx).cons (by decide))
            · exact (hname x).append_spoilt
                ((Clean.singleton (by decide)).append_spoilt (hspace.append_spoilt hx))
          · exact ⟨_, List.mem_map_of_mem he, (hname e).append_spoilt
              ((Clean.singleton (by decide)).append_spoilt (hspace.append_spoilt (ih hnot)))⟩

/-- The string is a text of the grammar of RFC 8259. -/
def ValidText (s : String) : Prop := ∃ t, Text t s.toList

theorem validText_write (indent : Option ℕ) (v : Json) :
    ValidText (String.ofList (write indent maxDepth v)) ↔ v.Within maxDepth := by
  unfold ValidText
  rw [String.toList_ofList]
  constructor
  · rintro ⟨t, ht⟩
    by_contra hdeep
    exact (clean_parts.text ht).not_spoilt (spoilt_write indent hdeep)
  · intro hdepth
    obtain ⟨t, ht⟩ := exists_value indent hdepth
    exact ⟨t, [], _, [], by simp [Whitespace], ht, by simp [Whitespace], by simp⟩

/-- The compact form of a value is a line of printable bytes and a text of the grammar, and the
pretty form is a text of the grammar, exactly when the value is nested within the limit. -/
theorem printed_valid_iff (v : Json) :
    ((∀ b ∈ bytes (toCompact v), 0x20 ≤ b.toNat) ∧ ValidText (toCompact v)) ∧
      ValidText (toPretty v) ↔ v.Within maxDepth := by
  constructor
  · rintro ⟨⟨-, hcompact⟩, -⟩
    exact (validText_write none v).mp hcompact
  · intro hdepth
    exact ⟨⟨toCompact_printable v, (validText_write none v).mpr hdepth⟩,
      (validText_write (some 2) v).mpr hdepth⟩

/-- Arrays around an empty array. -/
def nested : ℕ → Json
  | 0 => .arr []
  | n + 1 => .arr [nested n]

theorem nested_within {n d : ℕ} (h : (nested n).Within d) : n < d := by
  induction n generalizing d with
  | zero =>
      cases h
      exact Nat.succ_pos _
  | succ n ih =>
      cases h with
      | arr d a hall => exact Nat.succ_lt_succ (ih (hall _ List.mem_cons_self))

/-- Sixty-five arrays are printed as no text of the grammar. -/
theorem deep_arrays_invalid : ¬ ValidText (toCompact (nested 64)) ∧
    ¬ ValidText (toPretty (nested 64)) := by
  have hdeep : ¬ (nested 64).Within maxDepth := fun h => lt_irrefl _ (nested_within h)
  exact ⟨fun h => hdeep ((validText_write none _).mp h),
    fun h => hdeep ((validText_write (some 2) _).mp h)⟩

end SlhaV2.PrintedDepth
