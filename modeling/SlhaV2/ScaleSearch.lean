import SlhaV2.ScaleNumbers

/-!
# The search in scale files

The reader of a scale file looks for the two names as pieces of the text, and for the bytes that
end a name, a value or the layers, whatever the nesting. Texts that hold no such piece are skipped.
-/
namespace SlhaV2.ScaleSearch
open Utf8Text LayerMasks JsonGrammar ScoreScale ScaleNumbers

theorem find_eq_none {p w : Bytes} : find p w = none ↔ ¬ p <:+: w := by
  induction w with
  | nil =>
      unfold find
      rw [List.infix_nil]
      split_ifs with h
      · exact ⟨nofun, fun hnot => absurd h hnot⟩
      · exact ⟨fun _ => h, fun _ => rfl⟩
  | cons c w ih =>
      unfold find
      rw [List.infix_cons_iff]
      split_ifs with h
      · exact ⟨nofun, fun hnot => absurd (.inl h) hnot⟩
      · rw [ih]
        exact ⟨fun hnot hor => hor.elim h hnot, fun hnot hin => hnot (.inr hin)⟩

theorem find_suffix {p w v : Bytes} (h : find p w = some v) : v <:+ w := by
  induction w with
  | nil =>
      unfold find at h
      split_ifs at h
      cases h
      exact List.suffix_refl _
  | cons c w ih =>
      unfold find at h
      split_ifs at h
      · cases h
        exact List.suffix_refl _
      · exact (ih h).trans (List.suffix_cons c w)

theorem find_front {p w : Bytes} (h : p <+: w) : find p w = some w := by
  cases w with
  | nil =>
      unfold find
      rw [if_pos (List.prefix_nil.mp h)]
  | cons c w =>
      unfold find
      rw [if_pos h]

/-- The pattern begins nowhere in the text, whatever stands behind it. -/
def Skips (pattern v : Bytes) : Prop := ∀ w, find pattern (v ++ w) = find pattern w

theorem Skips.append {p v v' : Bytes} (h : Skips p v) (h' : Skips p v') : Skips p (v ++ v') := by
  intro w
  rw [List.append_assoc, h, h']

theorem find_cons_ne {c q : UInt8} (h : c ≠ q) (p w : Bytes) :
    find (q :: p) (c :: w) = find (q :: p) w := by
  rw [find.eq_2, if_neg fun hp => h (List.cons_prefix_cons.mp hp).1.symm]

theorem skips_of_notMem {q : UInt8} {v : Bytes} (h : q ∉ v) (p : Bytes) : Skips (q :: p) v := by
  intro w
  induction v with
  | nil => rfl
  | cons c v ih =>
      have hc := not_or.mp (List.mem_cons.not.mp h)
      rw [List.cons_append, find_cons_ne (Ne.symm hc.1), ih hc.2]

/-- A name in quotation marks. -/
def quoted (name : Bytes) : Bytes := 34 :: (name ++ [34])

theorem quoted_append (name w : Bytes) : quoted name ++ w = 34 :: (name ++ 34 :: w) := by
  simp [quoted]

/-- Another name is skipped with the byte behind it. -/
theorem skips_quoted {name key : Bytes} {c : UInt8} (hname : 34 ∉ name) (hkey : 34 ∉ key)
    (hne : key ≠ name) (hc : c ≠ 34) (hhead : c ∉ name.head?) :
    Skips (quoted name) (quoted key ++ [c]) := by
  intro w
  have hfirst : ¬ quoted name <+: 34 :: (key ++ 34 :: (c :: w)) := by
    intro h
    obtain ⟨t, ht⟩ := (List.cons_prefix_cons.mp h).2
    rw [List.append_assoc, List.singleton_append] at ht
    have hcut := congrArg (List.takeWhile fun b => decide (b ≠ 34)) ht
    rw [(takeWhile_first hname t).1, (takeWhile_first hkey (c :: w)).1] at hcut
    exact hne hcut.symm
  have hlast : ¬ quoted name <+: 34 :: (c :: w) := by
    intro h
    have hp := (List.cons_prefix_cons.mp h).2
    cases name with
    | nil => exact hc (List.cons_prefix_cons.mp hp).1.symm
    | cons d name => exact hhead (congrArg some (List.cons_prefix_cons.mp hp).1)
  have hskip := skips_of_notMem hkey (name ++ [34]) (34 :: (c :: w))
  rw [List.append_assoc, quoted_append, List.singleton_append, find.eq_2, if_neg hfirst]
  refine hskip.trans ?_
  rw [find.eq_2]
  refine (if_neg hlast).trans ?_
  exact find_cons_ne hc _ w

theorem Skips.find_eq_none {name v : Bytes} (h : Skips (quoted name) v) :
    find (quoted name) v = none := by
  have hnil := h []
  rwa [List.append_nil] at hnil

theorem after_append {c : UInt8} {v : Bytes} (h : c ∉ v) (w : Bytes) :
    after c (v ++ c :: w) = some w := by
  unfold after
  rw [if_pos (List.mem_append_right v List.mem_cons_self), (takeWhile_first h w).2]

theorem after_eq_none {c : UInt8} {w : Bytes} : after c w = none ↔ c ∉ w := by
  unfold after
  split_ifs with h
  · exact ⟨nofun, fun hnot => absurd h hnot⟩
  · exact ⟨fun _ => h, fun _ => rfl⟩

theorem after_eq_some {c : UInt8} {w v : Bytes} (h : after c w = some v) :
    w = w.takeWhile (· ≠ c) ++ c :: v := by
  unfold after at h
  split_ifs at h with hin
  cases h
  exact splitAt_first hin

section Values
variable {blanks val rest : Bytes}

theorem dropWhile_blanks (hblanks : ∀ b ∈ blanks, isBlank b = true) (hne : val ≠ [])
    (hval : ∀ b ∈ val, isStop b = false) :
    (blanks ++ (val ++ rest)).dropWhile isBlank = val ++ rest := by
  obtain ⟨b, w, rfl⟩ := List.exists_cons_of_ne_nil hne
  have hb : isBlank b = false := by
    have hstop := hval b List.mem_cons_self
    unfold isStop at hstop
    simp only [decide_eq_false_iff_not, not_or] at hstop
    exact Bool.eq_false_iff.mpr hstop.2.2
  rw [List.dropWhile_append_of_pos hblanks, List.cons_append, List.dropWhile_cons, hb]
  rfl

theorem valueText_append (hblanks : ∀ b ∈ blanks, isBlank b = true) (hne : val ≠ [])
    (hval : ∀ b ∈ val, isStop b = false) (hrest : ∀ b ∈ rest.head?, isStop b = true) :
    valueText (blanks ++ (val ++ rest)) = some val ∧
      behindValue (blanks ++ (val ++ rest)) = rest.tail := by
  have hkeep : ∀ b ∈ val, (!isStop b) = true := fun b hb => by rw [hval b hb]; rfl
  have hstop : rest.takeWhile (fun b => !isStop b) = [] ∧
      rest.dropWhile (fun b => !isStop b) = rest := by
    cases rest with
    | nil => exact ⟨rfl, rfl⟩
    | cons b rest =>
        rw [List.takeWhile_cons, List.dropWhile_cons, hrest b rfl]
        exact ⟨rfl, rfl⟩
  unfold valueText behindValue
  rw [dropWhile_blanks hblanks hne hval, if_neg (List.append_ne_nil_of_left_ne_nil hne rest),
    List.takeWhile_append_of_pos hkeep, List.dropWhile_append_of_pos hkeep, hstop.1, hstop.2,
    List.append_nil]
  exact ⟨rfl, rfl⟩

theorem valueText_cons (hblanks : ∀ b ∈ blanks, isBlank b = true) {b : UInt8}
    (hb : isStop b = false) : ∃ t, valueText (blanks ++ b :: rest) = some (b :: t) := by
  have hdrop : (blanks ++ ([b] ++ rest)).dropWhile isBlank = [b] ++ rest :=
    dropWhile_blanks hblanks (List.cons_ne_nil b []) fun c hc => List.mem_singleton.mp hc ▸ hb
  rw [List.singleton_append] at hdrop
  unfold valueText
  rw [hdrop, if_neg (List.cons_ne_nil b rest), List.takeWhile_cons_of_pos (by rw [hb]; rfl)]
  exact ⟨_, rfl⟩

theorem valueText_of_mem {w : Bytes} {b : UInt8} (hb : b ∈ w) (hblank : isBlank b = false) :
    ∃ val, valueText w = some val := by
  unfold valueText
  rw [if_neg]
  · exact ⟨_, rfl⟩
  · intro hnil
    rw [List.dropWhile_eq_nil_iff.mp hnil b hb] at hblank
    cases hblank

end Values

theorem blank_byte {b : UInt8} (h : isBlank b = true) :
    b ≠ 34 ∧ b ≠ 58 ∧ b ≠ 123 ∧ b ≠ 125 ∧ isStop b = true := by
  revert b
  decide +kernel

theorem encode_blanks {w : List Char} (h : Whitespace w) : ∀ b ∈ encode w, isBlank b = true := by
  have hchar : ∀ c : Char, isWhitespace c = true → c.toNat < 128 ∧ isBlank (byte c) = true := by
    intro c hc
    unfold isWhitespace at hc
    rcases of_decide_eq_true hc with rfl | rfl | rfl | rfl <;> decide
  intro b hb
  rw [encode_ascii fun c hc => (hchar c (h c hc)).1] at hb
  obtain ⟨c, hc, rfl⟩ := List.mem_map.mp hb
  exact (hchar c (h c hc)).2

/-- Blanks end a value, as the byte behind them does. -/
theorem head_blanks {w : List Char} (hw : Whitespace w) {u : Bytes}
    (hu : ∀ b ∈ u.head?, isStop b = true) : ∀ b ∈ (encode w ++ u).head?, isStop b = true := by
  intro b hb
  cases hbytes : encode w with
  | nil =>
      rw [hbytes] at hb
      exact hu b hb
  | cons c v =>
      rw [hbytes] at hb
      cases hb
      exact (blank_byte (encode_blanks hw b (hbytes ▸ List.mem_cons_self))).2.2.2.2

/-- The characters between the quotation marks, as they stand there. -/
def spelling (k : List Piece) : List Char := k.flatMap Piece.text

theorem encode_stringText (k : List Piece) :
    encode (stringText k) = quoted (encode (spelling k)) := by
  unfold stringText quoted spelling
  rw [encode_cons_ascii (by decide), encode_append]
  rfl

/-- Only an escape holds a quotation mark. -/
theorem quote_notMem {k : List Piece} (h : '\\' ∉ spelling k) : 34 ∉ encode (spelling k) := by
  intro hin
  obtain ⟨p, hp, hquote⟩ := List.mem_flatMap.mp ((byte_mem_encode (k := '"') (by decide)).mp hin)
  cases p with
  | plain c hc => exact hc.2.1 (List.mem_singleton.mp hquote).symm
  | escape c hc => exact h (List.mem_flatMap.mpr ⟨_, hp, List.mem_cons_self⟩)
  | unicode u => exact h (List.mem_flatMap.mpr ⟨_, hp, List.mem_cons_self⟩)

theorem encode_member (k : List Piece) (w w' s : List Char) :
    encode (stringText k ++ (w ++ ':' :: (w' ++ s))) =
      quoted (encode (spelling k)) ++ (encode w ++ 58 :: (encode w' ++ encode s)) := by
  rw [encode_append, encode_stringText, encode_append, encode_cons_ascii (by decide),
    encode_append]
  rfl

/-- The first character of a value other than a number. -/
theorem value_text {v : Syntax} {s : List Char} (h : Value v s) :
    (∃ x, v = .num x ∧ s = x.text) ∨
      (∀ x, v ≠ .num x) ∧ ∃ c ∈ ['n', 't', 'f', '"', '[', '\x7b'], ∃ r, s = c :: r := by
  cases h with
  | num x => exact .inl ⟨x, rfl, rfl⟩
  | null | true | false | str | emptyArr | arr | emptyObj | obj =>
      exact .inr ⟨nofun, _, by decide, _, rfl⟩

/-- A word, a text, a list or an object. -/
theorem parsePosDouble_other {c : Char} (h : c ∈ ['n', 't', 'f', '"', '[', '\x7b']) (w : Bytes) :
    c.toNat < 128 ∧ isStop (byte c) = false ∧ byte c ≠ 125 ∧
      parsePosDouble (byte c :: w) = none := by
  have hfirst : ∀ w, c.toNat < 128 ∧ isStop (byte c) = false ∧ byte c ≠ 125 ∧ byte c ≠ 0 ∧
      strtod (byte c :: w) = none := by
    intro w
    simp only [List.mem_cons, List.not_mem_nil, or_false] at h
    rcases h with rfl | rfl | rfl | rfl | rfl | rfl <;>
      exact ⟨by decide, by decide, by decide, by decide, rfl⟩
  have hcut : (byte c :: w).takeWhile (· ≠ 0) = byte c :: w.takeWhile (· ≠ 0) :=
    List.takeWhile_cons_of_pos (decide_eq_true (hfirst w).2.2.2.1)
  refine ⟨(hfirst w).1, (hfirst w).2.1, (hfirst w).2.2.1, ?_⟩
  unfold parsePosDouble
  rw [if_neg (List.cons_ne_nil _ w), hcut, (hfirst _).2.2.2.2]
  split_ifs <;> rfl

theorem notMem_blanks {w : List Char} (h : Whitespace w) :
    34 ∉ encode w ∧ 58 ∉ encode w ∧ 123 ∉ encode w ∧ 125 ∉ encode w := by
  have hblank := fun b hb => blank_byte (encode_blanks h b hb)
  exact ⟨fun hb => (hblank _ hb).1 rfl, fun hb => (hblank _ hb).2.1 rfl,
    fun hb => (hblank _ hb).2.2.1 rfl, fun hb => (hblank _ hb).2.2.2.1 rfl⟩

theorem notMem_number (x : Number) :
    34 ∉ encode x.text ∧ 123 ∉ encode x.text ∧ 125 ∉ encode x.text := by
  have hbyte := fun b hb => numberByte_of_mem (n := x) (b := b) hb
  exact ⟨fun hb => (hbyte _ hb).quote rfl, fun hb => (hbyte _ hb).brace rfl,
    fun hb => absurd (hbyte _ hb).stop (by decide)⟩

/-- The name of a member is skipped with the value, if the value is. -/
theorem skips_member {name key : Bytes} {w w' : List Char} {v : Bytes} (hname : 34 ∉ name)
    (hhead : ∀ b, isBlank b = true ∨ b = 58 → b ∉ name.head?) (hkey : 34 ∉ key)
    (hne : key ≠ name) (hw : Whitespace w) (hw' : Whitespace w') (hv : Skips (quoted name) v) :
    Skips (quoted name) (quoted key ++ (encode w ++ 58 :: (encode w' ++ v))) := by
  have hrest := (skips_of_notMem (notMem_blanks hw').1 (name ++ [34])).append hv
  cases hbytes : encode w with
  | nil =>
      have hfirst := skips_quoted hname hkey hne (by decide) (hhead 58 (.inr rfl))
      have hboth := hfirst.append hrest
      rwa [List.append_assoc, List.singleton_append] at hboth
  | cons b u =>
      have hb := encode_blanks hw b (hbytes ▸ List.mem_cons_self)
      have hfirst := skips_quoted hname hkey hne (blank_byte hb).1 (hhead b (.inl hb))
      have hfree : 34 ∉ u ++ [58] := by
        intro hin
        rcases List.mem_append.mp hin with hin | hin
        · exact (notMem_blanks hw).1 (hbytes ▸ List.mem_cons_of_mem b hin)
        · exact absurd (List.mem_singleton.mp hin) (by decide)
      have hall := hfirst.append ((skips_of_notMem hfree (name ++ [34])).append hrest)
      simpa only [List.append_assoc, List.singleton_append, List.cons_append, List.nil_append]
        using hall

end SlhaV2.ScaleSearch
