import SlhaV2.JsonScanner

/-!
# Strings in JSON texts

The scanner accepts the strings of the grammar whose escapes denote characters,
and returns the characters which they stand for.
-/
namespace SlhaV2.JsonStrings
open MachineWord CheckedSteps JsonGrammar JsonValue Utf8Text JsonParser JsonScanner

theorem hexDigit_lt {c : Char} (h : (hexDigit c).isSome = true) : c.toNat < 128 := by
  unfold hexDigit at h
  split_ifs at h with h1 h2 h3
  · exact lt_of_le_of_lt (Char.le_def.mp h1.2) (by decide)
  · exact lt_of_le_of_lt (Char.le_def.mp h2.2) (by decide)
  · exact lt_of_le_of_lt (Char.le_def.mp h3.2) (by decide)
  · exact absurd h (by decide)

theorem hexValue_headByte (c : Char) : hexValue (headByte c) = hexDigit c := by
  by_cases hc : c.toNat < 128
  · have h : ∀ n < 128, hexValue (byte (Char.ofNat n)) = hexDigit (Char.ofNat n) := by decide
    rw [headByte_ascii hc, ← Char.ofNat_toNat c]
    exact h c.toNat hc
  · have hnone : hexDigit c = none := by
      rw [Option.eq_none_iff_forall_ne_some]
      intro d hd
      exact hc (hexDigit_lt (by simp [hd]))
    have h : ∀ n < 64, hexValue (UInt8.ofNat (192 + n)) = none := by decide
    have hlt := (headByte c).toNat_lt
    have hle := le_headByte (Nat.le_of_not_lt hc)
    have hval := h ((headByte c).toNat - 192) (by omega)
    rw [Nat.add_sub_cancel' hle, UInt8.ofNat_toNat] at hval
    rw [hval, hnone]

def hexFold (v : ℕ) (ds : List Char) : ℕ := ds.foldl (fun v c => v * 16 + (hexDigit c).getD 0) v

theorem hexLoop_append {ds rest : List Char} {v : ℕ} {p : Parser} (h : At p (ds ++ rest))
    (hds : ∀ c ∈ ds, (hexDigit c).isSome = true) :
    hexLoop ds.length v p = .ok (hexFold v ds, after p ds) := by
  induction ds generalizing v p with
  | nil => rfl
  | cons c ds ih =>
      have hc := hds c (by simp)
      obtain ⟨d, hd⟩ := Option.isSome_iff_exists.mp hc
      replace h : At p (c :: (ds ++ rest)) := h
      rw [List.length_cons, hexLoop, peek_eq h, List.head?_cons, Option.map_some, orErr_some,
        ok_bind, hexValue_headByte, hd, orErr_some, ok_bind, advance_ascii h (hexDigit_lt hc),
        ok_bind, ih h.tail fun c hc => hds c (by simp [hc]), after_after]
      simp [hexFold, hd]

theorem hexLoop_meets {n v : ℕ} {p : Parser} {cs : List Char} (h : At p cs) :
    Meets (hexLoop n v p) fun r => ∃ ds rest : List Char, ds.length = n ∧
      (∀ c ∈ ds, (hexDigit c).isSome = true) ∧ cs = ds ++ rest ∧
        r = (hexFold v ds, after p ds) := by
  induction n generalizing v p cs with
  | zero => exact Meets.ok ⟨[], cs, rfl, by simp, rfl, rfl⟩
  | succ n ih =>
      rw [hexLoop, peek_eq h]
      cases cs with
      | nil => exact Meets.err _
      | cons c cs =>
          apply Meets.orErr
          rintro _ hb
          cases (by simpa using hb : headByte c = _)
          rw [hexValue_headByte]
          apply Meets.orErr
          intro d hd
          have hc : (hexDigit c).isSome = true := by simp [hd]
          rw [advance_ascii h (hexDigit_lt hc), ok_bind]
          apply (ih h.tail).mono
          rintro r ⟨ds, rest, hlen, hds, rfl, rfl⟩
          refine ⟨c :: ds, rest, by simp [hlen], ?_, rfl, ?_⟩
          · intro c' hc'
            rcases List.mem_cons.mp hc' with rfl | hc'
            · exact hc
            · exact hds c' hc'
          · rw [after_after]
            simp [hexFold, hd]

theorem hex4_append {u : Unit16} {rest : List Char} {p : Parser} (h : At p (u.chars ++ rest)) :
    hex4 p = .ok (u.value, after p u.chars) := by
  have hloop := hexLoop_append (v := 0) h u.isHex
  rw [u.length_eq] at hloop
  exact hloop

theorem hex4_meets {p : Parser} {cs : List Char} (h : At p cs) :
    Meets (hex4 p) fun r => ∃ (u : Unit16) (rest : List Char),
      cs = u.chars ++ rest ∧ r = (u.value, after p u.chars) := by
  apply (hexLoop_meets h).mono
  rintro r ⟨ds, rest, hlen, hds, rfl, rfl⟩
  exact ⟨⟨ds, hlen, hds⟩, rest, rfl, rfl⟩

theorem hexDigit_le (c : Char) : (hexDigit c).getD 0 ≤ 15 := by
  by_cases hc : (hexDigit c).isSome = true
  · have h : ∀ n < 128, (hexDigit (Char.ofNat n)).getD 0 ≤ 15 := by decide
    have hle := h c.toNat (hexDigit_lt hc)
    rwa [Char.ofNat_toNat] at hle
  · rw [Option.not_isSome_iff_eq_none.mp hc]
    decide

theorem hexFold_lt (ds : List Char) (v : ℕ) : hexFold v ds < (v + 1) * 16 ^ ds.length := by
  induction ds generalizing v with
  | nil => simp [hexFold]
  | cons c ds ih =>
      have hc := hexDigit_le c
      calc hexFold v (c :: ds) = hexFold (v * 16 + (hexDigit c).getD 0) ds := rfl
        _ < (v * 16 + (hexDigit c).getD 0 + 1) * 16 ^ ds.length := ih _
        _ ≤ ((v + 1) * 16) * 16 ^ ds.length := Nat.mul_le_mul_right _ (by omega)
        _ = (v + 1) * 16 ^ (c :: ds).length := by
          rw [List.length_cons, pow_succ]
          ring

theorem value_lt (u : Unit16) : u.value < 2 ^ 16 := by
  have h := hexFold_lt u.chars 0
  rw [u.length_eq] at h
  exact h

theorem utf8Len_eq (b : UInt8) : utf8Len b =
    if b.toNat < 128 then 1 else if b.toNat / 32 = 6 then 2 else if b.toNat / 16 = 14 then 3
    else if b.toNat / 8 = 30 then 4 else 1 := by
  have hshift : ∀ k m : UInt8, b >>> k = m ↔ b.toNat / 2 ^ (k.toNat % 8) = m.toNat := by
    intro k m
    rw [← UInt8.toNat_inj, UInt8.toNat_shiftRight, Nat.shiftRight_eq_div_pow]
  unfold utf8Len
  simp only [UInt8.lt_iff_toNat_lt, hshift]
  rfl

/-- The length of a character's encoding is known from its first byte. -/
theorem utf8Len_headByte (c : Char) : utf8Len (headByte c) = (encode [c]).length := by
  have hv : c.val.toNat < 0x110000 := by
    rcases c.valid with h | ⟨_, h⟩
    · exact h.trans (by decide)
    · exact h
  have hlen : (encode [c]).length = (String.utf8EncodeChar c).length := by simp
  rw [hlen]
  unfold headByte String.utf8EncodeChar
  dsimp only
  by_cases h1 : c.val.toNat ≤ 0x7f
  · simp only [if_pos h1, List.headD_cons, utf8Len_eq, UInt8.toNat_ofNat']
    exact if_pos (by omega)
  by_cases h2 : c.val.toNat ≤ 0x7ff
  · simp only [if_neg h1, if_pos h2, List.headD_cons, utf8Len_eq, UInt8.toNat_ofNat']
    rw [if_neg (by omega), if_pos (by omega)]
    rfl
  by_cases h3 : c.val.toNat ≤ 0xffff
  · simp only [if_neg h1, if_neg h2, if_pos h3, List.headD_cons, utf8Len_eq, UInt8.toNat_ofNat']
    rw [if_neg (by omega), if_neg (by omega), if_pos (by omega)]
    rfl
  · simp only [if_neg h1, if_neg h2, if_neg h3, List.headD_cons, utf8Len_eq,
      UInt8.toNat_ofNat']
    rw [if_neg (by omega), if_neg (by omega), if_neg (by omega), if_pos (by omega)]
    rfl

/-- A group of pieces adds one character to whatever follows it. -/
def Adds (ps : List Piece) (c : Char) : Prop :=
  ∀ qs, decode (ps ++ qs) = (decode qs).map (c :: ·)

theorem adds_plain (c : Char) (h : 0x20 ≤ c.toNat ∧ c ≠ '"' ∧ c ≠ '\\') :
    Adds [.plain c h] c := fun qs => by rw [List.singleton_append, decode]

theorem adds_escape (c : Char) (h : (unescape c).isSome = true) :
    Adds [.escape c h] ((unescape c).getD c) := fun qs => by rw [List.singleton_append, decode]

theorem adds_unicode {u : Unit16} (h : ¬isHigh u.value) (h' : ¬isLow u.value) :
    Adds [.unicode u] (Char.ofNat u.value) := by
  intro qs
  cases qs with
  | nil => simp [decode, h, h']
  | cons q qs => cases q <;> simp [decode, h, h']

theorem adds_pair {u l : Unit16} (h : isHigh u.value) (h' : isLow l.value) :
    Adds [.unicode u, .unicode l] (Char.ofNat (pairValue u.value l.value)) :=
  fun qs => by simp [decode, h, h']

theorem fromU32_of_scalar {v : ℕ} (h : v < 2 ^ 16) (h' : ¬isHigh v) (h'' : ¬isLow v) :
    fromU32 v = some (Char.ofNat v) := by
  unfold isHigh at h'
  unfold isLow at h''
  unfold fromU32 Nat.isValidChar
  exact if_pos (by omega)

theorem fromU32_of_surrogate {v : ℕ} (h : isLow v) : fromU32 v = none := by
  unfold isLow at h
  unfold fromU32 Nat.isValidChar
  exact if_neg (by omega)

theorem fromU32_pairValue {u l : ℕ} (h : isHigh u) (h' : isLow l) :
    fromU32 (pairValue u l) = some (Char.ofNat (pairValue u l)) := by
  unfold isHigh at h
  unfold isLow at h'
  unfold fromU32 Nat.isValidChar pairValue
  exact if_pos (by omega)

theorem peek_second {p : Parser} {c : Char} (hc : c.toNat < 128) :
    p.b[p.i + 1]? = peek (after p [c]) := by
  unfold peek JsonScanner.after
  rw [length_encode_ascii hc]

theorem advance_two {p : Parser} {c d : Char} {cs : List Char} (h : At p (c :: d :: cs))
    (hc : c.toNat < 128) (hd : d.toNat < 128) : advance p 2 = .ok (after p [c, d]) := by
  rw [advance_eq h (by decide)]
  unfold JsonScanner.after
  rw [encode_cons, List.length_append, utf8EncodeChar_ascii hc, length_encode_ascii hd]
  rfl

theorem unicodeEscape_scalar {u : Unit16} {rest : List Char} {p : Parser}
    (h : At p (u.chars ++ rest)) (hu : ¬isHigh u.value) (hu' : ¬isLow u.value) :
    unicodeEscape p = .ok (Char.ofNat u.value, after p u.chars) := by
  unfold unicodeEscape
  rw [hex4_append h, ok_bind]
  change (if isHigh u.value then _ else _) = _
  rw [if_neg hu, fromU32_of_scalar (value_lt u) hu hu']
  rfl

theorem unicodeEscape_pair {u l : Unit16} {rest : List Char} {p : Parser}
    (h : At p (u.chars ++ ('\\' :: 'u' :: (l.chars ++ rest)))) (hu : isHigh u.value)
    (hl : isLow l.value) : unicodeEscape p =
      .ok (Char.ofNat (pairValue u.value l.value), after p (u.chars ++ '\\' :: 'u' :: l.chars)) := by
  have h1 := h.after
  have h2 : At (after (after p u.chars) ['\\', 'u']) (l.chars ++ rest) := At.after h1
  unfold unicodeEscape
  rw [hex4_append h, ok_bind]
  change (if isHigh u.value then _ else _) = _
  rw [if_pos hu, if_pos ⟨(peek_eq_byte h1 (by decide)).mpr rfl, by
      rw [peek_second (by decide : '\\'.toNat < 128)]
      exact (peek_eq_byte h1.tail (by decide)).mpr rfl⟩,
    advance_two h1 (by decide) (by decide), ok_bind, hex4_append h2, ok_bind]
  change (require (isLow l.value) _ >>= fun _ =>
    orErr (fromU32 (pairValue u.value l.value)) _ >>= _) = _
  rw [require_of hl, ok_bind, fromU32_pairValue hu hl, orErr_some, ok_bind, after_after,
    after_after]
  simp

theorem unescape_lt {c : Char} (h : (unescape c).isSome = true) : c.toNat < 128 := by
  unfold unescape at h
  split_ifs at h with h1 h2 h3 h4 h5 h6
  · rcases h1 with rfl | rfl | rfl <;> decide
  · exact h2 ▸ by decide
  · exact h3 ▸ by decide
  · exact h4 ▸ by decide
  · exact h5 ▸ by decide
  · exact h6 ▸ by decide
  · exact absurd h (by decide)

theorem unicodeEscape_meets {p : Parser} {cs : List Char} (h : At p cs) :
    Meets (unicodeEscape p) fun r => ∃ (ps : List Piece) (text rest : List Char),
      cs = text ++ rest ∧ ps.flatMap Piece.text = '\\' :: 'u' :: text ∧ Adds ps r.1 ∧
        r.2 = after p text := by
  unfold unicodeEscape
  apply (hex4_meets h).bind
  rintro _ ⟨u, rest, rfl, rfl⟩
  change Meets (if isHigh u.value then _ else _) _
  split_ifs with hu hnext
  · have h1 := h.after
    obtain ⟨tail, rfl⟩ := List.head?_eq_some_iff.mp ((peek_eq_byte h1 (by decide)).mp hnext.1)
    have hsecond := hnext.2
    rw [peek_second (by decide : '\\'.toNat < 128), peek_eq_byte h1.tail (by decide)] at hsecond
    obtain ⟨cs, rfl⟩ := List.head?_eq_some_iff.mp hsecond
    have h2 : At (after (after p u.chars) ['\\', 'u']) cs := At.after h1
    rw [advance_two h1 (by decide) (by decide), ok_bind]
    apply (hex4_meets h2).bind
    rintro _ ⟨l, rest, rfl, rfl⟩
    apply Meets.require
    intro hlow
    have hl : isLow l.value := hlow
    have hadds := adds_pair hu hl
    change Meets (orErr (fromU32 (pairValue u.value l.value)) _ >>= _) _
    rw [fromU32_pairValue hu hl, orErr_some, ok_bind]
    generalize Char.ofNat (pairValue u.value l.value) = d at hadds ⊢
    refine Meets.ok ⟨[.unicode u, .unicode l], u.chars ++ '\\' :: 'u' :: l.chars, rest, ?_, ?_,
      hadds, ?_⟩
    · simp
    · simp [Piece.text]
    · rw [after_after, after_after]
      simp
  · exact Meets.err _
  · by_cases hl : isLow u.value
    · rw [fromU32_of_surrogate hl]
      exact Meets.err _
    · rw [fromU32_of_scalar (value_lt u) hu hl]
      exact Meets.ok ⟨[.unicode u], u.chars, rest, rfl, by simp [Piece.text],
        adds_unicode hu hl, rfl⟩

/-- The letter after a backslash chooses a character or announces a code. -/
theorem escape_eq (c : Char) (p : Parser) : escape (headByte c) p =
    if c = 'u' then unicodeEscape p else
      match unescape c with
      | some d => .ok (d, p)
      | none => .error (.err s!"bad escape '\\{Char.ofNat (headByte c).toNat}' at {p.i}") := by
  have hbyte : ∀ k : Char, k.toNat < 128 → (headByte c = byte k ↔ c = k) :=
    fun k hk => headByte_eq_iff hk
  unfold escape
  simp only [hbyte '"' (by decide), hbyte '\\' (by decide), hbyte '/' (by decide),
    hbyte 'n' (by decide), hbyte 't' (by decide), hbyte 'r' (by decide), hbyte 'b' (by decide),
    hbyte 'f' (by decide), hbyte 'u' (by decide)]
  by_cases hu : c = 'u'
  · subst hu
    rfl
  rw [if_neg hu, if_neg hu]
  unfold unescape
  split_ifs <;> simp_all

theorem escape_meets {p : Parser} {c : Char} {cs : List Char} (h : At p (c :: cs)) :
    Meets (do escape (headByte c) (← advance p 1)) fun r =>
      ∃ (ps : List Piece) (text rest : List Char), c :: cs = text ++ rest ∧
        ps.flatMap Piece.text = '\\' :: text ∧ Adds ps r.1 ∧ r.2 = after p text := by
  by_cases hc : c.toNat < 128
  · rw [advance_ascii h hc, ok_bind, escape_eq]
    split_ifs with hu
    · subst hu
      apply (unicodeEscape_meets h.tail).mono
      rintro ⟨d, q⟩ ⟨ps, text, rest, rfl, hps, hadds, rfl⟩
      exact ⟨ps, 'u' :: text, rest, rfl, hps, hadds, after_after _ _ _⟩
    · cases hd : unescape c with
      | none => exact Meets.err _
      | some d =>
          have hval : (unescape c).getD c = d := by simp [hd]
          exact Meets.ok ⟨[.escape c (by simp [hd])], [c], cs, rfl, rfl,
            hval ▸ adds_escape c (by simp [hd]), rfl⟩
  · have hu : c ≠ 'u' := by
      rintro rfl
      exact hc (by decide)
    have hnone : unescape c = none :=
      Option.not_isSome_iff_eq_none.mp fun hsome => hc (unescape_lt hsome)
    rw [advance_eq h (by decide), ok_bind, escape_eq, if_neg hu, hnone]
    exact Meets.err _

/-- Outside of escapes one character is read, however long its encoding is. -/
theorem plainChar_eq {p : Parser} {c : Char} {cs : List Char} (h : At p (c :: cs)) :
    plainChar p = .ok (String.ofList [c], after p [c]) := by
  have hlen := h.length_eq
  have hsmall := h.small
  rw [← List.singleton_append, encode_append, List.length_append] at hlen
  have hindex : index p.b p.i = .ok (headByte c) := index_eq_ok.mpr (peek_eq h)
  have hadd : wordAdd p.i (encode [c]).length = .ok (p.i + (encode [c]).length) :=
    wordAdd_of_le (by omega)
  have hsource : indexBetween p.b p.i (p.i + (encode [c]).length) = .ok (encode [c]) :=
    source_eq (show At p ([c] ++ cs) from h)
  unfold plainChar advance
  rw [hindex, ok_bind, utf8Len_headByte]
  dsimp only
  rw [hadd, ok_bind, require_of (by omega), ok_bind, hsource, ok_bind, fromUtf8_encode,
    orErr_some, ok_bind]
  rfl

theorem headByte_lt_space {c : Char} : headByte c < 0x20 ↔ c.toNat < 0x20 := by
  rw [UInt8.lt_iff_toNat_lt]
  have h20 : (0x20 : UInt8).toNat = 0x20 := rfl
  rw [h20]
  by_cases hc : c.toNat < 128
  · rw [headByte_ascii hc, toNat_byte hc]
  · have hle := le_headByte (Nat.le_of_not_lt hc)
    omega

theorem stringLoop_quote {n : ℕ} {s : String} {p : Parser} {cs : List Char}
    (h : At p ('"' :: cs)) : stringLoop (n + 1) s p = .ok (s, after p ['"']) := by
  rw [stringLoop, peek_eq h]
  change (if headByte '"' = byte '"' then _ else _) = _
  rw [if_pos ((headByte_eq_iff (by decide)).mpr rfl), advance_ascii h (by decide)]
  rfl

theorem stringLoop_backslash {n : ℕ} {s : String} {p : Parser} {c : Char} {cs : List Char}
    (h : At p ('\\' :: c :: cs)) : stringLoop (n + 1) s p =
      (do escape (headByte c) (← advance (after p ['\\']) 1)) >>= fun r =>
        stringLoop n (s.push r.1) r.2 := by
  rw [stringLoop, peek_eq h]
  change (if headByte '\\' = byte '"' then _ else if headByte '\\' = byte '\\' then _ else _) = _
  rw [if_neg (by decide), if_pos ((headByte_eq_iff (by decide)).mpr rfl),
    advance_ascii h (by decide), ok_bind, peek_eq h.tail, List.head?_cons, Option.map_some,
    orErr_some, ok_bind, bind_assoc]

theorem stringLoop_plain {n : ℕ} {s : String} {p : Parser} {c : Char} {cs : List Char}
    (h : At p (c :: cs)) (hc : 0x20 ≤ c.toNat ∧ c ≠ '"' ∧ c ≠ '\\') :
    stringLoop (n + 1) s p = stringLoop n (s ++ String.ofList [c]) (after p [c]) := by
  rw [stringLoop, peek_eq h]
  change (if headByte c = byte '"' then _ else if headByte c = byte '\\' then _ else
    if headByte c < 0x20 then _ else _) = _
  rw [if_neg (mt (headByte_eq_iff (by decide)).mp hc.2.1),
    if_neg (mt (headByte_eq_iff (by decide)).mp hc.2.2),
    if_neg (mt headByte_lt_space.mp (Nat.not_lt.mpr hc.1)), plainChar_eq h]
  rfl

theorem append_ofList (s : String) (c : Char) (ds : List Char) :
    s ++ String.ofList [c] ++ String.ofList ds = s ++ String.ofList (c :: ds) := by
  apply String.toList_inj.mp
  simp

theorem push_ofList (s : String) (c : Char) (ds : List Char) :
    s.push c ++ String.ofList ds = s ++ String.ofList (c :: ds) := by
  apply String.toList_inj.mp
  simp

/-- The loop stops at a quote which no escape hides, and what it has read decodes. -/
theorem stringLoop_meets {n : ℕ} {s : String} {p : Parser} {cs : List Char} (h : At p cs)
    (hn : cs.length < n) : Meets (stringLoop n s p) fun r =>
      ∃ (ps : List Piece) (ds rest : List Char), cs = ps.flatMap Piece.text ++ '"' :: rest ∧
        decode ps = some ds ∧
          r = (s ++ String.ofList ds, after p (ps.flatMap Piece.text ++ ['"'])) := by
  induction n generalizing s p cs with
  | zero => omega
  | succ n ih =>
      cases cs with
      | nil =>
          rw [stringLoop, peek_eq h]
          exact Meets.err _
      | cons c cs =>
          by_cases hquote : c = '"'
          · subst hquote
            rw [stringLoop_quote h]
            exact Meets.ok ⟨[], [], cs, rfl, rfl, by simp⟩
          by_cases hslash : c = '\\'
          · subst hslash
            cases cs with
            | nil =>
                rw [stringLoop, peek_eq h]
                change Meets (if headByte '\\' = byte '"' then _ else
                  if headByte '\\' = byte '\\' then _ else _) _
                rw [if_neg (by decide), if_pos ((headByte_eq_iff (by decide)).mpr rfl),
                  advance_ascii h (by decide), ok_bind, peek_eq h.tail]
                exact Meets.err _
            | cons c cs =>
                rw [stringLoop_backslash h]
                apply (escape_meets h.tail).bind
                rintro ⟨d, q⟩ ⟨ps, text, rest, hcs, hps, hadds, rfl⟩
                have hrest : At (after (after p ['\\']) text) rest := by
                  have htail := h.tail
                  rw [hcs] at htail
                  exact htail.after
                have hlen : rest.length < n := by
                  have := congrArg List.length hcs
                  simp only [List.length_cons, List.length_append] at this hn
                  omega
                apply (ih hrest hlen).mono
                rintro r ⟨qs, ds, rest, rfl, hds, rfl⟩
                refine ⟨ps ++ qs, d :: ds, rest, ?_, ?_, ?_⟩
                · rw [hcs, List.flatMap_append, hps]
                  simp
                · rw [hadds qs, hds]
                  rfl
                · rw [push_ofList, after_after, after_after, List.flatMap_append, hps]
                  simp
          by_cases hspace : 0x20 ≤ c.toNat
          · have hc : 0x20 ≤ c.toNat ∧ c ≠ '"' ∧ c ≠ '\\' := ⟨hspace, hquote, hslash⟩
            rw [stringLoop_plain h hc]
            apply (ih h.tail (by simpa using hn)).mono
            rintro r ⟨ps, ds, rest, rfl, hds, rfl⟩
            refine ⟨.plain c hc :: ps, c :: ds, rest, rfl, ?_, ?_⟩
            · rw [decode, hds]
              rfl
            · rw [append_ofList, after_after]
              rfl
          · rw [stringLoop, peek_eq h]
            change Meets (if headByte c = byte '"' then _ else if headByte c = byte '\\' then _
              else if headByte c < 0x20 then _ else _) _
            rw [if_neg (mt (headByte_eq_iff (by decide)).mp hquote),
              if_neg (mt (headByte_eq_iff (by decide)).mp hslash),
              if_pos (headByte_lt_space.mpr (Nat.lt_of_not_le hspace))]
            exact Meets.err _

theorem stringLoop_escape {n : ℕ} {s : String} {p : Parser} {c : Char} {cs : List Char}
    (h : At p ('\\' :: c :: cs)) (hc : (unescape c).isSome = true) :
    stringLoop (n + 1) s p =
      stringLoop n (s.push ((unescape c).getD c)) (after p ['\\', c]) := by
  obtain ⟨d, hd⟩ := Option.isSome_iff_exists.mp hc
  have hu : c ≠ 'u' := by
    rintro rfl
    exact absurd hc (by decide)
  rw [stringLoop_backslash h, advance_ascii h.tail (unescape_lt hc), ok_bind, escape_eq,
    if_neg hu, hd, ok_bind, after_after]
  rfl

theorem stringLoop_unicode {n : ℕ} {s : String} {p q : Parser} {d : Char} {cs : List Char}
    (h : At p ('\\' :: 'u' :: cs))
    (hd : unicodeEscape (after p ['\\', 'u']) = .ok (d, q)) :
    stringLoop (n + 1) s p = stringLoop n (s.push d) q := by
  rw [stringLoop_backslash h, advance_ascii h.tail (by decide), ok_bind, escape_eq, if_pos rfl,
    after_after, List.singleton_append, hd, ok_bind]

/-- One escape of a code that is no surrogate. -/
theorem stringLoop_scalar {n : ℕ} {s : String} {p : Parser} {u : Unit16} {cs : List Char}
    (h : At p ((Piece.unicode u).text ++ cs)) (hu : ¬isHigh u.value) (hl : ¬isLow u.value) :
    stringLoop (n + 1) s p =
      stringLoop n (s.push (Char.ofNat u.value)) (after p (Piece.unicode u).text) := by
  replace h : At p ('\\' :: 'u' :: (u.chars ++ cs)) := h
  have htail : At (after p ['\\', 'u']) (u.chars ++ cs) := At.after h
  rw [stringLoop_unicode h (unicodeEscape_scalar htail hu hl), after_after]
  rfl

/-- The text of a string is read to its end, and gives what its pieces decode to. -/
theorem stringLoop_append {ps : List Piece} {ds rest : List Char} {n : ℕ} {s : String}
    {p : Parser} (h : At p (ps.flatMap Piece.text ++ '"' :: rest)) (hds : decode ps = some ds)
    (hn : ps.length < n) : stringLoop n s p =
      .ok (s ++ String.ofList ds, after p (ps.flatMap Piece.text ++ ['"'])) := by
  obtain ⟨n, rfl⟩ : ∃ k, n = k + 1 := ⟨n - 1, by omega⟩
  induction ps using decode.induct generalizing ds n s p with
  | case1 =>
      cases hds
      rw [stringLoop_quote h]
      simp
  | case2 c hc ps ih =>
      rw [decode, Option.map_eq_some_iff] at hds
      obtain ⟨ds, hds, rfl⟩ := hds
      obtain ⟨n, rfl⟩ : ∃ k, n = k + 1 := ⟨n - 1, by simp at hn; omega⟩
      replace h : At p (c :: (ps.flatMap Piece.text ++ '"' :: rest)) := h
      rw [stringLoop_plain h hc, ih h.tail hds n (by simpa using hn), append_ofList, after_after]
      rfl
  | case3 c hc ps ih =>
      rw [decode, Option.map_eq_some_iff] at hds
      obtain ⟨ds, hds, rfl⟩ := hds
      obtain ⟨n, rfl⟩ : ∃ k, n = k + 1 := ⟨n - 1, by simp at hn; omega⟩
      replace h : At p ('\\' :: c :: (ps.flatMap Piece.text ++ '"' :: rest)) := h
      have htail : At (after p ['\\', c]) (ps.flatMap Piece.text ++ '"' :: rest) := At.after h
      rw [stringLoop_escape h hc, ih htail hds n (by simpa using hn), push_ofList, after_after]
      rfl
  | case4 u l ps hu hl ih =>
      have hadd := adds_pair hu hl ps
      rw [List.cons_append, List.singleton_append, hds] at hadd
      obtain ⟨ds, hrec, rfl⟩ := Option.map_eq_some_iff.mp hadd.symm
      obtain ⟨n, rfl⟩ : ∃ k, n = k + 1 := ⟨n - 1, by simp at hn; omega⟩
      have hfirst : At p ('\\' :: 'u' :: (u.chars ++ ('\\' :: 'u' :: (l.chars ++
          (ps.flatMap Piece.text ++ '"' :: rest))))) := by
        simpa [Piece.text] using h
      have hsecond : At (after p ['\\', 'u']) (u.chars ++ ('\\' :: 'u' :: (l.chars ++
          (ps.flatMap Piece.text ++ '"' :: rest)))) := At.after hfirst
      have hrest : At (after p ('\\' :: 'u' :: (u.chars ++ '\\' :: 'u' :: l.chars)))
          (ps.flatMap Piece.text ++ '"' :: rest) := by
        apply At.after
        simpa using hfirst
      rw [stringLoop_unicode hfirst (unicodeEscape_pair hsecond hu hl), after_after,
        List.cons_append, List.singleton_append, ih hrest hrec n (by simp at hn; omega),
        push_ofList, after_after]
      simp [Piece.text]
  | case5 u l ps hu hl => simp [decode, hu, hl] at hds
  | case6 u l ps hu hl => simp [decode, hu, hl] at hds
  | case7 u l ps hu hl ih =>
      have hadd := adds_unicode hu hl (.unicode l :: ps)
      rw [List.singleton_append, hds] at hadd
      obtain ⟨ds, hrec, rfl⟩ := Option.map_eq_some_iff.mp hadd.symm
      obtain ⟨n, rfl⟩ : ∃ k, n = k + 1 := ⟨n - 1, by simp at hn; omega⟩
      rw [List.flatMap_cons, List.append_assoc] at h
      rw [stringLoop_scalar h hu hl, ih h.after hrec n (by simpa using hn), push_ofList,
        after_after]
      simp
  | case8 u ps hps hu =>
      cases ps with
      | nil => simp [decode, hu] at hds
      | cons q ps =>
          cases q with
          | plain c hc => simp [decode, hu] at hds
          | escape c hc => simp [decode, hu] at hds
          | unicode l => exact absurd rfl (hps l ps)
  | case9 u ps hps hu ih =>
      obtain ⟨hu, hl⟩ := not_or.mp hu
      have hadd := adds_unicode hu hl ps
      rw [List.singleton_append, hds] at hadd
      obtain ⟨ds, hrec, rfl⟩ := Option.map_eq_some_iff.mp hadd.symm
      obtain ⟨n, rfl⟩ : ∃ k, n = k + 1 := ⟨n - 1, by simp at hn; omega⟩
      rw [List.flatMap_cons, List.append_assoc] at h
      rw [stringLoop_scalar h hu hl, ih h.after hrec n (by simpa using hn), push_ofList,
        after_after]
      simp

/-- What a string of the grammar stands for. -/
def stringValue (ps : List Piece) : String := String.ofList ((decode ps).getD [])

theorem string_meets {p : Parser} {cs : List Char} (h : At p ('"' :: cs)) :
    Meets (string p) fun r => ∃ (ps : List Piece) (rest : List Char),
      '"' :: cs = stringText ps ++ rest ∧ (decode ps).isSome = true ∧
        r = (stringValue ps, after p (stringText ps)) := by
  have hlen := h.tail.length_le
  unfold string
  rw [advance_ascii h (by decide), ok_bind]
  apply (stringLoop_meets h.tail (Nat.lt_succ_of_le hlen)).mono
  rintro r ⟨ps, ds, rest, rfl, hds, rfl⟩
  refine ⟨ps, rest, by simp [stringText], by simp [hds], ?_⟩
  rw [after_after]
  simp [stringText, stringValue, hds]

theorem length_le_flatMap_text (ps : List Piece) :
    ps.length ≤ (ps.flatMap Piece.text).length := by
  induction ps with
  | nil => simp
  | cons q ps ih =>
      have hq : 1 ≤ q.text.length := by cases q <;> simp [Piece.text]
      rw [List.flatMap_cons, List.length_append, List.length_cons]
      omega

theorem string_append {p : Parser} {ps : List Piece} {rest : List Char}
    (h : At p (stringText ps ++ rest)) (hps : (decode ps).isSome = true) :
    string p = .ok (stringValue ps, after p (stringText ps)) := by
  obtain ⟨ds, hds⟩ := Option.isSome_iff_exists.mp hps
  replace h : At p ('"' :: (ps.flatMap Piece.text ++ '"' :: rest)) := by
    simpa [stringText] using h
  have hle := length_le_flatMap_text ps
  have hlen := h.tail.length_le
  rw [List.length_append] at hlen
  unfold string
  rw [advance_ascii h (by decide), ok_bind,
    stringLoop_append h.tail hds (Nat.lt_succ_of_le (by simp only [after_b] at hlen; omega)),
    after_after]
  simp [stringText, stringValue, hds]

end SlhaV2.JsonStrings
