import Mathlib.Data.List.DropRight
import SlhaV2.LayerMasks

/-!
# Layer selections

The trainer reads a selection of layers as the shim does, from characters instead of bytes:
`all`, `none`, an index or a range. It lets white space and plus signs stand in the text.
-/
namespace SlhaV2.LayerSelections
open DecimalNumerals Utf8Text LayerMasks

/-- `char::is_whitespace`. -/
def isWhitespace (c : Char) : Bool :=
  (9 ≤ c.toNat ∧ c.toNat ≤ 13) ∨ c.toNat ∈ [32, 0x85, 0xA0, 0x1680] ∨
    (0x2000 ≤ c.toNat ∧ c.toNat ≤ 0x200A) ∨ c.toNat ∈ [0x2028, 0x2029, 0x202F, 0x205F, 0x3000]

def trim (s : List Char) : List Char := (s.dropWhile isWhitespace).rdropWhile isWhitespace

/-- `str::parse::<usize>`: one plus sign may stand before the digits. -/
def parseUsize : List Char → Option ℕ
  | [] => none
  | '+' :: s => if s = [] then none else readFrom (2 ^ 64) 0 (s.map Char.toNat)
  | s => readFrom (2 ^ 64) 0 (s.map Char.toNat)

/-- `str::split_once` at a dash. -/
def splitOnce (s : List Char) : Option (List Char × List Char) :=
  if '-' ∈ s then some (s.takeWhile (· ≠ '-'), (s.dropWhile (· ≠ '-')).tail) else none

section Trainer
variable (debug : List Char → List Char)

def bad (w : List Char) : List Char := "cannot parse layer selection ".toList ++ debug w

def number (s text : List Char) : Except (List Char) ℕ :=
  match parseUsize text with
  | some v => .ok v
  | none => .error (bad debug s)

/-- The texts in the messages are escaped by `debug`; there is at least one layer. -/
def parseLayerSet (spec : List Char) (nLayers : ℕ) : Except (List Char) (List ℕ) :=
  let s := trim spec
  if s = "all".toList then .ok (List.range nLayers)
  else if s = "none".toList then .ok []
  else
    match splitOnce s with
    | some (a, b) => do
      let lo ← number debug s (trim a)
      let hi ← number debug s (trim b)
      if hi < lo ∨ nLayers ≤ hi then
        throw ("layer range ".toList ++ debug s ++ " is outside 0..".toList ++
          Nat.toDigits 10 (nLayers - 1) ++ " or is inverted".toList)
      else return span lo hi
    | none => do
      let one ← number debug s s
      if nLayers ≤ one then
        throw ("layer ".toList ++ Nat.toDigits 10 one ++ " is outside 0..".toList ++
          Nat.toDigits 10 (nLayers - 1))
      else return [one]

end Trainer

def Blank (w : List Char) : Prop := ∀ c ∈ w, isWhitespace c = true

theorem Blank.append {v w : List Char} (hv : Blank v) (hw : Blank w) : Blank (v ++ w) := by
  intro c hc
  exact (List.mem_append.mp hc).elim (hv c) (hw c)

theorem dropWhile_blank {w : List Char} (h : Blank w) (s : List Char) :
    (w ++ s).dropWhile isWhitespace = s.dropWhile isWhitespace :=
  List.dropWhile_append_of_pos h

theorem trim_spec (s : List Char) : ∃ w w', Blank w ∧ Blank w' ∧ s = w ++ (trim s ++ w') := by
  refine ⟨s.takeWhile isWhitespace, (s.dropWhile isWhitespace).rtakeWhile isWhitespace,
    ?_, ?_, ?_⟩
  · intro c hc
    exact List.mem_takeWhile_imp hc
  · intro c hc
    exact List.mem_rtakeWhile_imp hc
  · unfold trim
    rw [List.rdropWhile_append_rtakeWhile, List.takeWhile_append_dropWhile]

/-- No white space at either end. -/
structure Solid (s : List Char) : Prop where
  head : ∀ c ∈ s.head?, isWhitespace c = false
  last : ∀ c ∈ s.getLast?, isWhitespace c = false
  nonempty : s ≠ []

theorem Solid.trim_eq {s w w' : List Char} (h : Solid s) (hw : Blank w) (hw' : Blank w') :
    trim (w ++ (s ++ w')) = s := by
  obtain ⟨c, t, rfl⟩ := List.exists_cons_of_ne_nil h.nonempty
  have hfront : (w ++ (c :: t ++ w')).dropWhile isWhitespace = c :: t ++ w' := by
    rw [dropWhile_blank hw, List.cons_append, List.dropWhile_cons,
      if_neg (by rw [h.head c rfl]; decide)]
  unfold trim
  rw [hfront]
  unfold List.rdropWhile
  rw [List.reverse_append, dropWhile_blank fun d hd => hw' d (List.mem_reverse.mp hd)]
  obtain ⟨d, u, hu⟩ := List.exists_cons_of_ne_nil
    (List.reverse_ne_nil_iff.mpr h.nonempty)
  have hlast : isWhitespace d = false := by
    apply h.last d
    rw [← List.head?_reverse, hu]
    rfl
  rw [hu, List.dropWhile_cons, if_neg (by rw [hlast]; decide), ← hu, List.reverse_reverse]

/-- A number of at most 64 bits. -/
def Usize (s : List Char) (v : ℕ) : Prop :=
  v < 2 ^ 64 ∧ ∃ digits, (s = digits ∨ s = '+' :: digits) ∧ Numeral (digits.map Char.toNat) v

theorem readFrom_numeral {w : List ℕ} {v : ℕ} (hne : w ≠ []) :
    readFrom (2 ^ 64) 0 w = some v ↔ v < 2 ^ 64 ∧ Numeral w v := by
  rw [readFrom_eq_some (by decide)]
  constructor
  · intro h
    exact ⟨h.2.2, hne, h.1, h.2.1⟩
  · intro h
    exact ⟨h.2.digits, h.2.value, h.1⟩

theorem parseUsize_eq_some {s : List Char} {v : ℕ} : parseUsize s = some v ↔ Usize s v := by
  unfold Usize
  cases s with
  | nil =>
      constructor
      · exact nofun
      · intro h
        obtain ⟨-, digits, rfl | hplus, hdigits⟩ := h
        · exact absurd rfl hdigits.nonempty
        · cases hplus
  | cons c s =>
      by_cases hc : c = '+'
      · subst hc
        have hparse : parseUsize ('+' :: s) =
            if s = [] then none else readFrom (2 ^ 64) 0 (s.map Char.toNat) := rfl
        rw [hparse]
        constructor
        · intro h
          split_ifs at h with hnil
          have hread := (readFrom_numeral (by simpa using hnil)).mp h
          exact ⟨hread.1, s, .inr rfl, hread.2⟩
        · intro h
          obtain ⟨hlt, digits, rfl | hplus, hdigits⟩ := h
          · have hdigit := hdigits.digits 43 List.mem_cons_self
            exact absurd hdigit (by decide)
          · cases hplus
            have hnil : s ≠ [] := by
              rintro rfl
              exact hdigits.nonempty rfl
            rw [if_neg hnil]
            exact (readFrom_numeral hdigits.nonempty).mpr ⟨hlt, hdigits⟩
      · have hparse : parseUsize (c :: s) = readFrom (2 ^ 64) 0 ((c :: s).map Char.toNat) := by
          unfold parseUsize
          split
          · contradiction
          · rename_i heq
            cases heq
            exact absurd rfl hc
          · rfl
        rw [hparse, readFrom_numeral (by simp)]
        constructor
        · intro h
          exact ⟨h.1, c :: s, .inl rfl, h.2⟩
        · intro h
          obtain ⟨hlt, digits, rfl | hplus, hdigits⟩ := h
          · exact ⟨hlt, hdigits⟩
          · cases hplus
            exact absurd rfl hc

theorem Usize.chars {s : List Char} {v : ℕ} (h : Usize s v) :
    s ≠ [] ∧ ∀ c ∈ s, c = '+' ∨ IsDigit c.toNat := by
  obtain ⟨-, digits, rfl | rfl, hdigits⟩ := h
  · constructor
    · rintro rfl
      exact hdigits.nonempty rfl
    · intro c hc
      exact .inr (hdigits.digits _ (List.mem_map_of_mem hc))
  · constructor
    · exact List.cons_ne_nil _ _
    · intro c hc
      rcases List.mem_cons.mp hc with hplus | hc
      · exact .inl hplus
      · exact .inr (hdigits.digits _ (List.mem_map_of_mem hc))

theorem not_isWhitespace {c : Char} (h : c = '+' ∨ IsDigit c.toNat) : isWhitespace c = false := by
  rcases h with rfl | hdigit
  · decide
  · unfold IsDigit at hdigit
    simp [isWhitespace]
    omega

theorem Usize.dash {s : List Char} {v : ℕ} (h : Usize s v) : '-' ∉ s := by
  intro hin
  have hchar := h.chars.2 '-' hin
  revert hchar
  decide

theorem Usize.solid {s : List Char} {v : ℕ} (h : Usize s v) : Solid s where
  head c hc := not_isWhitespace (h.chars.2 c (List.mem_of_mem_head? hc))
  last c hc := not_isWhitespace (h.chars.2 c (List.mem_of_mem_getLast? hc))
  nonempty := h.chars.1

/-- A text with its selection: blanks may stand at the ends and around the dash. -/
inductive Spelled (n : ℕ) : List Char → List ℕ → Prop where
  | all {w w' : List Char} : Blank w → Blank w' →
      Spelled n (w ++ ("all".toList ++ w')) (List.range n)
  | none {w w' : List Char} : Blank w → Blank w' → Spelled n (w ++ ("none".toList ++ w')) []
  | index {w t w' : List Char} {v : ℕ} : Blank w → Usize t v → Blank w' → v < n →
      Spelled n (w ++ (t ++ w')) [v]
  | range {w a x y b w' : List Char} {lo hi : ℕ} : Blank w → Usize a lo → Blank x → Blank y →
      Usize b hi → Blank w' → lo ≤ hi → hi < n →
      Spelled n (w ++ (a ++ (x ++ '-' :: (y ++ (b ++ w'))))) (span lo hi)

theorem splitOnce_eq_none {s : List Char} (h : '-' ∉ s) : splitOnce s = none := if_neg h

theorem splitOnce_eq_some {a : List Char} (h : '-' ∉ a) (b : List Char) :
    splitOnce (a ++ '-' :: b) = some (a, b) := by
  have hfirst := takeWhile_first h b
  unfold splitOnce
  rw [if_pos (List.mem_append_right a List.mem_cons_self), hfirst.1, hfirst.2]

theorem blank_dash {w : List Char} (h : Blank w) : '-' ∉ w := by
  intro hin
  have hblank := h '-' hin
  revert hblank
  decide

section Trainer
variable {debug : List Char → List Char}

theorem number_ok {s t : List Char} {v : ℕ} : number debug s t = .ok v ↔ Usize t v := by
  rw [← parseUsize_eq_some]
  unfold number
  cases parseUsize t with
  | none => exact ⟨nofun, nofun⟩
  | some u =>
      constructor
      · intro h
        cases h
        rfl
      · intro h
        cases h
        rfl

theorem ok_bind {α β : Type} (a : α) (f : α → Except (List Char) β) :
    (Except.ok a >>= f) = f a := rfl

theorem spelled_of_parseLayerSet {s : List Char} {n : ℕ} {ids : List ℕ}
    (h : parseLayerSet debug s n = .ok ids) : Spelled n s ids := by
  obtain ⟨w, w', hw, hw', hs⟩ := trim_spec s
  generalize hcore : trim s = core at hs
  unfold parseLayerSet at h
  rw [hcore] at h
  dsimp only at h
  by_cases hall : core = "all".toList
  · rw [if_pos hall] at h
    cases h
    rw [hs, hall]
    exact .all hw hw'
  rw [if_neg hall] at h
  by_cases hnone : core = "none".toList
  · rw [if_pos hnone] at h
    cases h
    rw [hs, hnone]
    exact .none hw hw'
  rw [if_neg hnone] at h
  by_cases hdash : '-' ∈ core
  · unfold splitOnce at h
    rw [if_pos hdash] at h
    dsimp only at h
    have hsplit := splitAt_first hdash
    revert h
    generalize core.takeWhile (· ≠ '-') = low at hsplit ⊢
    generalize (core.dropWhile (· ≠ '-')).tail = high at hsplit ⊢
    intro h
    obtain ⟨x, x', hx, hx', hlow⟩ := trim_spec low
    obtain ⟨y, y', hy, hy', hhigh⟩ := trim_spec high
    cases hlo : number debug core (trim low) with
    | error e =>
        rw [hlo] at h
        cases h
    | ok lo =>
        cases hhi : number debug core (trim high) with
        | error e =>
            rw [hlo, hhi] at h
            cases h
        | ok hi =>
            rw [hlo, hhi] at h
            by_cases hrange : hi < lo ∨ n ≤ hi
            · have hthrow := h
              rw [ok_bind, ok_bind, if_pos hrange] at hthrow
              cases hthrow
            · rw [ok_bind, ok_bind, if_neg hrange] at h
              cases h
              have htext : s = (w ++ x) ++ (trim low ++ (x' ++ '-' :: (y ++ (trim high ++
                  (y' ++ w'))))) := by
                calc s = w ++ (low ++ '-' :: high ++ w') := by rw [hs, hsplit]
                  _ = w ++ ((x ++ (trim low ++ x')) ++ '-' :: (y ++ (trim high ++ y')) ++ w') := by
                    rw [← hlow, ← hhigh]
                  _ = _ := by simp only [List.append_assoc, List.cons_append]
              rw [htext]
              push Not at hrange
              exact .range (hw.append hx) (number_ok.mp hlo) hx' hy (number_ok.mp hhi)
                (hy'.append hw') hrange.1 hrange.2
  · rw [splitOnce_eq_none hdash] at h
    dsimp only at h
    cases hone : number debug core core with
    | error e =>
        rw [hone] at h
        cases h
    | ok one =>
        rw [hone, ok_bind] at h
        by_cases hrange : n ≤ one
        · rw [if_pos hrange] at h
          cases h
        · rw [if_neg hrange] at h
          cases h
          rw [hs]
          exact .index hw (number_ok.mp hone) hw' (not_le.mp hrange)

theorem blank_nil : Blank [] := nofun

theorem solid_all : Solid "all".toList :=
  ⟨by simp [isWhitespace], by simp [isWhitespace], by simp⟩

theorem solid_none : Solid "none".toList :=
  ⟨by simp [isWhitespace], by simp [isWhitespace], by simp⟩

theorem Solid.join {a b : List Char} (ha : Solid a) (hb : Solid b) (m : List Char) :
    Solid (a ++ (m ++ b)) where
  head c hc := by
    apply ha.head c
    rwa [List.head?_append_of_ne_nil a ha.nonempty] at hc
  last c hc := by
    apply hb.last c
    rwa [← List.append_assoc, List.getLast?_append_of_ne_nil _ hb.nonempty] at hc
  nonempty := List.append_ne_nil_of_left_ne_nil ha.nonempty _

theorem parseLayerSet_of_spelled {s : List Char} {n : ℕ} {ids : List ℕ}
    (h : Spelled n s ids) : parseLayerSet debug s n = .ok ids := by
  cases h with
  | all hw hw' =>
      unfold parseLayerSet
      rw [solid_all.trim_eq hw hw']
      rfl
  | none hw hw' =>
      unfold parseLayerSet
      rw [solid_none.trim_eq hw hw']
      rfl
  | @index w t w' v hw ht hw' hlt =>
      have hall : t ≠ "all".toList := by
        rintro rfl
        have hchar := ht.chars.2 'a' (by decide)
        revert hchar
        decide
      have hnone : t ≠ "none".toList := by
        rintro rfl
        have hchar := ht.chars.2 'n' (by decide)
        revert hchar
        decide
      unfold parseLayerSet
      rw [ht.solid.trim_eq hw hw']
      dsimp only
      rw [if_neg hall, if_neg hnone, splitOnce_eq_none ht.dash]
      dsimp only
      rw [number_ok.mpr ht, ok_bind, if_neg (not_le.mpr hlt)]
      rfl
  | @range w a x y b w' lo hi hw ha hx hy hb hw' hle hlt =>
      have hcore : w ++ (a ++ (x ++ '-' :: (y ++ (b ++ w')))) =
          w ++ ((a ++ ((x ++ '-' :: y) ++ b)) ++ w') := by
        simp only [List.append_assoc, List.cons_append]
      have hsplit : splitOnce (a ++ ((x ++ '-' :: y) ++ b)) = some (a ++ x, y ++ b) := by
        have hdash : '-' ∉ a ++ x := by
          rw [List.mem_append]
          exact not_or.mpr ⟨ha.dash, blank_dash hx⟩
        rw [← splitOnce_eq_some hdash (y ++ b)]
        simp only [List.append_assoc, List.cons_append]
      have hmem : '-' ∈ a ++ ((x ++ '-' :: y) ++ b) := by simp
      have hall : a ++ ((x ++ '-' :: y) ++ b) ≠ "all".toList := by
        intro heq
        rw [heq] at hmem
        revert hmem
        decide
      have hnone : a ++ ((x ++ '-' :: y) ++ b) ≠ "none".toList := by
        intro heq
        rw [heq] at hmem
        revert hmem
        decide
      have hlow : trim (a ++ x) = a := ha.solid.trim_eq blank_nil hx
      have hhigh : trim (y ++ b) = b := by
        have htrim := hb.solid.trim_eq hy blank_nil
        rwa [List.append_nil] at htrim
      unfold parseLayerSet
      rw [hcore, (ha.solid.join hb.solid _).trim_eq hw hw']
      dsimp only
      rw [if_neg hall, if_neg hnone, hsplit]
      dsimp only
      rw [hlow, hhigh, number_ok.mpr ha, number_ok.mpr hb, ok_bind, ok_bind,
        if_neg (by omega)]
      rfl

/-- What the trainer accepts. -/
theorem parseLayerSet_ok {s : List Char} {n : ℕ} {ids : List ℕ} :
    parseLayerSet debug s n = .ok ids ↔ Spelled n s ids :=
  ⟨spelled_of_parseLayerSet, parseLayerSet_of_spelled⟩

end Trainer

theorem encode_injective {s t : List Char} (h : encode s = encode t) : s = t := by
  have hread := fromUtf8_encode s
  rw [h, fromUtf8_encode] at hread
  have hlist := congrArg String.toList (Option.some.inj hread)
  rw [String.toList_ofList, String.toList_ofList] at hlist
  exact hlist.symm

theorem codes_encode {s : List Char} (h : ∀ c ∈ s, c.toNat < 128) :
    codes (encode s) = s.map Char.toNat := by
  rw [encode_ascii h, codes, List.map_map]
  exact List.map_congr_left fun c hc => toNat_byte (h c hc)

theorem ascii_of_codes {s : List Char} (h : ∀ b ∈ codes (encode s), b < 128) :
    ∀ c ∈ s, c.toNat < 128 := by
  intro c hc
  by_contra hlarge
  have hhead : headByte c ∈ encode s := by
    obtain ⟨tail, htail⟩ := utf8EncodeChar_eq_cons c
    apply List.mem_flatMap.mpr
    refine ⟨c, hc, ?_⟩
    rw [htail]
    exact List.mem_cons_self
  have hlt := h _ (mem_codes.mpr hhead)
  have hle := le_headByte (not_lt.mp hlarge)
  omega

theorem mem_intercalate {sep : List UInt8} {toks : List Bytes} {b : UInt8}
    (h : b ∈ sep.intercalate toks) : b ∈ sep ∨ ∃ tok ∈ toks, b ∈ tok := by
  induction toks with
  | nil => cases h
  | cons tok toks ih =>
      cases toks with
      | nil => exact .inr ⟨tok, List.mem_cons_self, by simpa using h⟩
      | cons next toks =>
          rw [List.intercalate_cons_cons, List.append_assoc] at h
          rcases List.mem_append.mp h with htok | h
          · exact .inr ⟨tok, List.mem_cons_self, htok⟩
          rcases List.mem_append.mp h with hsep | h
          · exact .inl hsep
          · exact (ih h).imp_right fun hin => List.exists_mem_cons_of_exists hin

theorem token_ascii {n : ℕ} {w : List ℕ} {lo hi : ℕ} (h : Token n w lo hi) :
    ∀ c ∈ w, c < 128 ∧ c ≠ 44 := by
  intro c hc
  rcases h.chars c hc with hdigit | rfl
  · unfold IsDigit at hdigit
    omega
  · decide

theorem listing_ascii {n : ℕ} {w : Bytes} {toks : List Bytes} (h : Listing n w toks) :
    ∀ c ∈ codes w, c < 128 := by
  intro c hc
  obtain ⟨b, hb, rfl⟩ := List.mem_map.mp hc
  rw [h.text] at hb
  rcases mem_intercalate hb with hsep | ⟨tok, htok, hin⟩
  · rw [List.mem_singleton.mp hsep]
    decide
  · obtain ⟨lo, hi, hspan⟩ := h.tokens tok htok
    exact (token_ascii hspan _ (mem_codes.mpr hin)).1

theorem listing_single {n : ℕ} {s : List Char} {lo hi : ℕ}
    (h : Token n (s.map Char.toNat) lo hi) : Listing n (encode s) [encode s] := by
  have hcodes := @codes_encode s fun c hc => (token_ascii h _ (List.mem_map_of_mem hc)).1
  constructor
  · exact List.cons_ne_nil _ _
  · simp
  · intro tok htok
    rw [List.mem_singleton.mp htok, hcodes]
    exact ⟨lo, hi, h⟩

/-- Without a comma the shim reads one token. -/
theorem parseLayerMask_plain {n : ℕ} (hn : 1 ≤ n) {s : List Char} (hcomma : ',' ∉ s) :
    (parseLayerMask (encode s) n).valid = true ↔ s = "all".toList ∨ s = "none".toList ∨
      ∃ lo hi, Token n (s.map Char.toNat) lo hi := by
  rw [parseLayerMask_valid hn]
  constructor
  · rintro (hall | hnone | ⟨toks, h⟩)
    · exact .inl (encode_injective hall)
    · exact .inr (.inl (encode_injective hnone))
    · have hcodes := codes_encode (ascii_of_codes (listing_ascii h))
      have hplain : (44 : UInt8) ∉ encode s := by
        intro hin
        have hchar := mem_codes.mpr hin
        rw [hcodes] at hchar
        obtain ⟨c, hc, hcode⟩ := List.mem_map.mp hchar
        cases (Char.toNat_inj.mp hcode : c = ',')
        exact hcomma hc
      have htoks := h.split
      rw [List.splitOn_eq_singleton hplain] at htoks
      have hspan := h.tokens (encode s) (htoks ▸ List.mem_singleton_self _)
      rw [hcodes] at hspan
      exact .inr (.inr hspan)
  · rintro (rfl | rfl | ⟨lo, hi, h⟩)
    · exact .inl rfl
    · exact .inr (.inl rfl)
    · exact .inr (.inr ⟨_, listing_single h⟩)

/-- No white space, no plus sign and at most nine characters in a number. -/
def Strict (s : List Char) : Prop :=
  (∀ c ∈ s, isWhitespace c = false ∧ c ≠ '+') ∧ ∀ part ∈ s.splitOn '-', part.length ≤ 9

theorem splitOn_dash {a b : List Char} (ha : '-' ∉ a) (hb : '-' ∉ b) :
    (a ++ '-' :: b).splitOn '-' = [a, b] := by
  rw [List.splitOn_append_cons_self_of_not_mem ha, List.splitOn_eq_singleton hb]

theorem usize_of_numeral {s : List Char} {v : ℕ} (h : Numeral (s.map Char.toNat) v)
    (hlength : s.length ≤ 9) : Usize s v := by
  constructor
  · have hlt := h.lt
    rw [List.length_map] at hlt
    have hpow : 10 ^ s.length ≤ 10 ^ 9 := Nat.pow_le_pow_right (by decide) hlength
    omega
  · exact ⟨s, .inl rfl, h⟩

theorem numeral_of_usize {s : List Char} {v : ℕ} (h : Usize s v) (hplus : '+' ∉ s) :
    Numeral (s.map Char.toNat) v := by
  obtain ⟨-, digits, rfl | rfl, hdigits⟩ := h
  · exact hdigits
  · exact absurd List.mem_cons_self hplus

theorem blank_eq_nil {s w : List Char} (hs : Strict s) (hsub : ∀ c ∈ w, c ∈ s) (h : Blank w) :
    w = [] := by
  apply List.eq_nil_iff_forall_not_mem.mpr
  intro c hc
  have hblank := h c hc
  rw [(hs.1 c (hsub c hc)).1] at hblank
  cases hblank

theorem strict_chars {n : ℕ} {s : List Char} {lo hi : ℕ}
    (h : Token n (s.map Char.toNat) lo hi) : ∀ c ∈ s, isWhitespace c = false ∧ c ≠ '+' := by
  intro c hc
  have hchar := h.chars _ (List.mem_map_of_mem hc)
  constructor
  · rcases hchar with hdigit | hdash
    · exact not_isWhitespace (.inr hdigit)
    · cases (Char.toNat_inj.mp hdash : c = '-')
      decide
  · rintro rfl
    revert hchar
    decide

theorem spelled_of_token {n : ℕ} {s : List Char} {lo hi : ℕ}
    (h : Token n (s.map Char.toNat) lo hi) : Spelled n s (span lo hi) ∧ Strict s := by
  have hchars := strict_chars h
  generalize hw : s.map Char.toNat = w at h
  cases h with
  | id hv hlength hlt =>
      subst hw
      rw [List.length_map] at hlength
      have hs := usize_of_numeral hv hlength
      constructor
      · have hspelled := Spelled.index blank_nil hs blank_nil hlt
        rwa [List.nil_append, List.append_nil, ← span_self] at hspelled
      · refine ⟨hchars, ?_⟩
        rw [List.splitOn_eq_singleton hs.dash]
        intro part hpart
        rwa [List.mem_singleton.mp hpart]
  | range hlo hlolength hhi hhilength hle hlt =>
      obtain ⟨low, dashed, rfl, rfl, htail⟩ := List.map_eq_append_iff.mp hw
      obtain ⟨dash, high, rfl, hdash, rfl⟩ := List.map_eq_cons_iff.mp htail
      cases (Char.toNat_inj.mp hdash : dash = '-')
      rw [List.length_map] at hlolength hhilength
      have hlow := usize_of_numeral hlo hlolength
      have hhigh := usize_of_numeral hhi hhilength
      constructor
      · have hspelled := Spelled.range blank_nil hlow blank_nil blank_nil hhigh blank_nil hle hlt
        rwa [List.nil_append, List.nil_append, List.nil_append, List.append_nil] at hspelled
      · refine ⟨hchars, ?_⟩
        rw [splitOn_dash hlow.dash hhigh.dash]
        intro part hpart
        rcases List.mem_cons.mp hpart with rfl | hpart
        · exact hlolength
        · rwa [List.mem_singleton.mp hpart]

theorem token_of_spelled {n : ℕ} {s : List Char} {ids : List ℕ} (h : Spelled n s ids)
    (hs : Strict s) : s = "all".toList ∨ s = "none".toList ∨
      ∃ lo hi, Token n (s.map Char.toNat) lo hi := by
  cases h with
  | all hw hw' =>
      rw [blank_eq_nil hs (fun c hc => by simp [hc]) hw,
        blank_eq_nil hs (fun c hc => by simp [hc]) hw']
      exact .inl rfl
  | none hw hw' =>
      rw [blank_eq_nil hs (fun c hc => by simp [hc]) hw,
        blank_eq_nil hs (fun c hc => by simp [hc]) hw']
      exact .inr (.inl rfl)
  | @index w t w' v hw ht hw' hlt =>
      cases blank_eq_nil hs (fun c hc => by simp [hc]) hw
      cases blank_eq_nil hs (fun c hc => by simp [hc]) hw'
      rw [List.nil_append, List.append_nil] at hs ⊢
      have hnumeral := numeral_of_usize ht fun hplus => (hs.1 _ hplus).2 rfl
      have hlength := hs.2
      rw [List.splitOn_eq_singleton ht.dash, List.forall_mem_singleton] at hlength
      refine .inr (.inr ⟨v, v, .id hnumeral ?_ hlt⟩)
      rwa [List.length_map]
  | @range w a x y b w' lo hi hw ha hx hy hb hw' hle hlt =>
      cases blank_eq_nil hs (fun c hc => by simp [hc]) hw
      cases blank_eq_nil hs (fun c hc => by simp [hc]) hx
      cases blank_eq_nil hs (fun c hc => by simp [hc]) hy
      cases blank_eq_nil hs (fun c hc => by simp [hc]) hw'
      rw [List.nil_append, List.nil_append, List.nil_append, List.append_nil] at hs ⊢
      have hlow := numeral_of_usize ha fun hplus => (hs.1 _ (by simp [hplus])).2 rfl
      have hhigh := numeral_of_usize hb fun hplus => (hs.1 _ (by simp [hplus])).2 rfl
      have hlength := hs.2
      rw [splitOn_dash ha.dash hb.dash] at hlength
      refine .inr (.inr ⟨lo, hi, ?_⟩)
      rw [List.map_append, List.map_cons]
      apply Token.range hlow _ hhigh _ hle hlt
      · rw [List.length_map]
        exact hlength a (by simp)
      · rw [List.length_map]
        exact hlength b (by simp)

/-- Both accept the text or neither does, and then they select the same layers. -/
def Agree (debug : List Char → List Char) (spec : List Char) (n : ℕ) : Prop :=
  ((∃ ids, parseLayerSet debug spec n = .ok ids) ↔
    (parseLayerMask (encode spec) n).valid = true) ∧
  ∀ ids, parseLayerSet debug spec n = .ok ids → (parseLayerMask (encode spec) n).valid = true →
    ∀ v, v ∈ ids ↔ v ∈ (parseLayerMask (encode spec) n).resolvedIds n

section Agreement
variable {debug : List Char → List Char} {n : ℕ} {s : List Char} {ids : List ℕ}

theorem spelled_unique {ids' : List ℕ} (h : Spelled n s ids) (h' : Spelled n s ids') :
    ids = ids' := by
  have hids := @parseLayerSet_of_spelled id _ _ _ h
  rw [parseLayerSet_of_spelled h'] at hids
  exact (Except.ok.inj hids).symm

theorem resolvedIds_token {lo hi : ℕ} (hn : 1 ≤ n) (h : Token n (s.map Char.toNat) lo hi)
    (v : ℕ) : v ∈ (parseLayerMask (encode s) n).resolvedIds n ↔ v ∈ span lo hi := by
  have hcodes := @codes_encode s fun c hc => (token_ascii h _ (List.mem_map_of_mem hc)).1
  obtain ⟨ids, hmask, -, hmem⟩ := parseLayerMask_listing hn (listing_single h)
  rw [hmask]
  change v ∈ ids ↔ _
  rw [hmem v]
  constructor
  · intro hlisted
    obtain ⟨tok, htok, lo', hi', hspan, hbounds⟩ := hlisted
    rw [List.mem_singleton.mp htok, hcodes] at hspan
    rw [spelled_unique (spelled_of_token h).1 (spelled_of_token hspan).1]
    exact mem_span.mpr hbounds
  · intro hv
    refine ⟨encode s, List.mem_singleton_self _, lo, hi, ?_, mem_span.mp hv⟩
    rwa [hcodes]

theorem selected_same (hn : 1 ≤ n) (hids : Spelled n s ids)
    (h : s = "all".toList ∨ s = "none".toList ∨ ∃ lo hi, Token n (s.map Char.toNat) lo hi)
    (v : ℕ) : v ∈ ids ↔ v ∈ (parseLayerMask (encode s) n).resolvedIds n := by
  rcases h with rfl | rfl | ⟨lo, hi, hspan⟩
  · have hall := Spelled.all (n := n) blank_nil blank_nil
    rw [spelled_unique hids hall]
    rfl
  · have hnone := Spelled.none (n := n) blank_nil blank_nil
    rw [spelled_unique hids hnone]
    rfl
  · rw [resolvedIds_token hn hspan, spelled_unique hids (spelled_of_token hspan).1]

theorem agree_iff (hn : 1 ≤ n) (hcomma : ',' ∉ s) :
    Agree debug s n ↔ ((∃ ids, Spelled n s ids) → Strict s) := by
  constructor
  · intro h hspelled
    obtain ⟨ids, hids⟩ := hspelled
    have hvalid := h.1.mp ⟨ids, parseLayerSet_of_spelled hids⟩
    rcases (parseLayerMask_plain hn hcomma).mp hvalid with rfl | rfl | ⟨lo, hi, hspan⟩
    · exact ⟨by simp [isWhitespace], by decide⟩
    · exact ⟨by simp [isWhitespace], by decide⟩
    · exact (spelled_of_token hspan).2
  · intro h
    constructor
    · constructor
      · intro hset
        obtain ⟨ids, hids⟩ := hset
        have hspelled := spelled_of_parseLayerSet hids
        exact (parseLayerMask_plain hn hcomma).mpr (token_of_spelled hspelled (h ⟨ids, hspelled⟩))
      · intro hvalid
        rcases (parseLayerMask_plain hn hcomma).mp hvalid with rfl | rfl | ⟨lo, hi, hspan⟩
        · exact ⟨_, parseLayerSet_of_spelled (.all blank_nil blank_nil)⟩
        · exact ⟨_, parseLayerSet_of_spelled (.none blank_nil blank_nil)⟩
        · exact ⟨_, parseLayerSet_of_spelled (spelled_of_token hspan).1⟩
    · intro ids hids hvalid
      exact selected_same hn (spelled_of_parseLayerSet hids)
        ((parseLayerMask_plain hn hcomma).mp hvalid)

end Agreement

/-- The two parsers agree on a text without a comma exactly when it is spelled strictly or is no
selection at all, and the shim accepts the names and the listings, which it reads as the sorted
union of their tokens. -/
theorem selections_exact (debug : List Char → List Char) (n : ℕ) (hn : 1 ≤ n) :
    (∀ spec, ',' ∉ spec →
      (Agree debug spec n ↔ ((∃ ids, Spelled n spec ids) → Strict spec))) ∧
    ∀ w, ((parseLayerMask w n).valid = true ↔
        w = bytes "all" ∨ w = bytes "none" ∨ ∃ toks, Listing n w toks) ∧
      (w = bytes "all" → (parseLayerMask w n).resolvedIds n = List.range n) ∧
      (w = bytes "none" → (parseLayerMask w n).resolvedIds n = []) ∧
      ∀ toks, Listing n w toks → ((parseLayerMask w n).resolvedIds n).Pairwise (· < ·) ∧
        ∀ v, v ∈ (parseLayerMask w n).resolvedIds n ↔ Listed n toks v := by
  constructor
  · intro spec hcomma
    exact agree_iff hn hcomma
  · intro w
    refine ⟨parseLayerMask_valid hn, ?_, ?_, ?_⟩
    · rintro rfl
      rfl
    · rintro rfl
      rfl
    · intro toks h
      obtain ⟨ids, hmask, hsorted, hmem⟩ := parseLayerMask_listing hn h
      rw [hmask]
      exact ⟨hsorted, hmem⟩

theorem selections_four : Agree id "1-2".toList 4 ∧
    ((parseLayerMask (bytes "3,0-1,1") 4).resolvedIds 4).Pairwise (· < ·) := by
  have hexact := selections_exact id 4 (by decide)
  have hstrict : Strict "1-2".toList := ⟨by simp [isWhitespace], by decide⟩
  refine ⟨(hexact.1 _ (by decide)).mpr fun _ => hstrict, ?_⟩
  have hvalid : (parseLayerMask (bytes "3,0-1,1") (4 : ℕ)).valid = true := by decide
  rcases (hexact.2 _).1.mp hvalid with hall | hnone | ⟨toks, htoks⟩
  · revert hall
    decide
  · revert hnone
    decide
  · exact ((hexact.2 _).2.2.2 toks htoks).1

/-- The trainer takes a plus sign before an index and the shim does not. -/
theorem plus_disagrees : ',' ∉ "+3".toList ∧ ¬ Agree id "+3".toList 4 := by
  constructor
  · decide
  · intro h
    have hvalid := h.1.mp ⟨[3], by decide⟩
    revert hvalid
    decide

end SlhaV2.LayerSelections
