import SlhaV2.JsonPrinting

/-!
# Texts that denote a document

A text denotes a document of integers and strings if the grammar derives it and its numbers and
strings have these values. There is one rule for each kind of document; whitespace may stand
wherever the grammar lets it.
-/
namespace SlhaV2.DocumentText
open DecimalText Documents JsonGrammar JsonValue JsonStrings JsonPrinting Utf8Text

/-- The value of a number with no fraction and no exponent. -/
def integerValue (n : Number) : Option ℤ :=
  if n.frac.isNone ∧ n.exp.isNone then
    some (if n.neg then -(digitsValue n.int.chars : ℤ) else digitsValue n.int.chars)
  else none

/-- What the numbers and strings of a tree mean. -/
def meaning (t : Syntax) : Document (Option ℤ) (Option (List Char)) := t.map integerValue decode

def meant (v : Document ℤ String) : Document (Option ℤ) (Option (List Char)) :=
  v.map some fun s => some s.toList

def Denotes (v : Document ℤ String) (b : List UInt8) : Prop :=
  ∃ t s, Value t s ∧ meaning t = meant v ∧ encode s = b

/-- A whole text, with whitespace around its value. -/
def DenotesText (v : Document ℤ String) (b : List UInt8) : Prop :=
  ∃ t s, Text t s ∧ meaning t = meant v ∧ encode s = b

def Spells (k : String) (b : List UInt8) : Prop :=
  ∃ ps, decode ps = some k.toList ∧ encode (stringText ps) = b

def DenotesMember (e : String × Document ℤ String) (b : List UInt8) : Prop :=
  ∃ m s, Member Value m s ∧ (decode m.1, meaning m.2) = (some e.1.toList, meant e.2) ∧
    encode s = b

theorem encode_intercalate (sep : List Char) (ls : List (List Char)) :
    encode (List.intercalate sep ls) = List.intercalate (encode sep) (ls.map encode) := by
  induction ls with
  | nil => rfl
  | cons l ls ih =>
      cases ls with
      | nil => simp [List.intercalate]
      | cons k ls =>
          rw [List.intercalate_cons_cons, encode_append, encode_append, ih]
          simp [List.intercalate_cons_cons]

theorem items_of_forall₂ {α : Type} {item : α → List Char → Prop} {w w' : List Char}
    (hw : Whitespace w) (hw' : Whitespace w') {as : List α} {ss : List (List Char)}
    (h : List.Forall₂ item as ss) (hne : as ≠ []) :
    Items item as (List.intercalate [','] (ss.map (w ++ ·)) ++ w') := by
  have hzip : ∀ e ∈ as.zip ss, item e.1 e.2 := fun e he => List.forall₂_zip h he
  have hlength := h.length_eq
  have hfirst : (as.zip ss).map Prod.fst = as := List.map_fst_zip hlength.le
  have hsecond : (as.zip ss).map (fun e => w ++ e.2) = ss.map (w ++ ·) := by
    conv_rhs => rw [← List.map_snd_zip hlength.ge]
    rw [List.map_map]
    rfl
  have hpairs : as.zip ss ≠ [] := by
    intro hnil
    rw [hnil] at hfirst
    exact hne hfirst.symm
  have hitems := items_intercalate hw hw' hpairs hzip
  rwa [hfirst, hsecond] at hitems

/-- The trees and the texts behind a list of byte strings. -/
theorem exists_items {α β γ : Type} {item : β → List Char → Prop} {f : β → γ} {g : α → γ}
    {as : List α} {bs : List (List UInt8)}
    (h : List.Forall₂ (fun a b => ∃ t s, item t s ∧ f t = g a ∧ encode s = b) as bs) :
    ∃ ts ss, List.Forall₂ item ts ss ∧ ts.map f = as.map g ∧ ss.map encode = bs := by
  induction h with
  | nil => exact ⟨[], [], .nil, rfl, rfl⟩
  | cons hab _ ih =>
      obtain ⟨t, s, hitem, hmeaning, hbytes⟩ := hab
      obtain ⟨ts, ss, hitems, hmeanings, hall⟩ := ih
      refine ⟨t :: ts, s :: ss, .cons hitem hitems, ?_, ?_⟩
      · rw [List.map_cons, List.map_cons, hmeaning, hmeanings]
      · rw [List.map_cons, hbytes, hall]

section Rules
variable {w w' : List Char}

theorem Denotes.bool (b : Bool) :
    Denotes (.bool b) (bytes (if b then "true" else "false")) := by
  refine ⟨.bool b, if b then ['t', 'r', 'u', 'e'] else ['f', 'a', 'l', 's', 'e'], ?_, ?_, ?_⟩
  · cases b with
    | true => exact Value.true
    | false => exact Value.false
  · simp [meaning, meant, Document.map]
  · cases b <;> rfl

/-- An integer is written as its decimal digits, with a sign if it is negative. -/
theorem Denotes.int (i : ℤ) : Denotes (.num i) (encode (writeInt i)) := by
  have hdigits : (digitsValue (Nat.toDigits 10 i.natAbs) : ℤ) = |i| := by
    rw [digitsValue_toDigits, Int.natCast_natAbs]
  refine ⟨.num ⟨decide (i < 0), decimalDigits i.natAbs, decimalDigits_leading _, none, none⟩,
    writeInt i, ?_, ?_, rfl⟩
  · have hvalue := Value.num ⟨decide (i < 0), decimalDigits i.natAbs,
      decimalDigits_leading _, none, none⟩
    have htext : Number.text ⟨decide (i < 0), decimalDigits i.natAbs,
        decimalDigits_leading _, none, none⟩ = writeInt i := by
      simp [Number.text, signText, fractionText, exponentText, writeInt, decimalDigits]
    rwa [htext] at hvalue
  · have hvalue : (if i < 0 then -(digitsValue (Nat.toDigits 10 i.natAbs) : ℤ)
        else digitsValue (Nat.toDigits 10 i.natAbs)) = i := by
      rw [hdigits]
      split_ifs with hneg
      · rw [abs_of_neg hneg, neg_neg]
      · exact abs_of_nonneg (not_lt.mp hneg)
    simpa [meaning, meant, Document.map, integerValue, decimalDigits] using hvalue

theorem Spells.denotes {k : String} {b : List UInt8} (h : Spells k b) : Denotes (.str k) b := by
  obtain ⟨ps, hdecode, hb⟩ := h
  exact ⟨.str ps, stringText ps, .str ps, by simp [meaning, meant, Document.map, hdecode], hb⟩

/-- A member is its name, a colon and its value. -/
theorem Spells.member {k : String} {v : Document ℤ String} {a b : List UInt8} (h : Spells k a)
    (hv : Denotes v b) (hw : Whitespace w) (hw' : Whitespace w') :
    DenotesMember (k, v) (a ++ (encode w ++ (bytes ":" ++ (encode w' ++ b)))) := by
  obtain ⟨ps, hdecode, ha⟩ := h
  obtain ⟨t, s, hvalue, hmeaning, hb⟩ := hv
  refine ⟨(ps, t), _, .mk hw hw' hvalue, by rw [hdecode, hmeaning], ?_⟩
  rw [encode_append, encode_append, encode_cons, encode_append, ha, hb]
  rfl

theorem Denotes.emptyArr (hw : Whitespace w) :
    Denotes (.arr []) (bytes "[" ++ (encode w ++ bytes "]")) := by
  refine ⟨.arr [], _, .emptyArr hw, by simp [meaning, meant, Document.map], ?_⟩
  rw [encode_cons, encode_append]
  rfl

theorem encode_items (ss : List (List Char)) (l r : Char) :
    encode (l :: (List.intercalate [','] (ss.map (w ++ ·)) ++ w' ++ [r])) =
      encode [l] ++ (List.intercalate (bytes ",") ((ss.map encode).map (encode w ++ ·)) ++
        (encode w' ++ encode [r])) := by
  have hmap : encode ∘ (w ++ ·) = (encode w ++ ·) ∘ encode := funext fun s => encode_append w s
  rw [← List.singleton_append, encode_append, encode_append, encode_append, encode_intercalate,
    List.map_map, List.map_map, List.append_assoc, hmap]
  rfl

theorem Denotes.arr {vs : List (Document ℤ String)} {bs : List (List UInt8)}
    (h : List.Forall₂ Denotes vs bs) (hne : vs ≠ []) (hw : Whitespace w) (hw' : Whitespace w') :
    Denotes (.arr vs)
      (bytes "[" ++ (List.intercalate (bytes ",") (bs.map (encode w ++ ·)) ++
        (encode w' ++ bytes "]"))) := by
  obtain ⟨ts, ss, hitems, hmeanings, rfl⟩ := exists_items h
  have hne' : ts ≠ [] := by
    rintro rfl
    exact hne (List.map_eq_nil_iff.mp hmeanings.symm)
  refine ⟨.arr ts, _, .arr (items_of_forall₂ hw hw' hitems hne'), ?_, ?_⟩
  · rw [meaning, meant, Document.map, Document.map]
    exact congrArg Document.arr hmeanings
  · exact encode_items ss '[' ']'

theorem Denotes.obj {es : List (String × Document ℤ String)} {bs : List (List UInt8)}
    (h : List.Forall₂ DenotesMember es bs) (hne : es ≠ []) (hw : Whitespace w)
    (hw' : Whitespace w') :
    Denotes (.obj es)
      (bytes "\x7b" ++ (List.intercalate (bytes ",") (bs.map (encode w ++ ·)) ++
        (encode w' ++ bytes "\x7d"))) := by
  obtain ⟨ms, ss, hitems, hmeanings, rfl⟩ := exists_items h
  have hne' : ms ≠ [] := by
    rintro rfl
    exact hne (List.map_eq_nil_iff.mp hmeanings.symm)
  refine ⟨.obj ms, _, .obj (items_of_forall₂ hw hw' hitems hne'), ?_, ?_⟩
  · rw [meaning, meant, Document.map_obj, Document.map_obj]
    exact congrArg Document.obj hmeanings
  · exact encode_items ss '{' '}'

end Rules

/-- The structural characters. -/
def marks : List Char := ['[', ']', '{', '}', ',', ':']

/-- A property of texts that holds of the parts of every text of the grammar. -/
structure OfParts (P : List Char → Prop) : Prop where
  nil : P []
  append {cs ds : List Char} : P cs → P ds → P (cs ++ ds)
  space {c : Char} : isWhitespace c = true → P [c]
  mark {c : Char} : c ∈ marks → P [c]
  word {w : String} : w ∈ ["null", "true", "false"] → P w.toList
  number (n : Number) : P n.text
  string (ps : List Piece) : P (stringText ps)

namespace OfParts
variable {P : List Char → Prop}

theorem cons (h : OfParts P) {c : Char} {cs : List Char} (hc : c ∈ marks) (hcs : P cs) :
    P (c :: cs) :=
  h.append (h.mark hc) hcs

theorem whitespace (h : OfParts P) {w : List Char} (hw : Whitespace w) : P w := by
  induction w with
  | nil => exact h.nil
  | cons c w ih =>
      have hrest := ih fun d hd => hw d (List.mem_cons_of_mem c hd)
      exact h.append (h.space (hw c List.mem_cons_self)) hrest

theorem items (h : OfParts P) {α : Type} {item : α → List Char → Prop} {as : List α}
    {s : List Char} (hitem : ∀ a ∈ as, ∀ s, item a s → P s) (hs : Items item as s) : P s := by
  induction hs with
  | one hw ha hw' =>
      exact h.append (h.whitespace hw)
        (h.append (hitem _ List.mem_cons_self _ ha) (h.whitespace hw'))
  | cons hw ha hw' _ ih =>
      have hrest := ih fun a ha => hitem a (List.mem_cons_of_mem _ ha)
      exact h.append (h.whitespace hw) (h.append (hitem _ List.mem_cons_self _ ha)
        (h.append (h.whitespace hw') (h.cons (by decide) hrest)))

theorem value (h : OfParts P) {t : Syntax} {s : List Char} (hs : Value t s) : P s := by
  induction t using Document.induct generalizing s with
  | null =>
      cases hs
      exact h.word (w := "null") (by decide)
  | bool b =>
      cases hs with
      | true => exact h.word (w := "true") (by decide)
      | false => exact h.word (w := "false") (by decide)
  | num n =>
      cases hs
      exact h.number n
  | str ps =>
      cases hs
      exact h.string ps
  | arr a ih =>
      have hclose : P [']'] := h.mark (by decide)
      cases hs with
      | emptyArr hw => exact h.cons (by decide) (h.append (h.whitespace hw) hclose)
      | arr hitems =>
          have hparts := h.items (fun v hv s hs => ih v hv hs) hitems
          exact h.cons (by decide) (h.append hparts hclose)
  | obj m ih =>
      have hclose : P ['}'] := h.mark (by decide)
      cases hs with
      | emptyObj hw => exact h.cons (by decide) (h.append (h.whitespace hw) hclose)
      | obj hitems =>
          have hmember : ∀ e ∈ m, ∀ s, Member Value e s → P s := by
            intro e he s hs
            cases hs with
            | mk hw hw' hvalue =>
                have hrest := h.append (h.whitespace hw') (ih _ he hvalue)
                exact h.append (h.string _)
                  (h.append (h.whitespace hw) (h.cons (by decide) hrest))
          exact h.cons (by decide) (h.append (h.items hmember hitems) hclose)

theorem text (h : OfParts P) {t : Syntax} {s : List Char} (hs : Text t s) : P s := by
  obtain ⟨w, s', w', hw, hvalue, hw', rfl⟩ := hs
  exact h.append (h.whitespace hw) (h.append (h.value hvalue) (h.whitespace hw'))

end OfParts

end SlhaV2.DocumentText
