import SlhaV2.ScaleLayers

/-!
# Scale files

A scale file is an object with at most a member for all layers and a member with the layers. Of
such an object the reader takes exactly the scales, in whichever order the members stand. Any other
text that it accepts spells the scales that are taken.
-/
namespace SlhaV2.ScaleFiles
open DecimalNumerals DecimalText Documents ExactValues Utf8Text LayerMasks OrderedMap JsonGrammar
open ScoreScale ScaleNumbers ScaleSearch ScaleLayers

/-- The text of the value behind a name is a scale exactly if the value is a positive number. -/
theorem globalText_member (json : Bytes) {more : Bytes} {v : Syntax} {w w' t : List Char}
    (hw : Whitespace w) (hw' : Whitespace w') (ht : Value v t)
    (hmore : ∀ b ∈ more.head?, isStop b = true) :
    ∃ tok, globalText json (quoted (bytes "global") ++
        (encode w ++ 58 :: (encode w' ++ (encode t ++ more)))) = some tok ∧
      ∀ g, parsePosDouble tok = some g ↔
        ∃ x : Number, v = .num x ∧ Positive x.toFloat ∧ g = x.toFloat := by
  have hcolon : 58 ∉ quoted (bytes "global") ++ encode w := fun hin =>
    (List.mem_append.mp hin).elim (by decide) (notMem_blanks hw).2.1
  have hafter : after 58 (quoted (bytes "global") ++
      (encode w ++ 58 :: (encode w' ++ (encode t ++ more)))) =
        some (encode w' ++ (encode t ++ more)) := by
    rw [← List.append_assoc]
    exact after_append hcolon _
  unfold globalText
  rw [hafter, Option.getD_some]
  rcases value_text ht with ⟨x, rfl, rfl⟩ | ⟨hother, c, hc, r, rfl⟩
  · refine ⟨_, (valueText_append (encode_blanks hw') (number_ne_nil x)
      (fun b hb => (numberByte_of_mem hb).stop) hmore).1, fun g => ?_⟩
    rw [parsePosDouble_number]
    constructor
    · rintro ⟨hg, hx⟩
      exact ⟨x, rfl, hx, hg⟩
    · rintro ⟨y, hy, hx, hg⟩
      cases hy
      exact ⟨hg, hx⟩
  · have hfirst := parsePosDouble_other hc
    rw [encode_cons_ascii (hfirst []).1, List.cons_append]
    obtain ⟨u, hu⟩ : ∃ u, valueText (encode w' ++ byte c :: (encode r ++ more)) =
        some (byte c :: u) := valueText_cons (encode_blanks hw') (hfirst []).2.1
    refine ⟨_, hu, fun g => ?_⟩
    rw [(hfirst u).2.2.2]
    constructor
    · exact nofun
    · rintro ⟨x, hx, _⟩
      exact absurd hx (hother x)

/-- In a text that ends with a brace, a value is found wherever it is sought. -/
theorem globalText_closed {json keyed v : Bytes} {w : List Char} (hw : Whitespace w)
    (hjson : json = v ++ 125 :: encode w) (hkeyed : keyed <:+ json) :
    ∃ tok, globalText json keyed = some tok := by
  unfold globalText
  cases hcolon : after 58 keyed with
  | none =>
      rw [Option.getD_none]
      refine valueText_of_mem (b := 125) ?_ (by decide)
      rw [hjson]
      exact List.mem_append_right v List.mem_cons_self
  | some u =>
      rw [Option.getD_some]
      refine valueText_of_mem (b := 125) ?_ (by decide)
      have hbehind : 58 :: u <:+ json :=
        List.IsSuffix.trans ⟨_, (after_eq_some hcolon).symm⟩ hkeyed
      have hclose : 125 :: encode w <:+ json := ⟨v, hjson.symm⟩
      rcases List.suffix_or_suffix_of_suffix hbehind hclose with h | h
      · rcases List.suffix_cons_iff.mp h with heq | h
        · exact absurd (List.cons.inj heq).1 (by decide)
        · exact absurd (h.subset List.mem_cons_self) (notMem_blanks hw).2.1
      · rcases List.suffix_cons_iff.mp h with heq | h
        · exact absurd (List.cons.inj heq).1 (by decide)
        · exact h.subset List.mem_cons_self

/-- The scale for all layers. -/
def GlobalScale (g : Option Syntax) (x : Float) : Prop :=
  (g = none → x = 1) ∧ ∀ v ∈ g, ∃ y : Number, v = .num y ∧ Positive y.toFloat ∧ x = y.toFloat

/-- The scales that a file gives, with or without a member for all layers and one with layers. -/
structure Scales (n : ℤ) (g : Option Syntax) (ls : Option (List (List Piece × Syntax)))
    (m : ScaleMap) : Prop where
  global : GlobalScale g m.global
  noLayers : ls = none → m.mode = .global ∧ m.perLayer.entries = []
  layers : ∀ es ∈ ls, m.mode = .perLayer ∧ LayerScales n es m.perLayer

/-- The members of a scale file in either order, their names written without escapes. -/
inductive Shape : Option Syntax → Option (List (List Piece × Syntax)) →
    List (List Piece × Syntax) → Prop
  | neither : Shape none none []
  | global {k : List Piece} {v : Syntax} :
      spelling k = "global".toList → Shape (some v) none [(k, v)]
  | layers {k : List Piece} {es : List (List Piece × Syntax)} :
      spelling k = "layers".toList → Shape none (some es) [(k, .obj es)]
  | globalFirst {k k' : List Piece} {v : Syntax} {es : List (List Piece × Syntax)} :
      spelling k = "global".toList → spelling k' = "layers".toList →
        Shape (some v) (some es) [(k, v), (k', .obj es)]
  | layersFirst {k k' : List Piece} {v : Syntax} {es : List (List Piece × Syntax)} :
      spelling k = "global".toList → spelling k' = "layers".toList →
        Shape (some v) (some es) [(k', .obj es), (k, v)]

/-- The reader answers, and takes the scales of the file exactly if it gives any. -/
def Taken (n : ℤ) (g : Option Syntax) (ls : Option (List (List Piece × Syntax)))
    (r : Option ScaleMap) : Prop :=
  ∃ m, r = some m ∧ (m.valid = true → Scales n g ls m) ∧
    (m.valid = false → ∀ m', ¬ Scales n g ls m')

/-- The map before the first member. -/
def start (json : Bytes) : ScaleMap :=
  { ScaleMap.initial with source := bytes "file", spec := json }

section Reading
variable {n : ℤ} {g : Option Syntax} {ls : Option (List (List Piece × Syntax))} {x : Float}
  {json keyed tok : Bytes}

theorem parseScaleFile_none (h : find (quoted (bytes "global")) json = none) :
    parseScaleFile json n = parseLayers n 1 json (start json) := by
  unfold parseScaleFile
  rw [bytes_global, h]
  rfl

theorem parseScaleFile_some (h : find (quoted (bytes "global")) json = some keyed)
    (htok : globalText json keyed = some tok) :
    (∃ x, parsePosDouble tok = some x ∧
        parseScaleFile json n = parseLayers n x json (start json)) ∨
      parsePosDouble tok = none ∧ ∃ m, parseScaleFile json n = some m ∧ m.valid = false := by
  unfold parseScaleFile
  rw [bytes_global, h]
  dsimp only
  rw [htok]
  dsimp only
  cases hx : parsePosDouble tok with
  | none => exact .inr ⟨rfl, _, rfl, rfl⟩
  | some x => exact .inl ⟨x, rfl, rfl⟩

theorem taken_refused {r : Option ScaleMap} (hr : ∃ m, r = some m ∧ m.valid = false)
    (h : ∀ m, ¬ Scales n g ls m) : Taken n g ls r := by
  obtain ⟨m, hm, hvalid⟩ := hr
  exact ⟨m, hm, fun htrue => absurd (htrue.symm.trans hvalid) nofun, fun _ => h⟩

theorem taken_global (hx : GlobalScale g x) (h : find (quoted (bytes "layers")) json = none) :
    Taken n g none (parseLayers n x json (start json)) := by
  rw [parseLayers_none h]
  refine ⟨_, rfl, fun _ => ⟨hx, fun _ => ⟨rfl, rfl⟩, nofun⟩, nofun⟩

variable {es : List (List Piece × Syntax)} {w w' t : List Char} {rest : Bytes}

theorem taken_layers (hx : GlobalScale g x) (hw : Whitespace w) (hw' : Whitespace w')
    (ht : Value (.obj es) t) (hplain : ∀ e ∈ es, '\\' ∉ spelling e.1)
    (hfind : find (quoted (bytes "layers")) json = some (quoted (bytes "layers") ++
      (encode w ++ 58 :: (encode w' ++ (encode t ++ rest))))) :
    Taken n g (some es) (parseLayers n x json (start json)) := by
  rcases parseLayers_object (n := n) (g := x) (m := start json) hw hw' ht hplain hfind rfl with
    ⟨t', hne, hadds, heq⟩ | ⟨⟨m', heq, hvalid⟩, hnone⟩
  · refine ⟨_, heq, fun _ => ⟨hx, nofun, fun es' hes' => ?_⟩, nofun⟩
    cases hes'
    exact ⟨rfl, hadds.layerScales hne⟩
  · refine taken_refused ⟨m', heq, hvalid⟩ fun m hm => ?_
    obtain ⟨_, hscales⟩ := hm.layers es rfl
    obtain ⟨t', hadds⟩ := hscales.adds
    exact hnone.elim hscales.nonempty fun h => h t' hadds

end Reading

theorem member_bytes {k : List Piece} {v : Syntax} {s : List Char}
    (h : Member Value (k, v) s) :
    ∃ w w' t, Whitespace w ∧ Whitespace w' ∧ Value v t ∧
      encode s = quoted (encode (spelling k)) ++ (encode w ++ 58 :: (encode w' ++ encode t)) := by
  cases h with
  | mk hw hw' hv => exact ⟨_, _, _, hw, hw', hv, encode_member _ _ _ _⟩

theorem named_bytes {name : String} {k : List Piece} {v : Syntax} {s : List Char}
    (h : Member Value (k, v) s) (hk : spelling k = name.toList) :
    ∃ w w' t, Whitespace w ∧ Whitespace w' ∧ Value v t ∧
      encode s = quoted (bytes name) ++ (encode w ++ 58 :: (encode w' ++ encode t)) := by
  obtain ⟨w, w', t, hw, hw', ht, hs⟩ := member_bytes h
  rw [hk] at hs
  exact ⟨w, w', t, hw, hw', ht, hs⟩

/-- A byte between blanks. -/
def Spaced (b : UInt8) (z : Bytes) : Prop :=
  ∃ w w', Whitespace w ∧ Whitespace w' ∧ z = encode w ++ b :: encode w'

theorem Spaced.quote {b : UInt8} {z : Bytes} (h : Spaced b z) (hb : b ≠ 34) : 34 ∉ z := by
  obtain ⟨w, w', hw, hw', rfl⟩ := h
  simp only [List.mem_append, List.mem_cons, not_or]
  exact ⟨(notMem_blanks hw).1, hb.symm, (notMem_blanks hw').1⟩

theorem Spaced.stop {b : UInt8} {z : Bytes} (h : Spaced b z) (hb : isStop b = true) (u : Bytes) :
    ∀ c ∈ (z ++ u).head?, isStop c = true := by
  obtain ⟨w, w', hw, _, rfl⟩ := h
  rw [List.append_assoc, List.cons_append]
  refine head_blanks hw fun c hc => ?_
  cases hc
  exact hb

theorem Spaced.stop_end {z : Bytes} (h : Spaced 125 z) : ∀ c ∈ z.head?, isStop c = true := by
  have hstop := h.stop (by decide) []
  rwa [List.append_nil] at hstop

/-- The text of an object: braces between blanks, and what stands between them. -/
theorem text_object {ms : List (List Piece × Syntax)} {cs : List Char}
    (h : Text (.obj ms) cs) :
    ∃ w t w', Whitespace w ∧ Whitespace w' ∧
      (ms = [] ∧ Whitespace t ∨ Items (Member Value) ms t) ∧
      encode cs = encode w ++ 123 :: (encode t ++ 125 :: encode w') := by
  obtain ⟨w, t, w', hw, ht, hw', rfl⟩ := h
  cases ht with
  | emptyObj hv =>
      refine ⟨w, _, w', hw, hw', .inl ⟨rfl, hv⟩, ?_⟩
      rw [encode_append, encode_append, encode_braces]
  | obj hv =>
      refine ⟨w, _, w', hw, hw', .inr hv, ?_⟩
      rw [encode_append, encode_append, encode_braces]

theorem items_single {e : List Piece × Syntax} {t : List Char}
    (h : Items (Member Value) [e] t) :
    ∃ w s w', Whitespace w ∧ Member Value e s ∧ Whitespace w' ∧ t = w ++ (s ++ w') := by
  cases h with
  | one hw hs hw' => exact ⟨_, _, _, hw, hs, hw', rfl⟩
  | cons _ _ _ hr => cases hr

theorem items_cons {e e' : List Piece × Syntax} {es : List (List Piece × Syntax)} {t : List Char}
    (h : Items (Member Value) (e :: e' :: es) t) :
    ∃ w s w' r, Whitespace w ∧ Member Value e s ∧ Whitespace w' ∧
      Items (Member Value) (e' :: es) r ∧ t = w ++ (s ++ (w' ++ ',' :: r)) := by
  cases h with
  | cons hw hs hw' hr => exact ⟨_, _, _, _, hw, hs, hw', hr, rfl⟩

theorem quote_opening {w v : List Char} (hw : Whitespace w) (hv : Whitespace v) :
    34 ∉ encode w ++ 123 :: encode v :=
  Spaced.quote ⟨w, v, hw, hv, rfl⟩ (by decide)

theorem text_single {e : List Piece × Syntax} {cs : List Char} (h : Text (.obj [e]) cs) :
    ∃ a s z, 34 ∉ a ∧ Member Value e s ∧ Spaced 125 z ∧ encode cs = a ++ (encode s ++ z) := by
  obtain ⟨w, t, w', hw, hw', ⟨hnil, _⟩ | hitems, hcs⟩ := text_object h
  · cases hnil
  · obtain ⟨v, s, v', hv, hs, hv', rfl⟩ := items_single hitems
    refine ⟨encode w ++ 123 :: encode v, s, encode v' ++ 125 :: encode w', quote_opening hw hv, hs,
      ⟨v', w', hv', hw', rfl⟩, ?_⟩
    rw [hcs]
    simp only [encode_append, List.append_assoc, List.cons_append]

theorem text_pair {e e' : List Piece × Syntax} {cs : List Char} (h : Text (.obj [e, e']) cs) :
    ∃ a s c s' z, 34 ∉ a ∧ Member Value e s ∧ Spaced 44 c ∧ Member Value e' s' ∧ Spaced 125 z ∧
      encode cs = a ++ (encode s ++ (c ++ (encode s' ++ z))) := by
  obtain ⟨w, t, w', hw, hw', ⟨hnil, _⟩ | hitems, hcs⟩ := text_object h
  · cases hnil
  · obtain ⟨v, s, v', r, hv, hs, hv', hr, rfl⟩ := items_cons hitems
    obtain ⟨u, s', u', hu, hs', hu', rfl⟩ := items_single hr
    refine ⟨encode w ++ 123 :: encode v, s, encode v' ++ 44 :: encode u, s',
      encode u' ++ 125 :: encode w', quote_opening hw hv, hs, ⟨v', u, hv', hu, rfl⟩, hs',
      ⟨u', w', hu', hw', rfl⟩, ?_⟩
    have hcomma : ∀ r, encode (',' :: r) = 44 :: encode r := encode_cons_ascii (by decide)
    rw [hcs]
    simp only [encode_append, hcomma, List.append_assoc, List.cons_append]

section Skipped
variable {name : Bytes} (hname : 34 ∉ name)
  (hhead : ∀ b, isBlank b = true ∨ b = 58 → b ∉ name.head?)
include hname hhead

theorem skips_member_number {k : List Piece} {v : Syntax} {s : List Char}
    (h : Member Value (k, v) s) (hplain : '\\' ∉ spelling k)
    (hne : encode (spelling k) ≠ name) (hv : ∃ x, v = .num x) :
    Skips (quoted name) (encode s) := by
  obtain ⟨x, rfl⟩ := hv
  obtain ⟨w, w', t, hw, hw', ht, hs⟩ := member_bytes h
  cases ht with
  | num =>
      rw [hs]
      exact skips_member hname hhead (quote_notMem hplain) hne hw hw'
        (skips_of_notMem (notMem_number x).1 _)

theorem skips_items {es : List (List Piece × Syntax)} {t : List Char}
    (h : Items (Member Value) es t)
    (hes : ∀ e ∈ es, '\\' ∉ spelling e.1 ∧ encode (spelling e.1) ≠ name ∧ ∃ x, e.2 = .num x) :
    Skips (quoted name) (encode t) := by
  have hblank : ∀ {w : List Char}, Whitespace w → Skips (quoted name) (encode w) := fun hw =>
    skips_of_notMem (notMem_blanks hw).1 _
  induction h with
  | @one e w s w' hw hs hw' =>
      obtain ⟨k, v⟩ := e
      obtain ⟨hplain, hne, hv⟩ := hes _ List.mem_cons_self
      rw [encode_append, encode_append]
      have hmember := skips_member_number hname hhead hs hplain hne hv
      exact (hblank hw).append (hmember.append (hblank hw'))
  | @cons e es w s w' r hw hs hw' _ ih =>
      obtain ⟨k, v⟩ := e
      obtain ⟨⟨hplain, hne, hv⟩, hrest⟩ := List.forall_mem_cons.mp hes
      have hcomma : encode (',' :: r) = [44] ++ encode r := encode_cons_ascii (by decide) r
      rw [encode_append, encode_append, encode_append, hcomma]
      have hmember := skips_member_number hname hhead hs hplain hne hv
      have hbehind : Skips (quoted name) [44] := skips_of_notMem (by decide) _
      exact (hblank hw).append (hmember.append ((hblank hw').append (hbehind.append (ih hrest))))

theorem skips_object {es : List (List Piece × Syntax)} {t : List Char} (h : Value (.obj es) t)
    (hes : ∀ e ∈ es, '\\' ∉ spelling e.1 ∧ encode (spelling e.1) ≠ name ∧ ∃ x, e.2 = .num x) :
    Skips (quoted name) (encode t) := by
  have hbraces : ∀ v, Skips (quoted name) (encode v) →
      Skips (quoted name) (encode ('\x7b' :: (v ++ ['\x7d']))) := by
    intro v hv
    have hopen : Skips (quoted name) [123] := skips_of_notMem (by decide) _
    have hclose : Skips (quoted name) [125] := skips_of_notMem (by decide) _
    have htext := encode_braces v []
    rw [List.append_nil] at htext
    rw [htext]
    exact hopen.append (hv.append hclose)
  cases h with
  | emptyObj hv => exact hbraces _ (skips_of_notMem (notMem_blanks hv).1 _)
  | obj hv => exact hbraces _ (skips_items hname hhead hv hes)

end Skipped

theorem head_global (b : UInt8) (h : isBlank b = true ∨ b = 58) :
    b ∉ (bytes "global").head? := by
  revert b
  decide +kernel

theorem head_layers (b : UInt8) (h : isBlank b = true ∨ b = 58) :
    b ∉ (bytes "layers").head? := by
  revert b
  decide +kernel

theorem skips_global {k : List Piece} {v : Syntax} {s : List Char}
    (hs : Member Value (k, v) s) (hk : spelling k = "global".toList) (hv : ∃ x, v = .num x) :
    Skips (quoted (bytes "layers")) (encode s) := by
  refine skips_member_number (by decide) head_layers hs ?_ ?_ hv
  · rw [hk]
    decide
  · rw [hk]
    decide

theorem names_ne_global {n : ℤ} {e : List Piece × Syntax} {s : ℤ × Float} (h : Names n e s) :
    encode (spelling e.1) ≠ bytes "global" := by
  intro heq
  obtain ⟨lid, hid, _⟩ := h.id
  have hin : (103 : UInt8) ∈ encode (spelling e.1) := heq ▸ by decide
  exact absurd (hid.digits _ (mem_codes.mpr hin)) (by decide)

/-- Layers whose scales are all taken hold no piece that looks like the other member. -/
theorem skips_layers {n : ℤ} {k : List Piece} {es : List (List Piece × Syntax)} {s : List Char}
    {t t' : Table ℤ Float} (hs : Member Value (k, .obj es) s)
    (hk : spelling k = "layers".toList) (h : Adds n es t t')
    (hplain : ∀ e ∈ es, '\\' ∉ spelling e.1) : Skips (quoted (bytes "global")) (encode s) := by
  obtain ⟨w, w', u, hw, hw', hu, hbytes⟩ := named_bytes hs hk
  rw [hbytes]
  refine skips_member (by decide) head_global (by decide) (by decide) hw hw'
    (skips_object (by decide) head_global hu fun e he => ?_)
  obtain ⟨s, hs⟩ := h.names e he
  obtain ⟨x, hx, _⟩ := hs.scale
  exact ⟨hplain e he, names_ne_global hs, x, hx⟩

section Objects
variable {n : ℤ} {ls : Option (List (List Piece × Syntax))} {es : List (List Piece × Syntax)}
  {v : Syntax} {w w' t : List Char} {json more : Bytes}

/-- A member is found behind a text without its name. -/
theorem find_member {name a : Bytes} {s : List Char} (ha : Skips (quoted name) a)
    (hs : encode s = quoted name ++ (encode w ++ 58 :: (encode w' ++ encode t))) (u : Bytes) :
    find (quoted name) (a ++ (encode s ++ u)) =
      some (quoted name ++ (encode w ++ 58 :: (encode w' ++ (encode t ++ u)))) := by
  rw [ha, find_front]
  · rw [hs]
    simp only [List.append_assoc, List.cons_append]
  · rw [hs, List.append_assoc]
    exact List.prefix_append _ _

/-- The member for all layers is found at its own place. -/
theorem taken_found (hw : Whitespace w) (hw' : Whitespace w') (ht : Value v t)
    (hmore : ∀ b ∈ more.head?, isStop b = true)
    (hfind : find (quoted (bytes "global")) json = some (quoted (bytes "global") ++
      (encode w ++ 58 :: (encode w' ++ (encode t ++ more)))))
    (hlayers : ∀ x, GlobalScale (some v) x → (∃ y, v = .num y) →
      Taken n (some v) ls (parseLayers n x json (start json))) :
    Taken n (some v) ls (parseScaleFile json n) := by
  obtain ⟨tok, htok, hscale⟩ := globalText_member json hw hw' ht hmore
  rcases parseScaleFile_some (n := n) hfind htok with ⟨x, hx, hread⟩ | ⟨hnone, hrefused⟩
  · obtain ⟨y, hy, hpositive, hxy⟩ := (hscale x).mp hx
    rw [hread]
    refine hlayers x ⟨nofun, fun u hu => ?_⟩ ⟨y, hy⟩
    cases hu
    exact ⟨y, hy, hpositive, hxy⟩
  · refine taken_refused hrefused fun m hm => ?_
    obtain ⟨y, hy, hpositive, hxy⟩ := hm.global.2 v rfl
    rw [(hscale m.global).mpr ⟨y, hy, hpositive, hxy⟩] at hnone
    cases hnone

/-- Layers with a scale that cannot be taken refuse the file, whatever else is found in it. -/
theorem taken_without_adds (hw : Whitespace w) (hw' : Whitespace w') (ht : Value (.obj es) t)
    (hplain : ∀ e ∈ es, '\\' ∉ spelling e.1)
    (hfind : find (quoted (bytes "layers")) json = some (quoted (bytes "layers") ++
      (encode w ++ 58 :: (encode w' ++ (encode t ++ more)))))
    (hjson : ∃ u z, Spaced 125 z ∧ json = u ++ z) (hno : ∀ t', ¬ Adds n es .empty t')
    (g : Option Syntax) : Taken n g (some es) (parseScaleFile json n) := by
  have hlayers : ∀ x, ∃ m, parseLayers n x json (start json) = some m ∧ m.valid = false := by
    intro x
    rcases parseLayers_object (n := n) (g := x) (m := start json) hw hw' ht hplain hfind rfl with
      ⟨t', _, hadds, _⟩ | ⟨hrefused, _⟩
    · exact absurd hadds (hno t')
    · exact hrefused
  apply taken_refused
  · cases hglobal : find (quoted (bytes "global")) json with
    | none =>
        rw [parseScaleFile_none hglobal]
        exact hlayers 1
    | some keyed =>
        obtain ⟨u, z, ⟨v, v', _, hv', hz⟩, hu⟩ := hjson
        rw [hz, ← List.append_assoc] at hu
        obtain ⟨tok, htok⟩ := globalText_closed hv' hu (find_suffix hglobal)
        rcases parseScaleFile_some (n := n) hglobal htok with ⟨x, _, hread⟩ | ⟨_, hrefused⟩
        · rw [hread]
          exact hlayers x
        · exact hrefused
  · intro m hm
    obtain ⟨t', hadds⟩ := (hm.layers es rfl).2.adds
    exact hno t' hadds

end Objects

/-- Of the members of a scale file exactly the scales are taken. -/
theorem taken_scaleFile {n : ℤ} {g : Option Syntax} {ls : Option (List (List Piece × Syntax))}
    {ms : List (List Piece × Syntax)} {cs : List Char} (hshape : Shape g ls ms)
    (hplain : ∀ es ∈ ls, ∀ e ∈ es, '\\' ∉ spelling e.1) (htext : Text (.obj ms) cs) :
    Taken n g ls (parseScaleFile (encode cs) n) := by
  cases hshape with
  | neither =>
      obtain ⟨w, t, w', hw, hw', ⟨_, ht⟩ | hitems, hcs⟩ := text_object htext
      · have hfree : 34 ∉ encode cs := by
          rw [hcs]
          simp only [List.mem_append, List.mem_cons, not_or]
          exact ⟨(notMem_blanks hw).1, by decide, (notMem_blanks ht).1, by decide,
            (notMem_blanks hw').1⟩
        rw [parseScaleFile_none (skips_of_notMem hfree _).find_eq_none]
        exact taken_global ⟨fun _ => rfl, nofun⟩ (skips_of_notMem hfree _).find_eq_none
      · cases hitems
  | global hk =>
      obtain ⟨a, s, z, ha, hs, hz, hcs⟩ := text_single htext
      obtain ⟨w, w', t, hw, hw', ht, hbytes⟩ := named_bytes hs hk
      have hbefore : Skips (quoted (bytes "global")) a := skips_of_notMem ha _
      rw [hcs]
      refine taken_found hw hw' ht hz.stop_end (find_member hbefore hbytes z) fun x hx hy => ?_
      have ha' : Skips (quoted (bytes "layers")) a := skips_of_notMem ha _
      have hz' : Skips (quoted (bytes "layers")) z := skips_of_notMem (hz.quote (by decide)) _
      exact taken_global hx (ha'.append ((skips_global hs hk hy).append hz')).find_eq_none
  | @layers k es hk =>
      obtain ⟨a, s, z, ha, hs, hz, hcs⟩ := text_single htext
      obtain ⟨w, w', t, hw, hw', ht, hbytes⟩ := named_bytes hs hk
      have hbefore : Skips (quoted (bytes "layers")) a := skips_of_notMem ha _
      have hfound := find_member hbefore hbytes z
      rw [hcs]
      by_cases hadds : ∃ t', Adds n es .empty t'
      · obtain ⟨t', hadds⟩ := hadds
        have ha' : Skips (quoted (bytes "global")) a := skips_of_notMem ha _
        have hz' : Skips (quoted (bytes "global")) z := skips_of_notMem (hz.quote (by decide)) _
        have hs' := skips_layers hs hk hadds (hplain es rfl)
        rw [parseScaleFile_none (ha'.append (hs'.append hz')).find_eq_none]
        exact taken_layers ⟨fun _ => rfl, nofun⟩ hw hw' ht (hplain es rfl) hfound
      · exact taken_without_adds hw hw' ht (hplain es rfl) hfound
          ⟨a ++ encode s, z, hz, (List.append_assoc _ _ _).symm⟩ (not_exists.mp hadds) none
  | @globalFirst k k' v es hk hk' =>
      obtain ⟨a, s, c, s', z, ha, hs, hc, hs', hz, hcs⟩ := text_pair htext
      obtain ⟨w, w', t, hw, hw', ht, hbytes⟩ := named_bytes hs hk
      obtain ⟨u, u', t', hu, hu', ht', hbytes'⟩ := named_bytes hs' hk'
      have hbefore : Skips (quoted (bytes "global")) a := skips_of_notMem ha _
      rw [hcs]
      refine taken_found hw hw' ht (hc.stop (by decide) _) (find_member hbefore hbytes _)
        fun x hx hy => ?_
      have ha' : Skips (quoted (bytes "layers")) a := skips_of_notMem ha _
      have hc' : Skips (quoted (bytes "layers")) c := skips_of_notMem (hc.quote (by decide)) _
      have hfound := find_member (ha'.append ((skips_global hs hk hy).append hc')) hbytes' z
      simp only [List.append_assoc] at hfound
      exact taken_layers hx hu hu' ht' (hplain es rfl) hfound
  | @layersFirst k k' v es hk hk' =>
      obtain ⟨a, s', c, s, z, ha, hs', hc, hs, hz, hcs⟩ := text_pair htext
      obtain ⟨w, w', t, hw, hw', ht, hbytes⟩ := named_bytes hs hk
      obtain ⟨u, u', t', hu, hu', ht', hbytes'⟩ := named_bytes hs' hk'
      have hbefore : Skips (quoted (bytes "layers")) a := skips_of_notMem ha _
      have hlayers := find_member hbefore hbytes' (c ++ (encode s ++ z))
      rw [hcs]
      by_cases hadds : ∃ t', Adds n es .empty t'
      · obtain ⟨l, hadds⟩ := hadds
        have ha' : Skips (quoted (bytes "global")) a := skips_of_notMem ha _
        have hc' : Skips (quoted (bytes "global")) c := skips_of_notMem (hc.quote (by decide)) _
        have hglobal := find_member
          (ha'.append ((skips_layers hs' hk' hadds (hplain es rfl)).append hc')) hbytes z
        simp only [List.append_assoc] at hglobal
        refine taken_found hw hw' ht hz.stop_end hglobal fun x hx _ => ?_
        exact taken_layers hx hu hu' ht' (hplain es rfl) hlayers
      · refine taken_without_adds hu hu' ht' (hplain es rfl) hlayers
          ⟨a ++ (encode s' ++ (c ++ encode s)), z, hz, ?_⟩ (not_exists.mp hadds) (some v)
        simp only [List.append_assoc]

/-- A scale that a text spells behind the identifier of its layer. -/
structure SpelledPair (n : ℤ) (json : Bytes) (s : ℤ × Float) : Prop where
  range : ¬(0 < n ∧ n ≤ s.1)
  spelled : ∃ key gap blanks val,
    34 :: (key ++ 34 :: (gap ++ 58 :: (blanks ++ val))) <:+: json ∧
      (∀ b ∈ blanks, isBlank b = true) ∧ parsePosDouble val = some s.2 ∧
      ∃ lid : ℕ, Numeral (codes key) lid ∧ key.length ≤ 9 ∧ s.1 = lid

theorem SpelledPair.mono {n : ℤ} {json json' : Bytes} {s : ℤ × Float} (h : SpelledPair n json s)
    (hin : json <:+: json') : SpelledPair n json' s := by
  obtain ⟨key, gap, blanks, val, hpair, hrest⟩ := h.spelled
  exact ⟨h.range, key, gap, blanks, val, hpair.trans hin, hrest⟩

/-- What an accepted text spells. -/
structure Spelled (n : ℤ) (json : Bytes) (m : ScaleMap) : Prop where
  global : (m.global = 1 ∧ ¬ bytes "\"global\"" <:+: json) ∨
    ∃ val, val <:+: json ∧ parsePosDouble val = some m.global
  mode : m.mode = .perLayer ↔ bytes "\"layers\"" <:+: json
  entries : m.perLayer.entries ≠ [] ↔ m.mode = .perLayer
  pairs : ∀ s ∈ m.perLayer, SpelledPair n json s

theorem valueText_eq_some {w val : Bytes} (h : valueText w = some val) :
    ∃ blanks rest, (∀ b ∈ blanks, isBlank b = true) ∧ w = blanks ++ (val ++ rest) := by
  unfold valueText at h
  split_ifs at h
  cases h
  refine ⟨w.takeWhile isBlank, (w.dropWhile isBlank).dropWhile fun c => !isStop c,
    fun b hb => List.mem_takeWhile_imp hb, ?_⟩
  rw [List.takeWhile_append_dropWhile, List.takeWhile_append_dropWhile]

theorem behindValue_suffix (w : Bytes) : behindValue w <:+ w :=
  (List.tail_suffix _).trans ((List.dropWhile_suffix _).trans (List.dropWhile_suffix _))

theorem after_suffix {c : UInt8} {w v : Bytes} (h : after c w = some v) : v <:+ w :=
  (List.suffix_cons c v).trans ⟨_, (after_eq_some h).symm⟩

theorem spelled_layerPairs {n : ℤ} {body : Bytes} {m m' : ScaleMap} (hm : m.valid = false)
    (h : layerPairs n body m = some m') (hvalid : m'.valid = true) :
    m'.mode = m.mode ∧ m'.global = m.global ∧ m'.perLayer.entries ≠ [] ∧
      ∀ s ∈ m'.perLayer, s ∈ m.perLayer ∨ SpelledPair n body s := by
  fun_induction layerPairs n body m with
  | case1 body m _ =>
      cases h
      split_ifs at hvalid ⊢ with hempty
      · exact absurd (hm.symm.trans hvalid) Bool.false_ne_true
      · exact ⟨rfl, rfl, hempty, fun s hs => .inl hs⟩
  | case2 | case3 | case5 =>
      cases h
      exact absurd (hm.symm.trans hvalid) Bool.false_ne_true
  | case4 => cases h
  | case6 body m keyed hkey behindKey hquote v hcolon val hval key m₁ hadd ih =>
      obtain ⟨lid, sc, hlid, hrange, hsc, hnew, rfl⟩ := addLayer_eq_ok.mp hadd
      obtain ⟨hmode, hglobal, hentries, hpairs⟩ := ih hm h
      refine ⟨hmode, hglobal, hentries, fun s hs => ?_⟩
      have hbehind : behindValue v <:+: body := ((behindValue_suffix v).trans
        ((after_suffix hcolon).trans ((after_suffix hquote).trans (after_suffix hkey)))).isInfix
      rcases hpairs s hs with hs | hs
      · rcases Table.mem_insert.mp hs with rfl | ⟨hs, _⟩
        · obtain ⟨blanks, rest, hblanks, hv⟩ := valueText_eq_some hval
          have hid := parseUint_eq_some.mp hlid
          refine .inr ⟨hrange, key, behindKey.takeWhile (· ≠ 58), blanks, val, ?_, hblanks, hsc,
            lid, hid.1, hid.2, rfl⟩
          refine ⟨body.takeWhile (· ≠ 34), rest, ?_⟩
          calc
            _ = body.takeWhile (· ≠ 34) ++ 34 :: (key ++ 34 ::
                (behindKey.takeWhile (· ≠ 58) ++ 58 :: (blanks ++ (val ++ rest)))) := by simp
            _ = body.takeWhile (· ≠ 34) ++ 34 :: (key ++ 34 :: behindKey) := by
              rw [← hv, ← after_eq_some hcolon]
            _ = body.takeWhile (· ≠ 34) ++ 34 :: keyed := by rw [← after_eq_some hquote]
            _ = body := (after_eq_some hkey).symm
        · exact .inl hs
      · exact .inr (hs.mono hbehind)

theorem spelled_parseLayers {n : ℤ} {g : Float} {json : Bytes} {m : ScaleMap}
    (h : parseLayers n g json (start json) = some m) (hvalid : m.valid = true) :
    m.global = g ∧ (m.mode = .perLayer ↔ bytes "\"layers\"" <:+: json) ∧
      (m.perLayer.entries ≠ [] ↔ m.mode = .perLayer) ∧ ∀ s ∈ m.perLayer, SpelledPair n json s := by
  unfold parseLayers at h
  split at h
  · rename_i hfind
    cases h
    have hmode : Mode.global ≠ .perLayer := by decide
    exact ⟨rfl, iff_of_false hmode (find_eq_none.mp hfind), iff_of_false (fun hne => hne rfl) hmode,
      fun s hs => absurd hs Table.mem_empty⟩
  · rename_i keyed hfind
    have hin : bytes "\"layers\"" <:+: json := by
      by_contra hnot
      rw [find_eq_none.mpr hnot] at hfind
      cases hfind
    split at h
    · cases h
      cases hvalid
    · rename_i body hbody
      split_ifs at h
      · obtain ⟨hmode, hglobal, hentries, hpairs⟩ := spelled_layerPairs rfl h hvalid
        have hbehind : body.takeWhile (· ≠ 125) <:+: json :=
          (List.takeWhile_prefix _).isInfix.trans
            ((after_suffix hbody).trans (find_suffix hfind)).isInfix
        refine ⟨hglobal, ⟨fun _ => hin, fun _ => hmode⟩, ⟨fun _ => hmode, fun _ => hentries⟩,
          fun s hs => ?_⟩
        rcases hpairs s hs with hs | hs
        · exact absurd hs Table.mem_empty
        · exact hs.mono hbehind
      · cases h
        cases hvalid

/-- Whatever the text: what is taken from it stands in it. -/
theorem spelled_scaleFile {n : ℤ} {json : Bytes} {m : ScaleMap}
    (h : parseScaleFile json n = some m) (hvalid : m.valid = true) : Spelled n json m := by
  unfold parseScaleFile at h
  split at h
  · rename_i hfind
    obtain ⟨hglobal, hmode, hentries, hpairs⟩ := spelled_parseLayers h hvalid
    exact ⟨.inl ⟨hglobal, find_eq_none.mp hfind⟩, hmode, hentries, hpairs⟩
  · rename_i keyed hfind
    split at h
    · cases h
    · rename_i tok htok
      split at h
      · cases h
        cases hvalid
      · rename_i g hg
        obtain ⟨hglobal, hmode, hentries, hpairs⟩ := spelled_parseLayers h hvalid
        refine ⟨.inr ⟨tok, ?_, hglobal ▸ hg⟩, hmode, hentries, hpairs⟩
        have hvalue : ∀ w, valueText w = some tok → tok <:+: w := by
          intro w hw
          obtain ⟨blanks, rest, _, hsplit⟩ := valueText_eq_some hw
          exact ⟨blanks, rest, by rw [hsplit, List.append_assoc]⟩
        unfold globalText at htok
        cases hcolon : after 58 keyed with
        | none =>
            rw [hcolon] at htok
            exact hvalue json htok
        | some u =>
            rw [hcolon] at htok
            exact (hvalue u htok).trans ((after_suffix hcolon).trans (find_suffix hfind)).isInfix

theorem exists_spelling (cs : List Char)
    (h : cs.all (fun c => 0x20 ≤ c.toNat ∧ c ≠ '"' ∧ c ≠ '\\') = true) :
    ∃ k, spelling k = cs := by
  induction cs with
  | nil => exact ⟨[], rfl⟩
  | cons c cs ih =>
      rw [List.all_cons, Bool.and_eq_true, decide_eq_true_iff] at h
      obtain ⟨k, hk⟩ := ih h.2
      exact ⟨.plain c h.1 :: k, congrArg (c :: ·) hk⟩

end SlhaV2.ScaleFiles
