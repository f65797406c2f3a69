import SlhaV2.ScaleSearch

/-!
# The layers of a scale file

The object of the layers gives the identifiers and the scales of layers. The reader cuts it at the
first closing brace and goes from one quotation mark to the next; it takes all scales or refuses
the file.
-/
namespace SlhaV2.ScaleLayers
open DecimalNumerals Documents Utf8Text LayerMasks OrderedMap JsonGrammar
open ScoreScale ScaleNumbers ScaleSearch

/-- One member of the layers is the scale of a layer. -/
structure Names (n : ℤ) (e : List Piece × Syntax) (s : ℤ × Float) : Prop where
  id : ∃ lid : ℕ, Numeral (codes (encode (spelling e.1))) lid ∧
    (encode (spelling e.1)).length ≤ 9 ∧ s.1 = lid
  range : ¬(0 < n ∧ n ≤ s.1)
  scale : ∃ x : Number, e.2 = .num x ∧ Positive x.toFloat ∧ s.2 = x.toFloat

theorem Names.unique {n : ℤ} {e : List Piece × Syntax} {s s' : ℤ × Float} (h : Names n e s)
    (h' : Names n e s') : s = s' := by
  obtain ⟨lid, hid, _, hs⟩ := h.id
  obtain ⟨lid', hid', _, hs'⟩ := h'.id
  obtain ⟨x, hx, _, hscale⟩ := h.scale
  obtain ⟨x', hx', _, hscale'⟩ := h'.scale
  have hsame : x = x' := Document.num.inj (hx.symm.trans hx')
  apply Prod.ext
  · rw [hs, hs', ← hid.value, ← hid'.value]
  · rw [hscale, hscale', hsame]

/-- Scales of layers added one after the other, none for a layer that has one. -/
inductive Adds (n : ℤ) : List (List Piece × Syntax) → Table ℤ Float → Table ℤ Float → Prop
  | nil {t : Table ℤ Float} : Adds n [] t t
  | cons {e : List Piece × Syntax} {es : List (List Piece × Syntax)} {s : ℤ × Float}
      {t t' : Table ℤ Float} :
      Names n e s → t.find s.1 = none → Adds n es (t.insert s.1 s.2) t' → Adds n (e :: es) t t'

theorem addLayer_number {n : ℤ} {k : List Piece} {x : Number} {bad : Bytes} {m m' : ScaleMap} :
    addLayer n (encode (spelling k)) (encode x.text) bad m = .ok m' ↔
      ∃ s, Names n (k, .num x) s ∧ m.perLayer.find s.1 = none ∧
        m' = { m with perLayer := m.perLayer.insert s.1 s.2 } := by
  rw [addLayer_eq_ok]
  constructor
  · rintro ⟨lid, sc, hlid, hrange, hsc, hnew, hm'⟩
    have hid := parseUint_eq_some.mp hlid
    obtain ⟨rfl, hpositive⟩ := parsePosDouble_number.mp hsc
    exact ⟨(lid, x.toFloat), ⟨⟨lid, hid.1, hid.2, rfl⟩, hrange, x, rfl, hpositive, rfl⟩, hnew, hm'⟩
  · rintro ⟨s, ⟨⟨lid, hid, hlength, hs⟩, hrange, y, hy, hpositive, hsc⟩, hnew, hm'⟩
    cases hy
    refine ⟨lid, s.2, parseUint_eq_some.mpr ⟨hid, hlength⟩, hs ▸ hrange, ?_, hs ▸ hnew, hs ▸ hm'⟩
    rw [hsc]
    exact parsePosDouble_number.mpr ⟨rfl, hpositive⟩

theorem Adds.names {n : ℤ} {es : List (List Piece × Syntax)} {t t' : Table ℤ Float}
    (h : Adds n es t t') : ∀ e ∈ es, ∃ s, Names n e s := by
  induction h with
  | nil => exact nofun
  | cons hs _ _ ih => exact List.forall_mem_cons.mpr ⟨⟨_, hs⟩, ih⟩

/-- The text up to the byte that closes the layers. -/
def inside (w : Bytes) : Bytes := w.takeWhile (· ≠ 125)

theorem inside_append {v : Bytes} (h : 125 ∉ v) (w : Bytes) : inside (v ++ w) = v ++ inside w :=
  List.takeWhile_append_of_pos fun _ hb => decide_eq_true fun heq => h (heq ▸ hb)

theorem inside_cons {b : UInt8} (h : b ≠ 125) (w : Bytes) : inside (b :: w) = b :: inside w :=
  List.takeWhile_cons_of_pos (decide_eq_true h)

theorem inside_closed {v : Bytes} (h : 125 ∉ v) (w : Bytes) : inside (v ++ 125 :: w) = v :=
  (takeWhile_first h w).1

theorem inside_of_mem {v : Bytes} (h : 125 ∈ v) (w : Bytes) : inside (v ++ w) = inside v := by
  have hfree : 125 ∉ inside v := fun hin => absurd (List.mem_takeWhile_imp hin) (by decide)
  conv_lhs => rw [splitAt_first h, List.append_assoc, List.cons_append]
  exact inside_closed hfree _

section Pairs
variable {n : ℤ} {junk key gap v val : Bytes} {m : ScaleMap}

theorem layerPairs_end (h : 34 ∉ junk) :
    layerPairs n junk m =
      some (if m.perLayer.entries = [] then m.reject (bytes "scale file has empty layers map")
        else m.accept) := by
  unfold layerPairs
  split
  · rfl
  · rename_i keyed hkey
    rw [after_eq_none.mpr h] at hkey
    cases hkey

theorem layerPairs_unterminated (hjunk : 34 ∉ junk) (hkey : 34 ∉ key) :
    layerPairs n (junk ++ 34 :: key) m = some (m.reject (bytes "unterminated key")) := by
  have hfirst := after_append hjunk key
  unfold layerPairs
  split
  · rename_i hnone
    rw [hfirst] at hnone
    cases hnone
  · rename_i keyed hkeyed
    rw [hfirst] at hkeyed
    cases hkeyed
    split
    · rfl
    · rename_i behindKey hquote
      rw [after_eq_none.mpr hkey] at hquote
      cases hquote

/-- The pairs behind the value of a pair that was added. -/
def resume (n : ℤ) (v : Bytes) (m : ScaleMap) : Except Bytes ScaleMap → Option ScaleMap
  | .error e => some (m.reject e)
  | .ok m' => layerPairs n (behindValue v) m'

theorem layerPairs_pair (hjunk : 34 ∉ junk) (hkey : 34 ∉ key) (hgap : 58 ∉ gap)
    (hval : valueText v = some val) :
    ∃ bad, layerPairs n (junk ++ 34 :: (key ++ 34 :: (gap ++ 58 :: v))) m =
      resume n v m (addLayer n key val bad m) := by
  refine ⟨bytes "invalid scale for layer " ++ key ++ bytes ": '" ++ val ++ bytes "'", ?_⟩
  have hfirst := after_append hjunk (key ++ 34 :: (gap ++ 58 :: v))
  have hsecond := after_append hkey (gap ++ 58 :: v)
  have hcolon := after_append hgap v
  have htext := (takeWhile_first hkey (gap ++ 58 :: v)).1
  rw [layerPairs]
  split
  · rename_i hnone
    rw [hfirst] at hnone
    cases hnone
  · rename_i keyed hkeyed
    rw [hfirst] at hkeyed
    cases hkeyed
    split
    · rename_i hnone
      rw [hsecond] at hnone
      cases hnone
    · rename_i behindKey hquote
      rw [hsecond] at hquote
      cases hquote
      split
      · rename_i hnone
        rw [hcolon] at hnone
        cases hnone
      · rename_i w hw
        rw [hcolon] at hw
        cases hw
        rw [hval]
        dsimp only
        rw [htext]
        generalize addLayer n key val _ m = r
        cases r with
        | error e => rfl
        | ok m' => rfl

end Pairs

/-- A member of the layers and the text behind it: its scale is added, or the file is refused. -/
theorem layerPairs_member {n : ℤ} {k : List Piece} {v : Syntax} {t : List Char}
    (h : Member Value (k, v) t) (hplain : '\\' ∉ spelling k) (junk more : Bytes)
    (hjunk : 34 ∉ junk) (hopen : 125 ∉ junk) (hmore : ∀ b ∈ (inside more).head?, isStop b = true)
    (m : ScaleMap) :
    (∃ s, Names n (k, v) s ∧ m.perLayer.find s.1 = none ∧
      layerPairs n (inside (junk ++ (encode t ++ more))) m =
        layerPairs n (inside more).tail { m with perLayer := m.perLayer.insert s.1 s.2 }) ∨
    (∃ e, layerPairs n (inside (junk ++ (encode t ++ more))) m = some (m.reject e)) ∧
      ∀ s, Names n (k, v) s → m.perLayer.find s.1 ≠ none := by
  have hquote := quote_notMem hplain
  cases h with
  | @mk _ _ w w' r hw hw' hv =>
      rw [encode_member]
      simp only [List.append_assoc, quoted_append, List.cons_append]
      rw [inside_append hopen, inside_cons (by decide)]
      by_cases hkey : 125 ∈ encode (spelling k)
      · -- the layers end inside the name
        have hopening : 34 ∉ inside (encode (spelling k)) := fun hin =>
          hquote ((List.takeWhile_prefix _).subset hin)
        rw [inside_of_mem hkey, layerPairs_unterminated hjunk hopening]
        refine .inr ⟨⟨_, rfl⟩, fun s hs => ?_⟩
        obtain ⟨lid, hid, _⟩ := hs.id
        exact absurd (hid.digits _ (mem_codes.mpr hkey)) (by decide)
      · rw [inside_append hkey, inside_cons (by decide), inside_append (notMem_blanks hw).2.2.2,
          inside_cons (by decide), inside_append (notMem_blanks hw').2.2.2]
        rcases value_text hv with ⟨x, hx, hr⟩ | ⟨hother, c, hc, r', hr⟩
        · subst hx hr
          have hval := valueText_append (encode_blanks hw') (number_ne_nil x)
            (fun b hb => (numberByte_of_mem hb).stop) hmore
          obtain ⟨bad, hbad⟩ := layerPairs_pair (n := n) (m := m) hjunk hquote
            (notMem_blanks hw).2.1 hval.1
          rw [inside_append (notMem_number x).2.2, hbad]
          cases hadd : addLayer n (encode (spelling k)) (encode x.text) bad m with
          | error e =>
              refine .inr ⟨⟨e, rfl⟩, fun s hs hnew => ?_⟩
              rw [addLayer_number.mpr ⟨s, hs, hnew, rfl⟩] at hadd
              cases hadd
          | ok m' =>
              obtain ⟨s, hs, hnew, rfl⟩ := addLayer_number.mp hadd
              refine .inl ⟨s, hs, hnew, ?_⟩
              unfold resume
              rw [hval.2]
        · subst hr
          have hfirst := parsePosDouble_other hc
          rw [encode_cons_ascii (hfirst []).1, List.cons_append, inside_cons (hfirst []).2.2.1]
          obtain ⟨u, hu⟩ : ∃ u, valueText (encode w' ++ byte c :: inside (encode r' ++ more)) =
              some (byte c :: u) := valueText_cons (encode_blanks hw') (hfirst []).2.1
          obtain ⟨bad, hbad⟩ := layerPairs_pair (n := n) (m := m) hjunk hquote
            (notMem_blanks hw).2.1 hu
          rw [hbad]
          cases hadd : addLayer n (encode (spelling k)) (byte c :: u) bad m with
          | error e =>
              refine .inr ⟨⟨e, rfl⟩, fun s hs => ?_⟩
              obtain ⟨x, hx, _⟩ := hs.scale
              exact absurd hx (hother x)
          | ok m' =>
              obtain ⟨_, _, _, _, hread, _⟩ := addLayer_eq_ok.mp hadd
              rw [(hfirst u).2.2.2] at hread
              cases hread

/-- The blanks and the comma behind a value, without the byte that ended it. -/
theorem tail_comma {w : List Char} (hw : Whitespace w) :
    ∃ junk, 34 ∉ junk ∧ 125 ∉ junk ∧
      ∀ u, (inside (encode w ++ 44 :: u)).tail = inside (junk ++ u) := by
  have hblanks := notMem_blanks hw
  cases hbytes : encode w with
  | nil =>
      refine ⟨[], nofun, nofun, fun u => ?_⟩
      rw [List.nil_append, inside_cons (by decide)]
      rfl
  | cons b v =>
      have hquote : 34 ∉ v ++ [44] := by
        intro hin
        rcases List.mem_append.mp hin with hin | hin
        · exact hblanks.1 (hbytes ▸ List.mem_cons_of_mem b hin)
        · exact absurd (List.mem_singleton.mp hin) (by decide)
      have hbrace : 125 ∉ v ++ [44] := by
        intro hin
        rcases List.mem_append.mp hin with hin | hin
        · exact hblanks.2.2.2 (hbytes ▸ List.mem_cons_of_mem b hin)
        · exact absurd (List.mem_singleton.mp hin) (by decide)
      refine ⟨v ++ [44], hquote, hbrace, fun u => ?_⟩
      have hb : b ≠ 125 := fun heq => hblanks.2.2.2 (hbytes ▸ heq ▸ List.mem_cons_self)
      rw [List.cons_append, inside_cons hb, List.tail_cons, List.append_assoc,
        List.singleton_append]

theorem insert_entries_ne_nil (t : Table ℤ Float) (s : ℤ × Float) :
    (t.insert s.1 s.2).entries ≠ [] :=
  List.ne_nil_of_mem (Table.mem_insert.mpr (.inl (rfl : s = (s.1, s.2))))

/-- All scales of the layers are added, or the file is refused. -/
theorem layerPairs_items {n : ℤ} {es : List (List Piece × Syntax)} {t : List Char}
    (h : Items (Member Value) es t) (hplain : ∀ e ∈ es, '\\' ∉ spelling e.1) (junk : Bytes)
    (hjunk : 34 ∉ junk) (hopen : 125 ∉ junk) (rest : Bytes) (m : ScaleMap) :
    (∃ t', Adds n es m.perLayer t' ∧
      layerPairs n (inside (junk ++ (encode t ++ 125 :: rest))) m =
        some { m with perLayer := t' }.accept) ∨
    (∃ m', layerPairs n (inside (junk ++ (encode t ++ 125 :: rest))) m = some m' ∧
      m'.valid = m.valid) ∧ ∀ t', ¬ Adds n es m.perLayer t' := by
  induction h generalizing junk m with
  | @one e w s w' hw hmember hw' =>
      have hmore : inside (encode w' ++ 125 :: rest) = encode w' :=
        inside_closed (notMem_blanks hw').2.2.2 rest
      have hstop : ∀ b ∈ (inside (encode w' ++ 125 :: rest)).head?, isStop b = true := fun b hb =>
        (blank_byte (encode_blanks hw' b (List.mem_of_mem_head? (hmore ▸ hb)))).2.2.2.2
      have hstep := layerPairs_member (n := n) hmember (hplain e List.mem_cons_self)
        (junk ++ encode w) (encode w' ++ 125 :: rest)
        (fun hin => (List.mem_append.mp hin).elim hjunk (notMem_blanks hw).1)
        (fun hin => (List.mem_append.mp hin).elim hopen (notMem_blanks hw).2.2.2) hstop m
      rw [hmore] at hstep
      simp only [encode_append, List.append_assoc] at hstep ⊢
      rcases hstep with ⟨s, hs, hnew, hread⟩ | ⟨⟨e, he⟩, hnone⟩
      · refine .inl ⟨_, .cons hs hnew .nil, ?_⟩
        have htail : 34 ∉ (encode w').tail := fun hin =>
          (notMem_blanks hw').1 (List.mem_of_mem_tail hin)
        rw [hread, layerPairs_end htail]
        exact congrArg some (if_neg (insert_entries_ne_nil m.perLayer s))
      · refine .inr ⟨⟨_, he, rfl⟩, fun t' hadds => ?_⟩
        cases hadds with
        | cons hs hnew _ => exact hnone _ hs hnew
  | @cons e es w s w' r hw hmember hw' hitems ih =>
      obtain ⟨junk', hjunk', hopen', htail⟩ := tail_comma hw'
      have hplains := List.forall_mem_cons.mp hplain
      have hstop : ∀ b ∈ (inside (encode w' ++ 44 :: (encode r ++ 125 :: rest))).head?,
          isStop b = true := by
        rw [inside_append (notMem_blanks hw').2.2.2, inside_cons (by decide)]
        refine head_blanks hw' fun b hb => ?_
        cases hb
        decide
      have hstep := layerPairs_member (n := n) hmember hplains.1 (junk ++ encode w)
        (encode w' ++ 44 :: (encode r ++ 125 :: rest))
        (fun hin => (List.mem_append.mp hin).elim hjunk (notMem_blanks hw).1)
        (fun hin => (List.mem_append.mp hin).elim hopen (notMem_blanks hw).2.2.2) hstop m
      rw [htail] at hstep
      have hcomma : encode (',' :: r) = 44 :: encode r := encode_cons_ascii (by decide) r
      simp only [encode_append, hcomma, List.append_assoc, List.cons_append] at hstep ⊢
      rcases hstep with ⟨s, hs, hnew, hread⟩ | ⟨⟨e, he⟩, hnone⟩
      · rw [hread]
        have hrest := ih hplains.2 junk' hjunk' hopen'
          { m with perLayer := m.perLayer.insert s.1 s.2 }
        rcases hrest with ⟨t', hadds, heq⟩ | ⟨⟨m', heq, hvalid⟩, hnone⟩
        · exact .inl ⟨t', .cons hs hnew hadds, heq⟩
        · refine .inr ⟨⟨m', heq, hvalid⟩, fun t' hadds => ?_⟩
          cases hadds with
          | cons hs' _ hadds => exact hnone t' (hs'.unique hs ▸ hadds)
      · refine .inr ⟨⟨_, he, rfl⟩, fun t' hadds => ?_⟩
        cases hadds with
        | cons hs hnew _ => exact hnone _ hs hnew

theorem bytes_layers : bytes "\"layers\"" = quoted (bytes "layers") := by decide

theorem bytes_global : bytes "\"global\"" = quoted (bytes "global") := by decide

theorem encode_braces (v : List Char) (rest : Bytes) :
    encode ('\x7b' :: (v ++ ['\x7d'])) ++ rest = 123 :: (encode v ++ 125 :: rest) := by
  rw [encode_cons_ascii (by decide), encode_append, List.cons_append, List.append_assoc]
  rfl

/-- The object of the layers, read behind their name. -/
theorem parseLayers_object {n : ℤ} {g : Float} {json rest : Bytes} {m : ScaleMap}
    {es : List (List Piece × Syntax)} {w w' t : List Char} (hw : Whitespace w)
    (hw' : Whitespace w') (ht : Value (.obj es) t) (hplain : ∀ e ∈ es, '\\' ∉ spelling e.1)
    (hfind : find (quoted (bytes "layers")) json = some (quoted (bytes "layers") ++
      (encode w ++ 58 :: (encode w' ++ (encode t ++ rest)))))
    (hm : m.perLayer.entries = []) :
    (∃ t', es ≠ [] ∧ Adds n es m.perLayer t' ∧ parseLayers n g json m =
        some { m with mode := .perLayer, global := g, perLayer := t' }.accept) ∨
      (∃ m', parseLayers n g json m = some m' ∧ m'.valid = m.valid) ∧
        (es = [] ∨ ∀ t', ¬ Adds n es m.perLayer t') := by
  have hopening : 123 ∉ quoted (bytes "layers") ++ (encode w ++ 58 :: encode w') := by
    simp only [List.mem_append, List.mem_cons, not_or]
    exact ⟨by decide, (notMem_blanks hw).2.2.1, by decide, (notMem_blanks hw').2.2.1⟩
  have hlayers : ∀ u, after 123 (quoted (bytes "layers") ++
      (encode w ++ 58 :: (encode w' ++ 123 :: u))) = some u := by
    intro u
    have hread := after_append hopening u
    simpa only [List.append_assoc, List.cons_append] using hread
  unfold parseLayers
  rw [bytes_layers, hfind]
  cases ht with
  | @emptyObj v hv =>
      have hin : 125 ∈ encode v ++ 125 :: rest := List.mem_append_right _ List.mem_cons_self
      have hbody : (encode v ++ 125 :: rest).takeWhile (· ≠ 125) = encode v :=
        inside_closed (notMem_blanks hv).2.2.2 rest
      rw [encode_braces]
      dsimp only
      rw [hlayers]
      dsimp only
      rw [if_pos hin, hbody, layerPairs_end (notMem_blanks hv).1]
      exact .inr ⟨⟨_, congrArg some (if_pos hm), rfl⟩, .inl rfl⟩
  | @obj _ v hv =>
      have hin : 125 ∈ encode v ++ 125 :: rest := List.mem_append_right _ List.mem_cons_self
      have hne : es ≠ [] := by
        cases hv with
        | one => exact List.cons_ne_nil _ _
        | cons => exact List.cons_ne_nil _ _
      have hpairs := layerPairs_items (n := n) hv hplain [] nofun nofun rest
        { m with mode := .perLayer, global := g }
      rw [List.nil_append] at hpairs
      rw [encode_braces]
      dsimp only
      rw [hlayers]
      dsimp only
      rw [if_pos hin]
      rcases hpairs with ⟨t', hadds, heq⟩ | ⟨⟨m', heq, hvalid⟩, hnone⟩
      · exact .inl ⟨t', hne, hadds, heq⟩
      · exact .inr ⟨⟨m', heq, hvalid⟩, .inr hnone⟩

theorem parseLayers_none {n : ℤ} {g : Float} {json : Bytes} {m : ScaleMap}
    (h : find (quoted (bytes "layers")) json = none) :
    parseLayers n g json m = some { m with mode := .global, global := g }.accept := by
  unfold parseLayers
  rw [bytes_layers, h]

/-- The scales of the layers, each under its identifier. -/
structure LayerScales (n : ℤ) (es : List (List Piece × Syntax)) (t : Table ℤ Float) : Prop where
  nonempty : es ≠ []
  scales : ∃ scales, List.Forall₂ (Names n) es scales ∧ (scales.map Prod.fst).Nodup ∧
    ∀ e, e ∈ t ↔ e ∈ scales

theorem Adds.scales {n : ℤ} {es : List (List Piece × Syntax)} {t t' : Table ℤ Float}
    (h : Adds n es t t') :
    ∃ scales, List.Forall₂ (Names n) es scales ∧ (scales.map Prod.fst).Nodup ∧
      (∀ s ∈ scales, t.find s.1 = none) ∧ ∀ e, e ∈ t' ↔ e ∈ scales ∨ e ∈ t := by
  induction h with
  | nil => exact ⟨[], .nil, List.nodup_nil, nofun, fun e => (or_iff_right List.not_mem_nil).symm⟩
  | @cons e es s t t' hs hnew _ ih =>
      obtain ⟨scales, hscales, hnodup, hfresh, hmem⟩ := ih
      have hold : ∀ f ∈ t, f.1 ≠ s.1 := Table.find_eq_none.mp hnew
      have hapart : ∀ f ∈ scales, f.1 ≠ s.1 ∧ t.find f.1 = none := by
        intro f hf
        have hnone := Table.find_eq_none.mp (hfresh f hf)
        refine ⟨fun heq => hnone _ (Table.mem_insert.mpr (.inl rfl)) heq.symm, ?_⟩
        refine Table.find_eq_none.mpr fun d hd => hnone d (Table.mem_insert.mpr (.inr ⟨hd, ?_⟩))
        exact hold d hd
      refine ⟨s :: scales, .cons hs hscales, ?_, ?_, fun f => ?_⟩
      · rw [List.map_cons, List.nodup_cons]
        refine ⟨fun hin => ?_, hnodup⟩
        obtain ⟨f, hf, heq⟩ := List.mem_map.mp hin
        exact (hapart f hf).1 heq
      · exact List.forall_mem_cons.mpr ⟨hnew, fun f hf => (hapart f hf).2⟩
      · rw [hmem, Table.mem_insert, List.mem_cons]
        constructor
        · rintro (hf | hf | ⟨hf, _⟩)
          · exact .inl (.inr hf)
          · exact .inl (.inl hf)
          · exact .inr hf
        · rintro ((hf | hf) | hf)
          · exact .inr (.inl hf)
          · exact .inl hf
          · exact .inr (.inr ⟨hf, hold f hf⟩)

theorem exists_adds {n : ℤ} {es : List (List Piece × Syntax)} {scales : List (ℤ × Float)}
    (h : List.Forall₂ (Names n) es scales) (hnodup : (scales.map Prod.fst).Nodup)
    {t : Table ℤ Float} (hfresh : ∀ s ∈ scales, t.find s.1 = none) : ∃ t', Adds n es t t' := by
  induction h generalizing t with
  | nil => exact ⟨t, .nil⟩
  | @cons e s es scales hs _ ih =>
      rw [List.map_cons, List.nodup_cons] at hnodup
      have hfresh' := List.forall_mem_cons.mp hfresh
      obtain ⟨t', ht'⟩ := ih hnodup.2 (t := t.insert s.1 s.2) fun f hf => by
        refine Table.find_eq_none.mpr fun d hd heq => ?_
        rcases Table.mem_insert.mp hd with rfl | ⟨hd, _⟩
        · exact hnodup.1 (List.mem_map.mpr ⟨f, hf, heq.symm⟩)
        · exact Table.find_eq_none.mp (hfresh'.2 f hf) d hd heq
      exact ⟨t', .cons hs hfresh'.1 ht'⟩

theorem LayerScales.adds {n : ℤ} {es : List (List Piece × Syntax)} {t : Table ℤ Float}
    (h : LayerScales n es t) : ∃ t', Adds n es .empty t' := by
  obtain ⟨scales, hscales, hnodup, _⟩ := h.scales
  exact exists_adds hscales hnodup fun s _ => rfl

theorem Adds.layerScales {n : ℤ} {es : List (List Piece × Syntax)} {t : Table ℤ Float}
    (h : Adds n es .empty t) (hne : es ≠ []) : LayerScales n es t := by
  obtain ⟨scales, hscales, hnodup, _, hmem⟩ := h.scales
  refine ⟨hne, scales, hscales, hnodup, fun e => ?_⟩
  rw [hmem]
  exact or_iff_left Table.mem_empty

end SlhaV2.ScaleLayers
