import SlhaV2.JsonNumbers
import SlhaV2.JsonStrings

/-!
# The parser against the grammar

A value is read exactly when a text of the grammar begins at the position, whose
tree is not too deep, repeats no name, and has only escapes and numbers which
denote something. Arrays and objects are read by one loop, so one argument over
it serves both; the recursion of values is an induction on the levels left.
-/
namespace SlhaV2.JsonParsing
open MachineWord CheckedSteps Documents JsonGrammar JsonValue Utf8Text JsonParser JsonScanner
open JsonNumbers JsonStrings

/-- The conditions on a tree which the grammar leaves open. -/
def Accepted (t : Syntax) : Prop :=
  t.All (fun n => n.toFloat.isFinite = true) (fun ps => (decode ps).isSome = true)
    fun ks => (ks.map stringValue).Nodup

/-- The value of a tree. -/
def treeValue (t : Syntax) : Json := t.map Number.toFloat stringValue

section Items
variable {α β : Type} {f : β → α} {text : β → List Char → Prop} {good : List β → β → Prop}
variable {item : List α → Parser → Outcome (α × Parser)} {close : Char} {wrap : List α → Json}

/-- Each item of a list is good after the items before it. -/
def GoodAfter (good : List β → β → Prop) (before bs : List β) : Prop :=
  ∀ pre b post, bs = pre ++ b :: post → good (before ++ pre) b

theorem GoodAfter.nil (before : List β) : GoodAfter good before [] := by
  intro pre b post h
  simp at h

theorem GoodAfter.cons {before bs : List β} {b : β} (hb : good before b)
    (h : GoodAfter good (before ++ [b]) bs) : GoodAfter good before (b :: bs) := by
  intro pre c post heq
  cases pre with
  | nil =>
      cases heq
      simpa using hb
  | cons d pre =>
      cases heq
      simpa using h pre c post rfl

theorem GoodAfter.head {before bs : List β} {b : β} (h : GoodAfter good before (b :: bs)) :
    good before b := by
  simpa using h [] b bs rfl

theorem GoodAfter.tail {before bs : List β} {b : β} (h : GoodAfter good before (b :: bs)) :
    GoodAfter good (before ++ [b]) bs := by
  intro pre c post heq
  subst heq
  simpa using h (b :: pre) c post rfl

/-- What an item reader reads at a position. -/
def ReadsItem (f : β → α) (text : β → List Char → Prop) (good : List β → β → Prop)
    (before : List β) (p : Parser) (cs : List Char) (r : α × Parser) : Prop :=
  ∃ b w s rest, Whitespace w ∧ text b s ∧ cs = w ++ (s ++ rest) ∧ good before b ∧
    r = (f b, after p (w ++ s))

theorem itemsLoop_meets {d : ℕ} (hclose : close.toNat < 128)
    (hitem : ∀ before p cs, At p cs → p.depth = d →
      Meets (item (before.map f) p) (ReadsItem f text good before p cs))
    {n : ℕ} {before : List β} {p : Parser} {cs : List Char} (h : At p cs) (hd : p.depth = d)
    (hn : cs.length < n) :
    Meets (itemsLoop item close wrap n (before.map f) p) fun r =>
      ∃ bs s rest, Items text bs s ∧ cs = s ++ close :: rest ∧ GoodAfter good before bs ∧
        r = (wrap ((before ++ bs).map f), after p (s ++ [close])) := by
  induction n generalizing before p cs with
  | zero => omega
  | succ n ih =>
      rw [itemsLoop]
      apply (hitem before p cs h hd).bind
      rintro _ ⟨b, w, s, rest, hw, hs, rfl, hb, rfl⟩
      have hp : At (after p (w ++ s)) rest := by
        apply At.after
        simpa using h
      apply (ws_meets hp).bind
      rintro _ ⟨w', rest, hw', rfl, rfl⟩
      have hq := hp.after
      split_ifs with hcomma hclosed
      · obtain ⟨rest, rfl⟩ := List.head?_eq_some_iff.mp ((peek_eq_byte hq (by decide)).mp hcomma)
        rw [advance_ascii hq (by decide), ok_bind]
        have hmap : before.map f ++ [f b] = (before ++ [b]).map f := by simp
        rw [hmap]
        apply (ih hq.tail hd (by simp at hn; omega)).mono
        rintro _ ⟨bs, s', rest, hbs, rfl, hgood, rfl⟩
        refine ⟨b :: bs, _, rest, Items.cons hw hs hw' hbs, ?_, hgood.cons hb, ?_⟩
        · simp
        · simp [after_after]
      · obtain ⟨rest, rfl⟩ := List.head?_eq_some_iff.mp ((peek_eq_byte hq hclose).mp hclosed)
        rw [advance_ascii hq hclose, ok_bind]
        refine Meets.ok ⟨[b], _, rest, Items.one hw hs hw', ?_, (GoodAfter.nil _).cons hb, ?_⟩
        · simp
        · simp [after_after]
      · exact Meets.err _

/-- The bytes after an item: none of them prolongs a number. -/
def EndsItem (close : Char) (rest : List Char) : Prop :=
  ∃ w c rest', Whitespace w ∧ (c = ',' ∨ c = close) ∧ rest = w ++ c :: rest'

theorem itemsLoop_append {d : ℕ} (hclose : close.toNat < 128) (hcomma : close ≠ ',')
    (hspace : isWhitespace close = false)
    (hitem : ∀ before b w s rest p, At p (w ++ (s ++ rest)) → p.depth = d → Whitespace w →
      text b s → good before b → EndsItem close rest →
        item (before.map f) p = .ok (f b, after p (w ++ s)))
    {bs : List β} {s rest : List Char} (hbs : Items text bs s) {n : ℕ} {before : List β}
    {p : Parser} (h : At p (s ++ close :: rest)) (hd : p.depth = d)
    (hgood : GoodAfter good before bs) (hn : bs.length ≤ n) :
    itemsLoop item close wrap n (before.map f) p =
      .ok (wrap ((before ++ bs).map f), after p (s ++ [close])) := by
  induction hbs generalizing n before p with
  | @one b w s w' hw hs hw' =>
      obtain ⟨n, rfl⟩ : ∃ k, n = k + 1 := ⟨n - 1, by simp at hn; omega⟩
      replace h : At p (w ++ (s ++ (w' ++ close :: rest))) := by simpa using h
      have hend : EndsItem close (w' ++ close :: rest) := ⟨w', close, rest, hw', .inr rfl, rfl⟩
      have hp : At (after p (w ++ s)) (w' ++ close :: rest) := by
        apply At.after
        simpa using h
      have hq := hp.after
      rw [itemsLoop, hitem before b w s _ p h hd hw hs hgood.head hend, ok_bind]
      dsimp only
      rw [ws_append hp hw' (by simpa using hspace), ok_bind,
        if_neg (mt (peek_eq_byte hq (by decide)).mp (by simpa using hcomma)),
        if_pos ((peek_eq_byte hq hclose).mpr rfl), advance_ascii hq hclose, ok_bind]
      simp [after_after]
  | @cons b bs w s w' r hw hs hw' hbs ih =>
      obtain ⟨n, rfl⟩ : ∃ k, n = k + 1 := ⟨n - 1, by simp at hn; omega⟩
      replace h : At p (w ++ (s ++ (w' ++ ',' :: (r ++ close :: rest)))) := by simpa using h
      have hend : EndsItem close (w' ++ ',' :: (r ++ close :: rest)) :=
        ⟨w', ',', _, hw', .inl rfl, rfl⟩
      have hp : At (after p (w ++ s)) (w' ++ ',' :: (r ++ close :: rest)) := by
        apply At.after
        simpa using h
      have hq := hp.after
      have hmap : before.map f ++ [f b] = (before ++ [b]).map f := by simp
      rw [itemsLoop, hitem before b w s _ p h hd hw hs hgood.head hend, ok_bind]
      dsimp only
      rw [ws_append hp hw' rfl, ok_bind, if_pos ((peek_eq_byte hq (by decide)).mpr rfl),
        advance_ascii hq (by decide), ok_bind, hmap,
        ih hq.tail hd hgood.tail (by simpa using hn)]
      simp [after_after]

theorem Items.length_le {bs : List β} {s : List Char} (h : Items text bs s) :
    bs.length ≤ s.length + 1 := by
  induction h with
  | one => simp
  | cons _ _ _ _ ih =>
      simp only [List.length_cons, List.length_append]
      omega

theorem Whitespace.append {w w' : List Char} (h : Whitespace w) (h' : Whitespace w') :
    Whitespace (w ++ w') := by
  intro c hc
  cases List.mem_append.mp hc with
  | inl hc => exact h c hc
  | inr hc => exact h' c hc

theorem Items.pad {bs : List β} {w s : List Char} (hw : Whitespace w) (h : Items text bs s) :
    Items text bs (w ++ s) := by
  cases h with
  | one h1 h2 h3 =>
      rw [← List.append_assoc]
      exact Items.one (Whitespace.append hw h1) h2 h3
  | cons h1 h2 h3 h4 =>
      rw [← List.append_assoc]
      exact Items.cons (Whitespace.append hw h1) h2 h3 h4

/-- A text begins with a character that is neither whitespace nor the closing bracket. -/
def Begins (close : Char) (s : List Char) : Prop :=
  ∃ c t, s = c :: t ∧ isWhitespace c = false ∧ c ≠ close

theorem Items.strip {bs : List β} {s : List Char} (htext : ∀ b s, text b s → Begins close s)
    (h : Items text bs s) :
    ∃ w s', Whitespace w ∧ Items text bs s' ∧ s = w ++ s' ∧ Begins close s' := by
  cases h with
  | @one b w s w' h1 h2 h3 =>
      obtain ⟨c, t, rfl, hc⟩ := htext _ _ h2
      exact ⟨w, [] ++ (c :: t ++ w'), h1, Items.one (by simp [Whitespace]) h2 h3, rfl,
        c, t ++ w', rfl, hc⟩
  | @cons b bs w s w' r h1 h2 h3 h4 =>
      obtain ⟨c, t, rfl, hc⟩ := htext _ _ h2
      exact ⟨w, [] ++ (c :: t ++ (w' ++ ',' :: r)), h1, Items.cons (by simp [Whitespace]) h2 h3 h4,
        rfl, c, _, rfl, hc⟩

theorem bracketed_meets {d : ℕ} {opening : Char} (hopen : opening.toNat < 128)
    (hclose : close.toNat < 128)
    (hitem : ∀ before p cs, At p cs → p.depth = d →
      Meets (item (before.map f) p) (ReadsItem f text good before p cs))
    {p : Parser} {cs : List Char} (h : At p (opening :: cs)) (hd : p.depth = d) :
    Meets (bracketed item close wrap p) fun r => ∃ bs s rest,
      (bs = [] ∧ Whitespace s ∨ Items text bs s) ∧ cs = s ++ close :: rest ∧
        GoodAfter good [] bs ∧
          r = (wrap (bs.map f), after p (opening :: (s ++ [close]))) := by
  unfold bracketed
  rw [advance_ascii h hopen, ok_bind, ws_eq h.tail, ok_bind]
  have hsplit := List.takeWhile_append_dropWhile (p := isWhitespace) (l := cs)
  have htail := h.tail
  rw [← hsplit] at htail
  have hq := htail.after
  split_ifs with hclosed
  · obtain ⟨rest, hrest⟩ := List.head?_eq_some_iff.mp ((peek_eq_byte hq hclose).mp hclosed)
    rw [hrest] at hq hsplit
    rw [advance_ascii hq hclose, ok_bind]
    refine Meets.ok ⟨[], cs.takeWhile isWhitespace, rest,
      .inl ⟨rfl, fun c hc => List.mem_takeWhile_imp hc⟩, hsplit.symm, GoodAfter.nil _, ?_⟩
    simp [after_after]
  · have hlen := hq.length_le
    simp only [after_b] at hlen
    apply (itemsLoop_meets hclose hitem (show At _ _ from hq) hd (Nat.lt_succ_of_le hlen) :
      Meets (itemsLoop item close wrap _ ([].map f) _) _).mono
    rintro _ ⟨bs, s, rest, hbs, hcs, hgood, rfl⟩
    have hw : Whitespace (cs.takeWhile isWhitespace) := fun c hc => List.mem_takeWhile_imp hc
    refine ⟨bs, cs.takeWhile isWhitespace ++ s, rest, .inr (Items.pad hw hbs), ?_, hgood, ?_⟩
    · rw [List.append_assoc, ← hcs, hsplit]
    · simp [after_after]

theorem bracketed_empty {opening : Char} (hopen : opening.toNat < 128)
    (hclose : close.toNat < 128) (hspace : isWhitespace close = false) {p : Parser}
    {w rest : List Char} (h : At p (opening :: (w ++ close :: rest))) (hw : Whitespace w) :
    bracketed item close wrap p = .ok (wrap [], after p (opening :: (w ++ [close]))) := by
  have hq := h.tail.after
  unfold bracketed
  rw [advance_ascii h hopen, ok_bind, ws_append h.tail hw (by simpa using hspace), ok_bind,
    if_pos ((peek_eq_byte hq hclose).mpr rfl), advance_ascii hq hclose, ok_bind]
  simp [after_after]

theorem bracketed_append {d : ℕ} {opening : Char} (hopen : opening.toNat < 128)
    (hclose : close.toNat < 128) (hcomma : close ≠ ',') (hspace : isWhitespace close = false)
    (htext : ∀ b s, text b s → Begins close s)
    (hitem : ∀ before b w s rest p, At p (w ++ (s ++ rest)) → p.depth = d → Whitespace w →
      text b s → good before b → EndsItem close rest →
        item (before.map f) p = .ok (f b, after p (w ++ s)))
    {bs : List β} {s rest : List Char} (hbs : Items text bs s) {p : Parser}
    (h : At p (opening :: (s ++ close :: rest))) (hd : p.depth = d)
    (hgood : GoodAfter good [] bs) :
    bracketed item close wrap p =
      .ok (wrap (bs.map f), after p (opening :: (s ++ [close]))) := by
  obtain ⟨w, s, hw, hitems, rfl, c, t, rfl, hc⟩ := Items.strip htext hbs
  have htail : At (after p [opening]) (w ++ (c :: t ++ close :: rest)) := by
    simpa using h.tail
  have hq := htail.after
  have hlen := hq.length_le
  have hcount := Items.length_le hitems
  rw [List.length_append, after_b, after_b] at hlen
  have hloop : itemsLoop item close wrap (p.b.length + 1) ([].map f)
      (after (after p [opening]) w) = .ok (wrap (([] ++ bs).map f), _) :=
    itemsLoop_append hclose hcomma hspace hitem hitems hq hd hgood (by omega)
  unfold bracketed
  rw [advance_ascii h hopen, ok_bind, ws_append htail hw (by simpa using hc.1), ok_bind,
    if_neg (mt (peek_eq_byte hq hclose).mp (by simpa using hc.2))]
  apply hloop.trans
  simp [after_after]

end Items

/-- A tree with at most `room` levels which meets the conditions. -/
def Fine (room : ℕ) (_ : List Syntax) (t : Syntax) : Prop := t.Within room ∧ Accepted t

def memberValue (e : List Piece × Syntax) : String × Json := (stringValue e.1, treeValue e.2)

/-- The same for a member, whose name is not that of a member before it. -/
def FineMember (room : ℕ) (before : List (List Piece × Syntax)) (e : List Piece × Syntax) :
    Prop :=
  Fine room [] e.2 ∧ (decode e.1).isSome = true ∧
    stringValue e.1 ∉ (before.map memberValue).map Prod.fst

/-- A reader reads values with at most `room` levels. -/
def Reads (value : Parser → Outcome (Json × Parser)) (d room : ℕ) : Prop :=
  ∀ p cs, At p cs → p.depth = d →
    Meets (value p) (ReadsItem treeValue Value (Fine room) [] p cs)

theorem member_meets {value : Parser → Outcome (Json × Parser)} {d room : ℕ}
    (hv : Reads value d room) (before : List (List Piece × Syntax)) (p : Parser)
    (cs : List Char) (h : At p cs) (hd : p.depth = d) :
    Meets (member value (before.map memberValue) p)
      (ReadsItem memberValue (Member Value) (FineMember room) before p cs) := by
  unfold member
  apply (ws_meets h).bind
  rintro _ ⟨w, rest, hw, rfl, rfl⟩
  have h1 := h.after
  apply Meets.require
  intro hquote
  obtain ⟨rest, rfl⟩ := List.head?_eq_some_iff.mp ((peek_eq_byte h1 (by decide)).mp hquote)
  apply (string_meets h1).bind
  rintro _ ⟨k, rest, hk, hdecode, rfl⟩
  rw [hk] at h h1
  have h2 := h1.after
  apply Meets.require
  intro hfresh
  apply (ws_meets h2).bind
  rintro _ ⟨w', rest, hw', rfl, rfl⟩
  have h3 := h2.after
  apply Meets.require
  intro hcolon
  obtain ⟨rest, rfl⟩ := List.head?_eq_some_iff.mp ((peek_eq_byte h3 (by decide)).mp hcolon)
  rw [advance_ascii h3 (by decide), ok_bind]
  apply (hv _ rest h3.tail hd).bind
  rintro _ ⟨t, w'', s, rest, hw'', hs, rfl, hgood, rfl⟩
  refine Meets.ok ⟨(k, t), w, _, rest, hw, Member.mk hw' hw'' hs, ?_, ⟨hgood, hdecode, hfresh⟩, ?_⟩
  · rw [hk]
    simp
  · simp [after_after, memberValue]

theorem nodup_of_fresh {α γ : Type} {g : α → γ} {l : List α}
    (h : ∀ pre b post, l = pre ++ b :: post → g b ∉ pre.map g) : (l.map g).Nodup := by
  induction l using List.reverseRecOn with
  | nil => simp
  | append_singleton l b ih =>
      rw [List.map_append, List.nodup_append]
      refine ⟨ih fun pre c post hl => h pre c (post ++ [b]) (by simp [hl]), by simp, ?_⟩
      rintro x hx y hy rfl
      have hfresh := h l b [] rfl
      simp only [List.map_cons, List.map_nil, List.mem_singleton] at hy
      exact hfresh (hy ▸ hx)

theorem within_arr {room : ℕ} {ts : List Syntax} (h : GoodAfter (Fine room) [] ts) :
    Document.Within (room + 1) (.arr ts : Syntax) ∧ Accepted (.arr ts) := by
  have hmem : ∀ t ∈ ts, Fine room [] t := by
    intro t ht
    obtain ⟨pre, post, rfl⟩ := List.append_of_mem ht
    exact h pre t post rfl
  constructor
  · exact Document.Within.arr room ts fun t ht => (hmem t ht).1
  · exact Document.All.arr ts fun t ht => (hmem t ht).2

theorem within_obj {room : ℕ} {ms : List (List Piece × Syntax)}
    (h : GoodAfter (FineMember room) [] ms) :
    Document.Within (room + 1) (.obj ms : Syntax) ∧ Accepted (.obj ms) := by
  have hmem : ∀ e ∈ ms, Fine room [] e.2 ∧ (decode e.1).isSome = true := by
    intro e he
    obtain ⟨pre, post, rfl⟩ := List.append_of_mem he
    have hgood := h pre e post rfl
    exact ⟨hgood.1, hgood.2.1⟩
  constructor
  · exact Document.Within.obj room ms fun e he => (hmem e he).1.1
  · apply Document.All.obj ms (fun e he => (hmem e he).2) fun e he => (hmem e he).1.2
    rw [List.map_map]
    apply nodup_of_fresh
    intro pre e post heq
    have hfresh := (h pre e post heq).2.2
    simpa [memberValue, Function.comp_def] using hfresh

/-- One level deeper at the same position. -/
def deeper (p : Parser) : Parser := { p with depth := p.depth + 1 }

theorem At.deeper {p : Parser} {cs : List Char} (h : At p cs) : At (deeper p) cs :=
  ⟨h.small, h.bound, h.rest⟩

theorem nested_eq {body : Parser → Outcome (Json × Parser)} {p : Parser}
    (hd : p.depth < maxDepth) : nested body p = (do
      let r ← body (deeper p)
      .ok (r.1, { r.2 with depth := ← wordSub r.2.depth 1 })) := by
  unfold nested deeper
  rw [wordAdd_of_le (by unfold maxDepth at hd; unfold maxWord; omega)]
  rfl

theorem wordSub_deeper (p : Parser) (s : List Char) :
    wordSub (after (deeper p) s).depth 1 = .ok p.depth := if_pos (Nat.le_add_left 1 p.depth)

theorem nested_ok {body : Parser → Outcome (Json × Parser)} {p : Parser} {v : Json}
    {s : List Char} (hd : p.depth < maxDepth) (h : body (deeper p) = .ok (v, after (deeper p) s)) :
    nested body p = .ok (v, after p s) := by
  rw [nested_eq hd, h, ok_bind]
  dsimp only
  rw [wordSub_deeper]
  rfl

/-- What the body reads one level deeper, the nested reader reads. -/
theorem nested_meets {body : Parser → Outcome (Json × Parser)} {p : Parser}
    {Q : Json → List Char → Prop} (hd : p.depth < maxDepth)
    (h : Meets (body (deeper p)) fun r => ∃ s, Q r.1 s ∧ r.2 = after (deeper p) s) :
    Meets (nested body p) fun r => ∃ s, Q r.1 s ∧ r.2 = after p s := by
  rw [nested_eq hd]
  apply h.bind
  rintro ⟨v, q⟩ ⟨s, hs, rfl⟩
  dsimp only
  rw [wordSub_deeper]
  exact Meets.ok ⟨s, hs, rfl⟩

/-- The reading of one value, without the whitespace before it. -/
def ReadsTree (room : ℕ) (p : Parser) (cs : List Char) (r : Json × Parser) : Prop :=
  ∃ t s rest, Value t s ∧ cs = s ++ rest ∧ Fine room [] t ∧ r = (treeValue t, after p s)

theorem array_meets {value : Parser → Outcome (Json × Parser)} {room : ℕ} {p : Parser}
    {cs : List Char} (hv : Reads value (p.depth + 1) room) (h : At p ('[' :: cs))
    (hd : p.depth < maxDepth) :
    Meets (nested (array value) p) (ReadsTree (room + 1) p ('[' :: cs)) := by
  have hitem : ∀ (before : List Syntax) q cs, At q cs → q.depth = p.depth + 1 →
      Meets (value q) (ReadsItem treeValue Value (Fine room) before q cs) :=
    fun _ q cs hq hqd => hv q cs hq hqd
  have hbody : Meets (array value (deeper p)) _ :=
    bracketed_meets (by decide) (by decide) hitem (At.deeper h) rfl
  apply (nested_meets (Q := fun v s => ∃ t rest, Value t s ∧ '[' :: cs = s ++ rest ∧
    Fine (room + 1) [] t ∧ v = treeValue t) hd (hbody.mono ?_)).mono
  · rintro ⟨v, q⟩ ⟨s, ⟨t, rest, hs, hcs, hgood, rfl⟩, hq⟩
    cases hq
    exact ⟨t, s, rest, hs, hcs, hgood, rfl⟩
  · rintro _ ⟨ts, s, rest, hts, rfl, hgood, rfl⟩
    refine ⟨_, ⟨.arr ts, rest, ?_, ?_, within_arr hgood, ?_⟩, rfl⟩
    · rcases hts with ⟨rfl, hw⟩ | hts
      · exact Value.emptyArr hw
      · exact Value.arr hts
    · simp
    · rw [treeValue, Document.map]
      rfl

theorem object_meets {value : Parser → Outcome (Json × Parser)} {room : ℕ} {p : Parser}
    {cs : List Char} (hv : Reads value (p.depth + 1) room) (h : At p ('{' :: cs))
    (hd : p.depth < maxDepth) :
    Meets (nested (object value) p) (ReadsTree (room + 1) p ('{' :: cs)) := by
  have hbody : Meets (object value (deeper p)) _ :=
    bracketed_meets (by decide) (by decide) (member_meets hv) (At.deeper h) rfl
  apply (nested_meets (Q := fun v s => ∃ t rest, Value t s ∧ '{' :: cs = s ++ rest ∧
    Fine (room + 1) [] t ∧ v = treeValue t) hd (hbody.mono ?_)).mono
  · rintro ⟨v, q⟩ ⟨s, ⟨t, rest, hs, hcs, hgood, rfl⟩, hq⟩
    cases hq
    exact ⟨t, s, rest, hs, hcs, hgood, rfl⟩
  · rintro _ ⟨ms, s, rest, hms, rfl, hgood, rfl⟩
    refine ⟨_, ⟨.obj ms, rest, ?_, ?_, within_obj hgood, ?_⟩, rfl⟩
    · rcases hms with ⟨rfl, hw⟩ | hms
      · exact Value.emptyObj hw
      · exact Value.obj hms
    · simp
    · rw [treeValue, Document.map_obj]
      rfl

theorem literal_reads {room : ℕ} {p : Parser} {cs lit : List Char} {t : Syntax} (h : At p cs)
    (hlit : ∀ c ∈ lit, c.toNat < 128) (ht : Value t lit) (hgood : Fine room [] t) :
    Meets (literal p lit (treeValue t)) (ReadsTree room p cs) := by
  apply (literal_meets h hlit (treeValue t)).mono
  rintro _ ⟨rest, rfl, rfl⟩
  exact ⟨t, lit, rest, ht, rfl, hgood, rfl⟩

theorem dispatch_meets {value : Parser → Outcome (Json × Parser)} {room : ℕ} {p : Parser}
    {c : Char} {cs : List Char} (h : At p (c :: cs))
    (hnest : c = '{' ∨ c = '[' →
      p.depth < maxDepth ∧ ∃ k, room = k + 1 ∧ Reads value (p.depth + 1) k) :
    Meets (dispatch value p (headByte c)) (ReadsTree room p (c :: cs)) := by
  have hbyte : ∀ k : Char, k.toNat < 128 → (headByte c = byte k ↔ c = k) :=
    fun k hk => headByte_eq_iff hk
  unfold dispatch
  simp only [hbyte '{' (by decide), hbyte '[' (by decide), hbyte '"' (by decide),
    hbyte 't' (by decide), hbyte 'f' (by decide), hbyte 'n' (by decide), hbyte '-' (by decide)]
  split_ifs with h1 h2 h3 h4 h5 h6 h7
  · subst h1
    obtain ⟨hd, k, rfl, hv⟩ := hnest (.inl rfl)
    exact object_meets hv h hd
  · subst h2
    obtain ⟨hd, k, rfl, hv⟩ := hnest (.inr rfl)
    exact array_meets hv h hd
  · subst h3
    apply (string_meets h).bind
    rintro _ ⟨ps, rest, hcs, hps, rfl⟩
    exact Meets.ok ⟨.str ps, _, rest, Value.str ps, hcs,
      ⟨Document.Within.str room ps, Document.All.str ps hps⟩, by simp [treeValue, Document.map]⟩
  · have hlit : Meets _ (ReadsTree room p (c :: cs)) := literal_reads h (by simp) Value.true
      ⟨Document.Within.bool room true, Document.All.bool true⟩
    simpa [treeValue, Document.map] using hlit
  · have hlit : Meets _ (ReadsTree room p (c :: cs)) := literal_reads h (by simp) Value.false
      ⟨Document.Within.bool room false, Document.All.bool false⟩
    simpa [treeValue, Document.map] using hlit
  · have hlit : Meets _ (ReadsTree room p (c :: cs)) := literal_reads h (by simp) Value.null
      ⟨Document.Within.null room, Document.All.null⟩
    simpa [treeValue, Document.map] using hlit
  · apply (number_meets h).mono
    rintro _ ⟨n, rest, hcs, hn, rfl⟩
    exact ⟨.num n, _, rest, Value.num n, hcs,
      ⟨Document.Within.num room n, Document.All.num n hn⟩, by simp [treeValue, Document.map]⟩
  · exact Meets.err _

theorem value_succ_meets {room d : ℕ} (hd : d + room = maxDepth)
    (hnest : ∀ k, room = k + 1 → Reads (value room) (d + 1) k) :
    Reads (value (room + 1)) d room := by
  intro p cs h hpd
  rw [value]
  apply (ws_meets h).bind
  rintro _ ⟨w, rest, hw, rfl, rfl⟩
  have hp := h.after
  apply Meets.require
  intro hdeep
  cases rest with
  | nil =>
      rw [peek_eq hp]
      exact Meets.err _
  | cons c cs =>
      have hopen : c = '{' ∨ c = '[' →
          (after p w).depth < maxDepth ∧
            ∃ k, room = k + 1 ∧ Reads (value room) ((after p w).depth + 1) k := by
        intro hc
        rw [peek_eq_byte hp (by decide), peek_eq_byte hp (by decide)] at hdeep
        have hlt : d < maxDepth := by
          by_contra hge
          exact hdeep ⟨by simpa using hc, by simp only [after_depth]; omega⟩
        obtain ⟨k, hk⟩ : ∃ k, room = k + 1 := ⟨room - 1, by omega⟩
        rw [after_depth, hpd]
        exact ⟨hlt, k, hk, hnest k hk⟩
      rw [peek_eq hp]
      apply (dispatch_meets hp hopen).mono
      rintro _ ⟨t, s, rest, hs, hcs, hgood, rfl⟩
      exact ⟨t, w, s, rest, hw, hs, by rw [hcs], hgood, by rw [after_after]⟩

/-- A value is read as a tree of the grammar with as many levels as are left. -/
theorem value_meets (room d : ℕ) (hd : d + room = maxDepth) :
    Reads (value (room + 1)) d room := by
  induction room generalizing d with
  | zero => exact value_succ_meets hd fun k hk => by omega
  | succ room ih =>
      apply value_succ_meets hd
      intro k hk
      cases hk
      exact ih (d + 1) (by omega)

/-- A reader accepts every text of a tree with at most `room` levels. -/
def Accepts (value : Parser → Outcome (Json × Parser)) (d room : ℕ) : Prop :=
  ∀ t w s rest p, At p (w ++ (s ++ rest)) → p.depth = d → Whitespace w → Value t s →
    Fine room [] t → Follows rest → value p = .ok (treeValue t, after p (w ++ s))

theorem follows_whitespace {w rest : List Char} (hw : Whitespace w) (h : Follows rest) :
    Follows (w ++ rest) := by
  cases w with
  | nil => exact h
  | cons x w =>
      have hx := hw x (by simp)
      unfold isWhitespace at hx
      rcases of_decide_eq_true hx with rfl | rfl | rfl | rfl <;> rfl

theorem EndsItem.follows {close : Char} {rest : List Char} (h : EndsItem close rest)
    (hclose : Follows [close]) : Follows rest := by
  obtain ⟨w, c, rest, hw, hc, rfl⟩ := h
  apply follows_whitespace hw
  rcases hc with rfl | rfl
  · rfl
  · exact hclose

theorem arr_goodAfter {room : ℕ} {ts : List Syntax} (h : Fine (room + 1) [] (.arr ts)) :
    GoodAfter (Fine room) [] ts := by
  intro pre t post heq
  subst heq
  cases h.1 with
  | arr _ _ hwithin =>
      cases h.2 with
      | arr _ hall => exact ⟨hwithin t (by simp), hall t (by simp)⟩

theorem obj_goodAfter {room : ℕ} {ms : List (List Piece × Syntax)}
    (h : Fine (room + 1) [] (.obj ms)) : GoodAfter (FineMember room) [] ms := by
  intro pre e post heq
  subst heq
  cases h.1 with
  | obj _ _ hwithin =>
      cases h.2 with
      | obj _ hkeys hall hnodup =>
          refine ⟨⟨hwithin e (by simp), hall e (by simp)⟩, hkeys e (by simp), ?_⟩
          intro hmem
          simp only [List.map_append, List.map_cons, List.map_map] at hnodup
          have hdisj := (List.nodup_append.mp hnodup).2.2 (stringValue e.1)
            (by simpa [memberValue] using hmem) (stringValue e.1) (by simp)
          exact hdisj rfl

theorem member_append {value : Parser → Outcome (Json × Parser)} {d room : ℕ} {close : Char}
    (hv : Accepts value d room) (hclose : Follows [close])
    (before : List (List Piece × Syntax)) (e : List Piece × Syntax) (w s rest : List Char)
    (p : Parser) (h : At p (w ++ (s ++ rest))) (hd : p.depth = d) (hw : Whitespace w)
    (hs : Member Value e s) (hgood : FineMember room before e) (hrest : EndsItem close rest) :
    member value (before.map memberValue) p = .ok (memberValue e, after p (w ++ s)) := by
  cases hs with
  | @mk k t w' w'' s hw' hw'' hs =>
      have hfollows := hrest.follows hclose
      replace h : At p (w ++ (stringText k ++ (w' ++ ':' :: (w'' ++ (s ++ rest))))) := by
        simpa using h
      have h1 := h.after
      have h2 := h1.after
      have h3 := h2.after
      have hquote : peek (after p w) = some (byte '"') := (peek_eq_byte h1 (by decide)).mpr rfl
      unfold member
      rw [ws_append h hw rfl, ok_bind, require_of hquote, ok_bind, string_append h1 hgood.2.1,
        ok_bind]
      dsimp only
      rw [require_of hgood.2.2, ok_bind, ws_append h2 hw' rfl, ok_bind,
        require_of ((peek_eq_byte h3 (by decide)).mpr rfl), ok_bind,
        advance_ascii h3 (by decide), ok_bind,
        hv t w'' s rest _ h3.tail hd hw'' hs hgood.1 hfollows, ok_bind]
      simp [after_after, memberValue]

/-- The first character of a value tells its kind. -/
def Starts (c : Char) : Prop :=
  c = '{' ∨ c = '[' ∨ c = '"' ∨ c = 't' ∨ c = 'f' ∨ c = 'n' ∨ c = '-' ∨ c.isDigit = true

theorem number_head (n : Number) :
    ∃ c u, n.text = c :: u ∧ (c = '-' ∨ c.isDigit = true) := by
  unfold Number.text signText
  cases n.neg with
  | true => exact ⟨'-', _, rfl, .inl rfl⟩
  | false =>
      cases hds : n.int.chars with
      | nil => exact absurd hds n.int.ne_nil
      | cons d ds => exact ⟨d, _, rfl, .inr (n.int.isDigit d (by simp [hds]))⟩

theorem value_head {t : Syntax} {s : List Char} (h : Value t s) :
    ∃ c u, s = c :: u ∧ Starts c := by
  unfold Starts
  cases h with
  | null => exact ⟨'n', _, rfl, by decide⟩
  | true => exact ⟨'t', _, rfl, by decide⟩
  | false => exact ⟨'f', _, rfl, by decide⟩
  | num n =>
      obtain ⟨c, u, heq, hc⟩ := number_head n
      exact ⟨c, u, heq, by tauto⟩
  | str ps => exact ⟨'"', _, rfl, by decide⟩
  | emptyArr hw => exact ⟨'[', _, rfl, by decide⟩
  | arr hs => exact ⟨'[', _, rfl, by decide⟩
  | emptyObj hw => exact ⟨'{', _, rfl, by decide⟩
  | obj hs => exact ⟨'{', _, rfl, by decide⟩

theorem not_isWhitespace_of_starts {c : Char} (h : Starts c) : isWhitespace c = false := by
  unfold isWhitespace
  rw [decide_eq_false_iff_not]
  rintro (rfl | rfl | rfl | rfl) <;> revert h <;> unfold Starts <;> decide

theorem value_begins {t : Syntax} {s : List Char} (h : Value t s) : Begins ']' s := by
  obtain ⟨c, u, rfl, hc⟩ := value_head h
  refine ⟨c, u, rfl, not_isWhitespace_of_starts hc, ?_⟩
  rintro rfl
  revert hc
  unfold Starts
  decide

theorem member_begins {e : List Piece × Syntax} {s : List Char} (h : Member Value e s) :
    Begins '}' s := by
  cases h
  exact ⟨'"', _, rfl, rfl, by decide⟩

theorem array_append {value : Parser → Outcome (Json × Parser)} {room : ℕ} {p : Parser}
    {ts : List Syntax} {s rest : List Char} (hv : Accepts value (p.depth + 1) room)
    (h : At p ('[' :: (s ++ ']' :: rest))) (hd : p.depth < maxDepth)
    (hs : ts = [] ∧ Whitespace s ∨ Items Value ts s) (hgood : Fine (room + 1) [] (.arr ts)) :
    nested (array value) p = .ok (treeValue (.arr ts), after p ('[' :: (s ++ [']']))) := by
  apply nested_ok hd
  rw [treeValue, Document.map]
  rcases hs with ⟨rfl, hw⟩ | hs
  · exact bracketed_empty (by decide) (by decide) rfl (At.deeper h) hw
  · have hitem : ∀ (before : List Syntax) t w s rest q, At q (w ++ (s ++ rest)) →
        q.depth = p.depth + 1 → Whitespace w → Value t s → Fine room before t →
          EndsItem ']' rest → value q = .ok (treeValue t, after q (w ++ s)) :=
      fun _ t w s rest q hq hqd hw ht hfine hend =>
        hv t w s rest q hq hqd hw ht hfine (hend.follows rfl)
    exact bracketed_append (by decide) (by decide) (by decide) rfl (fun _ _ => value_begins) hitem
      hs (At.deeper h) rfl (arr_goodAfter hgood)

theorem object_append {value : Parser → Outcome (Json × Parser)} {room : ℕ} {p : Parser}
    {ms : List (List Piece × Syntax)} {s rest : List Char}
    (hv : Accepts value (p.depth + 1) room) (h : At p ('{' :: (s ++ '}' :: rest)))
    (hd : p.depth < maxDepth) (hs : ms = [] ∧ Whitespace s ∨ Items (Member Value) ms s)
    (hgood : Fine (room + 1) [] (.obj ms)) :
    nested (object value) p = .ok (treeValue (.obj ms), after p ('{' :: (s ++ ['}']))) := by
  apply nested_ok hd
  rw [treeValue, Document.map_obj]
  rcases hs with ⟨rfl, hw⟩ | hs
  · exact bracketed_empty (by decide) (by decide) rfl (At.deeper h) hw
  · exact bracketed_append (by decide) (by decide) (by decide) rfl (fun _ _ => member_begins)
      (member_append hv rfl) hs (At.deeper h) rfl (obj_goodAfter hgood)

theorem within_arr_pos {room : ℕ} {ts : List Syntax} (h : Fine room [] (.arr ts)) :
    ∃ k, room = k + 1 := by
  cases h.1 with
  | arr k _ _ => exact ⟨k, rfl⟩

theorem within_obj_pos {room : ℕ} {ms : List (List Piece × Syntax)}
    (h : Fine room [] (.obj ms)) : ∃ k, room = k + 1 := by
  cases h.1 with
  | obj k _ _ => exact ⟨k, rfl⟩

theorem dispatch_number {value : Parser → Outcome (Json × Parser)} {p : Parser} {c : Char}
    (hc : c = '-' ∨ c.isDigit = true) : dispatch value p (headByte c) = number p := by
  have hne : ∀ k : Char, k.toNat < 128 → k ≠ '-' → k.isDigit = false → headByte c ≠ byte k := by
    intro k hk hminus hdigit h
    rw [headByte_eq_iff hk] at h
    subst h
    simp [hminus, hdigit] at hc
  have hnum : headByte c = byte '-' ∨ isAsciiDigit (headByte c) = true := by
    rw [headByte_eq_iff (by decide), (agree_digit c).1]
    exact hc
  unfold dispatch
  rw [if_neg (hne '{' (by decide) (by decide) rfl), if_neg (hne '[' (by decide) (by decide) rfl),
    if_neg (hne '"' (by decide) (by decide) rfl), if_neg (hne 't' (by decide) (by decide) rfl),
    if_neg (hne 'f' (by decide) (by decide) rfl), if_neg (hne 'n' (by decide) (by decide) rfl),
    if_pos hnum]

theorem dispatch_append {value : Parser → Outcome (Json × Parser)} {room : ℕ} {p : Parser}
    {t : Syntax} {c : Char} {u rest : List Char} (h : At p (c :: u ++ rest))
    (ht : Value t (c :: u)) (hgood : Fine room [] t) (hrest : Follows rest)
    (hnest : ∀ k, room = k + 1 → p.depth < maxDepth ∧ Accepts value (p.depth + 1) k) :
    dispatch value p (headByte c) = .ok (treeValue t, after p (c :: u)) := by
  generalize hs : c :: u = s at h ht
  cases ht with
  | null =>
      cases hs
      have hlit : literal p ['n', 'u', 'l', 'l'] .null = _ := literal_append h (by simp) .null
      rw [treeValue, Document.map]
      exact hlit
  | true =>
      cases hs
      have hlit : literal p ['t', 'r', 'u', 'e'] (.bool true) = _ :=
        literal_append h (by simp) (.bool true)
      rw [treeValue, Document.map]
      exact hlit
  | false =>
      cases hs
      have hlit : literal p ['f', 'a', 'l', 's', 'e'] (.bool false) = _ :=
        literal_append h (by simp) (.bool false)
      rw [treeValue, Document.map]
      exact hlit
  | num n =>
      obtain ⟨d, v, hn, hd⟩ := number_head n
      rw [hn] at hs
      cases hs
      cases hgood.2 with
      | num _ hfin =>
          rw [dispatch_number hd, number_append h hfin hrest, treeValue, Document.map]
  | str ps =>
      have hc : c = '"' := (List.cons.inj hs).1
      subst hc
      cases hgood.2 with
      | str _ hps =>
          unfold dispatch
          rw [if_neg (by decide), if_neg (by decide), if_pos ((headByte_eq_iff (by decide)).mpr rfl),
            string_append h hps, ok_bind, treeValue, Document.map]
  | @emptyArr w hw =>
      cases hs
      obtain ⟨k, rfl⟩ := within_arr_pos hgood
      obtain ⟨hd, hv⟩ := hnest k rfl
      exact array_append hv (by simpa using h) hd (.inl ⟨rfl, hw⟩) hgood
  | @arr ts s hts =>
      cases hs
      obtain ⟨k, rfl⟩ := within_arr_pos hgood
      obtain ⟨hd, hv⟩ := hnest k rfl
      exact array_append hv (by simpa using h) hd (.inr hts) hgood
  | @emptyObj w hw =>
      cases hs
      obtain ⟨k, rfl⟩ := within_obj_pos hgood
      obtain ⟨hd, hv⟩ := hnest k rfl
      exact object_append hv (by simpa using h) hd (.inl ⟨rfl, hw⟩) hgood
  | @obj ms s hms =>
      cases hs
      obtain ⟨k, rfl⟩ := within_obj_pos hgood
      obtain ⟨hd, hv⟩ := hnest k rfl
      exact object_append hv (by simpa using h) hd (.inr hms) hgood

/-- Only arrays and objects begin with an opening bracket. -/
theorem room_pos_of_open {room : ℕ} {t : Syntax} {c : Char} {u : List Char}
    (ht : Value t (c :: u)) (hopen : c = '{' ∨ c = '[') (hgood : Fine room [] t) :
    ∃ k, room = k + 1 := by
  generalize hs : c :: u = s at ht
  cases ht with
  | num n =>
      obtain ⟨d, v, hn, hd⟩ := number_head n
      have hcd : c = d := (List.cons.inj (hs.trans hn)).1
      subst hcd
      rcases hopen with rfl | rfl <;> exact absurd hd (by decide)
  | emptyArr _ => exact within_arr_pos hgood
  | arr _ => exact within_arr_pos hgood
  | emptyObj _ => exact within_obj_pos hgood
  | obj _ => exact within_obj_pos hgood
  | str ps =>
      rw [(List.cons.inj hs).1] at hopen
      exact absurd hopen (by decide)
  | null =>
      rw [(List.cons.inj hs).1] at hopen
      exact absurd hopen (by decide)
  | true =>
      rw [(List.cons.inj hs).1] at hopen
      exact absurd hopen (by decide)
  | false =>
      rw [(List.cons.inj hs).1] at hopen
      exact absurd hopen (by decide)

theorem value_succ_append {room d : ℕ} (hd : d + room = maxDepth)
    (hnest : ∀ k, room = k + 1 → Accepts (value room) (d + 1) k) :
    Accepts (value (room + 1)) d room := by
  intro t w s rest p h hpd hw ht hgood hrest
  obtain ⟨c, u, rfl, hc⟩ := value_head ht
  have hp := h.after
  have hdeep : ¬((peek (after p w) = some (byte '{') ∨ peek (after p w) = some (byte '[')) ∧
      maxDepth ≤ (after p w).depth) := by
    rw [peek_eq_byte hp (by decide), peek_eq_byte hp (by decide)]
    rintro ⟨hopen, hle⟩
    obtain ⟨k, hk⟩ := room_pos_of_open ht (by simpa using hopen) hgood
    rw [after_depth] at hle
    omega
  have hroom : ∀ k, room = k + 1 →
      (after p w).depth < maxDepth ∧ Accepts (value room) ((after p w).depth + 1) k := by
    intro k hk
    rw [after_depth, hpd]
    exact ⟨by omega, hnest k hk⟩
  rw [value, ws_append h hw (by simpa using not_isWhitespace_of_starts hc), ok_bind]
  dsimp only
  rw [require_of hdeep, ok_bind, peek_eq hp]
  apply (dispatch_append hp ht hgood hrest hroom).trans
  rw [after_after]

/-- A text of a tree is read with its value when as many levels are left as it has. -/
theorem value_append (room d : ℕ) (hd : d + room = maxDepth) :
    Accepts (value (room + 1)) d room := by
  induction room generalizing d with
  | zero => exact value_succ_append hd fun k hk => by omega
  | succ room ih =>
      apply value_succ_append hd
      intro k hk
      cases hk
      exact ih (d + 1) (by omega)

end SlhaV2.JsonParsing
