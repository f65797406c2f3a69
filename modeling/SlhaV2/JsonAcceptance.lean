import SlhaV2.JsonParsing

/-!
# Which texts the parser accepts

A whole text is one value between whitespace. Within the size limit the parser
returns the value of exactly those texts whose tree meets the conditions, and an
error for all others.
-/
namespace SlhaV2.JsonAcceptance
open MachineWord CheckedSteps Documents JsonGrammar JsonValue Utf8Text JsonParser JsonScanner
open JsonNumbers JsonStrings JsonParsing

/-- The text of a tree which is not too deep and whose parts denote something. -/
def Readable (t : Syntax) (cs : List Char) : Prop :=
  Text t cs ∧ t.Within maxDepth ∧ Accepted t

def start (input : String) : Parser := { b := bytes input, i := 0, depth := 0 }

theorem at_start {input : String} (h : (bytes input).length + 4 ≤ maxWord) :
    At (start input) input.toList := by
  constructor
  · exact h
  · exact Nat.zero_le _
  · exact List.drop_zero

/-- All bytes are read exactly when no characters remain. -/
theorem At.end_iff {p : Parser} {cs : List Char} (h : At p cs) :
    p.i = p.b.length ↔ cs = [] := by
  have hlen := h.length_eq
  have hle := length_le_encode cs
  constructor
  · intro hi
    exact List.eq_nil_of_length_eq_zero (by omega)
  · rintro rfl
    simpa using hlen

theorem parseWithLimit_meets {input : String} {maxBytes : ℕ}
    (hsmall : (bytes input).length + 4 ≤ maxWord) :
    Meets (parseWithLimit input maxBytes) fun v =>
      ∃ t, Readable t input.toList ∧ v = treeValue t := by
  have h := at_start hsmall
  have hread := value_meets maxDepth 0 (Nat.zero_add _)
  unfold parseWithLimit
  apply Meets.require
  intro hlimit
  apply (ws_meets h).bind
  rintro _ ⟨w₀, rest, hw₀, hinput, rfl⟩
  rw [hinput] at h
  apply (hread _ rest h.after rfl).bind
  rintro _ ⟨t, w₁, s, rest, hw₁, hs, rfl, hgood, rfl⟩
  have hvalue : At (after (after (start input) w₀) (w₁ ++ s)) rest := by
    apply At.after
    simpa using h.after
  apply (ws_meets hvalue).bind
  rintro _ ⟨w₂, rest, hw₂, rfl, rfl⟩
  apply Meets.require
  intro hend
  have hnil := (At.end_iff hvalue.after).mp hend
  subst hnil
  refine Meets.ok ⟨t, ⟨⟨w₀ ++ w₁, s, w₂, Whitespace.append hw₀ hw₁, hs, hw₂, ?_⟩, hgood⟩, rfl⟩
  rw [hinput]
  simp

theorem parseWithLimit_append {input : String} {maxBytes : ℕ} {t : Syntax}
    (hsmall : (bytes input).length + 4 ≤ maxWord) (hlimit : (bytes input).length ≤ maxBytes)
    (ht : Readable t input.toList) :
    parseWithLimit input maxBytes = .ok (treeValue t) := by
  obtain ⟨⟨w, s, w', hw, hs, hw', hinput⟩, hgood⟩ := ht
  have h := at_start hsmall
  rw [hinput] at h
  obtain ⟨c, u, hcu, hc⟩ := value_head hs
  have hspace : (s ++ w').head?.any isWhitespace = false := by
    rw [hcu]
    simpa using not_isWhitespace_of_starts hc
  have hfollows : Follows w' := by
    have hend : Follows [] := rfl
    simpa using follows_whitespace hw' hend
  have hread := value_append maxDepth 0 (Nat.zero_add _) t [] s w' _ h.after rfl
    (by simp [Whitespace]) hs hgood hfollows
  have hws : At (after (after (start input) w) s) (w' ++ []) := by
    apply At.after
    simpa using h.after
  unfold parseWithLimit
  dsimp only
  rw [require_of hlimit, ok_bind]
  change (ws (start input) >>= _) = _
  rw [ws_append h hw hspace, ok_bind, hread, ok_bind]
  dsimp only
  rw [List.nil_append, ws_append hws hw' rfl, ok_bind,
    require_of ((At.end_iff hws.after).mpr rfl), ok_bind]

theorem parse_eq_ok {input : String} (hsize : (bytes input).length ≤ maxInputBytes) {v : Json} :
    parse input = .ok v ↔ ∃ t, Readable t input.toList ∧ v = treeValue t := by
  have hsmall : (bytes input).length + 4 ≤ maxWord := by
    unfold maxInputBytes at hsize
    unfold maxWord
    omega
  constructor
  · exact (parseWithLimit_meets hsmall).2 v
  · rintro ⟨t, ht, rfl⟩
    exact parseWithLimit_append hsmall hsize ht

/-- Within the size limit the parser accepts one text of the grammar, with the
conditions on nesting, names, escapes and numbers, and reports an error for every
other input; it returns in each case. -/
theorem parse_exact (input : String) (hsize : (bytes input).length ≤ maxInputBytes) :
    ((∃ v, parse input = .ok v) ↔ ∃ t : Syntax, Text t input.toList ∧ t.Within maxDepth ∧
      t.All (fun n => n.toFloat.isFinite = true) (fun ps => (decode ps).isSome = true)
        fun ks => (ks.map stringValue).Nodup) ∧
      ((¬∃ v, parse input = .ok v) → ∃ msg, parse input = .error (.err msg)) := by
  constructor
  · constructor
    · rintro ⟨v, hv⟩
      obtain ⟨t, ht, -⟩ := (parse_eq_ok hsize).mp hv
      exact ⟨t, ht⟩
    · rintro ⟨t, ht⟩
      exact ⟨treeValue t, (parse_eq_ok hsize).mpr ⟨t, ht, rfl⟩⟩
  · intro hno
    have hsmall : (bytes input).length + 4 ≤ maxWord := by
      unfold maxInputBytes at hsize
      unfold maxWord
      omega
    have hmeets : Meets (parse input) _ := parseWithLimit_meets hsmall
    exact hmeets.1.exists_err fun v hv => hno ⟨v, hv⟩

/-- An escaped name, a number with an exponent and a word; the escape of the second text is half
of a pair. -/
def oneMember : String := "\x7b\"\\u00e9\": [-2.5e1, true]\x7d"

def loneSurrogate : String := "\x7b\"\\ud800\": [-2.5e1, true]\x7d"

theorem parse_exact_oneMember :
    (∃ t : Syntax, Text t oneMember.toList ∧ t.Within maxDepth ∧
      t.All (fun n => n.toFloat.isFinite = true) (fun ps => (decode ps).isSome = true)
        fun ks => (ks.map stringValue).Nodup) ∧
      ∃ msg, parse loneSurrogate = .error (.err msg) := by
  constructor
  · have hok : (parse oneMember).isOk = true := by decide +kernel
    apply (parse_exact oneMember (by decide)).1.mp
    cases hparse : parse oneMember with
    | ok v => exact ⟨v, rfl⟩
    | error e =>
        rw [hparse] at hok
        cases hok
  · have hrefused : (parse loneSurrogate).isOk = false := by decide +kernel
    apply (parse_exact loneSurrogate (by decide)).2
    rintro ⟨v, hv⟩
    rw [hv] at hrefused
    cases hrefused

end SlhaV2.JsonAcceptance
