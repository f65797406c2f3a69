import SlhaV2.JsonAcceptance

/-!
# Printed values are read back

The printed form of a value is a text of the grammar. Its tree is the value with
every number and string spelt as the printer spells it, so the parser returns the
value again.
-/
namespace SlhaV2.JsonPrinting
open MachineWord SingleFloat ExactValues DecimalText Documents JsonGrammar JsonValue Utf8Text
open JsonParser hiding value hex4
open JsonNumbers JsonStrings JsonParsing JsonAcceptance

theorem head_toDigits {n : ℕ} (h : (Nat.toDigits 10 n).head? = some '0') : n = 0 := by
  induction n using Nat.strong_induction_on with
  | _ n ih =>
      rw [Nat.toDigits_eq_if (by decide)] at h
      split_ifs at h with hn
      · have hd : n.digitChar = '0' := by simpa using h
        have hall : ∀ k < 10, k.digitChar = '0' → k = 0 := by decide
        exact hall n hn hd
      · have hne : Nat.toDigits 10 (n / 10) ≠ [] := Nat.toDigits_ne_nil
        rw [List.head?_append_of_ne_nil _ hne] at h
        have hzero := ih (n / 10) (by omega) h
        omega

def decimalDigits (n : ℕ) : Digits :=
  ⟨Nat.toDigits 10 n, Nat.toDigits_ne_nil,
    fun _ hc => Nat.isDigit_of_mem_toDigits (by decide) (by decide) hc⟩

theorem decimalDigits_leading (n : ℕ) (h : (decimalDigits n).chars.head? = some '0') :
    (decimalDigits n).chars = ['0'] := by
  have hn : n = 0 := head_toDigits h
  subst hn
  rfl

def paddedDigits (k n : ℕ) : Digits :=
  ⟨padded k (Nat.toDigits 10 n), by simp [padded, Nat.toDigits_ne_nil], by
    intro c hc
    rcases List.mem_append.mp hc with hc | hc
    · rw [(List.mem_replicate.mp hc).2]
      rfl
    · exact (decimalDigits n).isDigit c hc⟩

theorem length_padded {k n : ℕ} (hk : 0 < k) (hn : n < 10 ^ k) :
    (padded k (Nat.toDigits 10 n)).length = k := by
  have hle : (Nat.toDigits 10 n).length ≤ k := (Nat.length_toDigits_le_iff (by decide) hk).mpr hn
  simp only [padded, List.length_append, List.length_replicate]
  omega

theorem digitsValue_toDigits (n : ℕ) : digitsValue (Nat.toDigits 10 n) = n :=
  Nat.ofDigitChars_ten_toDigits

theorem digitsValue_append (s t : List Char) :
    digitsValue (s ++ t) = 10 ^ t.length * digitsValue s + digitsValue t := by
  unfold digitsValue
  rw [Nat.ofDigitChars_append, Nat.ofDigitChars_eq_ofDigitChars_zero]

theorem digitsValue_padded (k n : ℕ) : digitsValue (padded k (Nat.toDigits 10 n)) = n := by
  unfold padded
  rw [digitsValue_append, digitsValue_toDigits]
  unfold digitsValue
  rw [Nat.ofDigitChars_replicate_zero]
  simp

/-- The number that a layout spells. -/
def layoutNumber (neg : Bool) (d : ℕ) (e : ℤ) : Number :=
  if 0 ≤ e then
    ⟨neg, decimalDigits (d * 10 ^ e.toNat), decimalDigits_leading _, none, none⟩
  else
    ⟨neg, decimalDigits (d / 10 ^ (-e).toNat), decimalDigits_leading _,
      some (paddedDigits (-e).toNat (d % 10 ^ (-e).toNat)), none⟩

theorem layoutNumber_text (neg : Bool) (d : ℕ) (e : ℤ) :
    (layoutNumber neg d e).text = signText neg ++ layout d e := by
  unfold layoutNumber layout
  split_ifs <;>
    simp [Number.text, fractionText, exponentText, decimalDigits, paddedDigits]

theorem layoutNumber_toFloat (neg : Bool) (d : ℕ) (e : ℤ) :
    (layoutNumber neg d e).toFloat = ofDecimal neg d e := by
  unfold layoutNumber Number.toFloat
  split_ifs with he
  · obtain ⟨k, rfl⟩ := Int.eq_ofNat_of_zero_le he
    apply ofDecimal_congr
    simp [Number.fraction, exponentValue, decimalDigits, digitsValue_toDigits]
  · have hk : 0 < (-e).toNat := by omega
    have hlt : d % 10 ^ (-e).toNat < 10 ^ (-e).toNat := Nat.mod_lt _ (by positivity)
    simp only [Number.fraction, exponentValue, decimalDigits, paddedDigits]
    rw [digitsValue_append, digitsValue_toDigits, digitsValue_padded, length_padded hk hlt,
      Nat.div_add_mod]
    congr 1
    omega

theorem isNegative_iff {u : Float.Model.UnpackedFloat} (h : toRat u ≠ 0) :
    isNegative u = true ↔ toRat u < 0 := by
  cases u with
  | infinity s => exact absurd rfl h
  | notANumber => exact absurd rfl h
  | zero s => exact absurd rfl h
  | finite s m e hm =>
      have hval : (0 : ℚ) < m * (2 : ℚ) ^ e := by positivity
      cases s with
      | positive => simpa [isNegative, toRat, signFactor] using hval.le
      | negative => simpa [isNegative, toRat, signFactor] using hval

theorem ofDecimal_zero : ofDecimal false 0 0 = Float.ofModel (.pack (.zero .positive)) := by
  unfold ofDecimal
  simp only [Nat.cast_zero, zero_mul, Bool.false_eq_true, if_false]
  rfl

/-- A finite number of value zero is one of the two zeros, which compare equal. -/
theorem zero_beq {x : Float} (hfin : x.isFinite = true) (h : value x = 0) :
    (ofDecimal false 0 0 == x) = true := by
  have hpack := pack_unpack_model x
  change x.toModel.unpack.isFinite = true at hfin
  unfold value at h
  generalize x.toModel.unpack = u at hpack hfin h
  rw [ofDecimal_zero, ← hpack]
  cases u with
  | infinity s => exact absurd hfin Bool.false_ne_true
  | notANumber => exact absurd hfin Bool.false_ne_true
  | finite s m e hm =>
      have hval : (0 : ℚ) < m * (2 : ℚ) ^ e := by positivity
      cases s with
      | positive =>
          rw [toRat, signFactor, one_mul] at h
          exact absurd h hval.ne'
      | negative =>
          rw [toRat, signFactor, neg_one_mul, neg_eq_zero] at h
          exact absurd h hval.ne'
  | zero s => cases s <;> decide

theorem beq_self_of_finite {x : Float} (hfin : x.isFinite = true) : (x == x) = true := by
  rw [Float.beq_self_iff]
  rintro rfl
  exact absurd hfin (by decide)

/-- A finite number is printed as a number of the grammar with an equal value. -/
theorem exists_number {x : Float} (hfin : x.isFinite = true) :
    ∃ n : Number, n.text = writeNum x ∧ n.toFloat.isFinite = true ∧ (n.toFloat == x) = true := by
  unfold writeNum
  rw [if_neg (by simp [hfin])]
  by_cases hint : value x = truncated x ∧ |value x| < 10 ^ 15
  · rw [if_pos hint]
    generalize truncated x = i at hint
    refine ⟨⟨decide (i < 0), decimalDigits i.natAbs, decimalDigits_leading _, none, none⟩, ?_, ?_⟩
    · simp [Number.text, signText, fractionText, exponentText, writeInt, decimalDigits]
    have hdigits : Nat.ofDigitChars 10 (decimalDigits i.natAbs).chars 0 = i.natAbs :=
      digitsValue_toDigits _
    simp only [Number.toFloat, Number.fraction, exponentValue, List.append_nil, digitsValue,
      hdigits, List.length_nil, Nat.cast_zero, sub_zero]
    by_cases hzero : value x = 0
    · have hi : i = 0 := by
        rw [hint.1] at hzero
        exact_mod_cast hzero
      subst hi
      refine ⟨?_, zero_beq hfin hzero⟩
      have hz : ofDecimal (decide ((0 : ℤ) < 0)) (Int.natAbs 0) 0 = _ := ofDecimal_zero
      rw [hz]
      decide
    · have hsign : decide (i < 0) = isNegative x.toModel.unpack := by
        have hneg := isNegative_iff hzero
        have hcast : toRat x.toModel.unpack = i := hint.1
        rw [hcast] at hneg
        rw [Bool.eq_iff_iff, hneg, decide_eq_true_iff]
        exact_mod_cast Iff.rfl
      have hx : ofDecimal (decide (i < 0)) i.natAbs 0 = x := by
        rw [hsign]
        apply ofDecimal_eq_of_value hzero
        rw [hint.1, Nat.cast_natAbs]
        simp
      rw [hx]
      exact ⟨hfin, beq_self_of_finite hfin⟩
  · rw [if_neg hint]
    have hne : value x ≠ 0 := by
      intro h0
      have htrunc : truncated x = 0 := by
        unfold truncated
        rw [h0]
        rfl
      exact hint (by simp [h0, htrunc])
    obtain ⟨d, e, htext, hread⟩ := display_reads hne
    refine ⟨layoutNumber (isNegative x.toModel.unpack) d e, ?_, ?_⟩
    · rw [layoutNumber_text, htext]
      rfl
    · rw [layoutNumber_toFloat, hread]
      exact ⟨hfin, beq_self_of_finite hfin⟩

theorem hex4_facts : ∀ n < 0x20, (hex4 n).length = 4 ∧
    ((hex4 n).all fun c => (hexDigit c).isSome) = true ∧ hexFold 0 (hex4 n) = n := by decide

/-- A character is printed as a piece that is read back as it. -/
theorem exists_piece (c : Char) : ∃ q : Piece, q.text = escapeChar c ∧ Adds [q] c := by
  have hescape : ∀ (e d : Char) (hd : unescape e = some d),
      Adds [.escape e (Option.isSome_of_eq_some hd)] d := by
    intro e d hd
    have hval : (unescape e).getD e = d := by rw [hd, Option.getD_some]
    exact hval ▸ adds_escape e (Option.isSome_of_eq_some hd)
  unfold escapeChar
  split_ifs with h1 h2 h3 h4 h5 h6
  · exact ⟨.escape '"' rfl, rfl, h1 ▸ hescape '"' '"' rfl⟩
  · exact ⟨.escape '\\' rfl, rfl, h2 ▸ hescape '\\' '\\' rfl⟩
  · exact ⟨.escape 'n' rfl, rfl, h3 ▸ hescape 'n' '\n' rfl⟩
  · exact ⟨.escape 'r' rfl, rfl, h4 ▸ hescape 'r' '\r' rfl⟩
  · exact ⟨.escape 't' rfl, rfl, h5 ▸ hescape 't' '\t' rfl⟩
  · obtain ⟨hlen, hall, hval⟩ := hex4_facts c.toNat h6
    have hhex := List.all_eq_true.mp hall
    have hu : (⟨hex4 c.toNat, hlen, hhex⟩ : Unit16).value = c.toNat := hval
    refine ⟨.unicode ⟨hex4 c.toNat, hlen, hhex⟩, rfl, ?_⟩
    generalize (⟨hex4 c.toNat, hlen, hhex⟩ : Unit16) = u at hu ⊢
    have hhigh : ¬isHigh u.value := by
      unfold isHigh
      omega
    have hlow : ¬isLow u.value := by
      unfold isLow
      omega
    have hadds := adds_unicode hhigh hlow
    rwa [hu, Char.ofNat_toNat] at hadds
  · exact ⟨.plain c ⟨Nat.le_of_not_lt h6, h1, h2⟩, rfl, adds_plain c _⟩

theorem exists_pieces (cs : List Char) :
    ∃ ps : List Piece, ps.flatMap Piece.text = cs.flatMap escapeChar ∧ decode ps = some cs := by
  induction cs with
  | nil => exact ⟨[], rfl, rfl⟩
  | cons c cs ih =>
      obtain ⟨q, hq, hadds⟩ := exists_piece c
      obtain ⟨ps, hps, hdecode⟩ := ih
      refine ⟨q :: ps, ?_, ?_⟩
      · rw [List.flatMap_cons, List.flatMap_cons, hq, hps]
      · have h := hadds ps
        rw [hdecode] at h
        exact h

theorem exists_string (s : String) : ∃ ps : List Piece,
    stringText ps = writeEscaped s ∧ (decode ps).isSome = true ∧ stringValue ps = s := by
  obtain ⟨ps, hps, hdecode⟩ := exists_pieces s.toList
  refine ⟨ps, ?_, ?_, ?_⟩
  · unfold stringText writeEscaped
    rw [hps]
  · simp [hdecode]
  · unfold stringValue
    rw [hdecode]
    exact String.ofList_toList

theorem whitespace_newlineIndent (indent : Option ℕ) (level : ℕ) :
    Whitespace (newlineIndent indent level) := by
  intro c hc
  cases indent with
  | none => simp [newlineIndent] at hc
  | some w =>
      rcases List.mem_cons.mp hc with rfl | hc
      · rfl
      · rw [(List.mem_replicate.mp hc).2]
        rfl

/-- Items joined by commas, each after a line break, are items of the grammar. -/
theorem items_intercalate {α β : Type} {item : β → List Char → Prop} {f : α → β}
    {g : α → List Char} {w w' : List Char} (hw : Whitespace w) (hw' : Whitespace w')
    {a : List α} (ha : a ≠ []) (h : ∀ v ∈ a, item (f v) (g v)) :
    Items item (a.map f) (List.intercalate [','] (a.map fun v => w ++ g v) ++ w') := by
  induction a with
  | nil => exact absurd rfl ha
  | cons v a ih =>
      have hv := h v (by simp)
      cases a with
      | nil => simpa [List.intercalate] using Items.one hw hv hw'
      | cons u a =>
          have hrest := ih (List.cons_ne_nil u a) fun x hx => h x (List.mem_cons_of_mem v hx)
          have hnil : Whitespace [] := by simp [Whitespace]
          have hcons := Items.cons hw hv hnil hrest
          simpa [List.intercalate] using hcons

/-- The printed form of a value is a text of its tree, whatever the layout. -/
theorem value_write {f : Float → Number} {g : String → List Piece}
    (hf : ∀ x, x.isFinite = true → (f x).text = writeNum x)
    (hg : ∀ s, stringText (g s) = writeEscaped s) (indent : Option ℕ) {room : ℕ} {v : Json}
    (hroom : v.Within room)
    (hv : v.All (fun x => x.isFinite = true) (fun _ => True) List.Nodup) :
    Value (v.map f g) (write indent room v) := by
  induction hroom with
  | null d => simpa [Document.map, write] using Value.null
  | bool d b =>
      cases b with
      | true => simpa [Document.map, write] using Value.true
      | false => simpa [Document.map, write] using Value.false
  | num d x =>
      cases hv with
      | num _ hx =>
          have hvalue := Value.num (f x)
          rw [hf x hx] at hvalue
          simpa [Document.map, write] using hvalue
  | str d s =>
      have hvalue := Value.str (g s)
      rw [hg s] at hvalue
      simpa [Document.map, write] using hvalue
  | arr d a _ ih =>
      cases hv with
      | arr _ hall =>
          rw [Document.map, write]
          split_ifs with ha
          · subst ha
            exact Value.emptyArr (w := []) (by simp [Whitespace])
          · exact Value.arr (items_intercalate (whitespace_newlineIndent indent _)
              (whitespace_newlineIndent indent _) ha fun v hv => ih v hv (hall v hv))
  | obj d m _ ih =>
      cases hv with
      | obj _ _ hall _ =>
          rw [Document.map_obj, write]
          by_cases hm : m = []
          · subst hm
            exact Value.emptyObj (w := []) (by simp [Whitespace])
          · have hspace : Whitespace (if indent.isSome then [' '] else []) := by
              intro c hc
              split_ifs at hc
              · rw [List.mem_singleton.mp hc]
                rfl
              · simp at hc
            have hmember : ∀ e ∈ m, Member Value (g e.1, e.2.map f g) (writeEscaped e.1 ++
                ':' :: ((if indent.isSome then [' '] else []) ++ write indent d e.2)) := by
              intro e he
              have h := Member.mk (k := g e.1) (w := []) (by simp [Whitespace]) hspace
                (ih e he (hall e he))
              rw [hg e.1] at h
              exact h
            have hitems := items_intercalate
              (whitespace_newlineIndent indent (maxDepth - (d + 1) + 1))
              (whitespace_newlineIndent indent (maxDepth - (d + 1))) hm hmember
            rw [if_neg hm]
            simp only [List.append_assoc] at hitems ⊢
            have hobj := Value.obj hitems
            simpa only [List.append_assoc] using hobj

/-- The printed form is read as a value equal to the one printed. -/
theorem parse_write {indent : Option ℕ} {v : Json} (hdepth : v.Within maxDepth)
    (hv : v.All (fun x => x.isFinite = true) (fun _ => True) List.Nodup)
    (hsize : (bytes (String.ofList (write indent maxDepth v))).length ≤ maxInputBytes) :
    ∃ w, parse (String.ofList (write indent maxDepth v)) = .ok w ∧ (w == v) = true := by
  have hnumber : ∀ x : Float, ∃ n : Number, x.isFinite = true →
      n.text = writeNum x ∧ n.toFloat.isFinite = true ∧ (n.toFloat == x) = true := by
    intro x
    by_cases hx : x.isFinite = true
    · obtain ⟨n, hn⟩ := exists_number hx
      exact ⟨n, fun _ => hn⟩
    · exact ⟨layoutNumber false 0 0, fun h => absurd h hx⟩
  choose f hf using hnumber
  choose g hg using exists_string
  have hvalue := value_write (fun x hx => (hf x hx).1) (fun s => (hg s).1) indent hdepth hv
  have haccepted : Accepted (v.map f g) := by
    apply hv.map
    · exact fun x hx => (hf x hx).2.1
    · exact fun s _ => (hg s).2.1
    · intro ks hks
      rw [List.map_map, show stringValue ∘ g = id from funext fun s => (hg s).2.2, List.map_id]
      exact hks
  have hreadable : Readable (v.map f g) (String.ofList (write indent maxDepth v)).toList := by
    refine ⟨⟨[], _, [], by simp [Whitespace], hvalue, by simp [Whitespace], ?_⟩,
      hdepth.map f g, haccepted⟩
    rw [String.toList_ofList]
    simp
  refine ⟨_, (parse_eq_ok hsize).mpr ⟨_, hreadable, rfl⟩, ?_⟩
  rw [treeValue, Document.map_map, show stringValue ∘ g = id from funext fun s => (hg s).2.2]
  exact Document.map_beq (fun x hx => (hf x hx).2.2) hv

/-- Values nested at most to the depth limit, with distinct names in every object and
finite numbers, are read back from their compact and from their pretty form, whenever
the form is within the size limit. -/
theorem parse_printed (v : Json) (hdepth : v.Within maxDepth)
    (hv : v.All (fun x => x.isFinite = true) (fun _ => True) List.Nodup) :
    ((bytes (toCompact v)).length ≤ maxInputBytes →
      ∃ w, parse (toCompact v) = .ok w ∧ (w == v) = true) ∧
      ((bytes (toPretty v)).length ≤ maxInputBytes →
        ∃ w, parse (toPretty v) = .ok w ∧ (w == v) = true) := by
  constructor
  · exact fun hsize => parse_write hdepth hv hsize
  · exact fun hsize => parse_write hdepth hv hsize

/-- One level of each kind, a control character and a fraction. -/
def sampleValue : Json :=
  .obj [("name\n", .arr [.num (Float.ofBits 0x3ff8000000000000), .bool true])]

theorem sampleValue_within : sampleValue.Within maxDepth := by
  apply Document.Within.obj
  intro e he
  rw [List.mem_singleton.mp he]
  apply Document.Within.arr
  intro v hv
  rcases List.mem_pair.mp hv with rfl | rfl
  · exact Document.Within.num _ _
  · exact Document.Within.bool _ _

theorem sampleValue_all :
    sampleValue.All (fun x => x.isFinite = true) (fun _ => True) List.Nodup := by
  apply Document.All.obj
  · exact fun _ _ => trivial
  · intro e he
    rw [List.mem_singleton.mp he]
    apply Document.All.arr
    intro v hv
    rcases List.mem_pair.mp hv with rfl | rfl
    · exact Document.All.num _ (by decide)
    · exact Document.All.bool _
  · exact List.nodup_singleton _

theorem parse_printed_sample :
    (∃ w, parse (toCompact sampleValue) = .ok w ∧ (w == sampleValue) = true) ∧
      ∃ w, parse (toPretty sampleValue) = .ok w ∧ (w == sampleValue) = true := by
  have h := parse_printed sampleValue sampleValue_within sampleValue_all
  exact ⟨h.1 (by decide +kernel), h.2 (by decide +kernel)⟩

end SlhaV2.JsonPrinting
