import SlhaV2.JsonPrinting
import SlhaV2.LayerMasks
import SlhaV2.OrderedMap
import SlhaV2.RoundingLimits
import SlhaV2.Sha256Copies

/-!
# Scales of the layers

The shim reads one scale for every layer, or one for each of some layers, from the text of an
environment variable or of a file. The scales are printed with nine decimals, and the hash of
that text names the run.
-/
namespace SlhaV2.ScoreScale
open Utf8Text LayerMasks OrderedMap SingleFloat ExactValues DecimalText JsonPrinting JsonGrammar
open Float.Model RoundingLimits
open UnpackedFloat (Sign)

def isSpace (c : UInt8) : Bool := c = 32 ∨ (9 ≤ c ∧ c ≤ 13)

def isDigit (c : UInt8) : Bool := 48 ≤ c ∧ c ≤ 57

def lower (c : UInt8) : UInt8 := if 65 ≤ c ∧ c ≤ 90 then c + 32 else c

def isHexDigit (c : UInt8) : Bool := isDigit c ∨ (97 ≤ lower c ∧ lower c ≤ 102)

def digitValue (c : UInt8) : ℕ :=
  if isDigit c then c.toNat - 48 else (lower c).toNat - 87

def valueIn (base : ℕ) (w : Bytes) : ℕ := w.foldl (fun v c => base * v + digitValue c) 0

/-- Whether a minus stands in front, and the text behind the sign. -/
def sign (w : Bytes) : Bool × Bytes :=
  if w.head? = some 45 then (true, w.tail)
  else if w.head? = some 43 then (false, w.tail)
  else (false, w)

/-- Digits with at most one point: the digits, the count of them behind the point, and the text
behind. -/
def mantissa (digit : UInt8 → Bool) (w : Bytes) : Option (Bytes × ℕ × Bytes) :=
  let whole := w.takeWhile digit
  let rest := w.dropWhile digit
  let point := rest.head? = some 46
  let fraction := if point then rest.tail.takeWhile digit else []
  if whole ++ fraction = [] then none
  else some (whole ++ fraction, fraction.length,
    if point then rest.tail.dropWhile digit else rest)

/-- A mark that no digit follows is no exponent. -/
def exponent (mark : UInt8) (w : Bytes) : ℤ × Bytes :=
  let signed := sign w.tail
  let digits := signed.2.takeWhile isDigit
  if w.head?.map lower = some mark ∧ digits ≠ [] then
    (if signed.1 then -(valueIn 10 digits : ℤ) else valueIn 10 digits,
      signed.2.dropWhile isDigit)
  else (0, w)

def hexadecimal (w : Bytes) : Option (Bytes × ℕ × Bytes) :=
  if w.head? = some 48 ∧ w.tail.head?.map lower = some 120 then mantissa isHexDigit w.tail.tail
  else none

/-- The nearest double, with the sign of the text. -/
def nearest (neg : Bool) (q : ℚ) : Float :=
  let u := ofRat .binary64 q
  .ofModel (.pack (if neg then u.neg else u))

/-- The number at the front of a text and the text behind it. The words for infinity and for a
missing number do not reach this function. -/
def strtod (w : Bytes) : Option (Float × Bytes) :=
  let signed := sign (w.dropWhile isSpace)
  match hexadecimal signed.2 with
  | some (digits, places, rest) =>
      let e := exponent 112 rest
      some (nearest signed.1 (valueIn 16 digits * (2 : ℚ) ^ (e.1 - 4 * places)), e.2)
  | none =>
      match mantissa isDigit signed.2 with
      | some (digits, places, rest) =>
          let e := exponent 101 rest
          some (nearest signed.1 (valueIn 10 digits * (10 : ℚ) ^ (e.1 - places)), e.2)
      | none => none

/-- The text is a C string: it ends at the first zero byte. -/
def parsePosDouble (s : Bytes) : Option Float :=
  if s = [] then none
  else if bytes "nan" <:+: s.map lower ∨ bytes "inf" <:+: s.map lower then none
  else
    match strtod (s.takeWhile (· ≠ 0)) with
    | none => none
    | some (v, rest) =>
      if rest ≠ [] then none
      else if v.isFinite = false then none
      else if v ≤ 0 then none
      else some v

def parseInt (s : Bytes) : Option ℕ := parseUint s

inductive Mode where
  | global
  | perLayer
deriving DecidableEq

structure ScaleMap where
  valid : Bool
  mode : Mode
  global : Float
  perLayer : Table ℤ Float
  spec : Bytes
  source : Bytes
  error : Bytes
  manifestSha256 : List Char
deriving DecidableEq

def ScaleMap.initial : ScaleMap := ⟨false, .global, 1, .empty, [], [], [], []⟩

def ScaleMap.get (m : ScaleMap) (layerId : ℤ) : Float :=
  match m.mode with
  | .global => m.global
  | .perLayer => (m.perLayer.find layerId).getD 1

/-- An integer beside a number, ties to even. -/
def roundEven (q : ℚ) : ℕ :=
  let n := ⌊q⌋.toNat
  if q - n < 1 / 2 ∨ (q - n = 1 / 2 ∧ Even n) then n else n + 1

/-- Nine decimals of a magnitude. -/
def nineDecimals (q : ℚ) : List Char :=
  let n := roundEven (q * 10 ^ 9)
  Nat.toDigits 10 (n / 10 ^ 9) ++ '.' :: padded 9 (Nat.toDigits 10 (n % 10 ^ 9))

/-- A stream prints a number in fixed notation with nine decimals. -/
def fixed (x : Float) : List Char :=
  let minus := if isNegative x.toModel.unpack then ['-'] else []
  match x.toModel.unpack with
  | .notANumber => "nan".toList
  | .infinity _ => minus ++ "inf".toList
  | .zero _ | .finite .. => minus ++ nineDecimals |value x|

def layerText (e : ℤ × Float) : List Char := JsonValue.writeInt e.1 ++ '=' :: fixed e.2

def ScaleMap.canonical (m : ScaleMap) : List Char :=
  match m.mode with
  | .global => "global=".toList ++ fixed m.global
  | .perLayer => "perlayer".toList ++ m.perLayer.entries.flatMap fun e => ';' :: layerText e

def ScaleMap.accept (m : ScaleMap) : ScaleMap :=
  { m with valid := true, manifestSha256 := Sha256Copies.Scale.sha256Hex (encode m.canonical) }

def ScaleMap.reject (m : ScaleMap) (error : Bytes) : ScaleMap := { m with error := error }

/-- The scale of one more layer. Of a count of zero or less no identifier is out of range. -/
def addLayer (numLayers : ℤ) (key val badScale : Bytes) (m : ScaleMap) : Except Bytes ScaleMap :=
  match parseInt key with
  | none => throw (bytes "invalid layer id '" ++ key ++ bytes "'")
  | some lid =>
    if 0 < numLayers ∧ numLayers ≤ lid then
      throw (bytes "layer " ++ key ++ bytes " out of range")
    else
      match parsePosDouble val with
      | none => throw badScale
      | some sc =>
        if m.perLayer.find lid = none then
          return { m with perLayer := m.perLayer.insert lid sc }
        else throw (bytes "duplicate layer " ++ key)

def isBlank (c : UInt8) : Bool := c ∈ bytes " \t\r\n"

/-- The bytes that end a value. -/
def isStop (c : UInt8) : Bool := c = 44 ∨ c = 125 ∨ isBlank c

/-- The text from the first occurrence of a pattern on. -/
def find (pattern : Bytes) : Bytes → Option Bytes
  | [] => if pattern = [] then some [] else none
  | c :: w => if pattern <+: c :: w then some (c :: w) else find pattern w

/-- The text behind the first occurrence of a byte. -/
def after (c : UInt8) (w : Bytes) : Option Bytes :=
  if c ∈ w then some (w.dropWhile (· ≠ c)).tail else none

/-- The value at the front of a text. Behind blanks alone its position is past the end, and
`substr` throws: `none`. -/
def valueText (w : Bytes) : Option Bytes :=
  if w.dropWhile isBlank = [] then none
  else some ((w.dropWhile isBlank).takeWhile fun c => !isStop c)

/-- The text behind the value and the byte that ends it. -/
def behindValue (w : Bytes) : Bytes := ((w.dropWhile isBlank).dropWhile fun c => !isStop c).tail

theorem length_after_lt {c : UInt8} {w v : Bytes} (h : after c w = some v) :
    v.length < w.length := by
  unfold after at h
  split_ifs at h with hin
  cases h
  have hsplit := congrArg List.length (splitAt_first hin)
  rw [List.length_append, List.length_cons] at hsplit
  omega

theorem length_behindValue_le (w : Bytes) : (behindValue w).length ≤ w.length := by
  unfold behindValue
  rw [List.length_tail]
  have hstop := (List.dropWhile_suffix (fun c => !isStop c) (l := w.dropWhile isBlank)).length_le
  have hblank := (List.dropWhile_suffix isBlank (l := w)).length_le
  omega

/-- The pairs of a body. A pair begins at the next quotation mark, whatever stands before. -/
def layerPairs (numLayers : ℤ) (body : Bytes) (m : ScaleMap) : Option ScaleMap :=
  match _hkey : after 34 body with
  | none =>
      some (if m.perLayer.entries = [] then m.reject (bytes "scale file has empty layers map")
        else m.accept)
  | some keyed =>
    match _hquote : after 34 keyed with
    | none => some (m.reject (bytes "unterminated key"))
    | some behindKey =>
      match _hcolon : after 58 behindKey with
      | none => some (m.reject (bytes "missing ':'"))
      | some v =>
        match valueText v with
        | none => none
        | some val =>
          let key := keyed.takeWhile (· ≠ 34)
          match addLayer numLayers key val
              (bytes "invalid scale for layer " ++ key ++ bytes ": '" ++ val ++ bytes "'") m with
          | .error e => some (m.reject e)
          | .ok m => layerPairs numLayers (behindValue v) m
termination_by body.length
decreasing_by
  have h₁ := length_after_lt _hkey
  have h₂ := length_after_lt _hquote
  have h₃ := length_after_lt _hcolon
  have h₄ := length_behindValue_le v
  omega

/-- Without a colon behind the key, the value is sought from the front of the file. -/
def globalText (json keyed : Bytes) : Option Bytes := valueText ((after 58 keyed).getD json)

def parseLayers (numLayers : ℤ) (g : Float) (json : Bytes) (m : ScaleMap) : Option ScaleMap :=
  match find (bytes "\"layers\"") json with
  | none => some { m with mode := .global, global := g }.accept
  | some keyed =>
    match after 123 keyed with
    | none => some (m.reject (bytes "malformed layers object"))
    | some body =>
      if 125 ∈ body then
        layerPairs numLayers (body.takeWhile (· ≠ 125)) { m with mode := .perLayer, global := g }
      else some (m.reject (bytes "malformed layers object"))

/-- `none` is an exception of `substr`. -/
def parseScaleFile (json : Bytes) (numLayers : ℤ) : Option ScaleMap :=
  let m := { ScaleMap.initial with source := bytes "file", spec := json }
  match find (bytes "\"global\"") json with
  | none => parseLayers numLayers 1 json m
  | some keyed =>
    match globalText json keyed with
    | none => none
    | some tok =>
      match parsePosDouble tok with
      | none => some (m.reject (bytes "invalid global scale '" ++ tok ++ bytes "'"))
      | some g => parseLayers numLayers g json m

def addToken (numLayers : ℤ) (tok : Bytes) (m : ScaleMap) : Except Bytes ScaleMap :=
  if tok = [] then throw (bytes "empty token in scale spec")
  else if 61 ∈ tok then
    let ks := tok.takeWhile (· ≠ 61)
    let vs := (tok.dropWhile (· ≠ 61)).tail
    addLayer numLayers ks vs
      (bytes "invalid scale '" ++ vs ++ bytes "' for layer " ++ ks) m
  else throw (bytes "missing '=' in '" ++ tok ++ bytes "'")

def addTokens (numLayers : ℤ) : List Bytes → ScaleMap → ScaleMap
  | [], m => if m.perLayer.entries = [] then m.reject (bytes "no scales parsed") else m.accept
  | tok :: toks, m =>
    match addToken numLayers tok m with
    | .error e => m.reject e
    | .ok m => addTokens numLayers toks m

def parseEnv (spec : Bytes) (numLayers : ℤ) : ScaleMap :=
  let m := { ScaleMap.initial with source := bytes "env", spec := spec }
  if bytes "layer:" <+: spec then
    let body := spec.drop 6
    if body = [] then { m with mode := .perLayer }.reject (bytes "empty per-layer scale spec")
    else addTokens numLayers (body.splitOn 44) { m with mode := .perLayer }
  else
    match parsePosDouble spec with
    | none => m.reject (bytes "invalid global scale '" ++ spec ++ bytes "'")
    | some g => { m with global := g }.accept

/-- The result of the call is the field `valid`, and `none` when the call throws. -/
def parseScoreScale (envSpec fileJson : Bytes) (numLayers : ℤ) : Option ScaleMap :=
  if fileJson ≠ [] then parseScaleFile fileJson numLayers
  else if envSpec = [] then
    some { ScaleMap.initial with source := bytes "default" }.accept
  else some (parseEnv envSpec numLayers)

/-- What the reader of numbers lets through. -/
structure Positive (x : Float) : Prop where
  finite : x.isFinite = true
  positive : ¬ x ≤ 0

theorem positive_one : Positive 1 := by
  constructor
  · decide +kernel
  · decide +kernel

theorem parsePosDouble_positive {s : Bytes} {x : Float} (h : parsePosDouble s = some x) :
    Positive x := by
  unfold parsePosDouble at h
  split_ifs at h
  split at h
  · cases h
  · split_ifs at h with hrest hfinite hle
    cases h
    exact ⟨Bool.not_eq_false _ ▸ hfinite, hle⟩

theorem unpack_zero : (0 : Float).toModel.unpack = .zero .positive := by
  have hzero : (0 : Float) = .ofModel (.pack (.zero .positive)) := by decide +kernel
  rw [hzero]
  with_unfolding_all rfl

theorem le_zero_iff {x : Float} :
    x ≤ 0 ↔ x.toModel.unpack.le (.zero .positive) = true := by
  rw [← unpack_zero]
  exact decide_eq_true_iff

theorem Positive.unpack {x : Float} (h : Positive x) :
    ∃ m e hm, x.toModel.unpack = .finite .positive m e hm := by
  have hle := h.positive
  have hfinite : x.toModel.unpack.isFinite = true := h.finite
  rw [le_zero_iff] at hle
  generalize x.toModel.unpack = u at hfinite hle
  cases u with
  | infinity s => cases hfinite
  | notANumber => cases hfinite
  | zero s => exact absurd rfl hle
  | finite s m e hm =>
      cases s with
      | negative => exact absurd rfl hle
      | positive => exact ⟨m, e, hm, rfl⟩

theorem Positive.value_pos {x : Float} (h : Positive x) : 0 < value x := by
  obtain ⟨m, e, hm, hx⟩ := h.unpack
  unfold value
  rw [hx]
  show 0 < (1 : ℚ) * (m * 2 ^ e)
  positivity

/-- A scale counted in billionths. -/
def billionths (x : Float) : ℕ := roundEven (value x * 10 ^ 9)

def billionthsText (n : ℕ) : List Char :=
  Nat.toDigits 10 (n / 10 ^ 9) ++ '.' :: padded 9 (Nat.toDigits 10 (n % 10 ^ 9))

theorem fixed_of_positive {x : Float} (h : Positive x) :
    fixed x = billionthsText (billionths x) := by
  have habs : |value x| = value x := abs_of_pos h.value_pos
  obtain ⟨m, e, hm, hx⟩ := h.unpack
  unfold fixed
  rw [hx, habs]
  rfl

theorem isDigit_of_mem_toDigits {n : ℕ} {c : Char} (h : c ∈ Nat.toDigits 10 n) : c.isDigit :=
  (decimalDigits n).isDigit c h

theorem isDigit_of_mem_padded {k n : ℕ} {c : Char} (h : c ∈ padded k (Nat.toDigits 10 n)) :
    c.isDigit :=
  (paddedDigits k n).isDigit c h

/-- The point stands behind the last digit of the whole part. -/
theorem billionthsText_injective {a b : ℕ} (h : billionthsText a = billionthsText b) : a = b := by
  have hpoint : ∀ n : ℕ, '.' ∉ Nat.toDigits 10 n := fun n hin =>
    absurd (isDigit_of_mem_toDigits hin) (by decide)
  unfold billionthsText at h
  have ha := takeWhile_first (hpoint (a / 10 ^ 9)) (padded 9 (Nat.toDigits 10 (a % 10 ^ 9)))
  have hb := takeWhile_first (hpoint (b / 10 ^ 9)) (padded 9 (Nat.toDigits 10 (b % 10 ^ 9)))
  rw [h] at ha
  have hwhole := congrArg digitsValue (ha.1.symm.trans hb.1)
  have hfraction := congrArg digitsValue (ha.2.symm.trans hb.2)
  rw [digitsValue_toDigits, digitsValue_toDigits] at hwhole
  rw [digitsValue_padded, digitsValue_padded] at hfraction
  rw [← Nat.div_add_mod a (10 ^ 9), ← Nat.div_add_mod b (10 ^ 9), hwhole, hfraction]

theorem semicolon_notMem_billionthsText (n : ℕ) : ';' ∉ billionthsText n := by
  intro h
  rcases List.mem_append.mp h with h | h
  · exact absurd (isDigit_of_mem_toDigits h) (by decide)
  · rcases List.mem_cons.mp h with h | h
    · exact absurd h (by decide)
    · exact absurd (isDigit_of_mem_padded h) (by decide)

theorem mem_writeInt {i : ℤ} {c : Char} (h : c ∈ JsonValue.writeInt i) :
    c = '-' ∨ c.isDigit := by
  rcases List.mem_append.mp h with h | h
  · split_ifs at h
    · exact .inl (List.mem_singleton.mp h)
    · cases h
  · exact .inr (isDigit_of_mem_toDigits h)

theorem natAbs_eq_of_toDigits {i j : ℤ}
    (h : Nat.toDigits 10 i.natAbs = Nat.toDigits 10 j.natAbs) : i.natAbs = j.natAbs := by
  have hvalue := congrArg digitsValue h
  rwa [digitsValue_toDigits, digitsValue_toDigits] at hvalue

theorem writeInt_injective {i j : ℤ} (h : JsonValue.writeInt i = JsonValue.writeInt j) :
    i = j := by
  have hminus : ∀ n : ℕ, ∀ w, '-' :: w ≠ Nat.toDigits 10 n := fun n w heq =>
    absurd (isDigit_of_mem_toDigits (heq ▸ List.mem_cons_self)) (by decide)
  unfold JsonValue.writeInt at h
  split_ifs at h with hi hj hj
  · have habs := natAbs_eq_of_toDigits (List.append_cancel_left h)
    omega
  · exact absurd h (hminus _ _)
  · exact absurd h.symm (hminus _ _)
  · have habs := natAbs_eq_of_toDigits h
    omega

def roundedText (e : ℤ × ℕ) : List Char := JsonValue.writeInt e.1 ++ '=' :: billionthsText e.2

theorem roundedText_injective : Function.Injective roundedText := by
  intro a b h
  have hequals : ∀ i : ℤ, '=' ∉ JsonValue.writeInt i := by
    intro i hin
    rcases mem_writeInt hin with hin | hin
    · exact absurd hin (by decide)
    · exact absurd hin (by decide)
  have ha := takeWhile_first (hequals a.1) (billionthsText a.2)
  have hb := takeWhile_first (hequals b.1) (billionthsText b.2)
  unfold roundedText at h
  rw [h] at ha
  apply Prod.ext
  · exact writeInt_injective (ha.1.symm.trans hb.1)
  · exact billionthsText_injective (ha.2.symm.trans hb.2)

theorem semicolon_notMem_roundedText (e : ℤ × ℕ) : ';' ∉ roundedText e := by
  intro h
  rcases List.mem_append.mp h with h | h
  · rcases mem_writeInt h with h | h
    · exact absurd h (by decide)
    · exact absurd h (by decide)
  · rcases List.mem_cons.mp h with h | h
    · exact absurd h (by decide)
    · exact semicolon_notMem_billionthsText e.2 h

section Sections
variable {α : Type} [DecidableEq α] {c : α} {l l' : List (List α)}

theorem takeWhile_sections (l : List (List α)) :
    (l.flatMap (c :: ·)).takeWhile (· ≠ c) = [] := by
  cases l with
  | nil => rfl
  | cons w l => simp

theorem dropWhile_sections (l : List (List α)) :
    (l.flatMap (c :: ·)).dropWhile (· ≠ c) = l.flatMap (c :: ·) := by
  cases l with
  | nil => rfl
  | cons w l => simp

theorem section_split {w : List α} (h : c ∉ w) (l : List (List α)) :
    (w ++ l.flatMap (c :: ·)).takeWhile (· ≠ c) = w ∧
      (w ++ l.flatMap (c :: ·)).dropWhile (· ≠ c) = l.flatMap (c :: ·) := by
  have hkeep : ∀ d ∈ w, decide (d ≠ c) = true := fun d hd =>
    decide_eq_true fun heq => h (heq ▸ hd)
  constructor
  · rw [List.takeWhile_append_of_pos hkeep, takeWhile_sections, List.append_nil]
  · rw [List.dropWhile_append_of_pos hkeep, dropWhile_sections]

/-- Sections without the separator are found again. -/
theorem sections_injective (hl : ∀ w ∈ l, c ∉ w) (hl' : ∀ w ∈ l', c ∉ w)
    (h : l.flatMap (c :: ·) = l'.flatMap (c :: ·)) : l = l' := by
  induction l generalizing l' with
  | nil =>
      cases l' with
      | nil => rfl
      | cons w' l' => simp at h
  | cons w l ih =>
      cases l' with
      | nil => simp at h
      | cons w' l' =>
          have hw := List.forall_mem_cons.mp hl
          have hw' := List.forall_mem_cons.mp hl'
          rw [List.flatMap_cons, List.flatMap_cons, List.cons_append, List.cons_append] at h
          have htail := List.tail_eq_of_cons_eq h
          have hs := section_split hw.1 l
          have hs' := section_split hw'.1 l'
          rw [htail] at hs
          rw [hs.1.symm.trans hs'.1, ih hw.2 hw'.2 (hs.2.symm.trans hs'.2)]

end Sections

/-- Every scale of the map is a positive number. -/
structure Sound (m : ScaleMap) : Prop where
  global : Positive m.global
  perLayer : ∀ e ∈ m.perLayer, Positive e.2

/-- A layer is added when its identifier is new and in range and its scale is positive. -/
theorem addLayer_eq_ok {n : ℤ} {key val bad : Bytes} {m m' : ScaleMap} :
    addLayer n key val bad m = .ok m' ↔ ∃ lid sc, parseInt key = some lid ∧
      ¬(0 < n ∧ n ≤ lid) ∧ parsePosDouble val = some sc ∧ m.perLayer.find lid = none ∧
      m' = { m with perLayer := m.perLayer.insert lid sc } := by
  unfold addLayer
  cases hkey : parseInt key with
  | none =>
      constructor
      · exact nofun
      · intro h
        obtain ⟨_, _, h, _⟩ := h
        cases h
  | some lid =>
      cases hval : parsePosDouble val with
      | none =>
          constructor
          · intro h
            dsimp only at h
            split_ifs at h
          · intro h
            obtain ⟨_, _, _, _, h, _⟩ := h
            cases h
      | some sc =>
          dsimp only
          constructor
          · intro h
            split_ifs at h with hrange hnew
            cases h
            exact ⟨lid, sc, rfl, hrange, rfl, hnew, rfl⟩
          · intro h
            obtain ⟨lid', sc', hlid, hrange, hsc, hnew, hm'⟩ := h
            cases hlid
            cases hsc
            rw [if_neg hrange, if_pos hnew, hm']
            rfl

theorem sound_addLayer {n : ℤ} {key val bad : Bytes} {m m' : ScaleMap} (hm : Sound m)
    (h : addLayer n key val bad m = .ok m') : Sound m' := by
  obtain ⟨lid, sc, _, _, hsc, _, hm'⟩ := addLayer_eq_ok.mp h
  subst hm'
  constructor
  · exact hm.global
  · intro e he
    rcases Table.mem_insert.mp he with he | he
    · rw [he]
      exact parsePosDouble_positive hsc
    · exact hm.perLayer e he.1

theorem sound_addTokens {n : ℤ} {toks : List Bytes} {m : ScaleMap} (hm : Sound m) :
    Sound (addTokens n toks m) := by
  induction toks generalizing m with
  | nil =>
      unfold addTokens
      split_ifs
      · exact ⟨hm.global, hm.perLayer⟩
      · exact ⟨hm.global, hm.perLayer⟩
  | cons tok toks ih =>
      unfold addTokens
      split
      · exact ⟨hm.global, hm.perLayer⟩
      · rename_i m' hadd
        apply ih
        unfold addToken at hadd
        split_ifs at hadd
        exact sound_addLayer hm hadd

theorem sound_layerPairs {n : ℤ} (body : Bytes) {m m' : ScaleMap} (hm : Sound m)
    (h : layerPairs n body m = some m') : Sound m' := by
  fun_induction layerPairs n body m with
  | case1 body m _ =>
      cases h
      split_ifs
      · exact ⟨hm.global, hm.perLayer⟩
      · exact ⟨hm.global, hm.perLayer⟩
  | case2 | case3 | case5 =>
      cases h
      exact ⟨hm.global, hm.perLayer⟩
  | case4 => cases h
  | case6 body m keyed _ behindKey _ v _ val _ key m₁ hadd ih => exact ih (sound_addLayer hm hadd) h

theorem sound_parseLayers {n : ℤ} {g : Float} {json : Bytes} {m m' : ScaleMap} (hm : Sound m)
    (hg : Positive g) (h : parseLayers n g json m = some m') : Sound m' := by
  unfold parseLayers at h
  split at h
  · cases h
    exact ⟨hg, hm.perLayer⟩
  · split at h
    · cases h
      exact ⟨hm.global, hm.perLayer⟩
    · split_ifs at h
      · apply sound_layerPairs _ _ h
        exact ⟨hg, hm.perLayer⟩
      · cases h
        exact ⟨hm.global, hm.perLayer⟩

theorem sound_parseScaleFile {json : Bytes} {n : ℤ} {m : ScaleMap}
    (h : parseScaleFile json n = some m) : Sound m := by
  have hinitial : Sound { ScaleMap.initial with source := bytes "file", spec := json } :=
    ⟨positive_one, nofun⟩
  unfold parseScaleFile at h
  split at h
  · exact sound_parseLayers hinitial positive_one h
  · split at h
    · cases h
    · split at h
      · cases h
        exact ⟨positive_one, nofun⟩
      · rename_i g hg
        exact sound_parseLayers hinitial (parsePosDouble_positive hg) h

theorem sound_parseEnv (spec : Bytes) (n : ℤ) : Sound (parseEnv spec n) := by
  unfold parseEnv
  dsimp only
  split_ifs
  · exact ⟨positive_one, nofun⟩
  · apply sound_addTokens
    exact ⟨positive_one, nofun⟩
  · split
    · exact ⟨positive_one, nofun⟩
    · rename_i g hg
      exact ⟨parsePosDouble_positive hg, nofun⟩

/-- Whatever the source, the scales of a map are positive. -/
theorem sound_parseScoreScale {envSpec fileJson : Bytes} {n : ℤ} {m : ScaleMap}
    (h : parseScoreScale envSpec fileJson n = some m) : Sound m := by
  unfold parseScoreScale at h
  split_ifs at h
  · exact sound_parseScaleFile h
  · cases h
    exact ⟨positive_one, nofun⟩
  · cases h
    exact sound_parseEnv _ _

theorem Sound.positive_get {m : ScaleMap} (h : Sound m) (l : ℤ) : Positive (m.get l) := by
  unfold ScaleMap.get
  cases m.mode with
  | global => exact h.global
  | perLayer =>
      dsimp only
      cases hfind : m.perLayer.find l with
      | none => exact positive_one
      | some x => exact h.perLayer _ (Table.find_eq_some.mp hfind)

/-- The scales that a map gives, each under the layer it is for, if it is for one. -/
def ScaleMap.scales (m : ScaleMap) : List (Option ℤ × Float) :=
  match m.mode with
  | .global => [(none, m.global)]
  | .perLayer => m.perLayer.entries.map fun e => (some e.1, e.2)

/-- The scales to nine decimals. -/
def ScaleMap.rounded (m : ScaleMap) : List (Option ℤ × ℕ) :=
  m.scales.map fun e => (e.1, billionths e.2)

/-- To nine decimals the maps give the same scales, and yet not the same ones. -/
def Blurred (m₁ m₂ : ScaleMap) : Prop := m₁.rounded = m₂.rounded ∧ m₁.scales ≠ m₂.scales

variable {m m₁ m₂ : ScaleMap}

theorem rounded_global (hm : m.mode = .global) : m.rounded = [(none, billionths m.global)] := by
  unfold ScaleMap.rounded ScaleMap.scales
  rw [hm]
  rfl

theorem rounded_perLayer (hm : m.mode = .perLayer) :
    m.rounded = (m.perLayer.entries.map fun e => (e.1, billionths e.2)).map
      fun e => (some e.1, e.2) := by
  unfold ScaleMap.rounded ScaleMap.scales
  rw [hm, List.map_map, List.map_map]
  rfl

theorem canonical_global (h : Sound m) (hm : m.mode = .global) :
    m.canonical = "global=".toList ++ billionthsText (billionths m.global) := by
  unfold ScaleMap.canonical
  rw [hm, ← fixed_of_positive h.global]

theorem canonical_perLayer (h : Sound m) (hm : m.mode = .perLayer) :
    m.canonical = "perlayer".toList ++
      ((m.perLayer.entries.map fun e => (e.1, billionths e.2)).map roundedText).flatMap
        (';' :: ·) := by
  have htext : ∀ e ∈ m.perLayer.entries,
      layerText e = roundedText (e.1, billionths e.2) := by
    intro e he
    unfold layerText roundedText
    rw [fixed_of_positive (h.perLayer e he)]
  unfold ScaleMap.canonical
  rw [hm, List.map_map, List.flatMap_map]
  apply congrArg ("perlayer".toList ++ ·)
  exact List.flatMap_congr fun e he => congrArg (';' :: ·) (htext e he)

theorem none_notMem_rounded (hm : m.mode = .perLayer) (n : ℕ) : (none, n) ∉ m.rounded := by
  intro h
  rw [rounded_perLayer hm] at h
  obtain ⟨e, _, he⟩ := List.mem_map.mp h
  cases he

theorem mode_eq_of_rounded (h : m₁.rounded = m₂.rounded) : m₁.mode = m₂.mode := by
  cases hm₁ : m₁.mode with
  | global =>
      cases hm₂ : m₂.mode with
      | global => rfl
      | perLayer =>
          rw [rounded_global hm₁] at h
          exact absurd (h ▸ List.mem_cons_self) (none_notMem_rounded hm₂ _)
  | perLayer =>
      cases hm₂ : m₂.mode with
      | global =>
          rw [rounded_global hm₂] at h
          exact absurd (h ▸ List.mem_cons_self) (none_notMem_rounded hm₁ _)
      | perLayer => rfl

theorem mode_eq_of_canonical (h₁ : Sound m₁) (h₂ : Sound m₂)
    (h : m₁.canonical = m₂.canonical) : m₁.mode = m₂.mode := by
  cases hm₁ : m₁.mode with
  | global =>
      cases hm₂ : m₂.mode with
      | global => rfl
      | perLayer =>
          rw [canonical_global h₁ hm₁, canonical_perLayer h₂ hm₂] at h
          injection h with h
          exact absurd h (by decide)
  | perLayer =>
      cases hm₂ : m₂.mode with
      | global =>
          rw [canonical_perLayer h₁ hm₁, canonical_global h₂ hm₂] at h
          injection h with h
          exact absurd h (by decide)
      | perLayer => rfl

theorem some_fst_injective {α : Type} : Function.Injective fun e : ℤ × α => (some e.1, e.2) := by
  intro a b heq
  have hpair := Prod.mk.inj heq
  exact Prod.ext (Option.some.inj hpair.1) hpair.2

/-- The text tells the mode, the layers and nine decimals of the scales, and no more. -/
theorem canonical_eq_iff (h₁ : Sound m₁) (h₂ : Sound m₂) :
    m₁.canonical = m₂.canonical ↔ m₁.rounded = m₂.rounded := by
  have hmode : m₁.mode = m₂.mode → (m₁.canonical = m₂.canonical ↔ m₁.rounded = m₂.rounded) := by
    intro hmode
    cases hm₁ : m₁.mode with
    | global =>
        have hm₂ := hmode.symm.trans hm₁
        rw [canonical_global h₁ hm₁, canonical_global h₂ hm₂, rounded_global hm₁,
          rounded_global hm₂, List.append_cancel_left_eq]
        constructor
        · intro h
          rw [billionthsText_injective h]
        · intro h
          injection h with h
          rw [(Prod.mk.inj h).2]
    | perLayer =>
        have hm₂ := hmode.symm.trans hm₁
        have hfree : ∀ l : List (ℤ × ℕ), ∀ w ∈ l.map roundedText, ';' ∉ w := by
          intro l w hw
          obtain ⟨e, _, hw⟩ := List.mem_map.mp hw
          subst hw
          exact semicolon_notMem_roundedText e
        rw [canonical_perLayer h₁ hm₁, canonical_perLayer h₂ hm₂, rounded_perLayer hm₁,
          rounded_perLayer hm₂, List.append_cancel_left_eq,
          (List.map_injective_iff.mpr some_fst_injective).eq_iff]
        constructor
        · intro h
          apply List.map_injective_iff.mpr roundedText_injective
          exact sections_injective (hfree _) (hfree _) h
        · intro h
          rw [h]
  constructor
  · intro h
    exact (hmode (mode_eq_of_canonical h₁ h₂ h)).mp h
  · intro h
    exact (hmode (mode_eq_of_rounded h)).mpr h

theorem get_eq_of_scales (h : m₁.scales = m₂.scales) (l : ℤ) : m₁.get l = m₂.get l := by
  have hround : m₁.rounded = m₂.rounded := congrArg (List.map _) h
  have hmode := mode_eq_of_rounded hround
  unfold ScaleMap.scales at h
  unfold ScaleMap.get
  rw [hmode] at h ⊢
  cases hm₂ : m₂.mode with
  | global =>
      rw [hm₂] at h
      injection h with h
      exact (Prod.mk.inj h).2
  | perLayer =>
      rw [hm₂] at h
      have hentries := List.map_injective_iff.mpr some_fst_injective h
      show (m₁.perLayer.find l).getD 1 = (m₂.perLayer.find l).getD 1
      unfold Table.find
      rw [hentries]

/-- An entry of the one map is one of the other, when both name its layer and agree on it. -/
theorem mem_of_get {t t' : Table ℤ Float} {e : ℤ × Float}
    (hids : t.entries.map Prod.fst = t'.entries.map Prod.fst)
    (hget : ∀ l, (t.find l).getD 1 = (t'.find l).getD 1) (he : e ∈ t) : e ∈ t' := by
  have hid : e.1 ∈ t'.entries.map Prod.fst := hids ▸ List.mem_map_of_mem he
  obtain ⟨e', he', hkey⟩ := List.mem_map.mp hid
  have hfind : t.find e.1 = some e.2 := Table.find_eq_some.mpr he
  have hfind' : t'.find e.1 = some e'.2 := by
    rw [← hkey]
    exact Table.find_eq_some.mpr he'
  have hscale := hget e.1
  rw [hfind, hfind'] at hscale
  have heq : e = e' := Prod.ext hkey.symm hscale
  rw [heq]
  exact he'

theorem scales_eq_of_get (hround : m₁.rounded = m₂.rounded)
    (hget : ∀ l, m₁.get l = m₂.get l) : m₁.scales = m₂.scales := by
  have hmode := mode_eq_of_rounded hround
  unfold ScaleMap.get at hget
  unfold ScaleMap.scales
  rw [hmode] at hget ⊢
  cases hm₂ : m₂.mode with
  | global =>
      have hglobal := hget 0
      rw [hm₂] at hglobal
      exact congrArg (fun g => [(none, g)]) hglobal
  | perLayer =>
      rw [rounded_perLayer (hmode.trans hm₂), rounded_perLayer hm₂] at hround
      have hids : m₁.perLayer.entries.map Prod.fst = m₂.perLayer.entries.map Prod.fst := by
        have hfst := congrArg (List.map fun e => e.1.getD 0) hround
        simpa only [List.map_map, Function.comp_def, Option.getD_some] using hfst
      have hagree : ∀ l, (m₁.perLayer.find l).getD 1 = (m₂.perLayer.find l).getD 1 := by
        intro l
        have hl := hget l
        rwa [hm₂] at hl
      have htable : m₁.perLayer = m₂.perLayer := Table.ext_mem fun e =>
        ⟨mem_of_get hids hagree, mem_of_get hids.symm fun l => (hagree l).symm⟩
      rw [htable]

/-- Equal texts mean equal scales, unless the maps differ behind the ninth decimal alone. -/
theorem identifies_iff {env₁ env₂ file₁ file₂ : Bytes} {n₁ n₂ : ℤ}
    (h₁ : parseScoreScale env₁ file₁ n₁ = some m₁)
    (h₂ : parseScoreScale env₂ file₂ n₂ = some m₂) :
    (m₁.canonical = m₂.canonical → ∀ l, m₁.get l = m₂.get l) ↔ ¬Blurred m₁ m₂ := by
  rw [canonical_eq_iff (sound_parseScoreScale h₁) (sound_parseScoreScale h₂)]
  constructor
  · intro h hblurred
    exact hblurred.2 (scales_eq_of_get hblurred.1 (h hblurred.1))
  · intro h hround
    apply get_eq_of_scales
    by_contra hne
    exact h ⟨hround, hne⟩

def twoLayers : ScaleMap := parseEnv (bytes "layer:1=2.5,0=0.5") 2

def twoLayersReordered : ScaleMap := parseEnv (bytes "layer:0=5e-1,1=25e-1") 2

theorem identifies_twoLayers : twoLayers.canonical = twoLayersReordered.canonical ∧
    ∀ l, twoLayers.get l = twoLayersReordered.get l := by
  have hcanonical : twoLayers.canonical = twoLayersReordered.canonical := by decide +kernel
  have hscales : twoLayers.scales = twoLayersReordered.scales := by decide +kernel
  refine ⟨hcanonical, ?_⟩
  have hfirst : parseScoreScale (bytes "layer:1=2.5,0=0.5") [] 2 = some twoLayers := rfl
  have hsecond : parseScoreScale (bytes "layer:0=5e-1,1=25e-1") [] 2 =
      some twoLayersReordered := rfl
  exact (identifies_iff hfirst hsecond).mpr (fun h => h.2 hscales) hcanonical

def tiny : ScaleMap := parseEnv (bytes "1e-10") 0

def twiceTiny : ScaleMap := parseEnv (bytes "2e-10") 0

/-- Both are valid, both are printed as zero, and the one is twice the other. -/
theorem tiny_collides : parseScoreScale (bytes "1e-10") [] 0 = some tiny ∧
    parseScoreScale (bytes "2e-10") [] 0 = some twiceTiny ∧
    tiny.valid = true ∧ twiceTiny.valid = true ∧
    ¬(tiny.canonical = twiceTiny.canonical → ∀ l, tiny.get l = twiceTiny.get l) := by
  have hcanonical : tiny.canonical = twiceTiny.canonical := by decide +kernel
  have hget : tiny.get 0 ≠ twiceTiny.get 0 := by decide +kernel
  have hvalid : tiny.valid = true ∧ twiceTiny.valid = true := by decide +kernel
  exact ⟨rfl, rfl, hvalid.1, hvalid.2, fun h => hget (h hcanonical 0)⟩

end SlhaV2.ScoreScale
