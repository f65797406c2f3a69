import Mathlib.Data.List.Destutter
import Mathlib.Data.List.Sort
import SlhaV2.DecimalNumerals
import SlhaV2.Utf8Text

/-!
# The masks of layers

The shim reads a selection of layers from a text of bytes: `all`, `none`, or identifiers and
ranges between commas. A listed selection is kept sorted and without repetitions.
-/
namespace SlhaV2.LayerMasks
open DecimalNumerals Utf8Text

abbrev Bytes := List UInt8

inductive MaskKind where
  | all
  | none
  | explicit
deriving DecidableEq

structure ParsedMask where
  valid : Bool
  kind : MaskKind
  ids : List ℕ
  spec : Bytes
  error : Bytes
deriving DecidableEq

def ParsedMask.contains (m : ParsedMask) (layerId : ℕ) : Bool :=
  match m.kind with
  | .all => true
  | .none => false
  | .explicit => m.ids.contains layerId

def ParsedMask.resolvedIds (m : ParsedMask) (numLayers : ℕ) : List ℕ :=
  match m.kind with
  | .all => List.range numLayers
  | .none => []
  | .explicit => m.ids

def codes (w : Bytes) : List ℕ := w.map UInt8.toNat

/-- At most nine digits, so that the number is a signed 32-bit one. -/
def parseUint (s : Bytes) : Option ℕ :=
  if s = [] then none
  else if s.any fun c => decide (¬ IsDigit c.toNat) then none
  else if 9 < s.length then none
  else some (valueFrom 0 (codes s))

def decimal (n : ℤ) : Bytes := bytes (toString n)

/-- The layers from the one bound to the other. -/
def span (lo hi : ℕ) : List ℕ := List.range' lo (hi + 1 - lo)

/-- Of a count of zero or less no identifier is out of range. -/
def parseToken (numLayers : ℤ) (tok : Bytes) : Except Bytes (List ℕ) :=
  if tok = [] then throw (bytes "empty token in layer mask (stray comma)")
  else if 45 ∈ tok then
    match parseUint (tok.takeWhile (· ≠ 45)), parseUint (tok.dropWhile (· ≠ 45)).tail with
    | some lo, some hi =>
      if hi < lo then throw (bytes "inverted range '" ++ tok ++ bytes "' (lo > hi)")
      else if 0 < numLayers ∧ numLayers ≤ hi then
        throw (bytes "range '" ++ tok ++ bytes "' exceeds layer count " ++ decimal numLayers)
      else return span lo hi
    | _, _ => throw (bytes "malformed range '" ++ tok ++ bytes "'")
  else
    match parseUint tok with
    | some v =>
      if 0 < numLayers ∧ numLayers ≤ v then
        throw (bytes "layer id " ++ decimal v ++ bytes " out of range [0," ++
          decimal (numLayers - 1) ++ bytes "]")
      else return [v]
    | none => throw (bytes "invalid layer id token '" ++ tok ++ bytes "'")

def parseTokens (numLayers : ℤ) : List Bytes → List ℕ → Except Bytes (List ℕ)
  | [], ids => .ok ids
  | tok :: toks, ids => do
    let more ← parseToken numLayers tok
    parseTokens numLayers toks (ids ++ more)

/-- `std::sort` and `std::unique`. -/
def sortedUnique (ids : List ℕ) : List ℕ := (ids.insertionSort (· ≤ ·)).destutter (· ≠ ·)

def parseLayerMask (spec : Bytes) (numLayers : ℤ) : ParsedMask :=
  if spec = bytes "all" then ⟨true, .all, [], spec, []⟩
  else if spec = bytes "none" then ⟨true, .none, [], spec, []⟩
  else if spec = [] then
    ⟨false, .none, [], spec, bytes "empty layer mask; use 'none' to select no layers"⟩
  else
    match parseTokens numLayers (spec.splitOn 44) [] with
    | .error e => ⟨false, .none, [], spec, e⟩
    | .ok ids =>
      if sortedUnique ids = [] then
        ⟨false, .none, [], spec,
          bytes "layer mask resolved to no layers; use 'none' to select nothing"⟩
      else ⟨true, .explicit, sortedUnique ids, spec, []⟩

@[simp] theorem codes_append (v w : Bytes) : codes (v ++ w) = codes v ++ codes w :=
  List.map_append

@[simp] theorem codes_cons (c : UInt8) (w : Bytes) : codes (c :: w) = c.toNat :: codes w := rfl

theorem mem_codes {c : UInt8} {w : Bytes} : c.toNat ∈ codes w ↔ c ∈ w := by
  constructor
  · intro h
    obtain ⟨d, hd, hcode⟩ := List.mem_map.mp h
    rwa [← UInt8.toNat_inj.mp hcode]
  · exact List.mem_map_of_mem

theorem parseUint_eq_some {s : Bytes} {v : ℕ} :
    parseUint s = some v ↔ Numeral (codes s) v ∧ s.length ≤ 9 := by
  have hdigits : (s.any fun c => decide (¬ IsDigit c.toNat)) = true ↔
      ¬ ∀ c ∈ codes s, IsDigit c := by
    simp [codes]
  unfold parseUint
  constructor
  · intro h
    split_ifs at h with hnil hdigit hlong
    cases h
    rw [hdigits, not_not] at hdigit
    exact ⟨⟨by simpa [codes] using hnil, hdigit, rfl⟩, not_lt.mp hlong⟩
  · intro h
    have hnil : s ≠ [] := by
      have hne := h.1.nonempty
      simpa [codes] using hne
    rw [if_neg hnil, if_neg (by rw [hdigits, not_not]; exact h.1.digits),
      if_neg (not_lt.mpr h.2), h.1.value]

/-- An identifier or a range within the layer count, and its bounds. -/
inductive Token (n : ℕ) : List ℕ → ℕ → ℕ → Prop where
  | id {w : List ℕ} {v : ℕ} : Numeral w v → w.length ≤ 9 → v < n → Token n w v v
  | range {a b : List ℕ} {lo hi : ℕ} : Numeral a lo → a.length ≤ 9 → Numeral b hi →
      b.length ≤ 9 → lo ≤ hi → hi < n → Token n (a ++ 45 :: b) lo hi

theorem mem_span {lo hi v : ℕ} : v ∈ span lo hi ↔ lo ≤ v ∧ v ≤ hi := by
  unfold span
  rw [List.mem_range'_1]
  omega

theorem span_self (v : ℕ) : span v v = [v] := by
  unfold span
  rw [Nat.add_sub_cancel_left]
  rfl

theorem dash_notMem {w : List ℕ} {v : ℕ} (h : Numeral w v) : 45 ∉ w := by
  intro hin
  have hdigit := h.digits 45 hin
  exact absurd hdigit (by decide)

/-- A text up to the first occurrence of a character and behind it. -/
theorem splitAt_first {α : Type} [DecidableEq α] {x : α} {w : List α} (h : x ∈ w) :
    w = w.takeWhile (· ≠ x) ++ x :: (w.dropWhile (· ≠ x)).tail := by
  induction w with
  | nil => cases h
  | cons c w ih =>
      by_cases hc : c = x
      · subst hc
        simp
      · have hw := ih ((List.mem_cons.mp h).resolve_left (Ne.symm hc))
        have hkeep : decide (c ≠ x) = true := decide_eq_true hc
        rw [List.takeWhile_cons, List.dropWhile_cons, if_pos hkeep, if_pos hkeep,
          List.cons_append, ← hw]

theorem takeWhile_first {α : Type} [DecidableEq α] {x : α} {a : List α} (h : x ∉ a)
    (b : List α) : (a ++ x :: b).takeWhile (· ≠ x) = a ∧
      ((a ++ x :: b).dropWhile (· ≠ x)).tail = b := by
  have hkeep : ∀ c ∈ a, decide (c ≠ x) = true := fun c hc =>
    decide_eq_true fun heq => h (heq ▸ hc)
  rw [List.takeWhile_append_of_pos hkeep, List.dropWhile_append_of_pos hkeep]
  simp

theorem length_codes (w : Bytes) : (codes w).length = w.length := List.length_map _

theorem parseToken_id {n : ℕ} (hn : 1 ≤ n) {tok : Bytes} (hnil : tok ≠ [])
    (hdash : (45 : UInt8) ∉ tok) {ids : List ℕ} :
    parseToken n tok = .ok ids ↔ ∃ v, parseUint tok = some v ∧ v < n ∧ ids = [v] := by
  unfold parseToken
  rw [if_neg hnil, if_neg hdash]
  cases parseUint tok with
  | none => exact ⟨nofun, nofun⟩
  | some v =>
      dsimp only
      split_ifs with hrange
      · constructor
        · exact nofun
        · intro h
          obtain ⟨u, hu, hlt, -⟩ := h
          cases hu
          omega
      · constructor
        · intro h
          cases h
          exact ⟨v, rfl, by omega, rfl⟩
        · intro h
          obtain ⟨u, hu, -, rfl⟩ := h
          cases hu
          rfl

theorem parseToken_range {n : ℕ} (hn : 1 ≤ n) {tok : Bytes} (hdash : (45 : UInt8) ∈ tok)
    {ids : List ℕ} :
    parseToken n tok = .ok ids ↔ ∃ lo hi, parseUint (tok.takeWhile (· ≠ 45)) = some lo ∧
      parseUint (tok.dropWhile (· ≠ 45)).tail = some hi ∧ lo ≤ hi ∧ hi < n ∧
      ids = span lo hi := by
  have hnil : tok ≠ [] := List.ne_nil_of_mem hdash
  unfold parseToken
  rw [if_neg hnil, if_pos hdash]
  cases parseUint (tok.takeWhile (· ≠ 45)) with
  | none => exact ⟨nofun, nofun⟩
  | some lo =>
      cases parseUint (tok.dropWhile (· ≠ 45)).tail with
      | none => exact ⟨nofun, nofun⟩
      | some hi =>
          dsimp only
          split_ifs with hinverted hrange
          · constructor
            · exact nofun
            · intro h
              obtain ⟨lo', hi', hlo, hhi, hle, -⟩ := h
              cases hlo
              cases hhi
              omega
          · constructor
            · exact nofun
            · intro h
              obtain ⟨lo', hi', hlo, hhi, -, hlt, -⟩ := h
              cases hhi
              omega
          · constructor
            · intro h
              cases h
              exact ⟨lo, hi, rfl, rfl, not_lt.mp hinverted, by omega, rfl⟩
            · intro h
              obtain ⟨lo', hi', hlo, hhi, -, -, rfl⟩ := h
              cases hlo
              cases hhi
              rfl

theorem parseToken_ok {n : ℕ} (hn : 1 ≤ n) {tok : Bytes} {ids : List ℕ} :
    parseToken n tok = .ok ids ↔ ∃ lo hi, Token n (codes tok) lo hi ∧ ids = span lo hi := by
  constructor
  · intro h
    have hnil : tok ≠ [] := by
      rintro rfl
      cases h
    by_cases hdash : (45 : UInt8) ∈ tok
    · obtain ⟨lo, hi, hlo, hhi, hle, hlt, rfl⟩ := (parseToken_range hn hdash).mp h
      have hlo := parseUint_eq_some.mp hlo
      have hhi := parseUint_eq_some.mp hhi
      rw [← length_codes] at hlo hhi
      refine ⟨lo, hi, ?_, rfl⟩
      rw [splitAt_first hdash, codes_append, codes_cons]
      exact .range hlo.1 hlo.2 hhi.1 hhi.2 hle hlt
    · obtain ⟨v, hv, hlt, rfl⟩ := (parseToken_id hn hnil hdash).mp h
      have hv := parseUint_eq_some.mp hv
      rw [← length_codes] at hv
      exact ⟨v, v, .id hv.1 hv.2 hlt, (span_self v).symm⟩
  · intro h
    obtain ⟨lo, hi, htok, rfl⟩ := h
    generalize hw : codes tok = w at htok
    cases htok with
    | id hv hlength hlt =>
        subst hw
        have hdash : (45 : UInt8) ∉ tok := fun hin => dash_notMem hv (mem_codes.mpr hin)
        have hnil : tok ≠ [] := by
          rintro rfl
          exact hv.nonempty rfl
        apply (parseToken_id hn hnil hdash).mpr
        rw [length_codes] at hlength
        exact ⟨lo, parseUint_eq_some.mpr ⟨hv, hlength⟩, hlt, span_self lo⟩
    | @range a b lo hi hlo hlolength hhi hhilength hle hlt =>
        obtain ⟨low, dashed, rfl, rfl, htail⟩ := List.map_eq_append_iff.mp hw
        obtain ⟨dash, high, rfl, hdash, rfl⟩ := List.map_eq_cons_iff.mp htail
        cases (UInt8.toNat_inj.mp hdash : dash = 45)
        have hlow : (45 : UInt8) ∉ low := fun hin => dash_notMem hlo (mem_codes.mpr hin)
        have hfirst := takeWhile_first hlow high
        have hin : (45 : UInt8) ∈ low ++ 45 :: high :=
          List.mem_append_right low List.mem_cons_self
        rw [List.length_map] at hlolength hhilength
        apply (parseToken_range hn hin).mpr
        refine ⟨lo, hi, ?_, ?_, hle, hlt, rfl⟩
        · rw [hfirst.1]
          exact parseUint_eq_some.mpr ⟨hlo, hlolength⟩
        · rw [hfirst.2]
          exact parseUint_eq_some.mpr ⟨hhi, hhilength⟩

/-- A text of tokens between commas. -/
structure Listing (n : ℕ) (w : Bytes) (toks : List Bytes) : Prop where
  nonempty : toks ≠ []
  text : w = [44].intercalate toks
  tokens : ∀ tok ∈ toks, ∃ lo hi, Token n (codes tok) lo hi

/-- A layer within the bounds of one of the tokens. -/
def Listed (n : ℕ) (toks : List Bytes) (v : ℕ) : Prop :=
  ∃ tok ∈ toks, ∃ lo hi, Token n (codes tok) lo hi ∧ lo ≤ v ∧ v ≤ hi

theorem mem_parseToken {n : ℕ} (hn : 1 ≤ n) {tok : Bytes} {ids : List ℕ}
    (h : parseToken n tok = .ok ids) (v : ℕ) :
    v ∈ ids ↔ ∃ lo hi, Token n (codes tok) lo hi ∧ lo ≤ v ∧ v ≤ hi := by
  constructor
  · intro hv
    obtain ⟨lo, hi, hspan, rfl⟩ := (parseToken_ok hn).mp h
    exact ⟨lo, hi, hspan, mem_span.mp hv⟩
  · intro hv
    obtain ⟨lo, hi, hspan, hbounds⟩ := hv
    have hids := (parseToken_ok hn).mpr ⟨lo, hi, hspan, rfl⟩
    rw [h] at hids
    cases hids
    exact mem_span.mpr hbounds

theorem parseTokens_ok {n : ℕ} (hn : 1 ≤ n) {toks : List Bytes} {ids : List ℕ} :
    (∃ out, parseTokens n toks ids = .ok out) ↔
      ∀ tok ∈ toks, ∃ lo hi, Token n (codes tok) lo hi := by
  induction toks generalizing ids with
  | nil => exact ⟨fun _ => nofun, fun _ => ⟨ids, rfl⟩⟩
  | cons tok toks ih =>
      rw [List.forall_mem_cons]
      unfold parseTokens
      cases htok : parseToken n tok with
      | error e =>
          constructor
          · intro h
            obtain ⟨out, hout⟩ := h
            cases hout
          · intro h
            obtain ⟨lo, hi, hspan⟩ := h.1
            have hok := (parseToken_ok hn).mpr ⟨lo, hi, hspan, rfl⟩
            rw [htok] at hok
            cases hok
      | ok more =>
          obtain ⟨lo, hi, hspan, -⟩ := (parseToken_ok hn).mp htok
          constructor
          · intro h
            exact ⟨⟨lo, hi, hspan⟩, ih.mp h⟩
          · intro h
            exact ih.mpr h.2

theorem mem_parseTokens {n : ℕ} (hn : 1 ≤ n) {toks : List Bytes} {ids out : List ℕ}
    (h : parseTokens n toks ids = .ok out) (v : ℕ) : v ∈ out ↔ v ∈ ids ∨ Listed n toks v := by
  induction toks generalizing ids with
  | nil =>
      cases h
      unfold Listed
      simp
  | cons tok toks ih =>
      unfold parseTokens at h
      cases htok : parseToken n tok with
      | error e =>
          rw [htok] at h
          cases h
      | ok more =>
          rw [htok] at h
          rw [ih h, List.mem_append, mem_parseToken hn htok, or_assoc]
          unfold Listed
          rw [List.exists_mem_cons_iff]

/-- The characters of a token. -/
theorem Token.chars {n : ℕ} {w : List ℕ} {lo hi : ℕ} (h : Token n w lo hi) :
    ∀ c ∈ w, IsDigit c ∨ c = 45 := by
  intro c hc
  cases h with
  | id hv hlength hlt => exact .inl (hv.digits c hc)
  | range hlo hlolength hhi hhilength hle hlt =>
      rcases List.mem_append.mp hc with ha | hb
      · exact .inl (hlo.digits c ha)
      · rcases List.mem_cons.mp hb with hdash | hb
        · exact .inr hdash
        · exact .inl (hhi.digits c hb)

theorem Token.bounds {n : ℕ} {w : List ℕ} {lo hi : ℕ} (h : Token n w lo hi) :
    w ≠ [] ∧ lo ≤ hi ∧ hi < n := by
  cases h with
  | id hv hlength hlt => exact ⟨hv.nonempty, le_rfl, hlt⟩
  | range hlo hlolength hhi hhilength hle hlt =>
      exact ⟨List.append_ne_nil_of_left_ne_nil hlo.nonempty _, hle, hlt⟩

theorem Listing.split {n : ℕ} {w : Bytes} {toks : List Bytes} (h : Listing n w toks) :
    w.splitOn 44 = toks := by
  rw [h.text]
  apply List.splitOn_intercalate 44 _ h.nonempty
  intro tok htok hin
  obtain ⟨lo, hi, hspan⟩ := h.tokens tok htok
  have hchar := hspan.chars 44 (mem_codes.mpr hin)
  revert hchar
  decide

theorem listing_split {n : ℕ} {w : Bytes} (h : ∀ tok ∈ w.splitOn 44,
    ∃ lo hi, Token n (codes tok) lo hi) : Listing n w (w.splitOn 44) where
  nonempty := List.splitOn_ne_nil 44 w
  text := (List.intercalate_splitOn 44).symm
  tokens := h

theorem sortedUnique_spec (ids : List ℕ) :
    (sortedUnique ids).Pairwise (· < ·) ∧ ∀ v, v ∈ sortedUnique ids ↔ v ∈ ids := by
  have hsorted := List.pairwise_insertionSort (· ≤ ·) ids
  have hdedup : sortedUnique ids = (ids.insertionSort (· ≤ ·)).dedup :=
    hsorted.destutter_eq_dedup
  rw [hdedup]
  constructor
  · have hle := hsorted.sublist (List.dedup_sublist _)
    have hne := List.nodup_dedup (ids.insertionSort (· ≤ ·))
    exact (hle.and hne).imp fun h => lt_of_le_of_ne h.1 h.2
  · intro v
    rw [List.mem_dedup]
    exact (List.perm_insertionSort (· ≤ ·) ids).mem_iff

/-- A single token that no listing can have. -/
theorem Listing.not_word {n : ℕ} {w : Bytes} {toks : List Bytes} (h : Listing n w toks)
    (hcomma : (44 : UInt8) ∉ w) (hword : w = [] ∨ 97 ∈ codes w ∨ 110 ∈ codes w) : False := by
  have htoks := h.split
  rw [List.splitOn_eq_singleton hcomma] at htoks
  obtain ⟨lo, hi, hspan⟩ := h.tokens w (htoks ▸ List.mem_singleton_self w)
  rcases hword with hnil | hchar | hchar
  · apply hspan.bounds.1
    rw [hnil]
    rfl
  · have hdigit := hspan.chars 97 hchar
    revert hdigit
    decide
  · have hdigit := hspan.chars 110 hchar
    revert hdigit
    decide

theorem Listing.ne_word {n : ℕ} {w : Bytes} {toks : List Bytes} (h : Listing n w toks) :
    w ≠ bytes "all" ∧ w ≠ bytes "none" ∧ w ≠ [] := by
  refine ⟨?_, ?_, ?_⟩
  · rintro rfl
    exact h.not_word (by decide) (.inr (.inl (by decide)))
  · rintro rfl
    exact h.not_word (by decide) (.inr (.inr (by decide)))
  · rintro rfl
    exact h.not_word List.not_mem_nil (.inl rfl)

/-- A listing is read as the layers that its tokens name. -/
theorem parseLayerMask_listing {n : ℕ} (hn : 1 ≤ n) {w : Bytes} {toks : List Bytes}
    (h : Listing n w toks) : ∃ ids, parseLayerMask w n = ⟨true, .explicit, ids, w, []⟩ ∧
      ids.Pairwise (· < ·) ∧ ∀ v, v ∈ ids ↔ Listed n toks v := by
  obtain ⟨out, hout⟩ := (@parseTokens_ok n hn toks []).mpr h.tokens
  have hmem : ∀ v, v ∈ sortedUnique out ↔ Listed n toks v := by
    intro v
    rw [(sortedUnique_spec out).2, mem_parseTokens hn hout]
    simp
  have hne : sortedUnique out ≠ [] := by
    obtain ⟨tok, htok⟩ := List.exists_mem_of_ne_nil toks h.nonempty
    obtain ⟨lo, hi, hspan⟩ := h.tokens tok htok
    apply @List.ne_nil_of_mem _ lo
    exact (hmem lo).mpr ⟨tok, htok, lo, hi, hspan, le_rfl, hspan.bounds.2.1⟩
  refine ⟨sortedUnique out, ?_, (sortedUnique_spec out).1, hmem⟩
  unfold parseLayerMask
  rw [if_neg h.ne_word.1, if_neg h.ne_word.2.1, if_neg h.ne_word.2.2, h.split, hout]
  exact if_neg hne

/-- What the shim accepts. -/
theorem parseLayerMask_valid {n : ℕ} (hn : 1 ≤ n) {w : Bytes} :
    (parseLayerMask w n).valid = true ↔
      w = bytes "all" ∨ w = bytes "none" ∨ ∃ toks, Listing n w toks := by
  constructor
  · intro h
    by_cases hall : w = bytes "all"
    · exact .inl hall
    by_cases hnone : w = bytes "none"
    · exact .inr (.inl hnone)
    by_cases hnil : w = []
    · subst hnil
      cases h
    unfold parseLayerMask at h
    rw [if_neg hall, if_neg hnone, if_neg hnil] at h
    cases hout : parseTokens n (w.splitOn 44) [] with
    | error e =>
        rw [hout] at h
        cases h
    | ok out => exact .inr (.inr ⟨_, listing_split ((parseTokens_ok hn).mp ⟨out, hout⟩)⟩)
  · rintro (rfl | rfl | ⟨toks, h⟩)
    · rfl
    · rfl
    · obtain ⟨ids, hmask, -⟩ := parseLayerMask_listing hn h
      rw [hmask]

end SlhaV2.LayerMasks
