import SlhaV2.DecimalText
import SlhaV2.Documents

/-!
# The grammar of RFC 8259

A syntax tree is a document whose numbers and strings are kept as they are
written. The grammar relates a tree to its texts, which differ in the whitespace
around the structural characters only.
-/
namespace SlhaV2.JsonGrammar
open DecimalText Documents ExactValues

def isWhitespace (c : Char) : Bool := c = ' ' ∨ c = '\t' ∨ c = '\n' ∨ c = '\r'

def Whitespace (w : List Char) : Prop := ∀ c ∈ w, isWhitespace c = true

/-- One digit or more. -/
structure Digits where
  chars : List Char
  ne_nil : chars ≠ []
  isDigit : ∀ c ∈ chars, c.isDigit = true

/-- `exp = e [ minus / plus ] 1*DIGIT`. -/
structure Exponent where
  mark : Char
  mark_eq : mark = 'e' ∨ mark = 'E'
  sign : Option Char
  sign_eq : ∀ c ∈ sign, c = '+' ∨ c = '-'
  digits : Digits

/-- `number = [ minus ] int [ frac ] [ exp ]`, where only zero begins with a zero. -/
structure Number where
  neg : Bool
  int : Digits
  leading : int.chars.head? = some '0' → int.chars = ['0']
  frac : Option Digits
  exp : Option Exponent

def signText (neg : Bool) : List Char := if neg then ['-'] else []

def fractionText : Option Digits → List Char
  | none => []
  | some ds => '.' :: ds.chars

def exponentText : Option Exponent → List Char
  | none => []
  | some e => e.mark :: (e.sign.toList ++ e.digits.chars)

def Number.text (n : Number) : List Char :=
  signText n.neg ++ (n.int.chars ++ (fractionText n.frac ++ exponentText n.exp))

def Number.fraction (n : Number) : List Char :=
  match n.frac with
  | none => []
  | some ds => ds.chars

def exponentValue : Option Exponent → ℤ
  | none => 0
  | some e =>
      if e.sign = some '-' then -(digitsValue e.digits.chars : ℤ)
      else digitsValue e.digits.chars

/-- The nearest `f64`. -/
def Number.toFloat (n : Number) : Float :=
  ofDecimal n.neg (digitsValue (n.int.chars ++ n.fraction))
    (exponentValue n.exp - n.fraction.length)

def hexDigit (c : Char) : Option ℕ :=
  if '0' ≤ c ∧ c ≤ '9' then some (c.toNat - '0'.toNat)
  else if 'a' ≤ c ∧ c ≤ 'f' then some (c.toNat - 'a'.toNat + 10)
  else if 'A' ≤ c ∧ c ≤ 'F' then some (c.toNat - 'A'.toNat + 10)
  else none

/-- The character that a letter after a backslash stands for. -/
def unescape (c : Char) : Option Char :=
  if c = '"' ∨ c = '\\' ∨ c = '/' then some c
  else if c = 'n' then some '\n'
  else if c = 't' then some '\t'
  else if c = 'r' then some '\r'
  else if c = 'b' then some '\x08'
  else if c = 'f' then some '\x0c'
  else none

/-- `4HEXDIG`. -/
structure Unit16 where
  chars : List Char
  length_eq : chars.length = 4
  isHex : ∀ c ∈ chars, (hexDigit c).isSome = true

def Unit16.value (u : Unit16) : ℕ := u.chars.foldl (fun v c => v * 16 + (hexDigit c).getD 0) 0

/-- `char`: unescaped, escaped by a letter, or escaped by its code. -/
inductive Piece where
  | plain (c : Char) (h : 0x20 ≤ c.toNat ∧ c ≠ '"' ∧ c ≠ '\\')
  | escape (c : Char) (h : (unescape c).isSome = true)
  | unicode (u : Unit16)

def Piece.text : Piece → List Char
  | .plain c _ => [c]
  | .escape c _ => ['\\', c]
  | .unicode u => '\\' :: 'u' :: u.chars

def stringText (ps : List Piece) : List Char := '"' :: (ps.flatMap Piece.text ++ ['"'])

def isHigh (u : ℕ) : Prop := 0xD800 ≤ u ∧ u ≤ 0xDBFF

def isLow (u : ℕ) : Prop := 0xDC00 ≤ u ∧ u ≤ 0xDFFF

instance (u : ℕ) : Decidable (isHigh u) := inferInstanceAs (Decidable (_ ∧ _))
instance (u : ℕ) : Decidable (isLow u) := inferInstanceAs (Decidable (_ ∧ _))

/-- The scalar value of a surrogate pair. -/
def pairValue (hi lo : ℕ) : ℕ := 0x10000 + (hi - 0xD800) * 2 ^ 10 + (lo - 0xDC00)

/-- The characters of a string, if each escape of a code denotes a scalar value:
a surrogate only as the half of a pair. -/
def decode : List Piece → Option (List Char)
  | [] => some []
  | .plain c _ :: ps => (decode ps).map (c :: ·)
  | .escape c _ :: ps => (decode ps).map ((unescape c).getD c :: ·)
  | .unicode u :: .unicode l :: ps =>
      if isHigh u.value then
        if isLow l.value then (decode ps).map (Char.ofNat (pairValue u.value l.value) :: ·)
        else none
      else if isLow u.value then none
      else (decode (.unicode l :: ps)).map (Char.ofNat u.value :: ·)
  | .unicode u :: ps =>
      if isHigh u.value ∨ isLow u.value then none
      else (decode ps).map (Char.ofNat u.value :: ·)

abbrev Syntax := Document Number (List Piece)

/-- Texts of items, separated by commas. -/
inductive Items {α : Type} (item : α → List Char → Prop) : List α → List Char → Prop
  | one {a : α} {w s w' : List Char} :
      Whitespace w → item a s → Whitespace w' → Items item [a] (w ++ (s ++ w'))
  | cons {a : α} {as : List α} {w s w' r : List Char} :
      Whitespace w → item a s → Whitespace w' → Items item as r →
        Items item (a :: as) (w ++ (s ++ (w' ++ ',' :: r)))

/-- `member = string name-separator value`. -/
inductive Member (value : Syntax → List Char → Prop) :
    List Piece × Syntax → List Char → Prop
  | mk {k : List Piece} {t : Syntax} {w w' s : List Char} :
      Whitespace w → Whitespace w' → value t s →
        Member value (k, t) (stringText k ++ (w ++ ':' :: (w' ++ s)))

inductive Value : Syntax → List Char → Prop
  | null : Value .null ['n', 'u', 'l', 'l']
  | true : Value (.bool true) ['t', 'r', 'u', 'e']
  | false : Value (.bool false) ['f', 'a', 'l', 's', 'e']
  | num (n : Number) : Value (.num n) n.text
  | str (ps : List Piece) : Value (.str ps) (stringText ps)
  | emptyArr {w : List Char} : Whitespace w → Value (.arr []) ('[' :: (w ++ [']']))
  | arr {a : List Syntax} {s : List Char} : Items Value a s → Value (.arr a) ('[' :: (s ++ [']']))
  | emptyObj {w : List Char} : Whitespace w → Value (.obj []) ('{' :: (w ++ ['}']))
  | obj {m : List (List Piece × Syntax)} {s : List Char} :
      Items (Member Value) m s → Value (.obj m) ('{' :: (s ++ ['}']))

/-- `JSON-text = ws value ws`. -/
def Text (t : Syntax) (s : List Char) : Prop :=
  ∃ w s' w', Whitespace w ∧ Value t s' ∧ Whitespace w' ∧ s = w ++ (s' ++ w')

end SlhaV2.JsonGrammar
