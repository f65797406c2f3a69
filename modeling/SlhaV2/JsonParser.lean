import SlhaV2.CheckedSteps
import SlhaV2.JsonValue
import SlhaV2.Utf8Text

/-!
# The JSON parser

A recursive descent over the bytes of a string. An index past the end, an
overflow of a position, and a loop or a recursion that outruns its bound are
panics, so that a result without a panic also says that the parser returns.
-/
namespace SlhaV2.JsonParser
open MachineWord CheckedSteps DecimalText JsonValue Utf8Text

structure Parser where
  b : List UInt8
  i : ℕ
  depth : ℕ

def peek (p : Parser) : Option UInt8 := p.b[p.i]?

/-- `self.i += n`. -/
def advance (p : Parser) (n : ℕ) : Outcome Parser := do
  .ok { p with i := ← wordAdd p.i n }

/-- `while self.peek().is_some_and(f) { self.i += 1 }`; no loop is longer than the input. -/
def skipWhile (f : UInt8 → Bool) : ℕ → Parser → Outcome Parser
  | 0, p => if (peek p).any f then .error .panic else .ok p
  | n + 1, p =>
      if (peek p).any f then do skipWhile f n (← advance p 1)
      else .ok p

/-- `if self.peek().is_some_and(f) { self.i += 1 }`. -/
def skipOne (f : UInt8 → Bool) (p : Parser) : Outcome Parser :=
  if (peek p).any f then advance p 1 else .ok p

def isWs (c : UInt8) : Bool := c = byte ' ' ∨ c = byte '\t' ∨ c = byte '\n' ∨ c = byte '\r'

def isAsciiDigit (c : UInt8) : Bool := byte '0' ≤ c ∧ c ≤ byte '9'

def ws (p : Parser) : Outcome Parser := skipWhile isWs p.b.length p

def digits (p : Parser) : Outcome Parser := skipWhile isAsciiDigit p.b.length p

def literal (p : Parser) (lit : List Char) (val : Json) : Outcome (Json × Parser) := do
  let rest ← indexBetween p.b p.i p.b.length
  if (encode lit).isPrefixOf rest then do .ok (val, ← advance p (encode lit).length)
  else .error (.err s!"invalid literal at {p.i}")

/-- The integer part: zero, or digits of which the first is not zero. -/
def integerPart (start : ℕ) (p : Parser) : Outcome Parser :=
  if peek p = some (byte '0') then do
    let p ← advance p 1
    if (peek p).any isAsciiDigit then
      .error (.err s!"leading zero in number at byte {start}")
    else .ok p
  else if (peek p).any fun c => byte '1' ≤ c ∧ c ≤ byte '9' then do
    digits (← advance p 1)
  else .error (.err s!"invalid number at byte {start}")

/-- One digit or more, after what has announced them. -/
def someDigits (part : String) (p : Parser) : Outcome Parser :=
  if (peek p).any isAsciiDigit then digits p
  else .error (.err s!"missing {part} digit in number at byte {p.i}")

def fractionPart (p : Parser) : Outcome Parser :=
  if peek p = some (byte '.') then do
    someDigits "fractional" (← advance p 1)
  else .ok p

def exponentPart (p : Parser) : Outcome Parser :=
  if (peek p).any fun c => c = byte 'e' ∨ c = byte 'E' then do
    let p ← advance p 1
    let p ← skipOne (fun c => c = byte '+' ∨ c = byte '-') p
    someDigits "exponent" p
  else .ok p

def number (p : Parser) : Outcome (Json × Parser) := do
  let start := p.i
  let p ← skipOne (fun c => c = byte '-') p
  let p ← integerPart start p
  let p ← fractionPart p
  let p ← exponentPart p
  let source ← orErr (fromUtf8 (← indexBetween p.b start p.i)) "bad utf8 in number"
  let number ← orErr (parseF64 source.toList) s!"bad number '{source}'"
  require (number.isFinite = true) s!"number out of finite range '{source}'"
  .ok (.num number, p)

/-- The value of a hexadecimal digit. -/
def hexValue (c : UInt8) : Option ℕ :=
  if byte '0' ≤ c ∧ c ≤ byte '9' then some (c.toNat - (byte '0').toNat)
  else if byte 'a' ≤ c ∧ c ≤ byte 'f' then some (c.toNat - (byte 'a').toNat + 10)
  else if byte 'A' ≤ c ∧ c ≤ byte 'F' then some (c.toNat - (byte 'A').toNat + 10)
  else none

def hexLoop : ℕ → ℕ → Parser → Outcome (ℕ × Parser)
  | 0, v, p => .ok (v, p)
  | n + 1, v, p => do
      let c ← orErr (peek p) "short \\u escape"
      let d ← orErr (hexValue c) "bad hex digit"
      hexLoop n (v * 16 + d) (← advance p 1)

def hex4 (p : Parser) : Outcome (ℕ × Parser) := hexLoop 4 0 p

/-- `char::from_u32`. -/
def fromU32 (v : ℕ) : Option Char := if v.isValidChar then some (Char.ofNat v) else none

/-- The code of an escape, after its letter; a high surrogate takes a second escape. -/
def unicodeEscape (p : Parser) : Outcome (Char × Parser) := do
  let (hi, p) ← hex4 p
  if 0xD800 ≤ hi ∧ hi ≤ 0xDBFF then
    if peek p = some (byte '\\') ∧ p.b[p.i + 1]? = some (byte 'u') then do
      let p ← advance p 2
      let (lo, p) ← hex4 p
      require (0xDC00 ≤ lo ∧ lo ≤ 0xDFFF) "invalid low surrogate"
      let c := 0x10000 + (hi - 0xD800) * 2 ^ 10 + (lo - 0xDC00)
      .ok (← orErr (fromU32 c) "invalid surrogate pair", p)
    else .error (.err "lone high surrogate")
  else .ok (← orErr (fromU32 hi) "invalid code point", p)

/-- What the character after a backslash adds to the string. -/
def escape (e : UInt8) (p : Parser) : Outcome (Char × Parser) :=
  if e = byte '"' then .ok ('"', p)
  else if e = byte '\\' then .ok ('\\', p)
  else if e = byte '/' then .ok ('/', p)
  else if e = byte 'n' then .ok ('\n', p)
  else if e = byte 't' then .ok ('\t', p)
  else if e = byte 'r' then .ok ('\r', p)
  else if e = byte 'b' then .ok ('\x08', p)
  else if e = byte 'f' then .ok ('\x0c', p)
  else if e = byte 'u' then unicodeEscape p
  else .error (.err s!"bad escape '\\{Char.ofNat e.toNat}' at {p.i}")

def utf8Len (b : UInt8) : ℕ :=
  if b < 0x80 then 1
  else if b >>> 5 = 0b110 then 2
  else if b >>> 4 = 0b1110 then 3
  else if b >>> 3 = 0b11110 then 4
  else 1

/-- One character that is neither a quote, an escape nor a control character. -/
def plainChar (p : Parser) : Outcome (String × Parser) := do
  let len := utf8Len (← index p.b p.i)
  let stop ← wordAdd p.i len
  require (stop ≤ p.b.length) "truncated utf8 in string"
  let chunk ← orErr (fromUtf8 (← indexBetween p.b p.i stop)) "bad utf8 in string"
  .ok (chunk, ← advance p len)

def stringLoop : ℕ → String → Parser → Outcome (String × Parser)
  | 0, _, _ => .error .panic
  | n + 1, s, p =>
      match peek p with
      | none => .error (.err "unterminated string")
      | some c =>
          if c = byte '"' then do .ok (s, ← advance p 1)
          else if c = byte '\\' then do
            let p ← advance p 1
            let e ← orErr (peek p) "eof in escape"
            let (c, p) ← escape e (← advance p 1)
            stringLoop n (s.push c) p
          else if c < 0x20 then
            .error (.err s!"unescaped control character at byte {p.i}")
          else do
            let (chunk, p) ← plainChar p
            stringLoop n (s ++ chunk) p

def string (p : Parser) : Outcome (String × Parser) := do
  stringLoop (p.b.length + 1) "" (← advance p 1)

/-- The loop over the items of an array or of an object; a reader of one item is given
the items which are already there. -/
def itemsLoop {α : Type} (item : List α → Parser → Outcome (α × Parser)) (close : Char)
    (wrap : List α → Json) : ℕ → List α → Parser → Outcome (Json × Parser)
  | 0, _, _ => .error .panic
  | n + 1, acc, p => do
      let (v, p) ← item acc p
      let p ← ws p
      if peek p = some (byte ',') then do
        itemsLoop item close wrap n (acc ++ [v]) (← advance p 1)
      else if peek p = some (byte close) then do .ok (wrap (acc ++ [v]), ← advance p 1)
      else .error (.err s!"expected ',' or '{close}' at {p.i}")

/-- An opening bracket, items, and a closing bracket. -/
def bracketed {α : Type} (item : List α → Parser → Outcome (α × Parser)) (close : Char)
    (wrap : List α → Json) (p : Parser) : Outcome (Json × Parser) := do
  let p ← advance p 1
  let p ← ws p
  if peek p = some (byte close) then do .ok (wrap [], ← advance p 1)
  else itemsLoop item close wrap (p.b.length + 1) [] p

def array (value : Parser → Outcome (Json × Parser)) : Parser → Outcome (Json × Parser) :=
  bracketed (fun _ => value) ']' .arr

/-- One member of an object; its name may not be among those already seen. -/
def member (value : Parser → Outcome (Json × Parser)) (m : List (String × Json)) (p : Parser) :
    Outcome ((String × Json) × Parser) := do
  let p ← ws p
  require (peek p = some (byte '"')) s!"expected key string at {p.i}"
  let keyOffset := p.i
  let (k, p) ← string p
  require (k ∉ m.map Prod.fst) s!"duplicate object key '{k}' at byte {keyOffset}"
  let p ← ws p
  require (peek p = some (byte ':')) s!"expected ':' at {p.i}"
  let (v, p) ← value (← advance p 1)
  .ok ((k, v), p)

def object (value : Parser → Outcome (Json × Parser)) : Parser → Outcome (Json × Parser) :=
  bracketed (member value) '}' .obj

/-- `self.depth += 1`, the body, `self.depth -= 1`. -/
def nested (body : Parser → Outcome (Json × Parser)) (p : Parser) : Outcome (Json × Parser) := do
  let (v, p) ← body { p with depth := ← wordAdd p.depth 1 }
  .ok (v, { p with depth := ← wordSub p.depth 1 })

/-- The reading of a value by its first byte. -/
def dispatch (value : Parser → Outcome (Json × Parser)) (p : Parser) (c : UInt8) :
    Outcome (Json × Parser) :=
  if c = byte '{' then nested (object value) p
  else if c = byte '[' then nested (array value) p
  else if c = byte '"' then do
    let (s, p) ← string p
    .ok (.str s, p)
  else if c = byte 't' then literal p ['t', 'r', 'u', 'e'] (.bool true)
  else if c = byte 'f' then literal p ['f', 'a', 'l', 's', 'e'] (.bool false)
  else if c = byte 'n' then literal p ['n', 'u', 'l', 'l'] .null
  else if c = byte '-' ∨ isAsciiDigit c then number p
  else .error (.err s!"unexpected byte '{Char.ofNat c.toNat}' at {p.i}")

/-- A value; the recursion is as deep as the nesting. -/
def value : ℕ → Parser → Outcome (Json × Parser)
  | 0, _ => .error .panic
  | room + 1, p => do
      let p ← ws p
      let next := peek p
      require (¬((next = some (byte '{') ∨ next = some (byte '[')) ∧ maxDepth ≤ p.depth))
        "JSON nesting too deep"
      match next with
      | none => .error (.err "unexpected end of input")
      | some c => dispatch (value room) p c

def parseWithLimit (input : String) (maxBytes : ℕ) : Outcome Json := do
  let b := bytes input
  require (b.length ≤ maxBytes)
    s!"JSON input too large: {b.length} bytes exceeds limit {maxBytes}"
  let p ← ws { b := b, i := 0, depth := 0 }
  let (v, p) ← value (maxDepth + 1) p
  let p ← ws p
  require (p.i = p.b.length) s!"trailing data at byte {p.i}"
  .ok v

def parse (input : String) : Outcome Json := parseWithLimit input maxInputBytes

end SlhaV2.JsonParser
