import SlhaV2.DecimalText
import SlhaV2.Documents

/-!
# JSON values and their printed form

A value is a document over `f64` numbers and strings. The printer appends to the
text which is already there; here it returns the text that it appends.
-/
namespace SlhaV2.JsonValue
open DecimalText Documents ExactValues SingleFloat

abbrev Json := Document Float String

/-- Default maximum size of a parsed document, in bytes. -/
def maxInputBytes : ℕ := 1024 * 1024

/-- Maximum number of nested arrays and objects. -/
def maxDepth : ℕ := 64

namespace Json

/-- Object field by key. -/
def get (v : Json) (key : String) : Option Json :=
  match v with
  | .obj m => (m.find? fun e => e.1 = key).map Prod.snd
  | _ => none

def asStr : Json → Option String
  | .str s => some s
  | _ => none

def asF64 : Json → Option Float
  | .num n => some n
  | _ => none

def asBool : Json → Option Bool
  | .bool b => some b
  | _ => none

def asArray : Json → Option (List Json)
  | .arr a => some a
  | _ => none

end Json

/-- Four lower-case hexadecimal digits. -/
def hex4 (n : ℕ) : List Char := padded 4 (Nat.toDigits 16 n)

def escapeChar (c : Char) : List Char :=
  if c = '"' then ['\\', '"']
  else if c = '\\' then ['\\', '\\']
  else if c = '\n' then ['\\', 'n']
  else if c = '\r' then ['\\', 'r']
  else if c = '\t' then ['\\', 't']
  else if c.toNat < 0x20 then '\\' :: 'u' :: hex4 c.toNat
  else [c]

def writeEscaped (s : String) : List Char := '"' :: (s.toList.flatMap escapeChar ++ ['"'])

def newlineIndent (indent : Option ℕ) (level : ℕ) : List Char :=
  match indent with
  | some w => '\n' :: List.replicate (w * level) ' '
  | none => []

/-- `*n as i64`; the caller has bounded the magnitude. -/
def truncated (n : Float) : ℤ := trunc (value n)

def writeInt (i : ℤ) : List Char :=
  (if i < 0 then ['-'] else []) ++ Nat.toDigits 10 i.natAbs

/-- Numbers of integral value below `1e15` have no point; what is not finite has no text. -/
def writeNum (n : Float) : List Char :=
  if n.isFinite = false then ['n', 'u', 'l', 'l']
  else if value n = truncated n ∧ |value n| < 10 ^ 15 then writeInt (truncated n)
  else display n

/-- The printer with `room` levels left below the depth limit. -/
def write (indent : Option ℕ) : ℕ → Json → List Char
  | _, .null => ['n', 'u', 'l', 'l']
  | _, .bool b => if b then ['t', 'r', 'u', 'e'] else ['f', 'a', 'l', 's', 'e']
  | _, .num n => writeNum n
  | _, .str s => writeEscaped s
  | 0, .arr _ => "[...]".toList
  | 0, .obj _ => "{...}".toList
  | room + 1, .arr a =>
      let level := maxDepth - (room + 1)
      if a = [] then ['[', ']'] else
      '[' :: (List.intercalate [','] (a.map fun v =>
        newlineIndent indent (level + 1) ++ write indent room v) ++
          newlineIndent indent level ++ [']'])
  | room + 1, .obj m =>
      let level := maxDepth - (room + 1)
      if m = [] then ['{', '}'] else
      '{' :: (List.intercalate [','] (m.map fun e =>
        newlineIndent indent (level + 1) ++ writeEscaped e.1 ++
          ':' :: ((if indent.isSome then [' '] else []) ++ write indent room e.2)) ++
            newlineIndent indent level ++ ['}'])

def toCompact (v : Json) : String := String.ofList (write none maxDepth v)

def toPretty (v : Json) : String := String.ofList (write (some 2) maxDepth v)

end SlhaV2.JsonValue
