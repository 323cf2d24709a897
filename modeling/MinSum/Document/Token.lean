import MinSum.Decimal.Numeral
import MinSum.Document.Basic

/-! The tokens of a document in JSON, read by an automaton that takes one character at a time. -/
namespace MinSum.Document

/-- Digits alone are an integer if they fit in 64 bits, with or without sign. Negative zero and
every other number is a double. -/
def ofNumeral (n : Decimal.Numeral) : Document :=
  let value : Int := if n.negative then -n.digits else n.digits
  let fits := -0x8000000000000000 ≤ value ∧ value ≤ 0xffffffffffffffff
  if n.exponent.isNone ∧ fits ∧ ¬(n.negative ∧ value = 0) then integer value
  else number n.toFloat

inductive Token where
  | openList
  | closeList
  | openFields
  | closeFields
  | comma
  | colon
  | scalar (d : Document)

namespace Token

def ofMark? : Char → Option Token
  | '[' => some openList
  | ']' => some closeList
  | '\x7b' => some openFields
  | '\x7d' => some closeFields
  | ',' => some comma
  | ':' => some colon
  | _ => none

def ofWord? (word : List Char) : Option Token :=
  match String.ofList word with
  | "null" => some (scalar .null)
  | "true" => some (scalar (.bool true))
  | "false" => some (scalar (.bool false))
  | _ => (Decimal.Numeral.ofChars? word).map fun n => scalar (ofNumeral n)

/-- Text between quotation marks as far as it is read, the last unit first. A unit is a code point
or, where it is escaped, half of a surrogate pair. -/
abbrev Units := List Nat

namespace Units

/-- Adds a unit. The second half of a pair makes one code point with the first half before it. -/
def push (unit : Nat) : Units → Units
  | high :: before =>
    if 0xd800 ≤ high ∧ high < 0xdc00 ∧ 0xdc00 ≤ unit ∧ unit < 0xe000 then
      (0x10000 + 0x400 * (high - 0xd800) + (unit - 0xdc00)) :: before
    else unit :: high :: before
  | [] => [unit]

def toText? (units : Units) : Option String :=
  if units.all fun n => n < 0xd800 || 0xe000 ≤ n then
    some (String.ofList (units.reverse.map Char.ofNat))
  else none

end Units

inductive Progress where
  | between
  | word (before : List Char)
  | text (units : Units)
  | escape (units : Units)
  | hex (units : Units) (count value : Nat)

structure Scanner where
  progress : Progress := .between
  tokens : List Token := []

namespace Scanner

def push (s : Scanner) (t : Token) : Scanner := ⟨.between, t :: s.tokens⟩

def isBlank (c : Char) : Bool := c = ' ' || c = '\t' || c = '\n' || c = '\x0d'

/-- Takes a character that is not part of a token before it. -/
def start (s : Scanner) (c : Char) : Scanner :=
  if isBlank c then s
  else if c = '"' then { s with progress := .text [] }
  else
    match ofMark? c with
    | some t => s.push t
    | none => { s with progress := .word [c] }

def endWord? (s : Scanner) (before : List Char) : Option Scanner :=
  (ofWord? before.reverse).map s.push

/-- What a character after a backslash stands for: itself or a control. -/
def unescape? : Char → Option Char
  | '"' => some '"'
  | '\\' => some '\\'
  | '/' => some '/'
  | 'b' => some '\x08'
  | 'f' => some '\x0c'
  | 'n' => some '\n'
  | 'r' => some '\x0d'
  | 't' => some '\t'
  | _ => none

def hexDigit? (c : Char) : Option Nat :=
  if c.isDigit then some (c.toNat - '0'.toNat)
  else if 'a' ≤ c ∧ c ≤ 'f' then some (c.toNat - 'a'.toNat + 10)
  else if 'A' ≤ c ∧ c ≤ 'F' then some (c.toNat - 'A'.toNat + 10)
  else none

/-- Takes one character. Controls in a text must be escaped. -/
def step (s : Scanner) (c : Char) : Option Scanner :=
  match s.progress with
  | .between => some (s.start c)
  | .word before =>
    if isBlank c || c = '"' || (ofMark? c).isSome then (s.endWord? before).map (·.start c)
    else some { s with progress := .word (c :: before) }
  | .text units =>
    if c = '"' then units.toText?.map fun t => s.push (.scalar (.text t))
    else if c = '\\' then some { s with progress := .escape units }
    else if c < ' ' then none
    else some { s with progress := .text (c.toNat :: units) }
  | .escape units =>
    if c = 'u' then some { s with progress := .hex units 0 0 }
    else (unescape? c).map fun c => { s with progress := .text (c.toNat :: units) }
  | .hex units count value =>
    (hexDigit? c).map fun digit =>
      let value := 16 * value + digit
      if count = 3 then { s with progress := .text (units.push value) }
      else { s with progress := .hex units (count + 1) value }

def finish? (s : Scanner) : Option (List Token) :=
  match s.progress with
  | .between => some s.tokens.reverse
  | .word before => (s.endWord? before).map (·.tokens.reverse)
  | _ => none

end Scanner

/-- The tokens of a text, unless some part of it is none. -/
def scan? (s : String) : Option (List Token) := do
  let scanner ← s.toList.foldlM Scanner.step {}
  scanner.finish?

end Token

end MinSum.Document
