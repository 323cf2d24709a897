import MinSum.Failure
import MinSum.Text.Quoted

/-! Documents, the trees in which tables, domains and settings are stored, and the reading of
scalars, lists and choices. -/
namespace MinSum

inductive Document where
  | null
  | bool (b : Bool)
  | integer (n : Int)
  | number (x : Float)
  | text (s : String)
  | list (items : List Document)
  /-- No name stands twice. -/
  | fields (entries : List (String × Document))
  deriving Inhabited

inductive DocumentError where
  | missingField (name : String)
  | unknownVariant (found first second : String)
  /-- Another kind of value stands where `expected` does. -/
  | wrongKind (found expected : String)
  /-- The value is of the right kind, but out of range. -/
  | wrongValue (found expected : String)
  | wrongLength (length : Nat) (expected : String)
  | table (error : TableError Float)

def DocumentError.message : DocumentError → String
  | .missingField name => s!"missing field `{name}`"
  | .unknownVariant found first second =>
    s!"unknown variant `{found}`, expected `{first}` or `{second}`"
  | .wrongKind found expected => s!"invalid type: {found}, expected {expected}"
  | .wrongValue found expected => s!"invalid value: {found}, expected {expected}"
  | .wrongLength length expected => s!"invalid length {length}, expected {expected}"
  | .table e => e.message

namespace Document

/-- Numbers are told from integers, and a tie between two shortest decimals goes to the even
one. -/
def numberText (x : Float) : String := Decimal.Format.text ⟨.toEven, Decimal.Digits.pointed⟩ x

/-- How reports name a value that is out of place. -/
def describe : Document → String
  | null => "null"
  | bool b => s!"boolean `{b}`"
  | integer n => s!"integer `{n}`"
  | number x => s!"floating point `{numberText x}`"
  | text s => s!"string {Text.quoted s}"
  | list _ => "sequence"
  | fields _ => "map"

abbrev Read (α : Type) := Except DocumentError α

def readFloat : Document → Read Float
  | integer n => .ok (Float.ofInt n)
  | number x => .ok x
  | d => .error (.wrongKind d.describe "f64")

def readBetween (low high : Int) (kind : String) : Document → Read Int
  | integer n =>
    if low ≤ n ∧ n ≤ high then .ok n else .error (.wrongValue (integer n).describe kind)
  | d => .error (.wrongKind d.describe kind)

def readIndex (d : Document) : Read Nat :=
  (readBetween 0 0xffffffffffffffff "usize" d).map Int.toNat

def readBool : Document → Read Bool
  | bool b => .ok b
  | d => .error (.wrongKind d.describe "a boolean")

def readText : Document → Read String
  | text s => .ok s
  | d => .error (.wrongKind d.describe "a string")

def readList {α : Type} (read : Document → Read α) : Document → Read (List α)
  | list items => items.mapM read
  | d => .error (.wrongKind d.describe "a sequence")

/-- A list that stands for a set. Equal values are left to whoever takes it. -/
def readSet {α : Type} (read : Document → Read α) : Document → Read (List α)
  | list items => items.mapM read
  | d => .error (.wrongKind d.describe "a set")

/-- A value that may be absent, for which null stands. -/
def readOption {α : Type} (read : Document → Read α) : Document → Read (Option α)
  | null => .ok none
  | d => (read d).map some

/-- A choice by name: the name alone, or a single field with the name and a content. -/
def readVariant : Document → Read (String × Option Document)
  | text s => .ok (s, none)
  | fields [(name, content)] => .ok (name, some content)
  | fields entries => .error (.wrongValue (fields entries).describe "map with a single key")
  | d => .error (.wrongKind d.describe "string or map")

end Document

end MinSum
