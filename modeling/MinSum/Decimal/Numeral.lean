/-! Decimal numerals and the doubles they stand for. -/
namespace MinSum.Decimal

/-- The number `digits * 10 ^ exponent`. It has no exponent if it is written as digits alone. -/
structure Numeral where
  negative : Bool
  digits : Nat
  exponent : Option Int
  deriving DecidableEq, Repr

namespace Numeral

/-- The nearest double. -/
def toFloat (n : Numeral) : Float :=
  let exponent := n.exponent.getD 0
  let magnitude := Float.ofScientific n.digits (exponent < 0) exponent.natAbs
  if n.negative then -magnitude else magnitude

/-- The value of a row of decimal digits, at least one. -/
def readDigits? (cs : List Char) : Option Nat :=
  if !cs.isEmpty && cs.all Char.isDigit then
    some (cs.foldl (fun n c => 10 * n + (c.toNat - '0'.toNat)) 0)
  else none

def splitSign : List Char → Bool × List Char
  | '-' :: rest => (true, rest)
  | cs => (false, cs)

/-- The digits before the point, and those after it if there is one. Before the point a zero
stands alone or not in front. -/
def readMantissa? (cs : List Char) : Option (Nat × Option (List Char)) := do
  let whole := cs.takeWhile (· ≠ '.')
  if whole.head? = some '0' ∧ 1 < whole.length then none
  let n ← readDigits? whole
  match cs.dropWhile (· ≠ '.') with
  | [] => return (n, none)
  | _ :: fraction => return (n, some fraction)

def readExponent? : List Char → Option Int
  | '+' :: rest => (readDigits? rest).map Int.ofNat
  | cs => do
    let (negative, rest) := splitSign cs
    let n ← readDigits? rest
    return if negative then -n else n

/-- Reads digits, with an optional sign before them and an optional fraction and exponent. -/
def ofChars? (cs : List Char) : Option Numeral := do
  let (negative, cs) := splitSign cs
  let isMark := fun c : Char => c = 'e' || c = 'E'
  let (whole, fraction) ← readMantissa? (cs.takeWhile (!isMark ·))
  let power ← match cs.dropWhile (!isMark ·) with
    | [] => some none
    | _ :: rest => (readExponent? rest).map some
  match fraction with
  | none => return ⟨negative, whole, power⟩
  | some places =>
    let digits := whole * Nat.pow 10 places.length + (← readDigits? places)
    return ⟨negative, digits, some (power.getD 0 - places.length)⟩

end Numeral

end MinSum.Decimal
