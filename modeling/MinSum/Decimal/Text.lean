import MinSum.Decimal.Shortest

/-! Doubles as text. A report of energies writes every number positionally; a report on a document
tells numbers from integers by a point or an exponent. -/
namespace MinSum.Decimal

structure Format where
  tie : Tie
  layout : Digits → String

private def withoutTrailingZeros (digits : List Char) : List Char :=
  (digits.reverse.dropWhile (· = '0')).reverse

/-- Positional notation, with as many zeros as it takes, and no point in an integer. -/
def Digits.positional (d : Digits) : String :=
  let digits := Nat.toDigits 10 d.digits
  if 0 ≤ d.exponent then String.ofList (digits ++ List.replicate d.exponent.toNat '0')
  else
    let places := (-d.exponent).toNat
    let padded := List.replicate (places + 1 - digits.length) '0' ++ digits
    let whole := padded.length - places
    let fraction := withoutTrailingZeros (padded.drop whole)
    let point := if fraction.isEmpty then [] else ['.']
    String.ofList (padded.take whole ++ point ++ fraction)

def Digits.leading (d : Digits) : Int :=
  d.exponent + (Nat.toDigits 10 d.digits).length - 1

/-- One digit, a fraction if there are more, and an exponent that always has a sign. -/
def Digits.scientific (d : Digits) : String :=
  let digits := Nat.toDigits 10 d.digits
  let fraction := withoutTrailingZeros (digits.drop 1)
  let point := if fraction.isEmpty then [] else ['.']
  let sign := if 0 ≤ d.leading then "+" else "-"
  s!"{String.ofList (digits.take 1 ++ point ++ fraction)}e{sign}{d.leading.natAbs}"

/-- Positional notation with a point for numbers from `10 ^ (-5)` up to `10 ^ 16`, scientific
notation for others. -/
def Digits.pointed (d : Digits) : String :=
  if -5 ≤ d.leading ∧ d.leading ≤ 15 then
    let text := d.positional
    if text.contains '.' then text else text ++ ".0"
  else d.scientific

/-- The text of a double, signed zeros told apart. -/
def Format.text (f : Format) (x : Float) : String :=
  let bits := x.toBits.toNat
  let field := bits / smallestNormal % 2048
  let fraction := bits % smallestNormal
  let sign := if 2048 * smallestNormal ≤ bits then "-" else ""
  if field = 2047 then if fraction = 0 then sign ++ "inf" else "NaN"
  else
    let digits :=
      if field = 0 ∧ fraction = 0 then ⟨0, 0⟩
      else if field = 0 then shortest f.tie fraction (-1074)
      else shortest f.tie (smallestNormal + fraction) ((field : Int) - 1075)
    sign ++ f.layout digits

end MinSum.Decimal
