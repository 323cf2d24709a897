/-! The shortest decimal that reads back as a given double. -/
namespace MinSum.Decimal

/-- Which neighbour a value takes that lies halfway between two. -/
inductive Tie where
  | up
  | toEven
  deriving DecidableEq, Repr

/-- Whether a tie between `d` and `d + 1` goes to the latter. -/
def Tie.takesUpper : Tie → (d : Nat) → Bool
  | up, _ => true
  | toEven, d => d % 2 = 1

/-- The significands of normal doubles start here, at 53 binary digits. -/
def smallestNormal : Nat := 4503599627370496

/-- The set of reals that round to one double, and the double itself, over a common
denominator. -/
structure Rounding where
  value : Nat
  low : Nat
  high : Nat
  denominator : Nat
  /-- Whether `low` and `high` round to the double too. -/
  closed : Bool

/-- The double `m * 2 ^ q`. Below a power of two the spacing halves, unless `q` is least. -/
def Rounding.of (m : Nat) (q : Int) : Rounding :=
  let below := if m = smallestNormal ∧ -1074 < q then 1 else 2
  let unit := Nat.pow 2 (q - 2).toNat
  { value := 4 * m * unit
    low := (4 * m - below) * unit
    high := (4 * m + 2) * unit
    denominator := Nat.pow 2 (2 - q).toNat
    closed := m % 2 = 0 }

structure Digits where
  digits : Nat
  exponent : Int
  deriving DecidableEq, Repr

/-- Numerator of `d * 10 ^ k` over the denominator of `r` times `10 ^ (-k)` when `k` is
negative. -/
private def Rounding.scaled (r : Rounding) (d : Nat) (k : Int) : Nat :=
  d * Nat.pow 10 k.toNat * r.denominator

private def Rounding.admits (r : Rounding) (d : Nat) (k : Int) : Bool :=
  let shift := Nat.pow 10 (-k).toNat
  let x := r.scaled d k
  if r.closed then r.low * shift ≤ x ∧ x ≤ r.high * shift
  else r.low * shift < x ∧ x < r.high * shift

/-- The point of the grid `10 ^ k` that rounds to the double, the nearer if both neighbours of
the value do. -/
def Rounding.onGrid (tie : Tie) (r : Rounding) (k : Int) : Option Digits :=
  let shift := Nat.pow 10 (-k).toNat
  let d := r.value * shift / (Nat.pow 10 k.toNat * r.denominator)
  let down := r.value * shift - r.scaled d k
  let up := r.scaled (d + 1) k - r.value * shift
  match r.admits d k, r.admits (d + 1) k with
  | true, false => some ⟨d, k⟩
  | false, true => some ⟨d + 1, k⟩
  | true, true =>
    let upper := up < down ∨ up = down ∧ tie.takesUpper d
    some ⟨if upper then d + 1 else d, k⟩
  | false, false => none

/-- The least `e` with value below `10 ^ e`, for values of at least `10 ^ (-400)`. -/
def Rounding.magnitude (r : Rounding) : Int :=
  if r.denominator ≤ r.value then (Nat.toDigits 10 (r.value / r.denominator)).length
  else
    let leading := (List.range 400).find? fun z => r.denominator ≤ r.value * Nat.pow 10 z
    1 - (leading.getD 400 : Nat)

/-- The digits of `m * 2 ^ q`. Seventeen determine every double, so coarser grids are tried first
up to there. -/
def shortest (tie : Tie) (m : Nat) (q : Int) : Digits :=
  let r := Rounding.of m q
  let found := (List.range 17).findSome? fun n => r.onGrid tie (r.magnitude - (n + 1 : Nat))
  found.getD ⟨m, 0⟩

end MinSum.Decimal
