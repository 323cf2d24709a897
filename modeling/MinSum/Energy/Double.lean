import MinSum.Energy.Basic

/-! Double-precision energies. -/
namespace MinSum.Energy.Double

/-- Sorts doubles by sign and magnitude: negative zero lies below zero, an invalid result above
every number. -/
def rank (x : Float) : UInt64 :=
  if x.toBits < 0x8000000000000000 then x.toBits + 0x8000000000000000 else ~~~x.toBits

instance : Energy Float where
  zero := 0.0
  one := 1.0
  lt := (· < ·)
  le := (· ≤ ·)
  top := 1.0 / 0.0
  bot := -1.0 / 0.0
  isZero x := x == 0.0
  isNaN x := x.isNaN
  precedes x y := rank x < rank y
  decEq := inferInstance
  decLt := inferInstance
  decLe := inferInstance

instance : LogEnergy Float where
  neg x := -x
  exp := Float.exp
  log := Float.log

end MinSum.Energy.Double
