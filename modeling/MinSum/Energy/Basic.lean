/-! Energies, the negative logarithms of unnormalized weights. The class lists what a solver
needs of them and fixes no law, so the same definitions run on doubles and are read on exact
numbers. -/
namespace MinSum

/-- Numbers that serve as energies. Equality is identity: it tells two zeros apart by sign. -/
class Energy (E : Type) extends Zero E, One E, Add E, Sub E, Mul E, LT E, LE E where
  /-- The energy of an impossible assignment. -/
  top : E
  /-- The opposite of `top`, never a valid energy. -/
  bot : E
  /-- Whether the number is zero, of either sign. -/
  isZero : E → Bool
  /-- Whether the number is the result of an invalid operation. -/
  isNaN : E → Bool
  /-- A strict total order that extends `<` to all numbers. -/
  precedes : E → E → Bool
  decEq : DecidableEq E
  decLt : DecidableLT E
  decLe : DecidableLE E

attribute [reducible, instance] Energy.decEq Energy.decLt Energy.decLe

namespace Energy

variable {E : Type} [Energy E]

/-- Energies that messages, inputs and tables may hold: numbers and `top`. -/
def isAdmissible (x : E) : Bool := !isNaN x && decide (x ≠ bot)

/-- The same number; a zero loses its sign. -/
def unsigned (x : E) : E := if isZero x then 0 else x

/-- Neither infinite nor invalid. -/
def isFinite (x : E) : Bool := isAdmissible x && decide (x ≠ top)

end Energy

class LogEnergy (E : Type) extends Energy E, Neg E, Div E where
  exp : E → E
  log : E → E

end MinSum
