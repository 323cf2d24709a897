import MinSum.Energy.Basic

/-! Exact energies: the elements of an ordered number type, two infinities and an invalid
result. Finite arithmetic is that of the number type; the special values follow IEEE 754. -/
namespace MinSum

inductive Extended (K : Type) where
  | finite (x : K)
  | top
  | bot
  | nan
  deriving DecidableEq, Repr

namespace Extended

variable {K : Type}

protected def add [Add K] : Extended K → Extended K → Extended K
  | finite x, finite y => finite (x + y)
  | finite _, top | top, finite _ | top, top => top
  | finite _, bot | bot, finite _ | bot, bot => bot
  | _, _ => nan

protected def sub [Sub K] : Extended K → Extended K → Extended K
  | finite x, finite y => finite (x - y)
  | top, finite _ | finite _, bot | top, bot => top
  | bot, finite _ | finite _, top | bot, top => bot
  | _, _ => nan

/-- An infinity scaled by a number keeps or flips its sign; scaled by zero it is invalid. -/
def scale [Zero K] [LT K] [DecidableLT K] (x : K) (positive negative : Extended K) : Extended K :=
  if 0 < x then positive else if x < 0 then negative else nan

protected def mul [Zero K] [Mul K] [LT K] [DecidableLT K] : Extended K → Extended K → Extended K
  | finite x, finite y => finite (x * y)
  | finite x, top | top, finite x => scale x top bot
  | finite x, bot | bot, finite x => scale x bot top
  | top, top | bot, bot => top
  | top, bot | bot, top => bot
  | nan, _ | _, nan => nan

protected def neg [Neg K] : Extended K → Extended K
  | finite x => finite (-x)
  | top => bot
  | bot => top
  | nan => nan

/-- A number divided by zero is an infinity of its sign; zeros have none here. -/
protected def div [Zero K] [Div K] [LT K] [DecidableLT K] [DecidableEq K] :
    Extended K → Extended K → Extended K
  | finite x, finite y => if y = 0 then scale x top bot else finite (x / y)
  | top, finite y => if y < 0 then bot else top
  | bot, finite y => if y < 0 then top else bot
  | finite _, top | finite _, bot => finite 0
  | _, _ => nan

protected def lt [LT K] : Extended K → Extended K → Prop
  | finite x, finite y => x < y
  | finite _, top | bot, finite _ | bot, top => True
  | _, _ => False

protected def le [LE K] : Extended K → Extended K → Prop
  | finite x, finite y => x ≤ y
  | finite _, top | bot, finite _ | bot, top | top, top | bot, bot => True
  | _, _ => False

instance [LT K] [DecidableLT K] (a b : Extended K) : Decidable (a.lt b) := by
  cases a <;> cases b <;> unfold Extended.lt <;> infer_instance

instance [LE K] [DecidableLE K] (a b : Extended K) : Decidable (a.le b) := by
  cases a <;> cases b <;> unfold Extended.le <;> infer_instance

/-- Below every number lies `bot`, above every number `top`, above that the invalid result. -/
def precedes [LT K] [DecidableLT K] : Extended K → Extended K → Bool
  | nan, _ => false
  | _, nan => true
  | a, b => decide (a.lt b)

def isZero [Zero K] [DecidableEq K] : Extended K → Bool
  | finite x => x = 0
  | _ => false

def isNaN : Extended K → Bool
  | nan => true
  | _ => false

instance [Zero K] [One K] [Add K] [Sub K] [Mul K] [LT K] [LE K] [DecidableEq K] [DecidableLT K]
    [DecidableLE K] : Energy (Extended K) where
  zero := finite 0
  one := finite 1
  add := Extended.add
  sub := Extended.sub
  mul := Extended.mul
  lt := Extended.lt
  le := Extended.le
  top := top
  bot := bot
  isZero := isZero
  isNaN := isNaN
  precedes := precedes
  decEq := inferInstance
  decLt a b := inferInstanceAs (Decidable (a.lt b))
  decLe a b := inferInstanceAs (Decidable (a.le b))

/-- A choice of the two functions that turn energies into weights and back. -/
class Exponential (K : Type) where
  exp : Extended K → Extended K
  log : Extended K → Extended K

instance [Zero K] [One K] [Add K] [Sub K] [Mul K] [Neg K] [Div K] [LT K] [LE K] [DecidableEq K]
    [DecidableLT K] [DecidableLE K] [Exponential K] : LogEnergy (Extended K) where
  neg := Extended.neg
  div := Extended.div
  exp := Exponential.exp
  log := Exponential.log

end Extended

end MinSum
