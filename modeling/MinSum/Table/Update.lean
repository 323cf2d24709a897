import MinSum.LeaveOneOut
import MinSum.Table.Basic
import MinSum.Update

/-! Messages sent by a table. The message on a port holds, for each value, the least energy of a
row with that value plus the messages received on the other ports. -/
namespace MinSum.Table

open Scratch

variable {E : Type} [Energy E]

/-- The energies that the messages assign to the indices of a row, in port order. -/
def received (inputs : List (Message E)) (indices : List Nat) : List E :=
  indices.zipWith (fun index input => input.entry index) inputs

/-- The least of the energies `cost` gives to the rows, `top` if there is none. -/
def least {α : Type} (cost : α → E) (rows : List α) : E :=
  rows.foldl (fun low r => if cost r < low then cost r else low) Energy.top

/-- The energy of a row plus what is received on the ports other than `port`. -/
def costWithout (inputs : List (Message E)) (port : Nat) (row : Row E) : E :=
  ((received inputs row.indices).eraseIdx port).foldl (· + ·) row.energy

/-- The unnormalized message on one port, for the first `size` values. -/
def message (t : Table E) (inputs : List (Message E)) (port size : Nat) : Message E :=
  (List.range size).map fun value => least (costWithout inputs port) (t.rowsHolding port value)

def updatePort (t : Table E) (inputs : List (Message E)) (port : Nat) (previous : Message E)
    (damping : E) (pool : Pool E) : PortUpdate E :=
  Update.onePort (t.message inputs port previous.length) previous damping pool

/-- A row with the sum of its energy and of all it receives. -/
structure Summed (E : Type) where
  received : List E
  sum : LeaveOneOut E

/-- What the ports receive at a row, summed once for all of them. -/
def summed (inputs : List (Message E)) (row : Row E) : Summed E :=
  let terms := received inputs row.indices
  ⟨terms, terms.foldl .add (.of row.energy)⟩

def Summed.costWithout (s : Summed E) (port : Nat) : E :=
  s.sum.without (s.received.getD port Energy.top)

/-- The unnormalized messages on all ports, one for each length in `sizes`. The rows are summed
up once; a row that is impossible whichever port is left out is skipped. -/
def messages (t : Table E) (inputs : List (Message E)) (sizes : List Nat) : List (Message E) :=
  let sums := t.rows.map (summed inputs)
  sizes.mapIdx fun port size =>
    (List.range size).map fun value =>
      let rows := (t.rowsAt port value).filterMap (sums[·]?)
      least (·.costWithout port) (rows.filter fun s => !s.sum.isBlocked)

def update (t : Table E) (inputs previous : List (Message E)) (damping : Option (List E))
    (pool : Pool E) : Update E :=
  let raw := t.messages inputs (previous.map List.length)
  let keep := fun port => !Energy.isZero (Update.dampingAt damping port)
  Update.allPorts keep raw previous damping pool

/-- For each row its energy plus everything received. -/
def belief (t : Table E) (inputs : List (Message E)) : List E :=
  t.rows.toList.map fun row => (received inputs row.indices).foldl (· + ·) row.energy

end MinSum.Table
