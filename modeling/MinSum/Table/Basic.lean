import MinSum.Energy.Basic

/-! Sparse tables of energies. A table lists the joint assignments of its ports that have a
finite energy; every other assignment is impossible. -/
namespace MinSum

/-- A joint assignment, one value index per port, and its energy. -/
structure Row (E : Type) where
  indices : List Nat
  energy : E
  deriving DecidableEq, Repr

/-- Rows over ports of the given domain sizes, with an index from port and value to rows. -/
structure Table (E : Type) where
  sizes : List Nat
  rows : Array (Row E)
  byPort : Array (Array (Array Nat))
  deriving DecidableEq, Repr

inductive TableError (E : Type) where
  | noPorts
  | emptyDomain (port : Nat)
  | arity (row expected got : Nat)
  | indexOutOfRange (row port index size : Nat)
  | invalidEnergy (row : Nat) (energy : E)
  | ambiguous (indices : List Nat) (first second : E)
  | invalidWeight (indices : List Nat) (weight : E)
  deriving DecidableEq, Repr

namespace Table

variable {E : Type}

/-- For each value below `size`, the increasing positions at which `column` holds it. -/
def positions (size : Nat) (column : List Nat) : Array (Array Nat) :=
  column.zipIdx.foldl (fun buckets (value, row) => buckets.modify value (·.push row))
    (Array.replicate size #[])

/-- The values that the rows hold at `port`. -/
def column (rows : Array (Row E)) (port : Nat) : List Nat :=
  rows.toList.map (·.indices.getD port 0)

/-- The table of the given rows, each of which has one index in range per port. -/
def assemble (sizes : List Nat) (rows : Array (Row E)) : Table E where
  sizes := sizes
  rows := rows
  byPort := (sizes.zipIdx.map fun (size, port) => positions size (column rows port)).toArray

def portCount (t : Table E) : Nat := t.sizes.length

def rowCount (t : Table E) : Nat := t.rows.size

def row? (t : Table E) (r : Nat) : Option (Row E) := t.rows[r]?

/-- The rows that hold `value` at `port`, in order; none if either is out of range. -/
def rowsAt (t : Table E) (port value : Nat) : List Nat :=
  match t.byPort[port]? with
  | none => []
  | some values => (values[value]?.getD #[]).toList

def rowsHolding (t : Table E) (port value : Nat) : List (Row E) :=
  (t.rowsAt port value).filterMap (t.rows[·]?)

/-- The energy of a joint assignment, `top` if it is no row of the table. -/
def energyOf [Energy E] (t : Table E) (indices : List Nat) : E :=
  match indices with
  | [] => Energy.top
  | first :: _ =>
    match (t.rowsHolding 0 first).find? (·.indices = indices) with
    | some row => row.energy
    | none => Energy.top

end Table

end MinSum
