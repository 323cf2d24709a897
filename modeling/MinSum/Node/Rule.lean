import MinSum.CustomFactor.Basic
import MinSum.Edge
import MinSum.Prior
import MinSum.Table.Update

/-! The ways in which a node computes the messages it sends. -/
namespace MinSum

open Scratch

/-- The end of an edge at which a node stands. -/
inductive Side where
  | variable
  | factor
  deriving DecidableEq, Repr

namespace Side

variable {E : Type}

def incoming : Side → EdgeMessages E → Message E
  | .variable, s => s.toVariable
  | .factor, s => s.toFactor

def outgoing : Side → EdgeMessages E → Message E
  | .variable, s => s.toFactor
  | .factor, s => s.toVariable

def send : Side → EdgeMessages E → Message E → EdgeMessages E
  | .variable, s, m => { s with toFactor := m }
  | .factor, s, m => { s with toVariable := m }

end Side

/-- What the messages of a node are computed from. -/
inductive Rule (E : Type) where
  | prior (prior : Message E)
  | table (table : Table E)
  | custom (custom : CustomFactor E)

namespace Rule

variable {E : Type} [Energy E]

/-- The new messages of all ports; `previous` are those they replace. -/
def update (rule : Rule E) (inputs previous : List (Message E)) (damping : Option (List E))
    (pool : Pool E) : Update E :=
  match rule with
  | .prior p => Prior.update p inputs previous damping pool (List.replicate p.length .empty)
  | .table t => t.update inputs previous damping pool
  | .custom c => c.update inputs previous damping pool

def updatePort (rule : Rule E) (inputs : List (Message E)) (port : Nat) (previous : Message E)
    (damping : E) (pool : Pool E) : PortUpdate E :=
  match rule with
  | .prior p => Prior.updatePort p inputs port previous damping pool
  | .table t => t.updatePort inputs port previous damping pool
  | .custom c => c.updatePort inputs port previous damping pool

end Rule

end MinSum
