import MinSum.Failure

/-! Damping coefficients: the defaults of a solver and the choices of single nodes. -/
namespace MinSum

variable {E : Type} [Energy E]

/-- Coefficients lie between zero and one, both included. -/
def checkDamping (d : E) : Except (SolverError E) Unit :=
  if 0 ≤ d ∧ d ≤ 1 then .ok () else .error (.invalidDamping d)

structure Settings (E : Type) where
  /-- The damping of nodes that choose none. -/
  damping : E
  /-- The most scratch buffers that a pool keeps. -/
  poolCapacity : Nat := 64
  showProgress : Bool := false
  deriving DecidableEq, Repr

namespace Settings

def standard : Settings E := ⟨0, 64, false⟩

def withDamping (s : Settings E) (d : E) : Except (SolverError E) (Settings E) :=
  match checkDamping d with
  | .error e => .error e
  | .ok _ => .ok { s with damping := d }

end Settings

structure DampingChoice (E : Type) where
  /-- One coefficient for all ports. -/
  damping : Option E := none
  /-- One coefficient per port, before which `damping` gives way. Empty means not chosen. -/
  portDamping : Option (List E) := none
  deriving DecidableEq, Repr

namespace DampingChoice

def checkAll : List E → Except (SolverError E) Unit
  | [] => .ok ()
  | d :: rest =>
    match checkDamping d with
    | .error e => .error e
    | .ok _ => checkAll rest

/-- Every coefficient is valid, the common one being checked first. -/
def check (c : DampingChoice E) : Except (SolverError E) Unit :=
  checkAll (c.damping.toList ++ c.portDamping.getD [])

/-- The coefficients of a node with `siblings` edges; none if no port is damped. Coefficients
per port that do not fit the number of edges switch damping off. -/
def inForce (c : DampingChoice E) (siblings : Nat) (default : E) : Option (List E) :=
  let perPort := c.portDamping.getD []
  if !perPort.isEmpty && perPort.length != siblings then none
  else
    let coefficients :=
      if perPort.isEmpty then List.replicate siblings (c.damping.getD default) else perPort
    if coefficients.any (!Energy.isZero ·) then some coefficients else none

end DampingChoice

end MinSum
