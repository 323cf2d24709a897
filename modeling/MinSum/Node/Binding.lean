import MinSum.Damping
import MinSum.Edge

/-! What a solver node knows of its place in the graph: its edges, the domain sizes on them and
the damping in force, all as of the last binding. -/
namespace MinSum

structure Binding (E : Type) where
  /-- Whether the node may be updated. -/
  initialized : Bool := false
  /-- The edges of the node in port order. -/
  edges : List Nat := []
  sizes : List Nat := []
  choice : DampingChoice E := {}
  /-- A coefficient per port; none if no port is damped. -/
  damping : Option (List E) := none
  deriving DecidableEq, Repr

namespace Binding

variable {E : Type}

def checkStates (store : EdgeStore E) : (edges sizes : List Nat) → Except (SolverError E) Unit
  | edge :: edges, size :: sizes =>
    match store.get edge with
    | .error e => .error e
    | .ok state =>
      if state.domainSize = size then checkStates store edges sizes
      else .error (.domainSize edge size state.domainSize)
  | _, _ => .ok ()

/-- Binds to the given edges. Messages are left as they are. -/
def bind [Energy E] (b : Binding E) (edges sizes : List Nat) (store : EdgeStore E)
    (settings : Settings E) : Except (SolverError E) (Binding E) :=
  match checkStates store edges sizes with
  | .error e => .error e
  | .ok _ =>
    .ok { b with
      initialized := true
      edges := edges
      sizes := sizes
      damping := b.choice.inForce edges.length settings.damping }

/-- Bars updates until the next binding, as a change of the topology requires. -/
def invalidate (b : Binding E) : Binding E := { b with initialized := false }

def checkReady (b : Binding E) (id : NodeId) : Except (SolverError E) Unit :=
  if b.initialized then .ok () else .error (.notInitialized id)

def checkPort (b : Binding E) (id : NodeId) (port : Nat) : Except (SolverError E) Unit :=
  if port < b.edges.length then .ok ()
  else .error (.noSuchPort id port b.edges.length)

/-- The domain sizes `got` are the expected ones, edge by edge. -/
def checkSizes : (got expected edges : List Nat) → Except (SolverError E) Unit
  | g :: got, e :: expected, edge :: edges =>
    if g = e then checkSizes got expected edges else .error (.domainSize edge e g)
  | _, _, _ => .ok ()

def checkSiblings (b : Binding E) (id : NodeId) (got : List Nat) :
    Except (SolverError E) Unit :=
  if got.length ≠ b.edges.length then .error (.siblingCount id b.edges.length got.length)
  else checkSizes got b.sizes b.edges

def dampingOf [Energy E] (b : Binding E) (id : NodeId) (port : Nat) :
    Except (SolverError E) E :=
  match b.checkReady id with
  | .error e => .error e
  | .ok _ =>
    match b.checkPort id port with
    | .error e => .error e
    | .ok _ =>
      match b.damping with
      | none => .ok 0
      | some coefficients => .ok (coefficients.getD port 0)

/-- Chooses a damping. The next binding puts it into force. -/
def choose [Energy E] (b : Binding E) (choice : DampingChoice E) :
    Except (SolverError E) (Binding E) :=
  match choice.check with
  | .error e => .error e
  | .ok _ => .ok { b with choice }

end Binding

end MinSum
