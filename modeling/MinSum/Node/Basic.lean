import MinSum.Graph.Basic
import MinSum.Node.Binding
import MinSum.Node.Rule

/-! Solver nodes, one per variable and factor of a graph. A node does not own messages: each
update is given the states of its edges in port order and returns their new values. -/
namespace MinSum

open Scratch

/-- The node of a variable, with the input as of the last loading. -/
structure VariableNode (E : Type) where
  var : Nat
  binding : Binding E := {}
  input : Option (Message E) := none
  fixed : Option Nat := none
  /-- The prior used in messages. -/
  prior : Message E := []
  /-- Accumulators, one per value. Every update starts them afresh, so what they hold is not
  followed up. -/
  sums : List (LeaveOneOut E) := []

structure FactorNode (E : Type) where
  factor : Nat
  potential : Graph.Potential E
  binding : Binding E := {}

namespace VariableNode

variable {E : Type} [Energy E]

def load (n : VariableNode E) (v : Graph.Variable E) : VariableNode E :=
  { n with
    input := v.input
    fixed := v.fixed
    prior := v.prior
    sums := LeaveOneOut.resize v.size n.sums }

def loadInput (n : VariableNode E) (g : Graph E) : Except (SolverError E) (VariableNode E) :=
  match g.variableAt n.var with
  | .error e => .error (.graph e)
  | .ok v => .ok (n.load v)

/-- Loads the input and binds to the edges of the variable. The input stays loaded if the
binding fails. -/
def bind (n : VariableNode E) (g : Graph E) (store : EdgeStore E) (settings : Settings E) :
    Except (SolverError E) Unit × VariableNode E :=
  match g.variableAt n.var with
  | .error e => (.error (.graph e), n)
  | .ok v =>
    let n := n.load v
    let sizes := List.replicate v.links.length v.size
    match n.binding.bind (Graph.edgesOf v.links) sizes store settings with
    | .error e => (.error e, n)
    | .ok binding => (.ok (), { n with binding })

/-- The energy that the input gives to a value; a fixed variable has none to choose. -/
def score (n : VariableNode E) (guess : Nat) : E :=
  match n.fixed, n.input with
  | none, some input => input.entry guess
  | _, _ => 0

end VariableNode

namespace FactorNode

variable {E : Type} [Energy E]

def ofGraph (g : Graph E) (f : Nat) : Except (SolverError E) (FactorNode E) :=
  match g.factorAt f with
  | .error e => .error (.graph e)
  | .ok factor => .ok { factor := f, potential := factor.potential }

def ofTable (f : Nat) (table : Table E) : FactorNode E :=
  { factor := f, potential := .table ⟨0, table⟩ }

def ofCustom (f : Nat) (custom : CustomFactor E) : FactorNode E :=
  { factor := f, potential := .custom custom }

def bind (n : FactorNode E) (g : Graph E) (store : EdgeStore E) (settings : Settings E) :
    Except (SolverError E) Unit × FactorNode E :=
  match g.factorAt n.factor with
  | .error e => (.error (.graph e), n)
  | .ok factor =>
    match g.domainSizes (Graph.neighborsOf factor.links) with
    | .error e => (.error (.graph e), n)
    | .ok sizes =>
      match n.binding.bind (Graph.edgesOf factor.links) sizes store settings with
      | .error e => (.error e, n)
      | .ok binding => (.ok (), { n with binding })

def score (n : FactorNode E) (guesses : List Nat) : E :=
  match n.potential with
  | .table t => t.content.energyOf guesses
  | .custom c => c.energy guesses

end FactorNode

inductive Node (E : Type) where
  | var (n : VariableNode E)
  | factor (n : FactorNode E)

structure NodeUpdate (E : Type) where
  contradictions : List Nat
  siblings : List (EdgeMessages E)
  pool : Pool E

namespace Node

variable {E : Type}

def id : Node E → NodeId
  | .var n => .var n.var
  | .factor n => .factor n.factor

def side : Node E → Side
  | .var _ => .variable
  | .factor _ => .factor

def binding : Node E → Binding E
  | .var n => n.binding
  | .factor n => n.binding

def withBinding (b : Binding E) : Node E → Node E
  | .var n => .var { n with binding := b }
  | .factor n => .factor { n with binding := b }

def rule : Node E → Rule E
  | .var n => .prior n.prior
  | .factor n =>
    match n.potential with
    | .table t => .table t.content
    | .custom c => .custom c

def invalidate (n : Node E) : Node E := n.withBinding n.binding.invalidate

variable [Energy E]

def choose (n : Node E) (choice : DampingChoice E) : Except (SolverError E) (Node E) :=
  match n.binding.choose choice with
  | .error e => .error e
  | .ok b => .ok (n.withBinding b)

def bind (g : Graph E) (store : EdgeStore E) (settings : Settings E) :
    Node E → Except (SolverError E) Unit × Node E
  | .var n =>
    let (result, n) := n.bind g store settings
    (result, .var n)
  | .factor n =>
    let (result, n) := n.bind g store settings
    (result, .factor n)

/-- The node is initialized and the states belong to its edges. -/
def checkUpdate (n : Node E) (siblings : List (EdgeMessages E)) : Except (SolverError E) Unit :=
  match n.binding.checkReady n.id with
  | .error e => .error e
  | .ok _ => n.binding.checkSiblings n.id (siblings.map EdgeMessages.domainSize)

/-- The new messages of all ports. A variable sums up in accumulators of its own. -/
def compute (n : Node E) (inputs previous : List (Message E)) (pool : Pool E) : Update E :=
  match n with
  | .var m => Prior.update m.prior inputs previous m.binding.damping pool m.sums
  | .factor m => n.rule.update inputs previous m.binding.damping pool

def update (n : Node E) (siblings : List (EdgeMessages E)) (pool : Pool E) :
    Except (SolverError E) (NodeUpdate E) :=
  match n.checkUpdate siblings with
  | .error e => .error e
  | .ok _ =>
    let inputs := siblings.map n.side.incoming
    let previous := siblings.map n.side.outgoing
    let u := n.compute inputs previous pool
    .ok ⟨u.contradictions, List.zipWith n.side.send siblings u.outputs, u.pool⟩

def updatePort (n : Node E) (port : Nat) (siblings : List (EdgeMessages E)) (pool : Pool E) :
    Except (SolverError E) (NodeUpdate E) :=
  match n.binding.dampingOf n.id port with
  | .error e => .error e
  | .ok damping =>
    match n.checkUpdate siblings with
    | .error e => .error e
    | .ok _ =>
      let inputs := siblings.map n.side.incoming
      let previous := (siblings.map n.side.outgoing).getD port []
      let u := n.rule.updatePort inputs port previous damping pool
      .ok {
        contradictions := if u.verdict = .contradiction then [port] else []
        siblings := siblings.modify port (n.side.send · u.output)
        pool := u.pool }

/-- Energies of the values of a variable, or of the rows of a table. -/
def belief (n : Node E) (siblings : List (EdgeMessages E)) : Except (SolverError E) (List E) :=
  match n.rule with
  | .custom _ => .error (.noFactorBelief n.id)
  | .prior p =>
    match n.checkUpdate siblings with
    | .error e => .error e
    | .ok _ => .ok (Prior.belief p (siblings.map n.side.incoming))
  | .table t =>
    match n.checkUpdate siblings with
    | .error e => .error e
    | .ok _ => .ok (t.belief (siblings.map n.side.incoming))

def createEdge (n : Node E) (g : Graph E) (edge : Nat) :
    Except (SolverError E) (EdgeMessages E) :=
  match g.edgeAt edge with
  | .error e => .error (.graph e)
  | .ok ends =>
    if n.id = .var ends.var ∨ n.id = .factor ends.factor then
      match g.domainSizeAt ends.var with
      | .error e => .error (.graph e)
      | .ok size => .ok (EdgeMessages.uniform size)
    else .error (.foreignEdge n.id edge)

end Node

namespace VariableNode

variable {E : Type} [Energy E]

/-- The fixed value, or else the value of least belief. -/
def guess (n : VariableNode E) (siblings : List (EdgeMessages E)) : Except (SolverError E) Nat :=
  match n.fixed with
  | some index =>
    match n.binding.checkReady (.var n.var) with
    | .error e => .error e
    | .ok _ => .ok index
  | none =>
    match (Node.var n).belief siblings with
    | .error e => .error e
    | .ok belief => .ok ((Message.argmin? belief).getD 0)

end VariableNode

end MinSum
