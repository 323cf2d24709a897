import MinSum.Graph.Build
import MinSum.Node.Basic

/-! The solver: a graph with its nodes and messages, and the changes that can be made to it
while it runs. Every change returns its result together with the solver it leaves behind, which
after a failure can differ from the one before. -/
namespace MinSum

open Scratch

structure Contradiction where
  node : NodeId
  port : Nat
  deriving DecidableEq, Repr

def Contradiction.message (c : Contradiction) : String :=
  s!"contradiction on port {c.port} of {c.node.text}"

structure Solver (E : Type) where
  graph : Graph E
  settings : Settings E
  store : EdgeStore E := {}
  vars : Array (VariableNode E) := #[]
  factors : Array (FactorNode E) := #[]
  pool : Pool E
  /-- The contradictions seen since the last initialization. -/
  warnings : Array Contradiction := #[]

/-- What a step answers, and the state it leaves behind in either case. -/
abbrev Attempt (ε σ α : Type) := Except ε α × σ

namespace Attempt

variable {ε σ α β : Type}

/-- Goes on with the next step, unless this one failed. -/
@[inline]
def andThen (a : Attempt ε σ α) (next : α → σ → Attempt ε σ β) : Attempt ε σ β :=
  match a with
  | (.ok x, s) => next x s
  | (.error e, s) => (.error e, s)

end Attempt

namespace Solver

variable {E : Type}

def nodeAt (s : Solver E) (id : NodeId) : Except (SolverError E) (Node E) :=
  match id with
  | .var v =>
    match s.vars[v]? with
    | some n => .ok (.var n)
    | none => .error (.noSuchNode id)
  | .factor f =>
    match s.factors[f]? with
    | some n => .ok (.factor n)
    | none => .error (.noSuchNode id)

def variableNodeAt (s : Solver E) (v : Nat) : Except (SolverError E) (VariableNode E) :=
  match s.vars[v]? with
  | some n => .ok n
  | none => .error (.noSuchNode (.var v))

def factorNodeAt (s : Solver E) (f : Nat) : Except (SolverError E) (FactorNode E) :=
  match s.factors[f]? with
  | some n => .ok n
  | none => .error (.noSuchNode (.factor f))

def setNode (s : Solver E) (id : NodeId) : Node E → Solver E
  | .var n =>
    match id with
    | .var v => { s with vars := s.vars.setIfInBounds v n }
    | .factor _ => s
  | .factor n =>
    match id with
    | .var _ => s
    | .factor f => { s with factors := s.factors.setIfInBounds f n }

def variableIds (s : Solver E) : List NodeId := (List.range s.vars.size).map .var

def factorIds (s : Solver E) : List NodeId := (List.range s.factors.size).map .factor

variable [Energy E]

/-- Makes the states of the edges from number `edge` on that are still missing, `count` of
them. -/
def createEdges (s : Solver E) (edge : Nat) :
    (count : Nat) → Attempt (SolverError E) (Solver E) Unit
  | 0 => (.ok (), s)
  | count + 1 =>
    match s.graph.edgeAt edge with
    | .error e => (.error (.graph e), s)
    | .ok ends =>
      match s.factorNodeAt ends.factor with
      | .error e => (.error e, s)
      | .ok n =>
        match (Node.factor n).createEdge s.graph edge with
        | .error e => (.error e, s)
        | .ok state => createEdges { s with store := s.store.push state } (edge + 1) count

def createMissingEdges (s : Solver E) : Attempt (SolverError E) (Solver E) Unit :=
  s.createEdges s.store.size (s.graph.edges.size - s.store.size)

def factorNodes (g : Graph E) : List Nat → Except (SolverError E) (List (FactorNode E))
  | [] => .ok []
  | f :: rest =>
    match FactorNode.ofGraph g f with
    | .error e => .error e
    | .ok n =>
      match factorNodes g rest with
      | .error e => .error e
      | .ok nodes => .ok (n :: nodes)

/-- A solver of the graph, with uniform messages and no node initialized. -/
def ofGraph (graph : Graph E) (settings : Settings E) : Except (SolverError E) (Solver E) :=
  match checkDamping settings.damping with
  | .error e => .error e
  | .ok _ =>
    match factorNodes graph (List.range graph.factors.size) with
    | .error e => .error e
    | .ok factors =>
      let vars := (Array.range graph.vars.size).map fun v => { var := v }
      let pool := { limit := settings.poolCapacity }
      let s : Solver E := { graph, settings, vars, factors := factors.toArray, pool }
      match s.createMissingEdges with
      | (.error e, _) => .error e
      | (.ok _, s) => .ok s

/-- Binds one node to the graph as it is now and keeps the messages. -/
def initializeNode (s : Solver E) (id : NodeId) : Attempt (SolverError E) (Solver E) Unit :=
  match s.nodeAt id with
  | .error e => (.error e, s)
  | .ok n =>
    let (result, n) := n.bind s.graph s.store s.settings
    (result, s.setNode id n)

def initializeNodes (s : Solver E) : List NodeId → Attempt (SolverError E) (Solver E) Unit
  | [] => (.ok (), s)
  | id :: rest => (s.initializeNode id).andThen fun _ s => s.initializeNodes rest

/-- Makes all messages uniform, binds all nodes and forgets the warnings. -/
def initializeAll (s : Solver E) : Attempt (SolverError E) (Solver E) Unit :=
  let s := { s with store := s.store.reset }
  (s.initializeNodes (s.variableIds ++ s.factorIds)).andThen fun _ s =>
    (.ok (), { s with warnings := #[] })

/-- Puts the input of the graph into force, unless the variable waits for initialization. -/
def reloadInput (s : Solver E) (v : Nat) : Attempt (SolverError E) (Solver E) Unit :=
  match s.variableNodeAt v with
  | .error e => (.error e, s)
  | .ok n =>
    if n.binding.initialized then
      match n.loadInput s.graph with
      | .error e => (.error e, s)
      | .ok n => (.ok (), s.setNode (.var v) (.var n))
    else (.ok (), s)

/-- Replaces the graph by a changed one with another input of the variable `v`. -/
def changeInput (s : Solver E) (v : Nat) (changed : Except (GraphError E) (Graph E)) :
    Attempt (SolverError E) (Solver E) Unit :=
  match changed with
  | .error e => (.error (.graph e), s)
  | .ok graph => { s with graph }.reloadInput v

def setInput (s : Solver E) (v : Nat) (input : Option (Message E)) :
    Attempt (SolverError E) (Solver E) Unit :=
  s.changeInput v (s.graph.setInput v input)

def setInputProbabilities {E : Type} [LogEnergy E] (s : Solver E) (v : Nat)
    (probabilities : List E) : Attempt (SolverError E) (Solver E) Unit :=
  s.changeInput v (s.graph.setInputProbabilities v probabilities)

def fixValue (s : Solver E) (v : Nat) (fixed : Option Nat) :
    Attempt (SolverError E) (Solver E) Unit :=
  s.changeInput v (s.graph.fixValue v fixed)

/-- Changes the damping that a node chooses, and binds the node again if it was initialized. -/
def modifyChoice (s : Solver E) (id : NodeId) (f : DampingChoice E → DampingChoice E) :
    Attempt (SolverError E) (Solver E) Unit :=
  match s.nodeAt id with
  | .error e => (.error e, s)
  | .ok n =>
    match n.choose (f n.binding.choice) with
    | .error e => (.error e, s)
    | .ok n =>
      let s := s.setNode id n
      if n.binding.initialized then s.initializeNode id else (.ok (), s)

def setDamping (s : Solver E) (id : NodeId) (d : E) :
    Attempt (SolverError E) (Solver E) Unit :=
  match checkDamping d with
  | .error e => (.error e, s)
  | .ok _ => s.modifyChoice id fun c => { c with damping := some d }

def setPortDamping (s : Solver E) (id : NodeId) (coefficients : List E) :
    Attempt (SolverError E) (Solver E) Unit :=
  s.modifyChoice id fun c => { c with portDamping := some coefficients }

def addVariable (s : Solver E) (name : String) (domain : Domain) :
    Attempt (SolverError E) (Solver E) Nat :=
  match s.graph.addVariable name domain with
  | .error e => (.error (.graph e), s)
  | .ok (v, graph) => (.ok v, { s with graph, vars := s.vars.push { var := v } })

def invalidate (s : Solver E) (operands : List Nat) : Solver E :=
  let bar := fun n : VariableNode E => { n with binding := n.binding.invalidate }
  { s with vars := operands.foldl (fun nodes v => nodes.modify v bar) s.vars }

/-- Takes over a graph with the new factor `f` over `operands`: makes its node and edge states, and
bars the attached variables from updates until they are initialized again. -/
def attach (s : Solver E) (operands : List Nat) (f : Nat) (graph : Graph E) :
    Attempt (SolverError E) (Solver E) Nat :=
  let s := { s with graph }
  match FactorNode.ofGraph graph f with
  | .error e => (.error e, s)
  | .ok n =>
    let s := { s with factors := s.factors.push n }
    s.createMissingEdges.andThen fun _ s => (.ok f, s.invalidate operands)

def addTable (s : Solver E) (table : Table E) (operands : List Nat) :
    Attempt (SolverError E) (Solver E) Nat :=
  match s.graph.addTable table operands with
  | .error e => (.error (.graph e), s)
  | .ok (f, graph) => s.attach operands f graph

def addCustom (s : Solver E) (custom : CustomFactor E) (operands : List Nat) :
    Attempt (SolverError E) (Solver E) Nat :=
  match s.graph.addCustom custom operands with
  | .error e => (.error (.graph e), s)
  | .ok (f, graph) => s.attach operands f graph

/-- Changes the state of an edge, for example to messages computed elsewhere. -/
def modifyEdge (s : Solver E) (edge : Nat)
    (f : EdgeMessages E → Except (SolverError E) (EdgeMessages E)) :
    Attempt (SolverError E) (Solver E) Unit :=
  match s.store.get edge with
  | .error e => (.error e, s)
  | .ok state =>
    match f state with
    | .error e => (.error e, s)
    | .ok state => (.ok (), { s with store := s.store.set edge state })

def takeWarnings (s : Solver E) : Array Contradiction × Solver E :=
  (s.warnings, { s with warnings := #[] })

end Solver

end MinSum
