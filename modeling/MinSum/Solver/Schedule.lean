import MinSum.Solver.Basic

/-! Updates of single nodes and sweeps over all of them. A sweep updates the factors and then
the variables, one after another or each phase in parallel. -/
namespace MinSum

open Scratch

/-- The order in which a parallel phase happens to run its nodes, each with a pool to use. -/
abbrev Plan (E : Type) := List (Nat × Pool E)

structure Sweep (E : Type) where
  factors : Plan E
  vars : Plan E

namespace Solver

variable {E : Type}

def record (s : Solver E) (id : NodeId) (ports : List Nat) : Solver E :=
  { s with warnings := s.warnings ++ ports.map (Contradiction.mk id) }

def commit (s : Solver E) (id : NodeId) (edges : List Nat) (u : NodeUpdate E) : Solver E :=
  { s with store := s.store.write edges u.siblings, pool := u.pool }.record id u.contradictions

/-- Runs an update of one node on the states of its edges. -/
def runUpdate (s : Solver E) (id : NodeId)
    (f : Node E → List (EdgeMessages E) → Except (SolverError E) (NodeUpdate E)) :
    Attempt (SolverError E) (Solver E) (List Nat) :=
  match s.nodeAt id with
  | .error e => (.error e, s)
  | .ok n =>
    match n.binding.checkReady id with
    | .error e => (.error e, s)
    | .ok _ =>
      match s.store.exclusive n.binding.edges with
      | .error e => (.error e, s)
      | .ok siblings =>
        match f n siblings with
        | .error e => (.error e, s)
        | .ok u => (.ok u.contradictions, s.commit id n.binding.edges u)

variable [Energy E]

/-- Recomputes the messages that a node sends. Returns the contradictory ports. -/
def update (s : Solver E) (id : NodeId) : Attempt (SolverError E) (Solver E) (List Nat) :=
  s.runUpdate id fun n siblings => n.update siblings s.pool

def updatePort (s : Solver E) (id : NodeId) (port : Nat) :
    Attempt (SolverError E) (Solver E) (List Nat) :=
  s.runUpdate id fun n siblings => n.updatePort port siblings s.pool

/-- Updates nodes in order, up to the first that fails. -/
def updateNodes (s : Solver E) : List NodeId → Attempt (SolverError E) (Solver E) Unit
  | [] => (.ok (), s)
  | id :: rest => (s.update id).andThen fun _ s => s.updateNodes rest

/-- Sweeps `n` times over all factors and then all variables. -/
def iterate (s : Solver E) : (n : Nat) → Attempt (SolverError E) (Solver E) Unit
  | 0 => (.ok (), s)
  | n + 1 => (s.updateNodes (s.factorIds ++ s.variableIds)).andThen fun _ s => s.iterate n

end Solver

namespace Phase

variable {E : Type}

def checkReady : List (Node E) → Except (SolverError E) Unit
  | [] => .ok ()
  | n :: rest =>
    match n.binding.checkReady n.id with
    | .error e => .error e
    | .ok _ => checkReady rest

/-- Hands out edges one by one, those marked in `free`, and no edge twice. -/
def reserveEdges (free : Array Bool) : List Nat → Except (SolverError E) Unit
  | [] => .ok ()
  | edge :: rest =>
    match free[edge]? with
    | none => .error (.noSuchEdge edge)
    | some false => .error (.duplicateEdge edge)
    | some true => reserveEdges (free.setIfInBounds edge false) rest

/-- The contradictory ports of a node, or why its update failed. -/
abbrev Answer (E : Type) := Except (SolverError E) (List Nat)

variable [Energy E]

def runNode (store : EdgeStore E) (n : Node E) (pool : Pool E) : Answer E × EdgeStore E :=
  match store.siblings n.binding.edges with
  | .error e => (.error e, store)
  | .ok siblings =>
    match n.update siblings pool with
    | .error e => (.error e, store)
    | .ok u => (.ok u.contradictions, store.write n.binding.edges u.siblings)

/-- Runs the nodes in the order of the plan; the answer of each goes to its own place. -/
def runPlan (nodes : Array (Node E)) (store : EdgeStore E) (answers : Array (Option (Answer E))) :
    Plan E → Array (Option (Answer E)) × EdgeStore E
  | [] => (answers, store)
  | (i, pool) :: plan =>
    match nodes[i]? with
    | none => runPlan nodes store answers plan
    | some n =>
      let (answer, store) := runNode store n pool
      runPlan nodes store (answers.setIfInBounds i (some answer)) plan

/-- Collects the answers in the order of the nodes, or the failure of the first node that has
one. -/
def gather : List (Node E) → List (Option (Answer E)) →
    Except (SolverError E) (List (NodeId × List Nat))
  | n :: nodes, some answer :: answers =>
    match answer with
    | .error e => .error e
    | .ok ports =>
      match gather nodes answers with
      | .error e => .error e
      | .ok reports => .ok ((n.id, ports) :: reports)
  | _ :: nodes, none :: answers => gather nodes answers
  | _, _ => .ok []

def run (nodes : Array (Node E)) (store : EdgeStore E) (plan : Plan E) :
    Attempt (SolverError E) (EdgeStore E) (List (NodeId × List Nat)) :=
  match checkReady nodes.toList with
  | .error e => (.error e, store)
  | .ok _ =>
    match reserveEdges (Array.replicate store.size true)
        (nodes.toList.flatMap (·.binding.edges)) with
    | .error e => (.error e, store)
    | .ok _ =>
      let (answers, store) := runPlan nodes store (Array.replicate nodes.size none) plan
      (gather nodes.toList answers.toList, store)

/-- The nodes in the order of their numbers, each with a pool of its own. -/
def plan (count capacity : Nat) : Plan E :=
  (List.range count).map fun i => (i, ⟨capacity, [], 0⟩)

end Phase

namespace Solver

variable {E : Type} [Energy E]

/-- Runs one phase and records the contradictions of all nodes, in their order. -/
def runPhase (s : Solver E) (nodes : Array (Node E)) (plan : Plan E) :
    Attempt (SolverError E) (Solver E) Unit :=
  let (answer, store) := Phase.run nodes s.store plan
  let s := { s with store }
  match answer with
  | .error e => (.error e, s)
  | .ok reports => (.ok (), reports.foldl (fun s (id, ports) => s.record id ports) s)

def sweep (s : Solver E) (order : Sweep E) : Attempt (SolverError E) (Solver E) Unit :=
  (s.runPhase (s.factors.map .factor) order.factors).andThen fun _ s =>
    s.runPhase (s.vars.map .var) order.vars

def iterateInOrder (s : Solver E) : List (Sweep E) → Attempt (SolverError E) (Solver E) Unit
  | [] => (.ok (), s)
  | order :: orders => (s.sweep order).andThen fun _ s => s.iterateInOrder orders

def sweepOrder (s : Solver E) : Sweep E where
  factors := Phase.plan s.factors.size s.settings.poolCapacity
  vars := Phase.plan s.vars.size s.settings.poolCapacity

def iterateParallel (s : Solver E) : (n : Nat) → Attempt (SolverError E) (Solver E) Unit
  | 0 => (.ok (), s)
  | n + 1 => (s.sweep s.sweepOrder).andThen fun _ s => s.iterateParallel n

end Solver

end MinSum
