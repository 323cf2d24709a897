import MinSum.Solver.Basic

/-! Reading results off a solver: beliefs, guesses and the energy of the guesses. -/
namespace MinSum.Solver

variable {E : Type} [Energy E]

def nodeBelief (s : Solver E) (n : Node E) : Except (SolverError E) (List E) :=
  match s.store.siblings n.binding.edges with
  | .error e => .error e
  | .ok siblings => n.belief siblings

def belief (s : Solver E) (v : Nat) : Except (SolverError E) (Message E) :=
  match s.variableNodeAt v with
  | .error e => .error e
  | .ok n => s.nodeBelief (.var n)

def factorBelief (s : Solver E) (f : Nat) : Except (SolverError E) (List E) :=
  match s.factorNodeAt f with
  | .error e => .error e
  | .ok n => s.nodeBelief (.factor n)

def beliefProbabilities {E : Type} [LogEnergy E] (s : Solver E) (v : Nat) :
    Except (SolverError E) (List E) :=
  match s.belief v with
  | .error e => .error e
  | .ok belief => .ok (Message.toProbabilities belief)

/-- The most likely value of a variable. -/
def guess (s : Solver E) (v : Nat) : Except (SolverError E) Nat :=
  match s.variableNodeAt v with
  | .error e => .error e
  | .ok n =>
    match s.store.siblings n.binding.edges with
    | .error e => .error e
    | .ok siblings => n.guess siblings

def guessAll (s : Solver E) : List Nat → Except (SolverError E) (List Nat)
  | [] => .ok []
  | v :: rest =>
    match s.guess v with
    | .error e => .error e
    | .ok guess =>
      match s.guessAll rest with
      | .error e => .error e
      | .ok guesses => .ok (guess :: guesses)

def guesses (s : Solver E) : Except (SolverError E) (List Nat) :=
  s.guessAll (List.range s.vars.size)

/-- What the listed variables are guessed to be. -/
def restrict (guesses vars : List Nat) : List Nat := vars.map (guesses.getD · 0)

def addFactorScores (s : Solver E) (guesses : List Nat) (sum : E) (f : Nat) :
    List (FactorNode E) → Except (SolverError E) E
  | [] => .ok sum
  | n :: rest =>
    match s.graph.factorAt f with
    | .error e => .error (.graph e)
    | .ok factor =>
      let assignment := restrict guesses (Graph.neighborsOf factor.links)
      s.addFactorScores guesses (sum + n.score assignment) (f + 1) rest

/-- The energy of the guesses: the inputs of the variables plus the energies of the factors. -/
def score (s : Solver E) : Except (SolverError E) E :=
  match s.guesses with
  | .error e => .error e
  | .ok guesses =>
    let inputs := List.zipWith (fun n guess => n.score guess) s.vars.toList guesses
    match s.addFactorScores guesses 0 0 s.factors.toList with
    | .error e => .error e
    | .ok factors => .ok (inputs.foldl (· + ·) 0 + factors)

def damping (s : Solver E) (id : NodeId) (port : Nat) : Except (SolverError E) E :=
  match s.nodeAt id with
  | .error e => .error e
  | .ok n => n.binding.dampingOf n.id port

def createEdge (s : Solver E) (id : NodeId) (edge : Nat) :
    Except (SolverError E) (EdgeMessages E) :=
  match s.nodeAt id with
  | .error e => .error e
  | .ok n => n.createEdge s.graph edge

def factorScore (s : Solver E) (f : Nat) (guesses : List Nat) : Except (SolverError E) E :=
  match s.factorNodeAt f with
  | .error e => .error e
  | .ok n => .ok (n.score guesses)

end MinSum.Solver
