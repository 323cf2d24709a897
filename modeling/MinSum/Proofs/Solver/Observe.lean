import MinSum.Proofs.Solver.Run
import MinSum.Solver.Readout

/-! What can be told of a solver from outside: its answers to actions, and all that can be read off
it. Scratch memory is not a part of it, and may hold anything. -/
namespace MinSum

open Scratch

inductive Reply (E : Type) where
  | done (result : Except (SolverError E) Unit)
  | ports (result : Except (SolverError E) (List Nat))
  | added (result : Except (SolverError E) Nat)
  | warnings (list : Array Contradiction)

/-- All that can be read off a solver without a look at what its factors are. -/
structure Readings (E : Type) where
  messages : Nat → Except (SolverError E) (EdgeMessages E)
  belief : Nat → Except (SolverError E) (Message E)
  probabilities : Nat → Except (SolverError E) (List E)
  guess : Nat → Except (SolverError E) Nat
  guesses : Except (SolverError E) (List Nat)
  score : Except (SolverError E) E
  damping : NodeId → Nat → Except (SolverError E) E
  /-- Whether a node is initialized, its edges and sizes, the damping it chooses and the damping in
  force. -/
  binding : NodeId → Except (SolverError E) (Binding E)
  input : Nat → Except (SolverError E) (Option (Message E))
  fixed : Nat → Except (SolverError E) (Option Nat)
  prior : Nat → Except (SolverError E) (Message E)
  newEdge : NodeId → Nat → Except (SolverError E) (EdgeMessages E)
  warnings : Array Contradiction

namespace Solver

variable {E : Type}

section

variable [LogEnergy E]

def reply (s : Solver E) : Action E → Reply E
  | .initializeAll => .done s.initializeAll.1
  | .initializeNode id => .done (s.initializeNode id).1
  | .update id => .ports (s.update id).1
  | .updatePort id port => .ports (s.updatePort id port).1
  | .iterate n => .done (s.iterate n).1
  | .iterateParallel n => .done (s.iterateParallel n).1
  | .iterateInOrder orders => .done (s.iterateInOrder orders).1
  | .setInput v input => .done (s.setInput v input).1
  | .setInputProbabilities v p => .done (s.setInputProbabilities v p).1
  | .fixValue v fixed => .done (s.fixValue v fixed).1
  | .setDamping id d => .done (s.setDamping id d).1
  | .setPortDamping id ds => .done (s.setPortDamping id ds).1
  | .addVariable name domain => .added (s.addVariable name domain).1
  | .addTable table _ operands => .added (s.addTable table operands).1
  | .addCustom custom operands => .added (s.addCustom custom operands).1
  | .setToFactor edge m => .done (s.modifyEdge edge (·.setToFactor m)).1
  | .setToVariable edge m => .done (s.modifyEdge edge (·.setToVariable m)).1
  | .resetEdge edge => .done (s.modifyEdge edge fun state => .ok state.reset).1
  | .takeWarnings => .warnings s.takeWarnings.1

def readings (s : Solver E) : Readings E where
  messages := s.store.get
  belief := s.belief
  probabilities := s.beliefProbabilities
  guess := s.guess
  guesses := s.guesses
  score := s.score
  damping := s.damping
  binding id := (s.nodeAt id).map (·.binding)
  input v := (s.variableNodeAt v).map (·.input)
  fixed v := (s.variableNodeAt v).map (·.fixed)
  prior v := (s.variableNodeAt v).map (·.prior)
  newEdge := s.createEdge
  warnings := s.warnings

end

/-- The same state, but for the pool and for what the accumulators of the variables hold. -/
structure SameButScratch (s s' : Solver E) : Prop where
  graph : s'.graph = s.graph
  settings : s'.settings = s.settings
  store : s'.store = s.store
  warnings : s'.warnings = s.warnings
  factors : s'.factors = s.factors
  size_vars : s'.vars.size = s.vars.size
  vars : ∀ (v : Nat) m m', s.vars[v]? = some m → s'.vars[v]? = some m' →
    ∃ sums, sums.length = m.sums.length ∧ m' = { m with sums }

theorem SameButScratch.refl (s : Solver E) : s.SameButScratch s where
  graph := rfl
  settings := rfl
  store := rfl
  warnings := rfl
  factors := rfl
  size_vars := rfl
  vars _ m _ hm hm' := ⟨m.sums, rfl, Option.some.inj (hm'.symm.trans hm)⟩

variable [LogEnergy E]

/-- The actions lead from one state to the other. At any point scratch memory may have been used
for something else. -/
inductive RunsTo : Solver E → List (Action E) → Solver E → Prop where
  | nil {s s' : Solver E} (hs : s.SameButScratch s') : RunsTo s [] s'
  | cons {s s' t : Solver E} {actions : List (Action E)} (hs : s.SameButScratch s') (a : Action E)
      (ht : RunsTo (s'.perform a) actions t) : RunsTo s (a :: actions) t

theorem runsTo_foldl (s : Solver E) (actions : List (Action E)) :
    s.RunsTo actions (actions.foldl Solver.perform s) := by
  induction actions generalizing s with
  | nil => exact .nil (.refl s)
  | cons a actions ih => exact .cons (.refl s) a (ih (s.perform a))

/-- No run tells the two apart: they answer the next action alike, and all readings agree. -/
def Indistinguishable (s t : Solver E) : Prop :=
  ∀ actions u v, s.RunsTo actions u → t.RunsTo actions v →
    (∀ a, v.reply a = u.reply a) ∧ v.readings = u.readings ∧ v.graph = u.graph ∧
      v.settings = u.settings ∧ v.factorBelief = u.factorBelief ∧ v.factorScore = u.factorScore

end Solver

end MinSum
