import MinSum.Proofs.Graph.Reachable
import MinSum.Solver.Schedule

/-! Runs of a solver: any sequence of changes and updates, refused ones included. -/
namespace MinSum

/-- What can be asked of a solver, other than to read results off it. -/
inductive Action (E : Type) [Energy E] where
  | initializeAll
  | initializeNode (id : NodeId)
  | update (id : NodeId)
  | updatePort (id : NodeId) (port : Nat)
  | iterate (n : Nat)
  | iterateParallel (n : Nat)
  /-- Parallel sweeps whose phases run their nodes in the given orders. -/
  | iterateInOrder (orders : List (Sweep E))
  | setInput (v : Nat) (input : Option (Message E))
  | setInputProbabilities (v : Nat) (p : List E)
  | fixValue (v : Nat) (fixed : Option Nat)
  | setDamping (id : NodeId) (d : E)
  | setPortDamping (id : NodeId) (ds : List E)
  | addVariable (name : String) (domain : Domain)
  | addTable (table : Table E) (built : table.Built) (operands : List Nat)
  | addCustom (custom : CustomFactor E) (operands : List Nat)
  | setToFactor (edge : Nat) (m : Message E)
  | setToVariable (edge : Nat) (m : Message E)
  | resetEdge (edge : Nat)
  | takeWarnings

namespace Solver

variable {E : Type} [LogEnergy E]

/-- The solver that an action leaves behind, whether it succeeds or not. -/
def perform (s : Solver E) : Action E → Solver E
  | .initializeAll => s.initializeAll.2
  | .initializeNode id => (s.initializeNode id).2
  | .update id => (s.update id).2
  | .updatePort id port => (s.updatePort id port).2
  | .iterate n => (s.iterate n).2
  | .iterateParallel n => (s.iterateParallel n).2
  | .iterateInOrder orders => (s.iterateInOrder orders).2
  | .setInput v input => (s.setInput v input).2
  | .setInputProbabilities v p => (s.setInputProbabilities v p).2
  | .fixValue v fixed => (s.fixValue v fixed).2
  | .setDamping id d => (s.setDamping id d).2
  | .setPortDamping id ds => (s.setPortDamping id ds).2
  | .addVariable name domain => (s.addVariable name domain).2
  | .addTable table _ operands => (s.addTable table operands).2
  | .addCustom custom operands => (s.addCustom custom operands).2
  | .setToFactor edge m => (s.modifyEdge edge (·.setToFactor m)).2
  | .setToVariable edge m => (s.modifyEdge edge (·.setToVariable m)).2
  | .resetEdge edge => (s.modifyEdge edge fun state => .ok state.reset).2
  | .takeWarnings => s.takeWarnings.2

/-- The states that runs lead to, from a solver of any graph. -/
inductive Reachable : Solver E → Prop where
  | ofGraph {g : Graph E} {settings : Settings E} {s : Solver E} (hg : g.Reachable)
      (hs : Solver.ofGraph g settings = .ok s) : Reachable s
  | perform {s : Solver E} (h : Reachable s) (a : Action E) : Reachable (s.perform a)

def empty : Solver E := ⟨{}, .standard, {}, #[], #[], ⟨64, [], 0⟩, #[]⟩

theorem ofGraph_empty (hd : checkDamping (0 : E) = .ok ()) :
    Solver.ofGraph {} .standard = .ok (empty : Solver E) := by
  unfold Solver.ofGraph
  rw [Settings.standard, hd]
  with_unfolding_all rfl

theorem Reachable.empty (hd : checkDamping (0 : E) = .ok ()) : (empty : Solver E).Reachable :=
  .ofGraph .empty (ofGraph_empty hd)

theorem Reachable.foldl_perform {s : Solver E} (h : s.Reachable) (actions : List (Action E)) :
    (actions.foldl Solver.perform s).Reachable := by
  induction actions generalizing s with
  | nil => exact h
  | cons a actions ih => exact ih (h.perform a)

end Solver

end MinSum
