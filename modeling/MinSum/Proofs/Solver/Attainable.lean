import MinSum.Proofs.Solver.Reachable

/-! Runs in which edge states may also be replaced, by states of any size. Nodes keep to their
places in the graph all the same; only the damping in force can be out of date, where a node could
not be bound again. -/
namespace MinSum

open Scratch

variable {E : Type} [Energy E]

/-- The action binds nodes or changes the damping that they choose. -/
def Action.Rebinds : Action E → Prop
  | .initializeAll | .initializeNode _ | .setDamping _ _ | .setPortDamping _ _ => True
  | _ => False

namespace Phase

theorem size_runNode (store : EdgeStore E) (n : Node E) (pool : Pool E) :
    (runNode store n pool).2.size = store.size := by
  unfold runNode
  split
  · rfl
  split
  · rfl
  · exact EdgeStore.size_write _ _ _

theorem size_runPlan (nodes : Array (Node E)) (store : EdgeStore E)
    (answers : Array (Option (Answer E))) (plan : Plan E) :
    (runPlan nodes store answers plan).2.size = store.size := by
  induction plan generalizing store answers with
  | nil => rfl
  | cons step plan ih =>
    rw [runPlan]
    split
    · exact ih store answers
    · exact (ih _ _).trans (size_runNode store _ _)

theorem size_run (nodes : Array (Node E)) (store : EdgeStore E) (plan : Plan E) :
    (run nodes store plan).2.size = store.size := by
  unfold run
  split
  · rfl
  split
  · rfl
  · exact size_runPlan nodes store _ plan

end Phase

namespace Solver

section

variable {s s' s'' : Solver E}

omit [Energy E] in
theorem Refilled.refl (s : Solver E) : s.Refilled s := ⟨.refl s, rfl⟩

omit [Energy E] in
theorem Refilled.trans (h : s.Refilled s') (h' : s'.Refilled s'') : s.Refilled s'' :=
  ⟨h.toSameNodes.trans h'.toSameNodes, h'.size_store.trans h.size_store⟩

omit [Energy E] in
/-- Whatever an update computes, it replaces messages only. -/
theorem refilled_runUpdate (s : Solver E) (id : NodeId)
    (f : Node E → List (EdgeMessages E) → Except (SolverError E) (NodeUpdate E)) :
    s.Refilled (s.runUpdate id f).2 := by
  unfold runUpdate
  split
  · exact .refl s
  split
  · exact .refl s
  split
  · exact .refl s
  split
  · exact .refl s
  · exact ⟨⟨rfl, rfl, rfl, rfl⟩, EdgeStore.size_write _ _ _⟩

omit [Energy E] in
theorem refilled_modifyEdge (s : Solver E) (edge : Nat)
    (f : EdgeMessages E → Except (SolverError E) (EdgeMessages E)) :
    s.Refilled (s.modifyEdge edge f).2 := by
  unfold modifyEdge
  split
  · exact .refl s
  split
  · exact .refl s
  · exact ⟨⟨rfl, rfl, rfl, rfl⟩, EdgeStore.size_set _ _ _⟩

theorem refilled_updateNodes (s : Solver E) (ids : List NodeId) :
    s.Refilled (s.updateNodes ids).2 := by
  induction ids generalizing s with
  | nil => exact .refl s
  | cons id ids ih =>
    exact Attempt.andThen_keeps (s.refilled_runUpdate id _) fun _ s' hs => hs.trans (ih s')

theorem refilled_iterate (s : Solver E) (n : Nat) : s.Refilled (s.iterate n).2 := by
  induction n generalizing s with
  | zero => exact .refl s
  | succ n ih =>
    exact Attempt.andThen_keeps (s.refilled_updateNodes _) fun _ s' hs => hs.trans (ih s')

theorem refilled_runPhase (s : Solver E) (nodes : Array (Node E)) (plan : Plan E) :
    s.Refilled (s.runPhase nodes plan).2 := by
  have hsize := Phase.size_run nodes s.store plan
  unfold runPhase
  simp only
  split
  · exact ⟨⟨rfl, rfl, rfl, rfl⟩, hsize⟩
  · rw [foldl_record]
    exact ⟨⟨rfl, rfl, rfl, rfl⟩, hsize⟩

theorem refilled_sweep (s : Solver E) (order : Sweep E) : s.Refilled (s.sweep order).2 :=
  Attempt.andThen_keeps (s.refilled_runPhase _ _) fun _ s' hs => hs.trans (s'.refilled_runPhase _ _)

theorem refilled_iterateInOrder (s : Solver E) (orders : List (Sweep E)) :
    s.Refilled (s.iterateInOrder orders).2 := by
  induction orders generalizing s with
  | nil => exact .refl s
  | cons order orders ih =>
    exact Attempt.andThen_keeps (s.refilled_sweep order) fun _ s' hs => hs.trans (ih s')

theorem refilled_iterateParallel (s : Solver E) (n : Nat) :
    s.Refilled (s.iterateParallel n).2 := by
  induction n generalizing s with
  | zero => exact .refl s
  | succ n ih =>
    exact Attempt.andThen_keeps (s.refilled_sweep _) fun _ s' hs => hs.trans (ih s')

abbrev Anchored (s : Solver E) : Prop := s.Assembled fun g id n => n.Stands g id

theorem WellFormed.anchored (h : s.WellFormed) : s.Anchored :=
  ⟨h.graph, h.size_vars, h.size_factors, h.store.size, fun id n hn => (h.tracks id n hn).stands⟩

namespace Anchored

variable (h : s.Anchored)

include h

theorem initializeNode (id : NodeId) : (s.initializeNode id).2.Anchored := by
  unfold Solver.initializeNode
  split
  · exact h
  · rename_i n hn
    have hs := (h.nodes id n hn).bind h.graph s.store s.settings
    exact h.setNode hn hs.id_eq hs

theorem initializeNodes (ids : List NodeId) : (s.initializeNodes ids).2.Anchored := by
  induction ids generalizing s with
  | nil => exact h
  | cons id ids ih =>
    exact Attempt.andThen_keeps (p := Anchored) (h.initializeNode id) fun _ _ hs => ih hs

theorem initializeAll : s.initializeAll.2.Anchored := by
  have hr : s.Refilled { s with store := s.store.reset } :=
    ⟨⟨rfl, rfl, rfl, rfl⟩, EdgeStore.size_reset _⟩
  refine Attempt.andThen_keeps (p := Anchored) (Anchored.initializeNodes (h.congr hr) _) fun _ _ hs => ?_
  exact hs.congr ⟨⟨rfl, rfl, rfl, rfl⟩, rfl⟩

theorem modifyChoice (id : NodeId) (f : DampingChoice E → DampingChoice E) :
    (s.modifyChoice id f).2.Anchored := by
  unfold Solver.modifyChoice
  split
  · exact h
  rename_i n hn
  split
  · exact h
  rename_i n' hc
  have hs := (h.nodes id n hn).choose hc
  have hset := h.setNode hn hs.id_eq hs
  simp only
  split
  · exact Anchored.initializeNode hset id
  · exact hset

end Anchored

end

variable {E : Type} [LogEnergy E] {s : Solver E}

/-- Properties that other nodes leave alone are kept by all actions that neither bind a node nor change
what it chooses. -/
theorem Assembled.perform {T : Graph E → NodeId → Node E → Prop} (h : s.Assembled T)
    (hT : Node.Local T) {a : Action E} (ha : ¬ a.Rebinds) : (s.perform a).Assembled T := by
  have hinput : ∀ {v : Nat} {changed : Except (GraphError E) (Graph E)},
      (∀ g', changed = .ok g' → s.graph.ChangesInput v g') →
        (s.changeInput v changed).2.Assembled T := by
    intro v changed hc
    cases changed with
    | error e => exact h
    | ok g' => exact (h.changeInput hT (hc g' rfl)).2
  cases a with
  | update id => exact h.congr (s.refilled_runUpdate id _)
  | updatePort id port => exact h.congr (s.refilled_runUpdate id _)
  | iterate n => exact h.congr (s.refilled_iterate n)
  | iterateParallel n => exact h.congr (s.refilled_iterateParallel n)
  | iterateInOrder orders => exact h.congr (s.refilled_iterateInOrder orders)
  | setInput v input => exact hinput fun _ => Graph.changesInput_of_setInput h.graph
  | setInputProbabilities v p =>
    exact hinput fun _ => Graph.changesInput_of_setInputProbabilities h.graph
  | fixValue v fixed => exact hinput fun _ => Graph.changesInput_of_fixValue h.graph
  | addVariable name domain =>
    simp only [Solver.perform, Solver.addVariable]
    split
    · exact h
    · rename_i hadd
      exact h.addVariable hT hadd
  | addTable table built operands =>
    cases hadd : s.graph.addTable table operands with
    | error e =>
      simp only [Solver.perform, Solver.addTable, hadd]
      exact h
    | ok x =>
      obtain ⟨shared, tables, -, -, he, hgrown⟩ := h.addTable_eq hT built hadd
      rw [Solver.perform, he]
      exact hgrown
  | addCustom custom operands =>
    cases hadd : s.graph.addCustom custom operands with
    | error e =>
      simp only [Solver.perform, Solver.addCustom, hadd]
      exact h
    | ok x =>
      obtain ⟨-, he, hgrown⟩ := h.addCustom_eq hT hadd
      rw [Solver.perform, he]
      exact hgrown
  | setToFactor edge m => exact h.congr (s.refilled_modifyEdge edge _)
  | setToVariable edge m => exact h.congr (s.refilled_modifyEdge edge _)
  | resetEdge edge => exact h.congr (s.refilled_modifyEdge edge _)
  | takeWarnings => exact h.congr ⟨⟨rfl, rfl, rfl, rfl⟩, rfl⟩
  | _ => exact absurd trivial ha

theorem Anchored.perform (h : s.Anchored) (a : Action E) : (s.perform a).Anchored := by
  cases a with
  | initializeAll => exact h.initializeAll
  | initializeNode id => exact h.initializeNode id
  | setDamping id d =>
    simp only [Solver.perform, Solver.setDamping]
    split
    · exact h
    · exact h.modifyChoice id _
  | setPortDamping id ds => exact h.modifyChoice id _
  | _ => exact Assembled.perform h Node.local_stands id

/-- The states that runs lead to in which any edge state may be put in the place of another. The two
messages of the new state may even differ in length, as only those of a stored one can. No engine
works on such an edge, so what is proved of it goes beyond the runs that can be made. -/
inductive Attainable : Solver E → Prop where
  | ofGraph {g : Graph E} {settings : Settings E} {s : Solver E} (hg : g.Reachable)
      (hs : Solver.ofGraph g settings = .ok s) : Attainable s
  | perform {s : Solver E} (h : Attainable s) (a : Action E) : Attainable (s.perform a)
  | replaceEdge {s : Solver E} (h : Attainable s) (edge : Nat) (state : EdgeMessages E) :
      Attainable (s.modifyEdge edge fun _ => .ok state).2

theorem Reachable.attainable (h : s.Reachable) : s.Attainable := by
  induction h with
  | ofGraph hg hs => exact .ofGraph hg hs
  | perform _ a ih => exact ih.perform a

theorem Attainable.anchored (h : s.Attainable) : s.Anchored := by
  induction h with
  | ofGraph hg hs => exact (WellFormed.ofGraph hg.wellFormed hs).anchored
  | perform _ a ih => exact ih.perform a
  | replaceEdge _ edge state ih => exact ih.congr (refilled_modifyEdge _ edge _)

end Solver

end MinSum
