import MinSum.Proofs.Graph.Sharing
import MinSum.Proofs.Solver.Rebuild
import MinSum.Proofs.Solver.Twin

/-! A table that a graph keeps for no factor. It changes the keys of later tables and nothing else:
two solvers that differ in the keys only do the same for ever, in any state. -/
namespace MinSum

open Scratch

namespace Graph

/-- Changes that a run makes keep every table that a factor uses. -/
theorem Keyed.after {E : Type} [LogEnergy E] {g : Graph E} (h : g.Keyed) (a : Action E) :
    (g.after a).Keyed := by
  cases a with
  | setInput v input => exact orSame_keeps h fun _ hg => keyed_setInput h hg
  | setInputProbabilities v p =>
    exact orSame_keeps h fun _ hg => keyed_setInputProbabilities h hg
  | fixValue v fixed => exact orSame_keeps h fun _ hg => keyed_fixValue h hg
  | addVariable name domain => exact orSame_grown_keeps h fun _ _ hg => keyed_addVariable h hg
  | addTable table built operands => exact orSame_grown_keeps h fun _ _ hg => keyed_addTable h hg
  | addCustom custom operands => exact orSame_grown_keeps h fun _ _ hg => keyed_addCustom h hg
  | _ => exact h

theorem Mirrors.tableOf_eq {E : Type} {g g' : Graph E} (h : g.Mirrors Potential.Same g') (f : Nat) :
    g'.tableOf f = g.tableOf f := by
  unfold tableOf
  rcases h.factors.getElem? f with ⟨ha, hb⟩ | ⟨a, b, ha, hb, -, hsame⟩
  · rw [ha, hb]
  · rw [ha, hb]
    simp only [Option.map_some]
    generalize a.potential = p, b.potential = p' at hsame
    cases hsame with
    | table hc => exact congrArg some hc
    | custom c => rfl

end Graph

variable {E : Type}

/-- The nodes differ in nothing but the key of a table. -/
inductive Node.Rekeyed : Node E → Node E → Prop where
  | var (m : VariableNode E) : Rekeyed (.var m) (.var m)
  | factor {m m' : FactorNode E} (h : m.Mirrors Graph.Potential.Same m') :
      Rekeyed (.factor m) (.factor m')

namespace Node.Rekeyed

variable {n n' : Node E} (h : n.Rekeyed n')

include h

theorem mirrors : n.Mirrors Graph.Potential.Same n' := by
  cases h with
  | var m => exact .var ⟨m.sums, rfl⟩
  | factor h => exact .factor h

theorem rule_eq : n'.rule = n.rule := by
  cases h with
  | var m => rfl
  | factor h =>
    obtain ⟨potential, rfl, hsame⟩ := h
    exact Node.rule_eq_of_same hsame

theorem withBinding (b : Binding E) : (n.withBinding b).Rekeyed (n'.withBinding b) := by
  cases h with
  | var m => exact .var _
  | factor h =>
    obtain ⟨potential, rfl, hsame⟩ := h
    exact .factor ⟨potential, rfl, hsame⟩

variable [Energy E]

/-- From the same messages and with the same pool the nodes compute the same. -/
theorem compute_eq (inputs previous : List (Message E)) (pool : Pool E) :
    n'.compute inputs previous pool = n.compute inputs previous pool := by
  have hrule := h.rule_eq
  have hbinding := h.mirrors.binding_eq
  cases h with
  | var m => rfl
  | factor h =>
    simp only [Node.binding] at hbinding
    simp only [Node.compute, hrule, hbinding]

theorem update_eq (siblings : List (EdgeMessages E)) (pool : Pool E) :
    n'.update siblings pool = n.update siblings pool := by
  simp only [Node.update, Node.checkUpdate, h.mirrors.binding_eq, h.mirrors.id_eq,
    h.mirrors.side_eq, h.compute_eq]

theorem updatePort_eq (port : Nat) (siblings : List (EdgeMessages E)) (pool : Pool E) :
    n'.updatePort port siblings pool = n.updatePort port siblings pool := by
  simp only [Node.updatePort, Node.checkUpdate, h.mirrors.binding_eq, h.mirrors.id_eq,
    h.mirrors.side_eq, h.rule_eq]

theorem runNode_eq (store : EdgeStore E) (pool : Pool E) :
    Phase.runNode store n' pool = Phase.runNode store n pool := by
  simp only [Phase.runNode, h.mirrors.binding_eq, h.update_eq]

end Node.Rekeyed

theorem Node.congruent_rekeyed [Energy E] :
    Congruent (E := E) Graph.Potential.Same Node.Rekeyed where
  mirrors h := h.mirrors
  withBinding b h := h.withBinding b
  load var h := by
    cases h with
    | var m => exact .var _
  newVariable v := .var _
  newFactor f _ p' hp := .factor ⟨p', rfl, hp⟩

namespace Phase

variable [Energy E] {nodes nodes' : Array (Node E)} (h : Matched Node.Rekeyed nodes nodes')

include h

theorem runPlan_eq_of_rekeyed (store : EdgeStore E) (answers : Array (Option (Answer E)))
    (plan : Plan E) : runPlan nodes' store answers plan = runPlan nodes store answers plan := by
  induction plan generalizing store answers with
  | nil => rfl
  | cons step plan ih =>
    rw [runPlan, runPlan]
    rcases h.getElem? step.1 with ⟨hn, hn'⟩ | ⟨n, n', hn, hn', hnn⟩
    · rw [hn, hn']
      exact ih store answers
    · simp only [hn, hn', hnn.runNode_eq]
      exact ih _ _

theorem run_eq_of_rekeyed (store : EdgeStore E) (plan : Plan E) :
    run nodes' store plan = run nodes store plan := by
  have hkey := h.map_eq (f := fun n => (n.id, n.binding)) (g := fun n => (n.id, n.binding))
    fun n n' hnn => by rw [hnn.mirrors.id_eq, hnn.mirrors.binding_eq]
  exact run_eq_of_runPlan hkey fun _ _ answers => runPlan_eq_of_rekeyed h store answers plan

end Phase

namespace Solver

/-- The solvers differ in the keys of tables only, and in which tables are kept. -/
abbrev Rekeyed (s t : Solver E) : Prop := Beside Graph.Potential.Same Node.Rekeyed Eq s t

namespace Rekeyed

variable {s t : Solver E} (h : s.Rekeyed t)

include h

theorem runUpdate (id : NodeId)
    {f f' : Node E → List (EdgeMessages E) → Except (SolverError E) (NodeUpdate E)}
    (hf : ∀ n n', n.Rekeyed n' → f' n' = f n) :
    Attempt.Paired Rekeyed (s.runUpdate id f) (t.runUpdate id f') := by
  simp only [Solver.runUpdate]
  rcases h.nodeAt id with ⟨e, hn, hn'⟩ | ⟨n, n', hn, hn', hnn⟩
  · simp only [hn, hn']
    exact ⟨rfl, h⟩
  simp only [hn, hn', hnn.mirrors.binding_eq, h.store, hf n n' hnn]
  split
  · exact ⟨rfl, h⟩
  split
  · exact ⟨rfl, h⟩
  split
  · exact ⟨rfl, h⟩
  · rename_i u _
    have hstore : t.store.write n.binding.edges u.siblings =
        s.store.write n.binding.edges u.siblings := by rw [h.store]
    have hwarnings : t.warnings ++ u.contradictions.map (Contradiction.mk id) =
        s.warnings ++ u.contradictions.map (Contradiction.mk id) := by rw [h.warnings]
    exact ⟨rfl, { h with store := hstore, pool := rfl, warnings := hwarnings }⟩

variable [Energy E]

theorem update (id : NodeId) : Attempt.Paired Rekeyed (s.update id) (t.update id) := by
  apply h.runUpdate
  intro n n' hnn
  funext siblings
  rw [← h.pool, hnn.update_eq]

theorem updatePort (id : NodeId) (port : Nat) :
    Attempt.Paired Rekeyed (s.updatePort id port) (t.updatePort id port) := by
  apply h.runUpdate
  intro n n' hnn
  funext siblings
  rw [← h.pool, hnn.updatePort_eq]

theorem updateNodes (ids : List NodeId) :
    Attempt.Paired Rekeyed (s.updateNodes ids) (t.updateNodes ids) := by
  induction ids generalizing s t with
  | nil => exact ⟨rfl, h⟩
  | cons id ids ih => exact (h.update id).andThen fun _ _ _ h' => ih h'

theorem iterate (n : Nat) : Attempt.Paired Rekeyed (s.iterate n) (t.iterate n) := by
  induction n generalizing s t with
  | zero => exact ⟨rfl, h⟩
  | succ n ih =>
    rw [Solver.iterate, Solver.iterate, h.factorIds, h.variableIds]
    exact (h.updateNodes _).andThen fun _ _ _ h' => ih h'

theorem runPhase {nodes nodes' : Array (Node E)} (hm : Matched Node.Rekeyed nodes nodes')
    (plan : Plan E) : Attempt.Paired Rekeyed (s.runPhase nodes plan) (t.runPhase nodes' plan) := by
  have hrun := Phase.run_eq_of_rekeyed hm s.store plan
  simp only [Solver.runPhase, h.store, hrun]
  cases (Phase.run nodes s.store plan).1 with
  | error e => exact ⟨rfl, { h with store := rfl }⟩
  | ok reports =>
    simp only [foldl_record]
    refine ⟨rfl, { h with store := rfl, warnings := ?_ }⟩
    simp only [h.warnings]

theorem sweep (order : Sweep E) : Attempt.Paired Rekeyed (s.sweep order) (t.sweep order) := by
  have hf : Matched Node.Rekeyed (s.factors.map .factor) (t.factors.map .factor) :=
    h.factors.map fun _ _ hmm => hmm
  refine (h.runPhase hf order.factors).andThen fun _ s t h' => ?_
  have hv : Matched Node.Rekeyed (s.vars.map .var) (t.vars.map .var) :=
    h'.vars.map fun _ _ hmm => hmm
  exact h'.runPhase hv order.vars

theorem iterateInOrder (orders : List (Sweep E)) :
    Attempt.Paired Rekeyed (s.iterateInOrder orders) (t.iterateInOrder orders) := by
  induction orders generalizing s t with
  | nil => exact ⟨rfl, h⟩
  | cons order orders ih => exact (h.sweep order).andThen fun _ _ _ h' => ih h'

theorem iterateParallel (n : Nat) :
    Attempt.Paired Rekeyed (s.iterateParallel n) (t.iterateParallel n) := by
  induction n generalizing s t with
  | zero => exact ⟨rfl, h⟩
  | succ n ih =>
    rw [Solver.iterateParallel, Solver.iterateParallel, sweepOrder, sweepOrder, h.factors.size,
      h.vars.size, h.settings]
    exact (h.sweep _).andThen fun _ _ _ h' => ih h'

end Rekeyed

section

variable {E : Type} [LogEnergy E]

/-- The same steps lead from `s` to `u` and from `t` to `v`. Edge states may also be put in the place
of others, as in `Attainable`: messages of unequal lengths included. -/
inductive Alongside (s t : Solver E) : Solver E → Solver E → Prop where
  | start : Alongside s t s t
  | perform {u v : Solver E} (h : Alongside s t u v) (a : Action E) :
      Alongside s t (u.perform a) (v.perform a)
  | replaceEdge {u v : Solver E} (h : Alongside s t u v) (edge : Nat) (state : EdgeMessages E) :
      Alongside s t (u.modifyEdge edge fun _ => .ok state).2
        (v.modifyEdge edge fun _ => .ok state).2

/-- The solvers answer whatever they are asked alike, and factors share a table in the graph of one
if they do in the other. -/
structure AnswersAlike (s t : Solver E) : Prop where
  reply : ∀ a, t.reply a = s.reply a
  readings : t.readings = s.readings
  settings : t.settings = s.settings
  pool : t.pool = s.pool
  factorBelief : t.factorBelief = s.factorBelief
  factorScore : t.factorScore = s.factorScore
  graph : s.graph.Mirrors Graph.Potential.Same t.graph
  shares : t.graph.Shares = s.graph.Shares

namespace Rekeyed

variable {s t : Solver E} (h : s.Rekeyed t)

include h

theorem perform (a : Action E) :
    t.reply a = s.reply a ∧ (s.perform a).Rekeyed (t.perform a) :=
  Beside.perform h Node.congruent_rekeyed (fun _ _ hp => hp) h.update h.updatePort h.iterate
    h.iterateParallel h.iterateInOrder a

theorem answersAlike (hs : s.graph.Keyed) (ht : t.graph.Keyed) : s.AnswersAlike t := by
  have hm : s.Mirrors Graph.Potential.Same t := Beside.mirrors h Node.congruent_rekeyed
  refine ⟨fun a => (h.perform a).1, hm.readings_eq, h.settings, h.pool.symm, hm.factorBelief_eq,
    hm.factorScore_eq, h.graph, ?_⟩
  funext f f'
  apply propext
  rw [hs.shares_iff, ht.shares_iff, h.graph.tableOf_eq, h.graph.tableOf_eq]

end Rekeyed

/-- The solver as it would be if its graph kept the table, too. -/
def keeping (s : Solver E) (table : Table E) : Solver E :=
  { s with graph := { s.graph with tables := (s.graph.tables.intern table).2 } }

theorem rekeyed_keeping (s : Solver E) (table : Table E) : s.Rekeyed (s.keeping table) where
  graph := ⟨rfl, rfl, rfl, (Graph.Mirrors.refl .refl s.graph).factors⟩
  settings := rfl
  store := rfl
  warnings := rfl
  vars := .refl (fun m => .var m) s.vars
  factors := .refl (fun m => .factor ⟨m.potential, rfl, .refl _⟩) s.factors
  pool := rfl

theorem Attainable.keyed {s : Solver E} (h : s.Attainable) : s.graph.Keyed := by
  induction h with
  | ofGraph hg hs =>
    obtain ⟨rfl, -⟩ := ofGraph_eq_ok hg.wellFormed hs
    exact hg.keyed
  | perform _ a ih =>
    rw [graph_perform]
    exact ih.after a
  | replaceEdge _ edge state ih =>
    rw [graph_modifyEdge]
    exact ih

/-- A table that is kept for no factor is seen by nobody, however the solver is used from then on. -/
theorem answersAlike_keeping {s u v : Solver E} (hs : s.graph.Keyed) (table : Table E)
    (h : s.Alongside (s.keeping table) u v) : u.AnswersAlike v := by
  have hall : u.Rekeyed v ∧ u.graph.Keyed ∧ v.graph.Keyed := by
    induction h with
    | start => exact ⟨s.rekeyed_keeping table, hs, hs.intern table⟩
    | @perform u v _ a ih =>
      obtain ⟨huv, hu, hv⟩ := ih
      rw [u.graph_perform, v.graph_perform]
      exact ⟨(huv.perform a).2, hu.after a, hv.after a⟩
    | @replaceEdge u v _ edge state ih =>
      obtain ⟨huv, hu, hv⟩ := ih
      rw [u.graph_modifyEdge, v.graph_modifyEdge]
      exact ⟨(Beside.modifyEdge huv edge _).state, hu, hv⟩
  exact hall.1.answersAlike hall.2.1 hall.2.2

end

end Solver

end MinSum
