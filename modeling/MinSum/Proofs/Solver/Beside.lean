import MinSum.Proofs.Node.Mirror
import MinSum.Proofs.Solver.Observe

/-! Two solvers side by side, with related nodes at the same places. Whatever the relation is, no
change that is not an update tells the solvers apart or breaks it. -/
namespace MinSum.Solver

open Scratch

variable {E : Type}

/-- The solvers differ in the potentials of their factors, which `Q` relates, in their nodes, which
`R` relates, and in their pools, which `W` relates. -/
structure Beside (Q : Graph.Potential E → Graph.Potential E → Prop) (R : Node E → Node E → Prop)
    (W : Pool E → Pool E → Prop) (s t : Solver E) : Prop where
  graph : s.graph.Mirrors Q t.graph
  settings : t.settings = s.settings
  store : t.store = s.store
  warnings : t.warnings = s.warnings
  vars : Matched (fun m m' => R (.var m) (.var m')) s.vars t.vars
  factors : Matched (fun m m' => R (.factor m) (.factor m')) s.factors t.factors
  pool : W s.pool t.pool

namespace Beside

variable {Q : Graph.Potential E → Graph.Potential E → Prop} {R : Node E → Node E → Prop}
  {W : Pool E → Pool E → Prop} {s t : Solver E} (h : Beside Q R W s t)

include h

theorem nodeAt (id : NodeId) : Agree R (s.nodeAt id) (t.nodeAt id) := by
  cases id with
  | var v =>
    rcases h.vars.getElem? v with ⟨hm, hm'⟩ | ⟨m, m', hm, hm', hmm⟩
    · exact .inl ⟨_, by rw [Solver.nodeAt, hm], by rw [Solver.nodeAt, hm']⟩
    · exact .inr ⟨_, _, by rw [Solver.nodeAt, hm], by rw [Solver.nodeAt, hm'], hmm⟩
  | factor f =>
    rcases h.factors.getElem? f with ⟨hm, hm'⟩ | ⟨m, m', hm, hm', hmm⟩
    · exact .inl ⟨_, by rw [Solver.nodeAt, hm], by rw [Solver.nodeAt, hm']⟩
    · exact .inr ⟨_, _, by rw [Solver.nodeAt, hm], by rw [Solver.nodeAt, hm'], hmm⟩

theorem variableIds : t.variableIds = s.variableIds := by
  rw [Solver.variableIds, Solver.variableIds, h.vars.size]

theorem factorIds : t.factorIds = s.factorIds := by
  rw [Solver.factorIds, Solver.factorIds, h.factors.size]

theorem modifyEdge (edge : Nat) (f : EdgeMessages E → Except (SolverError E) (EdgeMessages E)) :
    Attempt.Paired (Beside Q R W) (s.modifyEdge edge f) (t.modifyEdge edge f) := by
  simp only [Solver.modifyEdge, h.store]
  cases s.store.get edge with
  | error e => exact ⟨rfl, h⟩
  | ok state =>
    simp only
    split
    · exact ⟨rfl, h⟩
    · exact ⟨rfl, { h with store := rfl }⟩

variable [Energy E] (hR : Node.Congruent Q R)

include hR

theorem setNode {n n' : Node E} (hn : R n n') (id : NodeId) :
    Beside Q R W (s.setNode id n) (t.setNode id n') := by
  cases hR.mirrors hn with
  | var _ =>
    cases id with
    | factor f => exact h
    | var v => exact { h with vars := h.vars.setIfInBounds hn v }
  | factor _ =>
    cases id with
    | var v => exact h
    | factor f => exact { h with factors := h.factors.setIfInBounds hn f }

theorem initializeNode (id : NodeId) :
    Attempt.Paired (Beside Q R W) (s.initializeNode id) (t.initializeNode id) := by
  simp only [Solver.initializeNode]
  rcases h.nodeAt id with ⟨e, hn, hn'⟩ | ⟨n, n', hn, hn', hnn⟩
  · simp only [hn, hn']
    exact ⟨rfl, h⟩
  · simp only [hn, hn', h.store, h.settings]
    have hb := hR.bind hnn h.graph s.store s.settings
    exact ⟨hb.answer, h.setNode hR hb.state id⟩

theorem initializeNodes (ids : List NodeId) :
    Attempt.Paired (Beside Q R W) (s.initializeNodes ids) (t.initializeNodes ids) := by
  induction ids generalizing s t with
  | nil => exact ⟨rfl, h⟩
  | cons id ids ih => exact (h.initializeNode hR id).andThen fun _ _ _ h' => ih h'

theorem initializeAll : Attempt.Paired (Beside Q R W) s.initializeAll t.initializeAll := by
  let s' : Solver E := { s with store := s.store.reset }
  have hr : Beside Q R W s' { t with store := t.store.reset } :=
    { h with store := congrArg EdgeStore.reset h.store }
  rw [Solver.initializeAll, Solver.initializeAll, hr.variableIds, hr.factorIds]
  exact (hr.initializeNodes hR _).andThen fun _ _ _ h' => ⟨rfl, { h' with warnings := rfl }⟩

theorem changeInput (v : Nat) {changed changed' : Except (GraphError E) (Graph E)}
    (hc : Agree (Graph.Mirrors Q) changed changed') :
    Attempt.Paired (Beside Q R W) (s.changeInput v changed) (t.changeInput v changed') := by
  rcases hc with ⟨e, rfl, rfl⟩ | ⟨g, g', rfl, rfl, hg⟩
  · exact ⟨rfl, h⟩
  have hs : Beside Q R W { s with graph := g } { t with graph := g' } := { h with graph := hg }
  simp only [Solver.changeInput, reloadInput, variableNodeAt]
  rcases h.vars.getElem? v with ⟨hm, hm'⟩ | ⟨m, m', hm, hm', hmm⟩
  · simp only [hm, hm']
    exact ⟨rfl, hs⟩
  have hbinding : m'.binding = m.binding := (hR.mirrors hmm).binding_eq
  have hvar : m'.var = m.var := NodeId.var.inj (hR.mirrors hmm).id_eq
  have hat : g'.variableAt m'.var = g.variableAt m.var := by rw [hg.variableAt, hvar]
  simp only [hm, hm', hbinding, VariableNode.loadInput, hat]
  split
  · cases g.variableAt m.var with
    | error e => exact ⟨rfl, hs⟩
    | ok var => exact ⟨rfl, hs.setNode hR (hR.load var hmm) (.var v)⟩
  · exact ⟨rfl, hs⟩

theorem modifyChoice (id : NodeId) (f : DampingChoice E → DampingChoice E) :
    Attempt.Paired (Beside Q R W) (s.modifyChoice id f) (t.modifyChoice id f) := by
  simp only [Solver.modifyChoice]
  rcases h.nodeAt id with ⟨e, hn, hn'⟩ | ⟨n, n', hn, hn', hnn⟩
  · simp only [hn, hn']
    exact ⟨rfl, h⟩
  simp only [hn, hn', (hR.mirrors hnn).binding_eq]
  rcases hR.choose hnn (f n.binding.choice) with ⟨e, hc, hc'⟩ | ⟨m, m', hc, hc', hmm⟩
  · simp only [hc, hc']
    exact ⟨rfl, h⟩
  · simp only [hc, hc', (hR.mirrors hmm).binding_eq]
    split
    · exact (h.setNode hR hmm id).initializeNode hR id
    · exact ⟨rfl, h.setNode hR hmm id⟩

theorem setDamping (id : NodeId) (d : E) :
    Attempt.Paired (Beside Q R W) (s.setDamping id d) (t.setDamping id d) := by
  simp only [Solver.setDamping]
  split
  · exact ⟨rfl, h⟩
  · exact h.modifyChoice hR id _

theorem addVariable (name : String) (domain : Domain) :
    Attempt.Paired (Beside Q R W) (s.addVariable name domain) (t.addVariable name domain) := by
  simp only [Solver.addVariable]
  rcases h.graph.addVariable name domain with ⟨e, ha, ha'⟩ | ⟨⟨v, g⟩, ⟨v', g'⟩, ha, ha', hv, hg⟩
  · simp only [ha, ha']
    exact ⟨rfl, h⟩
  · obtain rfl : v' = v := hv
    simp only [ha, ha']
    exact ⟨rfl, { h with graph := hg, vars := h.vars.push (hR.newVariable v') }⟩

theorem createEdges (edge count : Nat) :
    Attempt.Paired (Beside Q R W) (s.createEdges edge count) (t.createEdges edge count) := by
  induction count generalizing s t edge with
  | zero => exact ⟨rfl, h⟩
  | succ count ih =>
    simp only [Solver.createEdges, h.graph.edgeAt, factorNodeAt]
    cases s.graph.edgeAt edge with
    | error e => exact ⟨rfl, h⟩
    | ok ends =>
      rcases h.factors.getElem? ends.factor with ⟨hm, hm'⟩ | ⟨m, m', hm, hm', hmm⟩
      · simp only [hm, hm']
        exact ⟨rfl, h⟩
      · simp only [hm, hm', (hR.mirrors hmm).createEdge h.graph]
        cases (Node.factor m).createEdge s.graph edge with
        | error e => exact ⟨rfl, h⟩
        | ok state =>
          have hs : Beside Q R W { s with store := s.store.push state }
              { t with store := t.store.push state } :=
            { h with store := congrArg (·.push state) h.store }
          exact ih hs (edge + 1)

theorem createMissingEdges :
    Attempt.Paired (Beside Q R W) s.createMissingEdges t.createMissingEdges := by
  rw [Solver.createMissingEdges, Solver.createMissingEdges, h.store, h.graph.edges]
  exact h.createEdges hR _ _

theorem invalidate (operands : List Nat) :
    Beside Q R W (s.invalidate operands) (t.invalidate operands) := by
  refine { h with vars := ?_ }
  have hv := h.vars
  simp only [Solver.invalidate]
  generalize s.vars = vars at hv ⊢
  generalize t.vars = vars' at hv ⊢
  induction operands generalizing vars vars' with
  | nil => exact hv
  | cons v operands ih =>
    refine ih _ _ (hv.modify ?_ v)
    intro m m' hmm
    have hbinding : m'.binding = m.binding := (hR.mirrors hmm).binding_eq
    rw [hbinding]
    exact hR.withBinding _ hmm

theorem attach (operands : List Nat) (f : Nat) {g g' : Graph E} (hg : g.Mirrors Q g') :
    Attempt.Paired (Beside Q R W) (s.attach operands f g) (t.attach operands f g') := by
  have hs : Beside Q R W { s with graph := g } { t with graph := g' } := { h with graph := hg }
  simp only [Solver.attach, FactorNode.ofGraph]
  rcases hg.factorAt f with ⟨e, ha, hb⟩ | ⟨a, b, ha, hb, -, hQ⟩
  · simp only [ha, hb]
    exact ⟨rfl, hs⟩
  · simp only [ha, hb]
    have hp : Beside Q R W
        { s with
          graph := g, factors := s.factors.push { factor := f, potential := a.potential } }
        { t with
          graph := g', factors := t.factors.push { factor := f, potential := b.potential } } :=
      { hs with factors := h.factors.push (hR.newFactor f hQ) }
    refine (hp.createMissingEdges hR).andThen fun _ _ _ h' => ?_
    exact ⟨rfl, h'.invalidate hR operands⟩

variable (hQ : ∀ p p', Graph.Potential.Same p p' → Q p p')

include hQ

theorem addTable (table : Table E) (operands : List Nat) :
    Attempt.Paired (Beside Q R W) (s.addTable table operands) (t.addTable table operands) := by
  simp only [Solver.addTable]
  rcases h.graph.addTable hQ table operands with
    ⟨e, ha, ha'⟩ | ⟨⟨f, g⟩, ⟨f', g'⟩, ha, ha', hf, hg⟩
  · simp only [ha, ha']
    exact ⟨rfl, h⟩
  · obtain rfl : f' = f := hf
    simp only [ha, ha']
    exact h.attach hR operands f' hg

theorem addCustom (custom : CustomFactor E) (operands : List Nat) :
    Attempt.Paired (Beside Q R W) (s.addCustom custom operands) (t.addCustom custom operands) := by
  simp only [Solver.addCustom]
  rcases h.graph.addCustom hQ custom operands with
    ⟨e, ha, ha'⟩ | ⟨⟨f, g⟩, ⟨f', g'⟩, ha, ha', hf, hg⟩
  · simp only [ha, ha']
    exact ⟨rfl, h⟩
  · obtain rfl : f' = f := hf
    simp only [ha, ha']
    exact h.attach hR operands f' hg

end Beside

/-- Solvers side by side that answer updates alike answer every action alike. -/
theorem Beside.perform {E : Type} [LogEnergy E]
    {Q : Graph.Potential E → Graph.Potential E → Prop} {R : Node E → Node E → Prop}
    {W : Pool E → Pool E → Prop} {s t : Solver E} (h : Beside Q R W s t)
    (hR : Node.Congruent Q R) (hQ : ∀ p p', Graph.Potential.Same p p' → Q p p')
    (update : ∀ id, Attempt.Paired (Beside Q R W) (s.update id) (t.update id))
    (updatePort : ∀ id port,
      Attempt.Paired (Beside Q R W) (s.updatePort id port) (t.updatePort id port))
    (iterate : ∀ n, Attempt.Paired (Beside Q R W) (s.iterate n) (t.iterate n))
    (iterateParallel : ∀ n,
      Attempt.Paired (Beside Q R W) (s.iterateParallel n) (t.iterateParallel n))
    (iterateInOrder : ∀ orders,
      Attempt.Paired (Beside Q R W) (s.iterateInOrder orders) (t.iterateInOrder orders))
    (a : Action E) : t.reply a = s.reply a ∧ Beside Q R W (s.perform a) (t.perform a) := by
  have hreply : ∀ {α : Type} {x y : Attempt (SolverError E) (Solver E) α}
      (reply : Except (SolverError E) α → Reply E), Attempt.Paired (Beside Q R W) x y →
        reply y.1 = reply x.1 ∧ Beside Q R W x.2 y.2 :=
    fun reply hxy => ⟨congrArg reply hxy.answer, hxy.state⟩
  cases a with
  | initializeAll => exact hreply .done (h.initializeAll hR)
  | initializeNode id => exact hreply .done (h.initializeNode hR id)
  | update id => exact hreply .ports (update id)
  | updatePort id port => exact hreply .ports (updatePort id port)
  | iterate n => exact hreply .done (iterate n)
  | iterateParallel n => exact hreply .done (iterateParallel n)
  | iterateInOrder orders => exact hreply .done (iterateInOrder orders)
  | setInput v input => exact hreply .done (h.changeInput hR v (h.graph.setInput v input))
  | setInputProbabilities v p =>
    exact hreply .done (h.changeInput hR v (h.graph.setInputProbabilities v p))
  | fixValue v fixed => exact hreply .done (h.changeInput hR v (h.graph.fixValue v fixed))
  | setDamping id d => exact hreply .done (h.setDamping hR id d)
  | setPortDamping id ds => exact hreply .done (h.modifyChoice hR id _)
  | addVariable name domain => exact hreply .added (h.addVariable hR name domain)
  | addTable table built operands => exact hreply .added (h.addTable hR hQ table operands)
  | addCustom custom operands => exact hreply .added (h.addCustom hR hQ custom operands)
  | setToFactor edge m => exact hreply .done (h.modifyEdge edge _)
  | setToVariable edge m => exact hreply .done (h.modifyEdge edge _)
  | resetEdge edge => exact hreply .done (h.modifyEdge edge _)
  | takeWarnings => exact ⟨congrArg Reply.warnings h.warnings, { h with warnings := rfl }⟩

end MinSum.Solver
