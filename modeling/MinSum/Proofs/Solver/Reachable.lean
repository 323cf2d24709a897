import MinSum.CustomFactor.Equality
import MinSum.Proofs.Solver.Changes
import MinSum.Proofs.Solver.Run

/-! Every state that a run of a solver leads to is well-formed. So an update fails only where the
node is missing or waits for initialization, or has no such port. -/
namespace MinSum

open Scratch

namespace Solver

section

variable {E : Type} [Energy E]

omit [Energy E] in
theorem factorNodes_eq_ok {g : Graph E} {fs : List Nat} (h : ∀ f ∈ fs, f < g.factors.size) :
    ∃ nodes, factorNodes g fs = .ok nodes ∧ List.Forall₂ (fun f (n : FactorNode E) =>
      n.factor = f ∧ g.factors[f]?.map (·.potential) = some n.potential ∧ n.binding = {})
      fs nodes := by
  induction fs with
  | nil => exact ⟨[], rfl, .nil⟩
  | cons f fs ih =>
    obtain ⟨nodes, hn, hall⟩ := ih fun f hf => h f (by simp [hf])
    obtain ⟨factor, hf⟩ : ∃ factor, g.factors[f]? = some factor :=
      ⟨_, Array.getElem?_eq_getElem (h f (by simp))⟩
    refine ⟨{ factor := f, potential := factor.potential } :: nodes, ?_, .cons ?_ hall⟩
    · simp only [factorNodes, FactorNode.ofGraph, Graph.factorAt, hf, hn]
    · exact ⟨rfl, by simp [hf], rfl⟩

/-- A solver of any graph can be made. It has a node for each variable and factor, none of them
initialized. -/
theorem exists_ofGraph {g : Graph E} {settings : Settings E} (hg : g.WellFormed)
    (hd : checkDamping settings.damping = .ok ()) :
    ∃ s, Solver.ofGraph g settings = .ok s ∧ s.graph = g ∧ s.settings = settings ∧ s.WellFormed ∧
      ∀ id n, s.nodeAt id = .ok n → n.binding = {} := by
  have hrange : ∀ f ∈ List.range g.factors.size, f < g.factors.size :=
    fun f hf => List.mem_range.1 hf
  obtain ⟨nodes, hnodes, hall⟩ := factorNodes_eq_ok hrange
  have hlen : nodes.length = g.factors.size := by simpa using hall.length_eq.symm
  have hnode : ∀ (f : Nat) (m : FactorNode E), nodes[f]? = some m →
      m.factor = f ∧ g.factors[f]?.map (·.potential) = some m.potential ∧ m.binding = {} := by
    intro f m hm
    obtain ⟨hf, rfl⟩ := List.getElem?_eq_some_iff.1 hm
    simpa using hall.get (by simpa [hlen] using hf) hf
  let s₀ : Solver E := {
    graph := g
    settings := settings
    vars := (Array.range g.vars.size).map fun v => { var := v }
    factors := nodes.toArray
    pool := { limit := settings.poolCapacity } }
  have hfac : ∀ f < g.factors.size, ∃ m, s₀.factors[f]? = some m ∧ m.factor = f := by
    intro f hf
    obtain ⟨m, hm⟩ : ∃ m, nodes[f]? = some m := ⟨_, List.getElem?_eq_getElem (hlen.symm ▸ hf)⟩
    exact ⟨m, by simpa [s₀] using hm, (hnode f m hm).1⟩
  obtain ⟨store, hcreate, hfits⟩ := createEdges_eq (s := s₀) hg hfac rfl (Nat.zero_add _)
    (fun e he => absurd he (Nat.not_lt_zero e))
  have hplaced : ∀ id n, ({ s₀ with store } : Solver E).nodeAt id = .ok n →
      n.Placed g id ∧ n.binding = {} := by
    intro id n hn
    cases id with
    | var v =>
      obtain ⟨m, hm, rfl⟩ := nodeAt_var_eq_ok.1 hn
      obtain ⟨hv, rfl⟩ := Array.getElem?_eq_some_iff.1 hm
      have hlt : v < g.vars.size := by simpa [s₀] using hv
      have hb : (Node.var s₀.vars[v]).binding = {} := by simp [s₀, Node.binding]
      refine ⟨⟨by simp [s₀, Node.id], hlt, ?_, hb ▸ rfl⟩, hb⟩
      intro m' hm'
      contradiction
    | factor f =>
      obtain ⟨m, hm, rfl⟩ := nodeAt_factor_eq_ok.1 hn
      obtain ⟨rfl, hp, hb⟩ := hnode f m (by simpa [s₀] using hm)
      have hlt : m.factor < g.factors.size := hlen ▸ (List.getElem?_eq_some_iff.1
        (show nodes[m.factor]? = some m by simpa [s₀] using hm)).1
      refine ⟨⟨rfl, hlt, ?_, (congrArg (·.choice.check) hb).trans rfl⟩, hb⟩
      rintro _ ⟨rfl⟩
      exact hp
  refine ⟨{ s₀ with store }, ?_, rfl, rfl, ⟨hg, by simp [s₀], by simp [s₀, hlen], hfits, hd, ?_⟩,
    fun id n hn => (hplaced id n hn).2⟩
  · simp only [Solver.ofGraph, hd, hnodes]
    rw [show Solver.createMissingEdges s₀ = _ from hcreate]
  · intro id n hn
    obtain ⟨hp, hb⟩ := hplaced id n hn
    exact hp.tracks (congrArg (·.initialized) hb)

theorem ofGraph_eq_ok {g : Graph E} {settings : Settings E} {s : Solver E} (hg : g.WellFormed)
    (hs : Solver.ofGraph g settings = .ok s) : s.graph = g ∧ s.settings = settings ∧
      s.WellFormed ∧ ∀ id n, s.nodeAt id = .ok n → n.binding = {} := by
  have hd : checkDamping settings.damping = .ok () := by
    unfold Solver.ofGraph at hs
    split at hs
    · contradiction
    · assumption
  obtain ⟨s', hs', h⟩ := exists_ofGraph hg hd
  obtain rfl := Except.ok.inj (hs.symm.trans hs')
  exact h

theorem WellFormed.ofGraph {g : Graph E} {settings : Settings E} {s : Solver E}
    (hg : g.WellFormed) (hs : Solver.ofGraph g settings = .ok s) : s.WellFormed :=
  (ofGraph_eq_ok hg hs).2.2.1

end

variable {E : Type} [LogEnergy E] [Energy.LawfulZero E] {s : Solver E}

theorem WellFormed.perform (h : s.WellFormed) (a : Action E) : (s.perform a).WellFormed := by
  cases a with
  | initializeAll => exact h.initializeAll
  | initializeNode id => exact h.initializeNode id
  | update id => exact (h.holds.continues_update s.keeps_trivial id).holds.wellFormed
  | updatePort id port =>
    exact (h.holds.continues_updatePort s.keeps_trivial id port).holds.wellFormed
  | iterate n => exact (h.holds.continues_iterate s.keeps_trivial n).holds.wellFormed
  | iterateParallel n =>
    exact (h.holds.continues_iterateParallel s.keeps_trivial n).holds.wellFormed
  | iterateInOrder orders =>
    exact (h.holds.continues_iterateInOrder s.keeps_trivial orders).holds.wellFormed
  | setInput v input =>
    exact h.changeInput fun g' hg => Graph.changesInput_of_setInput h.graph hg
  | setInputProbabilities v p =>
    exact h.changeInput fun g' hg => Graph.changesInput_of_setInputProbabilities h.graph hg
  | fixValue v fixed =>
    exact h.changeInput fun g' hg => Graph.changesInput_of_fixValue h.graph hg
  | setDamping id d => exact h.setDamping id d
  | setPortDamping id ds => exact h.setPortDamping id ds
  | addVariable name domain => exact h.addVariable name domain
  | addTable table built operands => exact h.addTable built operands
  | addCustom custom operands => exact h.addCustom custom operands
  | setToFactor edge m => exact h.modifyEdge (fun _ _ _ hs => hs.setToFactor) edge
  | setToVariable edge m => exact h.modifyEdge (fun _ _ _ hs => hs.setToVariable) edge
  | resetEdge edge =>
    refine h.modifyEdge (fun state state' size hs he => ?_) edge
    exact Except.ok.inj he ▸ hs.reset
  | takeWarnings =>
    have hsame : s.SameNodes { s with warnings := #[] } := ⟨rfl, rfl, rfl, rfl⟩
    exact hsame.wellFormed h h.store

theorem Reachable.wellFormed (h : s.Reachable) : s.WellFormed := by
  induction h with
  | ofGraph hg hs => exact .ofGraph hg.wellFormed hs
  | perform _ a ih => exact ih.perform a

/-- Nodes and states correspond to the graph, and an initialized node is bound to it as it is
now. So an update succeeds exactly on initialized nodes and their ports, and there the engines
get one message of the right size per port. -/
theorem Reachable.updates_cannot_fail (h : s.Reachable) :
    (s.vars.size = s.graph.vars.size ∧ s.factors.size = s.graph.factors.size ∧
      ∀ id n, s.nodeAt id = .ok n → n.id = id) ∧
    (s.store.size = s.graph.edges.size ∧ ∀ e edge, s.graph.edges[e]? = some edge →
      ∃ var state, s.graph.vars[edge.var]? = some var ∧ s.store.get e = .ok state ∧
        state.toFactor.length = var.size ∧ state.toVariable.length = var.size) ∧
    (∀ id n, s.nodeAt id = .ok n → n.binding.initialized = true →
      n.binding.edges = Graph.edgesOf (s.graph.linksAt id) ∧
      n.binding.sizes = (Graph.edgesOf (s.graph.linksAt id)).map s.graph.edgeSize ∧
      ∀ m, n = .var m → m.prior.length = s.graph.sizeAt m.var ∧
        m.sums.length = s.graph.sizeAt m.var) ∧
    (∀ id, (∃ ports, (s.update id).1 = .ok ports) ↔
      ∃ n, s.nodeAt id = .ok n ∧ n.binding.initialized = true) ∧
    (∀ id port, (∃ ports, (s.updatePort id port).1 = .ok ports) ↔
      (∃ n, s.nodeAt id = .ok n ∧ n.binding.initialized = true) ∧
        port < (Graph.edgesOf (s.graph.linksAt id)).length) ∧
    (∀ id n, s.nodeAt id = .ok n → n.binding.initialized = true → ∃ siblings,
      s.store.exclusive n.binding.edges = .ok siblings ∧
      siblings.length = n.binding.edges.length ∧
      (siblings.map n.side.incoming).map List.length = n.binding.sizes ∧
      (siblings.map n.side.outgoing).map List.length = n.binding.sizes ∧
      n.rule.Fits n.binding.sizes ∧
      ∀ ds, n.binding.damping = some ds → ds.length = n.binding.edges.length) ∧
    ((∀ id n, s.nodeAt id = .ok n → n.binding.initialized = true) → ∀ n,
      (s.iterate n).1 = .ok () ∧ (s.iterateParallel n).1 = .ok ()) := by
  have hw := h.wellFormed
  have hids : ∀ id n, s.nodeAt id = .ok n → n.id = id := fun id n hn => (hw.tracks id n hn).id_eq
  refine ⟨⟨hw.size_vars, hw.size_factors, hids⟩, ⟨hw.store.size, ?_⟩, ?_,
    fun id => hw.update_isOk_iff, fun id port => hw.updatePort_isOk_iff, ?_, ?_⟩
  · intro e edge he
    have hlt : e < s.store.size := hw.store.size ▸ (Array.getElem?_eq_some_iff.1 he).1
    obtain ⟨var, hv⟩ : ∃ var, s.graph.vars[edge.var]? = some var :=
      ⟨_, Array.getElem?_eq_getElem (hw.graph.ends edge (Array.mem_of_getElem? he)).1⟩
    have hsize : s.graph.edgeSize e = var.size := by simp [Graph.edgeSize, he, Graph.sizeAt, hv]
    obtain ⟨hf, hv'⟩ := hsize ▸ hw.store.states e hlt
    exact ⟨var, _, hv, EdgeStore.get_eq_ok hlt, hf, hv'⟩
  · intro id n hn hi
    have ht := hw.tracks id n hn
    refine ⟨ht.edges_eq hi, (ht.sizes_eq hi).trans (congrArg _ (ht.edges_eq hi)), ?_⟩
    rintro m rfl
    obtain ⟨var, hv, hm⟩ := (ht.bound hi).loaded m rfl
    have hprior : m.prior.length = s.graph.sizeAt m.var := by
      have hl := (hw.graph.valid_variable var (Array.mem_of_getElem? hv)).length_prior
      rw [Graph.sizeAt, hv, hm]
      exact hl
    exact ⟨hprior, ((ht.stands.rooted hi).length_sums hw.graph m rfl).trans hprior⟩
  · intro id n hn hi
    have ht := hw.tracks id n hn
    have hr := ht.ready hw.graph hi hw.store
    exact ⟨_, ht.exclusive_eq hi hw.graph hw.store, hr.length_eq,
      EdgeMessages.HasSize.lengths_incoming hr.sizes _,
      EdgeMessages.HasSize.lengths_outgoing hr.sizes _, hr.fits, hr.damping⟩
  · intro hall n
    have hi : ∀ id, s.graph.HasNode id → s.Initialized id := by
      intro id hid
      obtain ⟨node, hnode⟩ := hw.nodeAt_of_hasNode id hid
      exact ⟨node, hnode, hall id node hnode⟩
    obtain ⟨_, hseq⟩ := hw.iterate_isOk hi n
    obtain ⟨_, hpar⟩ := hw.iterateParallel_isOk hi n
    exact ⟨hseq, hpar⟩

private def single : Solver Float :=
  [.addVariable "x" .bit, .addCustom .equality [0], .initializeAll].foldl Solver.perform .empty

theorem Reachable.updates_cannot_fail_single : single.Reachable ∧
    (∃ ports, (single.update (.factor 0)).1 = .ok ports) ∧
      ∃ ports, (single.updatePort (.var 0) 0).1 = .ok ports := by
  have hs : single.Reachable := (Reachable.empty (by with_unfolding_all rfl)).foldl_perform _
  have hf : ∃ n, single.nodeAt (.factor 0) = .ok n ∧ n.binding.initialized = true :=
    ⟨_, by with_unfolding_all rfl, by with_unfolding_all rfl⟩
  have hv : ∃ n, single.nodeAt (.var 0) = .ok n ∧ n.binding.initialized = true :=
    ⟨_, by with_unfolding_all rfl, by with_unfolding_all rfl⟩
  obtain ⟨-, -, -, hupdate, hport, -⟩ := hs.updates_cannot_fail
  exact ⟨hs, (hupdate _).2 hf, (hport _ _).2 ⟨hv, by decide +kernel⟩⟩

end Solver

end MinSum
