import Mathlib.Algebra.Field.Rat
import Mathlib.Algebra.Order.Ring.Rat
import MinSum.Energy.Extended
import MinSum.Proofs.Solver.Delivered
import MinSum.Proofs.Solver.Rebuild
import MinSum.Proofs.Solver.Twin

/-! Initialization forgets the past. What a solver does from then on is told by its graph, its
settings and the damping its nodes choose, so it might as well have been made just now. -/
namespace MinSum

open Scratch

variable {E : Type}

namespace Solver.SameButScratch

variable {s s' : Solver E} (h : s.SameButScratch s')

include h

theorem matched_vars : Matched (fun m m' : VariableNode E =>
    ∃ sums, sums.length = m.sums.length ∧ m' = { m with sums }) s.vars s'.vars :=
  ⟨h.size_vars, h.vars⟩

theorem wellFormed [Energy E] (hs : s.WellFormed) : s'.WellFormed where
  graph := h.graph ▸ hs.graph
  size_vars := h.graph ▸ h.size_vars.trans hs.size_vars
  size_factors := h.graph ▸ h.factors ▸ hs.size_factors
  store := h.graph ▸ h.store ▸ hs.store
  damping := h.settings ▸ hs.damping
  tracks id n hn := by
    rw [h.graph, h.settings]
    cases id with
    | factor f =>
      obtain ⟨m, hm, rfl⟩ := nodeAt_factor_eq_ok.1 hn
      exact hs.tracks _ _ (nodeAt_factor_eq_ok.2 ⟨m, h.factors ▸ hm, rfl⟩)
    | var v =>
      obtain ⟨m', hm', rfl⟩ := nodeAt_var_eq_ok.1 hn
      rcases h.matched_vars.getElem? v with ⟨-, hnone⟩ | ⟨m, _, hm, hm'', sums, hl, rfl⟩
      · rw [hnone] at hm'
        contradiction
      obtain rfl := Option.some.inj (hm''.symm.trans hm')
      have ht := hs.tracks _ _ (nodeAt_var_eq_ok.2 ⟨m, hm, rfl⟩)
      refine ⟨⟨ht.id_eq, ht.hasNode, ?_, ht.choice⟩, fun hi => ?_⟩
      · intro m' hm'
        contradiction
      · obtain ⟨hedges, hsizes, hdamping, hloaded⟩ := ht.bound hi
        refine ⟨hedges, hsizes, hdamping, ?_⟩
        rintro _ ⟨rfl⟩
        obtain ⟨var, hv, hload⟩ := hloaded m rfl
        have hlen : sums.length = var.size := by
          rw [hl, hload]
          exact LeaveOneOut.length_resize _ _
        refine ⟨var, hv, ?_⟩
        rw [hload]
        simp only [VariableNode.load, LeaveOneOut.resize_of_length hlen]

end Solver.SameButScratch

namespace Solver

/-- What mirrors a solver does so whatever scratch memory holds. -/
theorem Mirrors.scratch {Q : Graph.Potential E → Graph.Potential E → Prop} {s s' t t' : Solver E}
    (h : s.Mirrors Q t) (hs : s.SameButScratch s') (ht : t.SameButScratch t') :
    s'.Mirrors Q t' where
  graph := hs.graph.symm ▸ ht.graph.symm ▸ h.graph
  settings := ht.settings.trans (h.settings.trans hs.settings.symm)
  store := ht.store.trans (h.store.trans hs.store.symm)
  warnings := ht.warnings.trans (h.warnings.trans hs.warnings.symm)
  vars := by
    refine ⟨ht.size_vars.trans (h.vars.size.trans hs.size_vars.symm), fun v m m' hm hm' => ?_⟩
    rcases hs.matched_vars.getElem? v with ⟨-, hnone⟩ | ⟨m₁, m₂, hm₁, hm₂, sums, -, rfl⟩
    · rw [hnone] at hm
      contradiction
    rcases ht.matched_vars.getElem? v with ⟨-, hnone⟩ | ⟨m₃, m₄, hm₃, hm₄, sums', -, rfl⟩
    · rw [hnone] at hm'
      contradiction
    obtain rfl := Option.some.inj (hm₂.symm.trans hm)
    obtain rfl := Option.some.inj (hm₄.symm.trans hm')
    obtain ⟨_, rfl⟩ := h.vars.rel v _ _ hm₁ hm₃
    exact ⟨sums', rfl⟩
  factors := hs.factors.symm ▸ ht.factors.symm ▸ h.factors

/-- Nodes with the same potentials compute the same from any messages. -/
theorem Mirrors.twins [Energy E] {s t : Solver E} (h : s.Mirrors Graph.Potential.Same t)
    (hs : s.WellFormed) (ht : t.WellFormed) :
    Twins Graph.Potential.Same (fun _ => True) s t where
  mirrors := h
  holds := hs.holds
  keeps := s.keeps_trivial
  wellFormed := ht
  echoes id n n' hn hn' _ store _ _ := by
    have hnn := h.node hn hn'
    have hrule : n'.rule = n.rule := by
      cases hnn with
      | var hmm =>
        obtain ⟨sums, rfl⟩ := hmm
        rfl
      | factor hmm =>
        obtain ⟨potential, rfl, hsame⟩ := hmm
        exact Node.rule_eq_of_same hsame
    exact ⟨by simp only [Node.raw, hrule, hnn.side_eq],
      fun port _ => by simp only [Node.rawPort, hrule, hnn.side_eq]⟩

section

variable [LogEnergy E] [Energy.LawfulZero E]

/-- No run tells solvers of the same graph apart that mirror each other. -/
theorem Mirrors.indistinguishable {s t : Solver E} (h : s.Mirrors Graph.Potential.Same t)
    (hs : s.WellFormed) (ht : t.WellFormed) (hg : t.graph = s.graph) : s.Indistinguishable t := by
  intro actions u v hu hv
  induction hu generalizing t with
  | @nil s u hsu =>
    cases hv with
    | nil htv =>
      have hm := h.scratch hsu htv
      refine ⟨fun a => ((hm.twins (hsu.wellFormed hs) (htv.wellFormed ht)).perform
        (fun _ _ hp => hp) a).1, hm.readings_eq, ?_, hm.settings, hm.factorBelief_eq,
        hm.factorScore_eq⟩
      rw [htv.graph, hg, hsu.graph]
  | @cons s s' u actions hss a hu ih =>
    cases hv with
    | @cons _ t' _ _ htt _ hv =>
      have hs' := hss.wellFormed hs
      have ht' := htt.wellFormed ht
      refine ih (((h.scratch hss htt).twins hs' ht').perform (fun _ _ hp => hp) a).2
        (hs'.perform a) (ht'.perform a) ?_ hv
      rw [graph_perform, graph_perform, htt.graph, hg, hss.graph]

end

end Solver

section

variable [Energy E]

def Graph.quiet (g : Graph E) : EdgeStore E :=
  ⟨(Array.range g.edges.size).map fun e => .uniform (g.edgeSize e)⟩

theorem Graph.stateOf_quiet {g : Graph E} {e : Nat} (he : e < g.edges.size) :
    g.quiet.stateOf e = .uniform (g.edgeSize e) := by
  simp [quiet, EdgeStore.stateOf, he]

theorem Graph.size_quiet (g : Graph E) : g.quiet.size = g.edges.size := by
  simp [quiet, EdgeStore.size]

theorem Graph.fits_quiet (g : Graph E) : g.quiet.Fits g := by
  refine ⟨g.size_quiet, fun e he => ?_⟩
  rw [stateOf_quiet (g.size_quiet ▸ he)]
  constructor
  · exact List.length_replicate
  · exact List.length_replicate

/-- Any store of the graph is quiet after a reset. -/
theorem EdgeStore.Fits.reset_eq {g : Graph E} {store : EdgeStore E} (h : store.Fits g) :
    store.reset = g.quiet := by
  apply ext_stateOf
  · rw [size_reset, h.size, g.size_quiet]
  · intro e
    rcases Nat.lt_or_ge e store.size with he | he
    · have hstate := h.states e he
      rw [stateOf_reset, EdgeMessages.reset, hstate.toFactor, hstate.toVariable,
        Graph.stateOf_quiet (h.size ▸ he)]
      rfl
    · rw [stateOf_of_le (by rwa [size_reset]), stateOf_of_le (by rwa [g.size_quiet, ← h.size])]

end

theorem Binding.ext {b b' : Binding E} (hi : b'.initialized = b.initialized)
    (he : b'.edges = b.edges) (hs : b'.sizes = b.sizes) (hc : b'.choice = b.choice)
    (hd : b'.damping = b.damping) : b' = b := by
  cases b
  cases b'
  simp_all

namespace Node.Tracks

variable [Energy E] {g : Graph E} {settings : Settings E} {id : NodeId} {n n' : Node E}
  (h : n.Tracks g settings id) (h' : n'.Tracks g settings id)
  (hi : n.binding.initialized = true) (hi' : n'.binding.initialized = true)
  (hc : n'.binding.choice = n.binding.choice)

include h h' hi hi' hc

/-- Where a node is bound and what it chooses tell its binding. -/
theorem binding_unique : n'.binding = n.binding := by
  have hb := h.bound hi
  have hb' := h'.bound hi'
  have hid : n'.id = n.id := h'.id_eq.trans h.id_eq.symm
  refine Binding.ext (hi'.trans hi.symm) ?_ ?_ hc ?_
  · rw [hb'.edges, hb.edges, hid]
  · rw [hb'.sizes, hb.sizes, hid]
  · rw [hb'.damping, hb.damping, hid, hc]

/-- Two nodes that are bound to the same place and choose the same damping are the same node. -/
theorem mirrors : n.Mirrors Graph.Potential.Same n' := by
  have hbinding := h.binding_unique h' hi hi' hc
  have hid : n'.id = n.id := h'.id_eq.trans h.id_eq.symm
  cases n with
  | var m =>
    cases n' with
    | factor m' => contradiction
    | var m' =>
      obtain ⟨var, hv, hload⟩ := (h.bound hi).loaded m rfl
      obtain ⟨var', hv', hload'⟩ := (h'.bound hi').loaded m' rfl
      have hvar : m'.var = m.var := NodeId.var.inj hid
      obtain rfl : var' = var := by
        rw [hvar, hv] at hv'
        exact (Option.some.inj hv').symm
      have hbinding : m'.binding = m.binding := hbinding
      refine .var ⟨m'.sums, ?_⟩
      rw [hload', hload]
      simp only [VariableNode.load, hvar, hbinding]
  | factor m =>
    cases n' with
    | var m' => contradiction
    | factor m' =>
      have hfactor : m'.factor = m.factor := NodeId.factor.inj hid
      have hp := h.potential m rfl
      have hp' := h'.potential m' rfl
      rw [hfactor, hp] at hp'
      have hbinding : m'.binding = m.binding := hbinding
      refine .factor ⟨m'.potential, ?_, Option.some.inj hp' ▸ .refl _⟩
      cases m'
      simp_all

end Node.Tracks

namespace Solver

theorem WellFormed.mirrors_initializeAll [Energy E] {s t : Solver E} (hs : s.WellFormed)
    (ht : t.WellFormed) (hc : s.SameChoices t) :
    s.initializeAll.2.Mirrors Graph.Potential.Same t.initializeAll.2 := by
  obtain ⟨-, hgs, hstore, hws, his⟩ := hs.initializeAll_eq
  obtain ⟨-, hgt, hstore', hwt, hit⟩ := ht.initializeAll_eq
  have hcs := hs.sameChoices_initializeAll
  have hct := ht.sameChoices_initializeAll
  have hs' := hs.initializeAll
  have ht' := ht.initializeAll
  have hg : t.initializeAll.2.graph = s.initializeAll.2.graph := by rw [hgt, hgs, hc.graph]
  have hset : t.initializeAll.2.settings = s.initializeAll.2.settings :=
    hct.settings.trans (hc.settings.trans hcs.settings.symm)
  have hnodes : ∀ id n n', s.initializeAll.2.nodeAt id = .ok n →
      t.initializeAll.2.nodeAt id = .ok n' → n.Mirrors Graph.Potential.Same n' := by
    intro id n n' hn hn'
    have hid := (hs'.tracks id n hn).hasNode
    obtain ⟨m, hm, hi⟩ := his id (hgs ▸ hid)
    obtain rfl := Except.ok.inj (hn.symm.trans hm)
    obtain ⟨m', hm', hi'⟩ := hit id (hgt ▸ hg.symm ▸ hid)
    obtain rfl := Except.ok.inj (hn'.symm.trans hm')
    refine (hs'.tracks id n hn).mirrors (hg ▸ hset ▸ ht'.tracks id n' hn') hi hi' ?_
    rw [← choiceOf_eq hn, ← choiceOf_eq hn', hct.choiceOf, hc.choiceOf, hcs.choiceOf]
  exact {
    graph := hg ▸ .refl .refl _
    settings := hset
    store := by rw [hstore', hstore, hs.store.reset_eq, ht.store.reset_eq, hc.graph]
    warnings := hwt.trans hws.symm
    vars := by
      refine ⟨by rw [ht'.size_vars, hs'.size_vars, hg], fun v m m' hm hm' => ?_⟩
      cases hnodes _ _ _ (nodeAt_var_eq_ok.2 ⟨m, hm, rfl⟩) (nodeAt_var_eq_ok.2 ⟨m', hm', rfl⟩) with
      | var hmm => exact hmm
    factors := by
      refine ⟨by rw [ht'.size_factors, hs'.size_factors, hg], fun f m m' hm hm' => ?_⟩
      cases hnodes _ _ _ (nodeAt_factor_eq_ok.2 ⟨m, hm, rfl⟩)
        (nodeAt_factor_eq_ok.2 ⟨m', hm', rfl⟩) with
      | factor hmm => exact hmm }

variable [LogEnergy E] [Energy.LawfulZero E]

theorem WellFormed.indistinguishable_initializeAll {s t : Solver E} (hs : s.WellFormed)
    (ht : t.WellFormed) (hc : s.SameChoices t) :
    s.initializeAll.2.Indistinguishable t.initializeAll.2 := by
  have hg : t.initializeAll.2.graph = s.initializeAll.2.graph := by
    rw [ht.initializeAll_eq.2.1, hs.initializeAll_eq.2.1, hc.graph]
  exact (hs.mirrors_initializeAll ht hc).indistinguishable hs.initializeAll ht.initializeAll hg

/-- After an initialization nothing tells a solver apart from a new solver of its graph, under its
settings and with the damping its nodes choose, or from any other solver of that kind. The graph is
the one that the changes would have made without a solver, and initializing again changes nothing
that can be told. -/
theorem Reachable.initialize_forgets {s : Solver E} (h : s.Reachable) :
    s.initializeAll.1 = .ok () ∧
    (∃ fresh, Solver.ofGraph s.graph s.settings = .ok fresh ∧
      let t := s.choices.foldl Solver.perform fresh
      t.Reachable ∧ s.SameChoices t ∧ t.initializeAll.1 = .ok () ∧
        s.initializeAll.2.Indistinguishable t.initializeAll.2) ∧
    (∀ t : Solver E, t.Reachable → s.SameChoices t →
      s.initializeAll.2.Indistinguishable t.initializeAll.2) ∧
    s.initializeAll.2.Indistinguishable s.initializeAll.2.initializeAll.2 ∧
    ∀ actions : List (Action E),
      (actions.foldl Solver.perform s).graph = actions.foldl Graph.after s.graph := by
  have hw := h.wellFormed
  obtain ⟨fresh, hf, hc⟩ := hw.exists_rebuilt
  have hr := (Reachable.ofGraph h.graph_reachable hf).foldl_perform s.choices
  refine ⟨hw.initializeAll_eq.1, ⟨fresh, hf, hr, hc, hr.wellFormed.initializeAll_eq.1,
    hw.indistinguishable_initializeAll hr.wellFormed hc⟩, ?_, ?_, s.graph_foldl_perform⟩
  · exact fun t ht hc => hw.indistinguishable_initializeAll ht.wellFormed hc
  · exact hw.indistinguishable_initializeAll hw.initializeAll hw.sameChoices_initializeAll

private instance exponentialOfUsed : Extended.Exponential ℚ := ⟨id, id⟩

/-- A solver with a past: damping, a message from outside, an update in parallel, and a factor
added after all nodes were initialized. -/
private def used : Solver (Extended ℚ) :=
  [.addVariable "x" .bit, .addVariable "y" .bit, .addCustom .equality [0, 1],
    .setDamping (.var 0) (.finite (1 / 2)), .initializeAll, .setToFactor 0 [.finite 3, Energy.top],
    .fixValue 1 (some 0), .iterateParallel 1, .addCustom .equality [1]].foldl
      Solver.perform .empty

theorem Reachable.initialize_forgets_used : used.Reachable ∧ used.store ≠ used.store.reset ∧
    used.graph.factors.size = 2 ∧ ∃ fresh, Solver.ofGraph used.graph used.settings = .ok fresh ∧
      used.initializeAll.2.Indistinguishable
        (used.choices.foldl Solver.perform fresh).initializeAll.2 := by
  have hreach : used.Reachable := (Reachable.empty (by with_unfolding_all rfl)).foldl_perform _
  obtain ⟨-, ⟨fresh, hf, -, -, -, hind⟩, -⟩ := hreach.initialize_forgets
  exact ⟨hreach, by decide +kernel, by decide +kernel, fresh, hf, hind⟩

end Solver

end MinSum
