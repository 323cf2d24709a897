import Mathlib.Algebra.BigOperators.WithTop
import Mathlib.Algebra.Order.Ring.Rat
import MinSum.Proofs.Solver.Admissible
import MinSum.Proofs.Solver.Readout
import MinSum.Proofs.Solver.Contradiction
import MinSum.Proofs.Solver.Initialize

/-! Inference never rules out what is possible. From uniform messages on, whatever is updated in
whatever order and with whatever damping, the values of an assignment of finite energy stay finite
in all messages and beliefs, whether the graph has loops or not. -/
namespace MinSum

/-- Updates of messages, and changes of the damping. -/
def Action.Infers {E : Type} [Energy E] : Action E → Prop
  | .update _ | .updatePort _ _ | .iterate _ | .iterateParallel _ | .iterateInOrder _
  | .setDamping _ _ | .setPortDamping _ _ => True
  | _ => False

variable {K : Type} [Field K] [LinearOrder K]

def Message.FiniteAt (m : Message (Extended K)) (x : Nat) : Prop :=
  ∃ k, m[x]? = some (.finite k)

theorem Message.Proper.finiteAt_iff {m : Message (Extended K)} (h : m.Proper) {x : Nat} :
    m.FiniteAt x ↔ m.valueAt x ≠ ⊤ := by
  rw [FiniteAt, valueAt_eq]
  cases hx : m[x]? with
  | none => simp
  | some y =>
    rcases Extended.proper_iff.1 (h y (List.mem_of_getElem? hx)) with rfl | ⟨k, rfl⟩
    · simp [Extended.top_eq, Extended.value]
    · simp [Extended.value]

namespace Graph

variable {g : Graph (Extended K)}

/-- The assignment gives the value to the variable of the edge. -/
def Gives (g : Graph (Extended K)) (a : List Nat) (e x : Nat) : Prop :=
  e < g.edges.size ∧ x = a.getD (g.varOf e) 0

end Graph

theorem EdgeStore.FiniteOn.inflow_ne_top {g : Graph (Extended K)} {a : List Nat}
    {store : EdgeStore (Extended K)} (h : store.FiniteOn (g.Gives a)) (id : NodeId) {e : Nat}
    (he : e < g.edges.size) : g.inflow store id (a.getD · 0) e ≠ ⊤ := by
  have hgives : g.Gives a e (a.getD (g.varOf e) 0) := ⟨he, rfl⟩
  cases id with
  | var v => exact h.finite e _ hgives .factor
  | factor f => exact h.finite e _ hgives .variable

namespace Solver

/-- The assignment has not been ruled out by the messages, nor has anything been reported. -/
structure Spares (g : Graph (Extended K)) (a : List Nat) (s : Solver (Extended K)) : Prop where
  holds : s.Holds (·.FiniteOn (g.Gives a)) fun _ => False
  graph : s.graph = g
  initialized : ∀ id, g.HasNode id → s.Initialized id

variable {g : Graph (Extended K)} {a : List Nat} {s : Solver (Extended K)}

/-- Uniform messages rule nothing out. -/
theorem Spares.initializeAll (h : s.WellFormed) (hp : s.graph.Possible a) :
    Spares s.graph a s.initializeAll.2 := by
  obtain ⟨-, hg, hs, hw, hi⟩ := h.initializeAll_eq
  refine ⟨⟨h.initializeAll, ?_, ?_⟩, hg, hi⟩
  · rw [hs]
    refine ⟨.reset _, ?_⟩
    rintro e x ⟨he, rfl⟩ side
    have hlt := hp.lt_edgeSize h.graph he
    have hsize := h.store.states e (h.store.size ▸ he)
    have hzero : ∀ m : Message (Extended K), m.length = s.graph.edgeSize e →
        (Message.uniform m.length : Message (Extended K)).valueAt
          (a.getD (s.graph.varOf e) 0) ≠ ⊤ := by
      intro m hm
      rw [Message.valueAt_uniform (hm ▸ hlt)]
      exact WithTop.zero_ne_top
    rw [EdgeStore.stateOf_reset]
    cases side
    · exact hzero _ hsize.toFactor
    · exact hzero _ hsize.toVariable
  · rw [hw]
    simp

variable [IsStrictOrderedRing K]

/-- A node that hears of a possible assignment on all its edges says so on all of them. -/
theorem WellFormed.keeps_possible (h : s.WellFormed) (hx : s.graph.Exact)
    (hp : s.graph.Possible a) : s.Keeps (·.FiniteOn (s.graph.Gives a)) fun _ => False := by
  have hkeep := h.keeps_finiteOn hx.admissible (F := s.graph.Gives a) ?_
  · apply hkeep.weaken
    rintro w ⟨e, he, hnone⟩
    have hlt := h.graph.lt_of_mem_incident (List.mem_of_getElem? he)
    exact hnone _ ⟨hlt, rfl⟩
  · rintro id n hn hi store hs hstore p e m hpe hsend x ⟨he, rfl⟩
    have hout := (h.tracks id n hn).says_of_sends hi h.graph hx hpe hsend
    have hle := (hout.isMinOver _ (hp.lt_edgeSize h.graph he)).le (a.getD · 0) rfl
    have hcost := hp.cost_ne_top h.graph (h.tracks id n hn).hasNode
    have hheard : ∀ e' ∈ (s.graph.incident id).toFinset.erase e,
        s.graph.inflow store id (a.getD · 0) e' ≠ ⊤ := by
      intro e' he'
      have he' := List.mem_toFinset.1 (Finset.mem_of_mem_erase he')
      exact hstore.inflow_ne_top id (h.graph.lt_of_mem_incident he')
    have hbut : s.graph.costBut store id e (a.getD · 0) ≠ ⊤ :=
      WithTop.add_ne_top.2 ⟨hcost, WithTop.sum_ne_top.2 hheard⟩
    exact ne_top_of_le_ne_top hbut hle

/-- Every step of inference spares a possible assignment. -/
theorem Spares.perform [Extended.Exponential K] (h : Spares g a s) (hx : g.Exact)
    (hp : g.Possible a) {act : Action (Extended K)} (ha : act.Infers) :
    Spares g a (s.perform act) := by
  obtain ⟨hh, rfl, hi⟩ := h
  have hk := hh.wellFormed.keeps_possible hx hp
  have hupdate : ∀ {s'}, s.Continues (·.FiniteOn (s.graph.Gives a)) (fun _ => False) s' →
      Spares s.graph a s' := fun hc =>
    ⟨hc.holds, hc.graph, fun id hid => (hc.initialized_iff id).2 (hi id hid)⟩
  have hchoice : ∀ id f, Spares s.graph a (s.modifyChoice id f).2 := by
    intro id f
    obtain ⟨hg, hs⟩ := s.frame_modifyChoice id f
    obtain ⟨hw, hinit⟩ := hh.wellFormed.modifyChoice_keeps id f
    refine ⟨⟨hh.wellFormed.modifyChoice id f, ?_, ?_⟩, hg, fun id' hid => hinit id' (hi id' hid)⟩
    · rw [hs]
      exact hh.store
    · rw [hw]
      exact hh.warnings
  cases act with
  | update id => exact hupdate (hh.continues_update hk id)
  | updatePort id port => exact hupdate (hh.continues_updatePort hk id port)
  | iterate n => exact hupdate (hh.continues_iterate hk n)
  | iterateParallel n => exact hupdate (hh.continues_iterateParallel hk n)
  | iterateInOrder orders => exact hupdate (hh.continues_iterateInOrder hk orders)
  | setDamping id d =>
    rw [Solver.perform, Solver.setDamping]
    split
    · exact ⟨hh, rfl, hi⟩
    · exact hchoice id _
  | setPortDamping id ds => exact hchoice id _
  | initializeAll | initializeNode | setInput | setInputProbabilities | fixValue | addVariable
  | addTable | addCustom | setToFactor | setToVariable | resetEdge | takeWarnings => exact ha.elim

theorem Spares.foldl_perform [Extended.Exponential K] (h : Spares g a s) (hx : g.Exact)
    (hp : g.Possible a) {actions : List (Action (Extended K))} (ha : ∀ act ∈ actions, act.Infers) :
    Spares g a (actions.foldl Solver.perform s) := by
  induction actions generalizing s with
  | nil => exact h
  | cons act actions ih =>
    have hnext := h.perform hx hp (ha act List.mem_cons_self)
    exact ih hnext fun act' hact => ha act' (List.mem_cons_of_mem _ hact)

omit [IsStrictOrderedRing K] in
theorem Spares.exists_get (h : Spares g a s) {e : Nat} {edge : Graph.Edge}
    (he : g.edges[e]? = some edge) : ∃ state, s.store.get e = .ok state ∧
      state.toFactor.FiniteAt (a.getD edge.var 0) ∧
      state.toVariable.FiniteAt (a.getD edge.var 0) := by
  obtain ⟨hh, rfl, -⟩ := h
  have hlt : e < s.graph.edges.size := (Array.getElem?_eq_some_iff.1 he).1
  have hvar : s.graph.varOf e = edge.var := by simp [Graph.varOf, he]
  have hfinite := hh.store.finite e _ ⟨hlt, rfl⟩
  rw [hvar] at hfinite
  refine ⟨_, EdgeStore.get_eq_ok (hh.wellFormed.store.size ▸ hlt), ?_, ?_⟩
  · exact (hh.store.proper e .variable).finiteAt_iff.2 (hfinite .variable)
  · exact (hh.store.proper e .factor).finiteAt_iff.2 (hfinite .factor)

omit [IsStrictOrderedRing K] in
theorem Spares.exists_belief (h : Spares g a s) (hp : g.Possible a) {v : Nat}
    (hv : v < g.vars.size) : ∃ m, s.belief v = .ok m ∧ m.FiniteAt (a.getD v 0) := by
  obtain ⟨hh, rfl, hi⟩ := h
  have hg := hh.wellFormed.graph
  refine ⟨_, hh.wellFormed.belief_eq (hi (.var v) hv), ?_⟩
  have hvalue := hg.valueAt_belief hh.wellFormed.store v (a.getD · 0)
  have hsum : ∀ e ∈ (s.graph.incident (.var v)).toFinset,
      s.graph.inflow s.store (.var v) (a.getD · 0) e ≠ ⊤ := fun e he =>
    hh.store.inflow_ne_top _ (hg.lt_of_mem_incident (List.mem_toFinset.1 he))
  have hcost : s.graph.cost (.var v) (a.getD · 0) ≠ ⊤ :=
    hp.cost_ne_top hg (show s.graph.HasNode (.var v) from hv)
  rw [(hg.proper_belief hh.store.proper v).finiteAt_iff, hvalue]
  exact WithTop.add_ne_top.2 ⟨hcost, WithTop.sum_ne_top.2 hsum⟩

/-- Initialization followed by any steps of inference keeps every assignment of finite energy
possible. So a contradiction that was recorded, or a belief without finite entries, proves that
there is none. -/
theorem Reachable.spares_possible [Extended.Exponential K] (h : s.Reachable) (hx : s.graph.Exact)
    {actions : List (Action (Extended K))} (ha : ∀ act ∈ actions, act.Infers) :
    let s' := actions.foldl Solver.perform s.initializeAll.2
    s.initializeAll.1 = .ok () ∧
    (∀ a, s.graph.Possible a →
      (∀ e edge, s.graph.edges[e]? = some edge → ∃ state, s'.store.get e = .ok state ∧
        state.toFactor.FiniteAt (a.getD edge.var 0) ∧
        state.toVariable.FiniteAt (a.getD edge.var 0)) ∧
      ∀ v < s.graph.vars.size, ∃ m, s'.belief v = .ok m ∧ m.FiniteAt (a.getD v 0)) ∧
    (s'.warnings ≠ #[] ∨ (∃ v m, s'.belief v = .ok m ∧ m.Hopeless) →
      ∀ a, ¬ s.graph.Possible a) := by
  intro s'
  have hw := h.wellFormed
  have hspares : ∀ a, s.graph.Possible a → Spares s.graph a s' := fun a hp =>
    (Spares.initializeAll hw hp).foldl_perform hx hp ha
  refine ⟨hw.initializeAll_eq.1, ?_, ?_⟩
  · intro a hp
    have hs := hspares a hp
    exact ⟨fun e edge he => hs.exists_get he, fun v hv => hs.exists_belief hp hv⟩
  intro hnone a hp
  have hs := hspares a hp
  rcases hnone with hnone | ⟨v, m, hm, hnone⟩
  · apply hnone
    apply Array.eq_empty_iff_forall_not_mem.2
    exact hs.holds.warnings
  · by_cases hv : v < s.graph.vars.size
    · obtain ⟨m', hm', k, hk⟩ := hs.exists_belief hp hv
      obtain rfl := Except.ok.inj (hm.symm.trans hm')
      have := hnone _ (List.mem_of_getElem? hk)
      contradiction
    · have hsize : s'.vars.size ≤ v := by
        rw [hs.holds.wellFormed.size_vars, hs.graph]
        omega
      simp [belief, variableNodeAt, Array.getElem?_eq_none hsize] at hm

private def agreeing : Table (Extended ℚ) := Table.assemble [2, 2] #[⟨[0, 0], 0⟩, ⟨[1, 1], 1⟩]

private theorem built_agreeing : agreeing.Built :=
  ⟨[2, 2], [⟨[0, 0], 0⟩, ⟨[1, 1], 1⟩], by decide +kernel⟩

private instance exponentialOfLoop : Extended.Exponential ℚ := ⟨id, id⟩

private def loop : Solver (Extended ℚ) :=
  [.addVariable "x" .bit, .addVariable "y" .bit, .addTable agreeing built_agreeing [0, 1],
    .addCustom .equality [1, 0]].foldl Solver.perform .empty

theorem Reachable.spares_possible_loop : loop.graph.Possible [1, 1] ∧
    ∃ m, ([.setDamping (.var 0) (.finite (1 / 2)), .iterate 2, .updatePort (.factor 1) 0].foldl
      Solver.perform loop.initializeAll.2).belief 0 = .ok m ∧ m.FiniteAt 1 := by
  have hreach : loop.Reachable := (Reachable.empty (by with_unfolding_all rfl)).foldl_perform _
  have hlist : loop.graph.factors.toList.map (·.potential) =
      [.table ⟨0, agreeing⟩, .custom .equality] := by
    with_unfolding_all rfl
  have hexact : loop.graph.Exact := by
    apply Graph.forall_potential hlist (P := Graph.Potential.Exact)
    simp [Graph.Potential.Exact]
  have hpossible : loop.graph.Possible [1, 1] := ⟨by decide +kernel, 1, by decide +kernel⟩
  have hinfers : ∀ act ∈ ([.setDamping (.var 0) (.finite (1 / 2)), .iterate 2,
      .updatePort (.factor 1) 0] : List (Action (Extended ℚ))), act.Infers := by
    simp [Action.Infers]
  obtain ⟨-, hspares, -⟩ := hreach.spares_possible hexact hinfers
  obtain ⟨-, hbelief⟩ := hspares _ hpossible
  exact ⟨hpossible, hbelief 0 (by decide +kernel)⟩

end Solver

end MinSum
