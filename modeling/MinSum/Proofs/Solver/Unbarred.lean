import MinSum.Proofs.Solver.Mirror
import MinSum.Proofs.Solver.Reachable
import MinSum.Proofs.Solver.Readout

/-! Growth bars variables from updates, but never factors: the edges of a factor are there from the
start. So a factor can always be asked for its belief, and a custom factor never has one. -/
namespace MinSum

variable {E : Type}

/-- The factor is bound, or has never been. -/
def FactorNode.Unbarred (m : FactorNode E) : Prop :=
  m.binding.initialized = true ∨ m.binding.edges = []

def Solver.FactorsUnbarred (s : Solver E) : Prop := ∀ m ∈ s.factors, m.Unbarred

variable [Energy E]

theorem FactorNode.Unbarred.bind {m : FactorNode E} (h : m.Unbarred) (g : Graph E)
    (store : EdgeStore E) (settings : Settings E) : (m.bind g store settings).2.Unbarred := by
  unfold FactorNode.bind
  split
  · exact h
  split
  · exact h
  split
  · exact h
  rename_i binding hb
  left
  unfold Binding.bind at hb
  split at hb
  · contradiction
  · obtain rfl := Except.ok.inj hb
    rfl

namespace Solver.FactorsUnbarred

variable {s : Solver E} (h : s.FactorsUnbarred)

include h

omit [Energy E] in
theorem congr {s' : Solver E} (hf : s'.factors = s.factors) : s'.FactorsUnbarred :=
  fun m hm => h m (hf ▸ hm)

omit [Energy E] in
theorem setNode {id : NodeId} {n : Node E} (hn : ∀ m, n = .factor m → m.Unbarred) :
    (s.setNode id n).FactorsUnbarred := by
  cases n with
  | var m => cases id <;> exact h
  | factor m =>
    cases id with
    | var v => exact h
    | factor f =>
      intro m' hm'
      rcases Array.mem_or_eq_of_mem_setIfInBounds hm' with hm' | rfl
      · exact h m' hm'
      · exact hn _ rfl

omit [Energy E] in
theorem nodeAt {id : NodeId} {m : FactorNode E} (hm : s.nodeAt id = .ok (.factor m)) :
    m.Unbarred := by
  cases id with
  | var v =>
    obtain ⟨_, -, he⟩ := nodeAt_var_eq_ok.1 hm
    contradiction
  | factor f =>
    obtain ⟨m', hm', he⟩ := nodeAt_factor_eq_ok.1 hm
    obtain rfl := Node.factor.inj he
    exact h m (Array.mem_of_getElem? hm')

theorem initializeNode (id : NodeId) : (s.initializeNode id).2.FactorsUnbarred := by
  unfold Solver.initializeNode
  split
  · exact h
  rename_i n hn
  refine h.setNode fun m hm => ?_
  cases n with
  | var m' => contradiction
  | factor m' =>
    obtain rfl := Node.factor.inj hm
    exact (h.nodeAt hn).bind _ _ _

theorem initializeNodes (ids : List NodeId) : (s.initializeNodes ids).2.FactorsUnbarred := by
  induction ids generalizing s with
  | nil => exact h
  | cons id ids ih =>
    exact Attempt.andThen_keeps (p := FactorsUnbarred) (h.initializeNode id) fun _ _ hs => ih hs

theorem initializeAll : s.initializeAll.2.FactorsUnbarred := by
  have hr : ({ s with store := s.store.reset } : Solver E).FactorsUnbarred := h
  exact Attempt.andThen_keeps (p := FactorsUnbarred) (hr.initializeNodes _) fun _ _ hs => hs

theorem modifyChoice (id : NodeId) (f : DampingChoice E → DampingChoice E) :
    (s.modifyChoice id f).2.FactorsUnbarred := by
  unfold Solver.modifyChoice
  split
  · exact h
  rename_i n hn
  split
  · exact h
  rename_i n' hc
  have hs : (s.setNode id n').FactorsUnbarred := by
    obtain ⟨-, rfl⟩ := Node.choose_eq_ok hc
    refine h.setNode fun m hm => ?_
    cases n with
    | var m' => contradiction
    | factor m' =>
      obtain rfl := Node.factor.inj hm
      have hm' : m'.Unbarred := h.nodeAt hn
      exact hm'
  simp only
  split
  · exact hs.initializeNode id
  · exact hs

theorem createEdges (edge count : Nat) : (s.createEdges edge count).2.FactorsUnbarred := by
  induction count generalizing s edge with
  | zero => exact h
  | succ count ih =>
    rw [Solver.createEdges]
    split
    · exact h
    split
    · exact h
    split
    · exact h
    · exact ih (s := { s with store := s.store.push _ }) h _

theorem attach (operands : List Nat) (f : Nat) (g : Graph E) :
    (s.attach operands f g).2.FactorsUnbarred := by
  unfold Solver.attach
  cases hf : FactorNode.ofGraph g f with
  | error e => exact h
  | ok m =>
    have hm : m.Unbarred := by
      unfold FactorNode.ofGraph at hf
      split at hf
      · contradiction
      · obtain rfl := Except.ok.inj hf
        exact .inr rfl
    have hs : ({ s with graph := g, factors := s.factors.push m } : Solver E).FactorsUnbarred := by
      intro m' hm'
      rcases Array.mem_push.1 hm' with hm' | rfl
      · exact h m' hm'
      · exact hm
    exact Attempt.andThen_keeps (p := FactorsUnbarred) (hs.createEdges _ _) fun _ _ ht => ht

theorem changeInput (v : Nat) (changed : Except (GraphError E) (Graph E)) :
    (s.changeInput v changed).2.FactorsUnbarred := by
  simp only [Solver.changeInput, reloadInput]
  repeat' split
  all_goals exact h

omit [Energy E] in
theorem modifyEdge (edge : Nat)
    (f : EdgeMessages E → Except (SolverError E) (EdgeMessages E)) :
    (s.modifyEdge edge f).2.FactorsUnbarred := by
  simp only [Solver.modifyEdge]
  repeat' split
  all_goals exact h

omit [Energy E] in
theorem of_mirrors {Q : Graph.Potential E → Graph.Potential E → Prop} {t : Solver E}
    (hm : s.Mirrors Q t) : t.FactorsUnbarred := by
  intro m' hm'
  obtain ⟨f, hf'⟩ := Array.mem_iff_getElem?.1 hm'
  rcases hm.factors.getElem? f with ⟨-, hnone⟩ | ⟨m, m'', hf, hf'', potential, rfl, -⟩
  · rw [hnone] at hf'
    contradiction
  · obtain rfl := Option.some.inj (hf''.symm.trans hf')
    exact h m (Array.mem_of_getElem? hf)

end Solver.FactorsUnbarred

/-- Only the binding itself changes how a factor is bound, and it leaves the factor bound. -/
theorem Solver.WellFormed.factorsUnbarred_perform {E : Type} [LogEnergy E] [Energy.LawfulZero E]
    {s : Solver E} (hs : s.WellFormed) (h : s.FactorsUnbarred) (a : Action E) :
    (s.perform a).FactorsUnbarred := by
  cases a with
  | initializeAll => exact h.initializeAll
  | initializeNode id => exact h.initializeNode id
  | update id => exact h.congr (hs.holds.continues_update s.keeps_trivial id).factors
  | updatePort id port =>
    exact h.congr (hs.holds.continues_updatePort s.keeps_trivial id port).factors
  | iterate n => exact h.congr (hs.holds.continues_iterate s.keeps_trivial n).factors
  | iterateParallel n =>
    exact h.congr (hs.holds.continues_iterateParallel s.keeps_trivial n).factors
  | iterateInOrder orders =>
    exact h.congr (hs.holds.continues_iterateInOrder s.keeps_trivial orders).factors
  | setInput v input => exact h.changeInput v _
  | setInputProbabilities v p => exact h.changeInput v _
  | fixValue v fixed => exact h.changeInput v _
  | setDamping id d =>
    simp only [Solver.perform, Solver.setDamping]
    split
    · exact h
    · exact h.modifyChoice id _
  | setPortDamping id ds => exact h.modifyChoice id _
  | addVariable name domain =>
    simp only [Solver.perform, Solver.addVariable]
    split <;> exact h
  | addTable table built operands =>
    simp only [Solver.perform, Solver.addTable]
    split
    · exact h
    · exact h.attach operands _ _
  | addCustom custom operands =>
    simp only [Solver.perform, Solver.addCustom]
    split
    · exact h
    · exact h.attach operands _ _
  | setToFactor edge m => exact h.modifyEdge edge _
  | setToVariable edge m => exact h.modifyEdge edge _
  | resetEdge edge => exact h.modifyEdge edge _
  | takeWarnings => exact h

theorem Solver.Reachable.factorsUnbarred {E : Type} [LogEnergy E] [Energy.LawfulZero E]
    {s : Solver E} (h : s.Reachable) : s.FactorsUnbarred := by
  induction h with
  | @ofGraph g settings s hg hs =>
    obtain ⟨-, -, -, hb⟩ := ofGraph_eq_ok hg.wellFormed hs
    intro m hm
    obtain ⟨f, hf⟩ := Array.mem_iff_getElem?.1 hm
    have hnew := hb (.factor f) (.factor m) (nodeAt_factor_eq_ok.2 ⟨m, hf, rfl⟩)
    exact .inr (congrArg Binding.edges hnew)
  | perform h a ih => exact h.wellFormed.factorsUnbarred_perform ih a

namespace Solver.FactorsUnbarred

variable {s : Solver E} (h : s.FactorsUnbarred) (hs : s.WellFormed) {f : Nat}
  {factor : Graph.Factor E} (hf : s.graph.factors[f]? = some factor)

include h hs hf

/-- What a factor believes, its node tells from the states of its edges. -/
theorem exists_factorBelief_eq : ∃ m, s.nodeAt (.factor f) = .ok (.factor m) ∧
    m.potential = factor.potential ∧
      s.factorBelief f = (Node.factor m).belief (m.binding.edges.map s.store.stateOf) := by
  have hlt : f < s.factors.size := hs.size_factors ▸ (Array.getElem?_eq_some_iff.1 hf).1
  have hm := Array.getElem?_eq_getElem hlt
  obtain ⟨-, factor', hf', hp⟩ := hs.exists_factor hm
  obtain rfl := Option.some.inj (hf.symm.trans hf')
  have hn : s.nodeAt (.factor f) = .ok (.factor s.factors[f]) :=
    nodeAt_factor_eq_ok.2 ⟨_, hm, rfl⟩
  refine ⟨_, hn, hp.symm, ?_⟩
  have hedges : ∀ e ∈ (Node.factor s.factors[f]).binding.edges, e < s.store.size := by
    rcases h _ (Array.mem_of_getElem? hm) with hi | hnil
    · exact (hs.tracks _ _ hn).lt_size hi hs.graph hs.store
    · simp [Node.binding, hnil]
  simp only [Solver.factorBelief, factorNodeAt, hm, nodeBelief, EdgeStore.siblings_eq_ok hedges]
  rfl

theorem factorBelief_custom {c : CustomFactor E} (hc : factor.potential = .custom c) :
    s.factorBelief f = .error (.noFactorBelief (.factor f)) := by
  obtain ⟨m, hn, hp, hb⟩ := h.exists_factorBelief_eq hs hf
  have hrule : (Node.factor m).rule = .custom c := by simp only [Node.rule, hp, hc]
  rw [hb, Node.belief, hrule, (hs.tracks _ _ hn).id_eq]

/-- A table lacks a belief only as long as it is not initialized. -/
theorem factorBelief_table {t : Shared (Table E)} (ht : factor.potential = .table t)
    {e : SolverError E} (he : s.factorBelief f = .error e) : e = .notInitialized (.factor f) := by
  obtain ⟨m, hn, hp, hb⟩ := h.exists_factorBelief_eq hs hf
  have hrule : (Node.factor m).rule = .table t.content := by simp only [Node.rule, hp, ht]
  rw [hb, Node.belief, hrule] at he
  have htracks := hs.tracks _ _ hn
  cases hi : (Node.factor m).binding.initialized with
  | true =>
    have hr : (Node.factor m).checkUpdate (m.binding.edges.map s.store.stateOf) = .ok () :=
      (htracks.ready hs.graph hi hs.store).checkUpdate_eq_ok
    simp only [hr] at he
    contradiction
  | false =>
    simp only [Node.checkUpdate, Binding.checkReady, hi, Bool.false_eq_true, if_false] at he
    rw [← Except.error.inj he, htracks.id_eq]

end Solver.FactorsUnbarred

end MinSum
