import MinSum.Proofs.Solver.Changes

/-! What changes of a solver leave alone: bindings and damping touch neither the graph nor the
messages, and growth adds uniform messages only. -/
namespace MinSum

variable {E : Type} [Energy E]

theorem Node.createEdge_eq_ok {n : Node E} {g : Graph E} {edge : Nat} {state : EdgeMessages E}
    (h : n.createEdge g edge = .ok state) : ∃ size, state = .uniform size := by
  unfold createEdge at h
  split at h
  · contradiction
  split at h
  · split at h
    · contradiction
    · exact ⟨_, (Except.ok.inj h).symm⟩
  · contradiction

namespace Solver

theorem frame_initializeNode (s : Solver E) (id : NodeId) :
    (s.initializeNode id).2.graph = s.graph ∧ (s.initializeNode id).2.store = s.store := by
  unfold initializeNode
  split
  · exact ⟨rfl, rfl⟩
  · obtain ⟨hg, -, hs, -, -⟩ := setNode_frame s id (Node.bind s.graph s.store s.settings ‹_›).2
    exact ⟨hg, hs⟩

theorem frame_initializeNodes (s : Solver E) (ids : List NodeId) :
    (s.initializeNodes ids).2.graph = s.graph ∧ (s.initializeNodes ids).2.store = s.store := by
  induction ids generalizing s with
  | nil => exact ⟨rfl, rfl⟩
  | cons id ids ih =>
    have hid := s.frame_initializeNode id
    refine Attempt.andThen_keeps
      (p := fun s' : Solver E => s'.graph = s.graph ∧ s'.store = s.store) hid ?_
    exact fun _ s' hs' => ⟨(ih s').1.trans hs'.1, (ih s').2.trans hs'.2⟩

theorem frame_modifyChoice (s : Solver E) (id : NodeId)
    (f : DampingChoice E → DampingChoice E) :
    (s.modifyChoice id f).2.graph = s.graph ∧ (s.modifyChoice id f).2.store = s.store := by
  unfold modifyChoice
  split
  · exact ⟨rfl, rfl⟩
  split
  · exact ⟨rfl, rfl⟩
  rename_i n _
  obtain ⟨hg, -, hs, -, -⟩ := setNode_frame s id n
  simp only
  split
  · obtain ⟨hg', hs'⟩ := frame_initializeNode (s.setNode id n) id
    exact ⟨hg'.trans hg, hs'.trans hs⟩
  · exact ⟨hg, hs⟩

theorem frame_setDamping (s : Solver E) (id : NodeId) (d : E) :
    (s.setDamping id d).2.graph = s.graph ∧ (s.setDamping id d).2.store = s.store := by
  unfold setDamping
  split
  · exact ⟨rfl, rfl⟩
  · exact s.frame_modifyChoice id _

theorem frame_changeInput (s : Solver E) {v : Nat} {changed : Except (GraphError E) (Graph E)}
    (hc : ∀ g', changed = .ok g' → s.graph.ChangesInput v g') :
    (s.changeInput v changed).2.graph.factors = s.graph.factors ∧
      (s.changeInput v changed).2.store = s.store := by
  unfold changeInput
  split
  · exact ⟨rfl, rfl⟩
  rename_i g'
  have hf : g'.factors = s.graph.factors := (hc g' rfl).factors_eq
  unfold reloadInput
  repeat' split
  all_goals exact ⟨hf, rfl⟩

theorem frame_addVariable (s : Solver E) (hg : s.graph.WellFormed) (name : String)
    (domain : Domain) : (s.addVariable name domain).2.graph.factors = s.graph.factors ∧
      (s.addVariable name domain).2.store = s.store := by
  unfold addVariable
  split
  · exact ⟨rfl, rfl⟩
  rename_i v g' hadd
  obtain ⟨-, -, hfactors, -⟩ := hg.sameAt_addVariable hadd
  exact ⟨hfactors, rfl⟩

theorem createEdges_keeps {P : EdgeStore E → Prop}
    (hpush : ∀ (store : EdgeStore E) (size : Nat), P store → P (store.push (.uniform size)))
    (s : Solver E) (edge count : Nat) (hs : P s.store) :
    (s.createEdges edge count).2.graph = s.graph ∧ P (s.createEdges edge count).2.store := by
  induction count generalizing s edge with
  | zero => exact ⟨rfl, hs⟩
  | succ count ih =>
    rw [createEdges]
    split
    · exact ⟨rfl, hs⟩
    split
    · exact ⟨rfl, hs⟩
    rename_i n _
    cases hc : (Node.factor n).createEdge s.graph edge with
    | error e => exact ⟨rfl, hs⟩
    | ok state =>
      obtain ⟨size, rfl⟩ := Node.createEdge_eq_ok hc
      exact ih { s with store := s.store.push (.uniform size) } (edge + 1) (hpush _ size hs)

theorem attach_keeps {P : EdgeStore E → Prop}
    (hpush : ∀ (store : EdgeStore E) (size : Nat), P store → P (store.push (.uniform size)))
    (s : Solver E) (operands : List Nat) (f : Nat) (g' : Graph E) (hs : P s.store) :
    (s.attach operands f g').2.graph = g' ∧ P (s.attach operands f g').2.store := by
  unfold attach
  cases FactorNode.ofGraph g' f with
  | error e => exact ⟨rfl, hs⟩
  | ok n =>
    let s' : Solver E := { s with graph := g', factors := s.factors.push n }
    have hc := createEdges_keeps hpush s' s'.store.size
      (s'.graph.edges.size - s'.store.size) hs
    refine Attempt.andThen_keeps (p := fun t : Solver E => t.graph = g' ∧ P t.store) hc ?_
    exact fun _ t ht => ht

theorem addTable_keeps {P : EdgeStore E → Prop}
    (hpush : ∀ (store : EdgeStore E) (size : Nat), P store → P (store.push (.uniform size)))
    (s : Solver E) (table : Table E) (operands : List Nat) (hs : P s.store) :
    (∀ factor ∈ s.graph.factors, factor ∈ (s.addTable table operands).2.graph.factors) ∧
      P (s.addTable table operands).2.store := by
  unfold addTable
  split
  · exact ⟨fun _ hf => hf, hs⟩
  rename_i f g' hadd
  obtain ⟨-, -, -, shared, tables, rfl, he⟩ := Graph.addTable_eq_ok hadd
  obtain ⟨hg, hp⟩ := attach_keeps hpush s operands f g' hs
  refine ⟨fun factor hf => ?_, hp⟩
  rw [hg, (Prod.mk.inj he).2]
  exact Array.mem_push_of_mem _ hf

theorem addCustom_keeps {P : EdgeStore E → Prop}
    (hpush : ∀ (store : EdgeStore E) (size : Nat), P store → P (store.push (.uniform size)))
    (s : Solver E) (custom : CustomFactor E) (operands : List Nat) (hs : P s.store) :
    (∀ factor ∈ s.graph.factors, factor ∈ (s.addCustom custom operands).2.graph.factors) ∧
      P (s.addCustom custom operands).2.store := by
  unfold addCustom
  split
  · exact ⟨fun _ hf => hf, hs⟩
  rename_i f g' hadd
  obtain ⟨-, -, -, he⟩ := Graph.addCustom_eq_ok hadd
  obtain ⟨hg, hp⟩ := attach_keeps hpush s operands f g' hs
  refine ⟨fun factor hf => ?_, hp⟩
  rw [hg, (Prod.mk.inj he).2]
  exact Array.mem_push_of_mem _ hf

end Solver

end MinSum
