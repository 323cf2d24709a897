import MinSum.Proofs.Solver.Assembled

/-! Changes of a solver that are not updates: bindings, inputs, damping, growth and messages
from outside. All of them keep the invariant, also when they are refused. -/
namespace MinSum

variable {E : Type} [Energy E]

namespace Solver

/-- Every edge from `edge` on gets a uniform state of the size of its variable. -/
theorem createEdges_eq {s : Solver E} (hg : s.graph.WellFormed)
    (hf : ∀ f < s.graph.factors.size, ∃ m, s.factors[f]? = some m ∧ m.factor = f)
    {edge count : Nat} (he : s.store.size = edge) (hc : edge + count = s.graph.edges.size)
    (hs : ∀ e < edge, (s.store.stateOf e).HasSize (s.graph.edgeSize e)) :
    ∃ store : EdgeStore E, s.createEdges edge count = (.ok (), { s with store }) ∧
      store.Fits s.graph :=
  ⟨_, createEdges_eq_extend hg hf hc, he ▸ EdgeStore.fits_extend (he.symm ▸ hc) (he ▸ hs)⟩

namespace WellFormed

variable {s : Solver E} (h : s.WellFormed)

include h

theorem setNode {id : NodeId} {old n : Node E} (ho : s.nodeAt id = .ok old)
    (hn : n.Tracks s.graph s.settings id) : (s.setNode id n).WellFormed := by
  obtain ⟨hg, hset, hst, -, -⟩ := setNode_frame s id n
  exact (h.assembled.setNode ho hn.id_eq hn).wellFormed hset (hg ▸ hst ▸ h.store)
    (hset ▸ h.damping)

theorem initializeNode (id : NodeId) : (s.initializeNode id).2.WellFormed := by
  unfold Solver.initializeNode
  split
  · exact h
  rename_i n hn
  obtain ⟨n', he, ht, -⟩ :=
    Node.exists_bind_eq h.graph h.store s.settings (h.tracks id n hn).toPlaced
  rw [he]
  exact h.setNode hn ht

theorem initializeNodes (ids : List NodeId) : (s.initializeNodes ids).2.WellFormed := by
  induction ids generalizing s with
  | nil => exact h
  | cons id ids ih =>
    exact Attempt.andThen_keeps (p := WellFormed) (h.initializeNode id) fun _ _ hs => ih hs

theorem initializeAll : s.initializeAll.2.WellFormed := by
  have hsame : s.SameNodes { s with store := s.store.reset } := ⟨rfl, rfl, rfl, rfl⟩
  have hr := hsame.wellFormed h h.store.reset
  refine Attempt.andThen_keeps (p := WellFormed) (hr.initializeNodes _) fun _ s' hs => ?_
  have hsame' : s'.SameNodes { s' with warnings := #[] } := ⟨rfl, rfl, rfl, rfl⟩
  exact hsame'.wellFormed hs hs.store

/-- A changed choice leaves the old binding in place only until the node is bound again. -/
theorem modifyChoice (id : NodeId) (f : DampingChoice E → DampingChoice E) :
    (s.modifyChoice id f).2.WellFormed := by
  unfold Solver.modifyChoice
  split
  · exact h
  rename_i n hn
  split
  · exact h
  rename_i n' hc
  obtain ⟨hp, hi⟩ := (h.tracks id n hn).toPlaced.choose hc
  simp only
  split
  · obtain ⟨hg, hset, hst, -, -⟩ := setNode_frame s id n'
    have hat : (s.setNode id n').nodeAt id = .ok n' := by
      rw [nodeAt_setNode hn hp.id_eq, if_pos rfl]
    obtain ⟨n'', he, ht, -⟩ := Node.exists_bind_eq h.graph h.store s.settings hp
    simp only [Solver.initializeNode, hat, hg, hset, hst, he]
    rw [setNode_setNode s hp.id_eq ht.id_eq]
    exact h.setNode hn ht
  · rename_i hi'
    exact h.setNode hn (hp.tracks (by simpa using hi'))

theorem setDamping (id : NodeId) (d : E) : (s.setDamping id d).2.WellFormed := by
  unfold Solver.setDamping
  split
  · exact h
  · exact h.modifyChoice id _

theorem setPortDamping (id : NodeId) (ds : List E) : (s.setPortDamping id ds).2.WellFormed :=
  h.modifyChoice id _

theorem modifyEdge {f : EdgeMessages E → Except (SolverError E) (EdgeMessages E)}
    (hf : ∀ state state' : EdgeMessages E, ∀ size, state.HasSize size → f state = .ok state' →
      state'.HasSize size) (edge : Nat) : (s.modifyEdge edge f).2.WellFormed := by
  unfold Solver.modifyEdge
  rcases Nat.lt_or_ge edge s.store.size with he | he
  · rw [EdgeStore.get_eq_ok he]
    simp only
    cases hstate : f (s.store.stateOf edge) with
    | error e => exact h
    | ok state =>
      have hsize := hf _ state _ (h.store.states edge he) hstate
      have hsame : s.SameNodes { s with store := s.store.set edge state } := ⟨rfl, rfl, rfl, rfl⟩
      exact hsame.wellFormed h (h.store.set he hsize)
  · rw [EdgeStore.get_eq_error he]
    exact h

theorem changeInput {v : Nat} {changed : Except (GraphError E) (Graph E)}
    (hc : ∀ g', changed = .ok g' → s.graph.ChangesInput v g') :
    (s.changeInput v changed).2.WellFormed := by
  cases changed with
  | error e => exact h
  | ok g' =>
    have hc := hc g' rfl
    obtain ⟨hg, hset, hst⟩ := changeInput_frame s v g'
    refine (h.assembled.changeInput (Node.local_tracks s.settings) hc).2.wellFormed hset ?_ ?_
    · rw [hg, hst]
      exact h.store.congr (by rw [hc.edges_eq]) hc.edgeSize_eq
    · rw [hset]
      exact h.damping

theorem addVariable (name : String) (domain : Domain) :
    (s.addVariable name domain).2.WellFormed := by
  unfold Solver.addVariable
  split
  · exact h
  rename_i v g' hadd
  obtain ⟨-, hedges, -, -, hsize, -⟩ := h.graph.sameAt_addVariable hadd
  exact (h.assembled.addVariable (Node.local_tracks s.settings) hadd).wellFormed rfl
    (h.store.congr (by rw [hedges]) hsize) h.damping

theorem attach {potential : Graph.Potential E} {operands : List Nat}
    (hlt : ∀ v ∈ operands, v < s.graph.vars.size) (hd : operands.Nodup)
    (hs : potential.Suits (operands.map s.graph.sizeAt)) :
    (s.attach operands s.graph.factors.size
      (s.graph.attach potential operands).2).2.WellFormed := by
  have hwf := h.graph.attach hlt hd hs
  have hT := Node.local_tracks s.settings
  rw [h.assembled.attach_eq hT hwf]
  refine (h.assembled.grown hT hwf).wellFormed rfl ?_ h.damping
  have hedges : s.store.size + operands.length =
      (s.graph.attach potential operands).2.edges.size := by
    simp [h.store.size, Graph.edges_attach]
  have hmap := s.graph.map_edgeSize_attach potential operands
  rw [← h.store.size] at hmap
  have hfits := EdgeStore.fits_extend hedges fun e he => by
    rw [Graph.edgeSize_attach potential operands (h.store.size ▸ he)]
    exact h.store.states e he
  rwa [hmap] at hfits

omit h in
theorem withTables (h : s.WellFormed) (tables : Interner (Table E)) :
    ({ s with graph := { s.graph with tables } } : Solver E).WellFormed :=
  (h.assembled.withTables (Node.local_tracks s.settings) tables).wellFormed rfl
    (h.store.congr rfl fun _ => rfl) h.damping

theorem addTable {table : Table E} (hb : table.Built) (operands : List Nat) :
    (s.addTable table operands).2.WellFormed := by
  unfold Solver.addTable
  split
  · exact h
  rename_i f g' hadd
  obtain ⟨hlt, hd, hs, shared, tables, rfl, he⟩ := Graph.addTable_eq_ok hadd
  obtain ⟨rfl, rfl⟩ := Prod.mk.inj he
  exact (h.withTables tables).attach hlt hd ⟨hb, hs⟩

theorem addCustom (custom : CustomFactor E) (operands : List Nat) :
    (s.addCustom custom operands).2.WellFormed := by
  unfold Solver.addCustom
  split
  · exact h
  rename_i f g' hadd
  obtain ⟨hlt, hd, hs, he⟩ := Graph.addCustom_eq_ok hadd
  obtain ⟨rfl, rfl⟩ := Prod.mk.inj he
  exact h.attach hlt hd hs

end WellFormed

end Solver

end MinSum
