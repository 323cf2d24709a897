import MinSum.Proofs.Node.Local
import MinSum.Proofs.Solver.Updates

/-! Solvers whose parts belong together: a well-formed graph, a node at each of its places and a
state for each of its edges. Here: changes of the graph under a solver, told in full, and what they
keep of a property that nodes have at their places. -/
namespace MinSum

variable {E : Type} [Energy E]

omit [Energy E] in
/-- A new factor brings edges of the sizes of its operands. -/
theorem Graph.map_edgeSize_attach (g : Graph E) (potential : Graph.Potential E)
    (operands : List Nat) : (List.range' g.edges.size operands.length).map
      (g.attach potential operands).2.edgeSize = operands.map g.sizeAt := by
  apply List.ext_getElem (by simp)
  intro i h₁ h₂
  have hi : i < operands.length := by simpa using h₂
  have hsize : (g.attach potential operands).2.sizeAt = g.sizeAt :=
    funext (Graph.sizeAt_attach g potential operands)
  simp [Graph.edgeSize, hsize, Graph.edges_attach, hi]

namespace EdgeStore

def extend (a : EdgeStore E) (sizes : List Nat) : EdgeStore E :=
  ⟨a.states ++ (sizes.map EdgeMessages.uniform).toArray⟩

variable (a : EdgeStore E)

theorem extend_nil : a.extend [] = a := by
  simp [extend]

theorem extend_cons (size : Nat) (sizes : List Nat) :
    a.extend (size :: sizes) = (a.push (.uniform size)).extend sizes := by
  simp [extend, push]

@[simp] theorem size_extend (sizes : List Nat) :
    (a.extend sizes).size = a.size + sizes.length := by
  simp [extend, size]

theorem stateOf_extend_of_lt (sizes : List Nat) {e : Nat} (he : e < a.size) :
    (a.extend sizes).stateOf e = a.stateOf e := by
  simp only [size] at he
  simp [extend, stateOf, Array.getD_eq_getD_getElem?, Array.getElem?_append_left he]

theorem stateOf_extend_add {sizes : List Nat} {i size : Nat} (hi : sizes[i]? = some size) :
    (a.extend sizes).stateOf (a.size + i) = .uniform size := by
  obtain ⟨hlt, rfl⟩ := List.getElem?_eq_some_iff.1 hi
  simp [extend, stateOf, EdgeStore.size, hlt]

/-- New states of the sizes of new edges fit. -/
theorem fits_extend {store : EdgeStore E} {g : Graph E} {count : Nat}
    (hc : store.size + count = g.edges.size)
    (hs : ∀ e < store.size, (store.stateOf e).HasSize (g.edgeSize e)) :
    (store.extend ((List.range' store.size count).map g.edgeSize)).Fits g := by
  refine ⟨by simpa using hc, fun e he => ?_⟩
  rcases Nat.lt_or_ge e store.size with hlt | hge
  · rw [stateOf_extend_of_lt _ _ hlt]
    exact hs e hlt
  · obtain ⟨i, rfl⟩ := Nat.exists_eq_add_of_le hge
    have hi : i < count := by simpa using he
    have hsize : ((List.range' store.size count).map g.edgeSize)[i]? =
        some (g.edgeSize (store.size + i)) := by simp [hi]
    rw [stateOf_extend_add _ hsize]
    exact .uniform _

end EdgeStore

namespace Solver

/-- Every missing edge gets a uniform state of the size of its variable. -/
theorem createEdges_eq_extend {s : Solver E} (hg : s.graph.WellFormed)
    (hf : ∀ f < s.graph.factors.size, ∃ m, s.factors[f]? = some m ∧ m.factor = f)
    {edge count : Nat} (hc : edge + count = s.graph.edges.size) :
    s.createEdges edge count = (.ok (), { s with
      store := s.store.extend ((List.range' edge count).map s.graph.edgeSize) }) := by
  induction count generalizing s edge with
  | zero => simp [createEdges, EdgeStore.extend_nil]
  | succ count ih =>
    obtain ⟨ends, hends⟩ : ∃ ends, s.graph.edges[edge]? = some ends :=
      ⟨_, Array.getElem?_eq_getElem (by omega)⟩
    obtain ⟨hvar, hfac⟩ := hg.ends ends (Array.mem_of_getElem? hends)
    obtain ⟨m, hm, hmf⟩ := hf ends.factor hfac
    obtain ⟨var, hv⟩ : ∃ var, s.graph.vars[ends.var]? = some var :=
      ⟨_, Array.getElem?_eq_getElem hvar⟩
    have hcreate : (Node.factor m).createEdge s.graph edge =
        .ok (.uniform (s.graph.edgeSize edge)) := by
      simp [Node.createEdge, Graph.edgeAt, hends, Node.id, hmf, Graph.domainSizeAt,
        Graph.variableAt, hv, Graph.edgeSize, Graph.sizeAt]
    simp only [createEdges, Graph.edgeAt, hends, factorNodeAt, hm, hcreate]
    rw [ih (s := { s with store := s.store.push (.uniform (s.graph.edgeSize edge)) }) hg hf
      ((Nat.add_right_comm edge 1 count).trans hc), List.range'_succ, List.map_cons,
      EdgeStore.extend_cons]

omit [Energy E] in
theorem getElem?_vars_invalidate (s : Solver E) (operands : List Nat) (w : Nat) :
    (s.invalidate operands).vars[w]? = s.vars[w]?.map fun n =>
      if w ∈ operands then { n with binding := n.binding.invalidate } else n := by
  simp only [invalidate]
  generalize s.vars = vars
  induction operands generalizing vars with
  | nil => simp
  | cons u operands ih =>
    rw [List.foldl_cons, ih, Array.getElem?_modify]
    by_cases hu : u = w
    · subst hu
      cases vars[u]? <;> simp [Binding.invalidate]
    · cases vars[w]? <;> simp [hu, Ne.symm hu]

omit [Energy E] in
theorem size_vars_invalidate (s : Solver E) (operands : List Nat) :
    (s.invalidate operands).vars.size = s.vars.size := by
  simp only [invalidate]
  generalize s.vars = vars
  induction operands generalizing vars with
  | nil => rfl
  | cons u operands ih => rw [List.foldl_cons, ih, Array.size_modify]

/-- The solver with a new factor of its graph, which is `g` after the change: a node that waits for
initialization, uniform messages, and all variables of the factor barred from updates. -/
def grown (s : Solver E) (g : Graph E) (potential : Graph.Potential E) (operands : List Nat) :
    Solver E :=
  ({ s with
    graph := g
    factors := s.factors.push { factor := s.graph.factors.size, potential }
    store := s.store.extend (operands.map s.graph.sizeAt) } : Solver E).invalidate operands

/-- Another input changes the graph and at most the node of the variable. -/
theorem changeInput_frame (s : Solver E) (v : Nat) (g' : Graph E) :
    (s.changeInput v (.ok g')).2.graph = g' ∧
      (s.changeInput v (.ok g')).2.settings = s.settings ∧
        (s.changeInput v (.ok g')).2.store = s.store := by
  simp only [changeInput, reloadInput]
  repeat' split
  all_goals exact ⟨rfl, rfl, rfl⟩

/-- A node with the property `T` at each place of the graph, and a state for each edge. -/
structure Assembled (T : Graph E → NodeId → Node E → Prop) (s : Solver E) : Prop where
  graph : s.graph.WellFormed
  size_vars : s.vars.size = s.graph.vars.size
  size_factors : s.factors.size = s.graph.factors.size
  size_store : s.store.size = s.graph.edges.size
  nodes : ∀ id n, s.nodeAt id = .ok n → T s.graph id n

/-- The same nodes of the same graph, and as many edge states. -/
structure Refilled (s s' : Solver E) : Prop extends s.SameNodes s' where
  size_store : s'.store.size = s.store.size

theorem WellFormed.assembled {s : Solver E} (h : s.WellFormed) :
    s.Assembled fun g id n => n.Tracks g s.settings id :=
  ⟨h.graph, h.size_vars, h.size_factors, h.store.size, h.tracks⟩

theorem Assembled.wellFormed {s : Solver E} {settings : Settings E}
    (h : s.Assembled fun g id n => n.Tracks g settings id) (hs : s.settings = settings)
    (hstore : s.store.Fits s.graph) (hd : checkDamping s.settings.damping = .ok ()) :
    s.WellFormed :=
  ⟨h.graph, h.size_vars, h.size_factors, hstore, hd, fun id n hn => hs ▸ h.nodes id n hn⟩

namespace Assembled

variable {T : Graph E → NodeId → Node E → Prop} {s s' : Solver E} (h : s.Assembled T)

include h

theorem congr (hs : s.Refilled s') : s'.Assembled T where
  graph := hs.graph ▸ h.graph
  size_vars := hs.vars ▸ hs.graph ▸ h.size_vars
  size_factors := hs.factors ▸ hs.graph ▸ h.size_factors
  size_store := hs.graph ▸ hs.size_store.trans h.size_store
  nodes id n hn := by
    rw [hs.nodeAt] at hn
    rw [hs.graph]
    exact h.nodes id n hn

theorem nodeAt_of_hasNode (id : NodeId) (hid : s.graph.HasNode id) :
    ∃ n, s.nodeAt id = .ok n :=
  exists_nodeAt h.size_vars h.size_factors hid

/-- Another node in one place. The property asked for may be another one, too, as long as the other
nodes have it. -/
theorem replaceNode {T' : Graph E → NodeId → Node E → Prop} {id : NodeId} {old n : Node E}
    (ho : s.nodeAt id = .ok old) (hid : n.id = id) (hn : T' s.graph id n)
    (hT : ∀ id' n', id' ≠ id → T s.graph id' n' → T' s.graph id' n') :
    (s.setNode id n).Assembled T' := by
  obtain ⟨hg, -, hst, hv, hf⟩ := setNode_frame s id n
  refine ⟨hg ▸ h.graph, hg ▸ hv.trans h.size_vars, hg ▸ hf.trans h.size_factors,
    hg ▸ hst ▸ h.size_store, ?_⟩
  intro id' n' hn'
  rw [hg]
  rw [nodeAt_setNode ho hid] at hn'
  split at hn'
  · rename_i heq
    exact heq ▸ Except.ok.inj hn' ▸ hn
  · rename_i hne
    exact hT id' n' hne (h.nodes id' n' hn')

theorem setNode {id : NodeId} {old n : Node E} (ho : s.nodeAt id = .ok old) (hid : n.id = id)
    (hn : T s.graph id n) : (s.setNode id n).Assembled T :=
  h.replaceNode ho hid hn fun _ _ _ ht => ht

variable (hT : Node.Local T)

include hT

/-- Factor nodes carry the numbers of their places. -/
theorem exists_factorNode {f : Nat} (hf : f < s.graph.factors.size) :
    ∃ m, s.factors[f]? = some m ∧ m.factor = f := by
  obtain ⟨n, hn⟩ := h.nodeAt_of_hasNode (.factor f) hf
  obtain ⟨m, hm, rfl⟩ := nodeAt_factor_eq_ok.1 hn
  exact ⟨m, hm, NodeId.factor.inj (hT.placed (h.nodes _ _ hn)).id_eq⟩

/-! Inputs -/

/-- Another input that the graph has accepted is accepted by the solver, and loaded at once by a
node that does not wait for initialization. -/
theorem changeInput {v : Nat} {g' : Graph E} (hc : s.graph.ChangesInput v g') :
    (s.changeInput v (.ok g')).1 = .ok () ∧ (s.changeInput v (.ok g')).2.Assembled T := by
  have hwf := hc.wellFormed h.graph
  obtain ⟨n, hn⟩ := h.nodeAt_of_hasNode (.var v) hc.lt_size
  have hat : ∀ id, ({ s with graph := g' } : Solver E).nodeAt id = s.nodeAt id :=
    nodeAt_congr rfl rfl
  obtain ⟨m, hm, rfl⟩ := nodeAt_var_eq_ok.1 hn
  have hplaced : ∀ id n, s.nodeAt id = .ok n → n.Placed g' id := by
    intro id n hn
    have hp := hT.placed (h.nodes id n hn)
    refine ⟨hp.id_eq, (hc.hasNode_iff id).2 hp.hasNode, ?_, hp.choice⟩
    rw [hc.factors_eq]
    exact hp.potential
  have hbase : ({ s with graph := g' } : Solver E).Assembled
      fun g id n => id ≠ .var v → T g id n := by
    refine ⟨hwf, h.size_vars.trans hc.size_vars.symm,
      h.size_factors.trans (congrArg Array.size hc.factors_eq.symm),
      h.size_store.trans (congrArg Array.size hc.edges_eq.symm), fun id n hn hid => ?_⟩
    rw [hat] at hn
    exact hT.congr (h.nodes id n hn) (hplaced id n hn) fun _ => hc.sameAt hid
  simp only [Solver.changeInput, reloadInput, variableNodeAt, hm]
  split
  · obtain ⟨var, hv⟩ : ∃ var, g'.vars[v]? = some var :=
      ⟨_, Array.getElem?_eq_getElem (hc.size_vars ▸ hc.lt_size)⟩
    have hmv : m.var = v := NodeId.var.inj (hT.placed (h.nodes _ _ hn)).id_eq
    have hload : T g' (.var v) (.var (m.load var)) := hT.load hc (h.nodes _ _ hn) hv
    simp only [VariableNode.loadInput, Graph.variableAt, hmv, hv]
    refine ⟨trivial, hbase.replaceNode ((hat _).trans hn) (n := .var (m.load var))
      (congrArg _ hmv) hload fun _ _ hne ht => ht hne⟩
  · rename_i hi
    refine ⟨rfl, hbase.graph, hbase.size_vars, hbase.size_factors, hbase.size_store, ?_⟩
    intro id n' hn'
    by_cases hid : id = .var v
    · subst hid
      obtain rfl := Except.ok.inj (hn.symm.trans ((hat _).symm.trans hn'))
      exact hT.waiting (hplaced _ _ hn) (Bool.eq_false_iff.2 hi)
    · exact hbase.nodes id n' hn' hid

/-! Growth -/

theorem addVariable {g' : Graph E} {v : Nat} {name : String} {domain : Domain}
    (hadd : s.graph.addVariable name domain = .ok (v, g')) :
    ({ s with graph := g', vars := s.vars.push { var := v } } : Solver E).Assembled T := by
  obtain ⟨hv, hedges, hfactors, hvars, -, hsame⟩ := h.graph.sameAt_addVariable hadd
  have hnode : ∀ id, s.graph.HasNode id → g'.HasNode id := by
    intro id
    cases id with
    | var w => exact fun hw => Nat.lt_of_lt_of_eq (Nat.lt_succ_of_lt hw) hvars.symm
    | factor f => exact fun hf => Nat.lt_of_lt_of_eq hf (congrArg Array.size hfactors.symm)
  have hold : ∀ id n, s.nodeAt id = .ok n → T g' id n := by
    intro id n hn
    have hp := hT.placed (h.nodes id n hn)
    refine hT.congr (h.nodes id n hn) ⟨hp.id_eq, hnode id hp.hasNode, ?_, hp.choice⟩
      fun _ => hsame id hp.hasNode
    rw [hfactors]
    exact hp.potential
  refine ⟨h.graph.addVariable hadd, ?_, ?_, ?_, ?_⟩
  · rw [Array.size_push, h.size_vars, hvars]
  · exact h.size_factors.trans (congrArg Array.size hfactors.symm)
  · exact h.size_store.trans (congrArg Array.size hedges.symm)
  · intro id n hn
    cases id with
    | factor f => exact hold _ n hn
    | var w =>
      obtain ⟨m, hm, rfl⟩ := nodeAt_var_eq_ok.1 hn
      rw [Array.getElem?_push] at hm
      split at hm
      · rename_i hw
        obtain rfl := Option.some.inj hm
        have hwv : v = w := hv.trans (h.size_vars.symm.trans hw.symm)
        refine hT.waiting ⟨congrArg NodeId.var hwv, ?_, ?_, rfl⟩ rfl
        · rw [Graph.HasNode, hvars, ← hwv, hv]
          exact Nat.lt_succ_self _
        · intro m' hm'
          contradiction
      · exact hold _ _ (nodeAt_var_eq_ok.2 ⟨m, hm, rfl⟩)

section attach

variable {potential : Graph.Potential E} {operands : List Nat}

/-- The solver takes over a factor that the graph has accepted. -/
theorem attach_eq (hwf : (s.graph.attach potential operands).2.WellFormed) :
    s.attach operands s.graph.factors.size (s.graph.attach potential operands).2 =
      (.ok s.graph.factors.size, s.grown (s.graph.attach potential operands).2 potential
        operands) := by
  let n : FactorNode E := { factor := s.graph.factors.size, potential }
  let s' : Solver E :=
    { s with graph := (s.graph.attach potential operands).2, factors := s.factors.push n }
  have hnew : FactorNode.ofGraph (s.graph.attach potential operands).2 s.graph.factors.size =
      .ok n := by
    simp [FactorNode.ofGraph, Graph.factorAt, n]
  have hfac : ∀ f < s'.graph.factors.size, ∃ m, s'.factors[f]? = some m ∧ m.factor = f := by
    intro f hf
    simp only [s', Graph.factors_attach, Array.size_push] at hf
    simp only [s', Array.getElem?_push, h.size_factors]
    split
    · rename_i heq
      exact ⟨n, rfl, heq.symm⟩
    · exact h.exists_factorNode hT (by omega)
  have hedges : s'.store.size + operands.length = s'.graph.edges.size := by
    simp [s', h.size_store, Graph.edges_attach]
  have hcreate : s'.createMissingEdges =
      (.ok (), { s' with store := s.store.extend (operands.map s.graph.sizeAt) }) := by
    have hcount : s'.graph.edges.size - s'.store.size = operands.length := by omega
    rw [createMissingEdges, hcount, createEdges_eq_extend hwf hfac hedges]
    have hmap := s.graph.map_edgeSize_attach potential operands
    rw [← h.size_store] at hmap
    exact congrArg (fun sizes => (Except.ok (), { s' with store := s.store.extend sizes })) hmap
  simp only [Solver.attach, hnew]
  rw [Attempt.andThen_eq (congrArg Prod.fst hcreate), hcreate]
  rfl

theorem grown (hwf : (s.graph.attach potential operands).2.WellFormed) :
    (s.grown (s.graph.attach potential operands).2 potential operands).Assembled T := by
  refine ⟨hwf, ?_, ?_, ?_, ?_⟩
  · rw [Solver.grown, size_vars_invalidate]
    exact h.size_vars.trans (Graph.size_vars_attach _ _ _).symm
  · change (s.factors.push _).size = (s.graph.attach potential operands).2.factors.size
    rw [Graph.factors_attach, Array.size_push, Array.size_push, h.size_factors]
  · have hsize := h.size_store
    change (s.store.states ++ _).size = (s.graph.attach potential operands).2.edges.size
    simp only [EdgeStore.size] at hsize
    simp [Graph.edges_attach, hsize]
  · intro id n' hn'
    cases id with
    | factor f =>
      obtain ⟨m, hm, rfl⟩ := nodeAt_factor_eq_ok.1 hn'
      change (s.factors.push _)[f]? = some m at hm
      rw [Array.getElem?_push] at hm
      split at hm
      · rename_i hf
        obtain rfl := Option.some.inj hm
        refine hT.waiting ⟨?_, ?_, ?_, rfl⟩ rfl
        · exact congrArg NodeId.factor (h.size_factors.symm.trans hf.symm)
        · change f < (s.graph.attach potential operands).2.factors.size
          rw [Graph.factors_attach, Array.size_push, ← h.size_factors, hf]
          exact Nat.lt_succ_self _
        · rintro _ ⟨rfl⟩
          change (s.graph.attach potential operands).2.factors[s.graph.factors.size]?.map _ = _
          rw [Graph.factors_attach, Array.getElem?_push_size]
          rfl
      · have hn := h.nodes _ _ (nodeAt_factor_eq_ok.2 ⟨m, hm, rfl⟩)
        refine hT.congr hn (hT.placed hn).attach fun _ => ?_
        exact h.graph.sameAt_attach potential operands (hT.placed hn).hasNode
          fun w _ heq => NodeId.noConfusion heq
    | var w =>
      obtain ⟨m, hm, rfl⟩ := nodeAt_var_eq_ok.1 hn'
      rw [Solver.grown, getElem?_vars_invalidate] at hm
      obtain ⟨m', hm', rfl⟩ := Option.map_eq_some_iff.1 hm
      have hn := h.nodes _ _ (nodeAt_var_eq_ok.2 ⟨m', hm', rfl⟩)
      have hp := hT.placed hn
      split
      · have hbarred : ((Node.var m').withBinding m'.binding.invalidate).Placed s.graph (.var w) :=
          hp.withBinding hp.choice
        exact hT.waiting hbarred.attach rfl
      · rename_i hw
        refine hT.congr hn hp.attach fun _ => ?_
        refine h.graph.sameAt_attach potential operands hp.hasNode fun u hu heq => hw ?_
        exact NodeId.var.inj heq ▸ hu

theorem withTables (tables : Interner (Table E)) :
    ({ s with graph := { s.graph with tables } } : Solver E).Assembled T where
  graph := h.graph.withTables tables
  size_vars := h.size_vars
  size_factors := h.size_factors
  size_store := h.size_store
  nodes id n hn := by
    have hn := h.nodes id n ((nodeAt_congr rfl rfl id).symm.trans hn)
    have hp := hT.placed hn
    exact hT.congr hn ⟨hp.id_eq, hp.hasNode, hp.potential, hp.choice⟩ fun _ =>
      ⟨rfl, fun _ _ => rfl, fun _ _ var hv => ⟨var, hv, fun _ => rfl⟩⟩

variable {f : Nat} {g' : Graph E}

/-- A table that the graph accepts is taken over by the solver. -/
theorem addTable_eq {table : Table E} (hb : table.Built)
    (hadd : s.graph.addTable table operands = .ok (f, g')) :
    ∃ shared tables, shared.content = table ∧
      (f, g') = ({ s.graph with tables } : Graph E).attach (.table shared) operands ∧
      s.addTable table operands = (.ok f, s.grown g' (.table shared) operands) ∧
      (s.grown g' (.table shared) operands).Assembled T := by
  obtain ⟨hlt, hd, hs, shared, tables, rfl, he⟩ := Graph.addTable_eq_ok hadd
  have hsuits : (Graph.Potential.table shared).Suits (operands.map s.graph.sizeAt) := ⟨hb, hs⟩
  have hwf := (h.graph.withTables tables).attach hlt hd hsuits
  have ht := h.withTables hT tables
  refine ⟨shared, tables, rfl, he, ?_, ?_⟩
  · rw [Solver.addTable, hadd]
    obtain ⟨rfl, rfl⟩ := Prod.mk.inj he
    exact ht.attach_eq hT hwf
  · obtain rfl : g' = _ := congrArg Prod.snd he
    exact ht.grown hT hwf

/-- So is a custom factor. -/
theorem addCustom_eq {custom : CustomFactor E}
    (hadd : s.graph.addCustom custom operands = .ok (f, g')) :
    (f, g') = s.graph.attach (.custom custom) operands ∧
      s.addCustom custom operands = (.ok f, s.grown g' (.custom custom) operands) ∧
      (s.grown g' (.custom custom) operands).Assembled T := by
  obtain ⟨hlt, hd, hs, he⟩ := Graph.addCustom_eq_ok hadd
  have hsuits : (Graph.Potential.custom custom).Suits (operands.map s.graph.sizeAt) := hs
  have hwf := h.graph.attach hlt hd hsuits
  refine ⟨he, ?_, ?_⟩
  · rw [Solver.addCustom, hadd]
    obtain ⟨rfl, rfl⟩ := Prod.mk.inj he
    exact h.attach_eq hT hwf
  · obtain rfl : g' = _ := congrArg Prod.snd he
    exact h.grown hT hwf

end attach

end Assembled

end Solver

end MinSum
