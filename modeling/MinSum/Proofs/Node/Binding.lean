import MinSum.Node.Basic
import MinSum.Proofs.Edge
import MinSum.Proofs.Graph.Change
import MinSum.Proofs.Node.Rule

/-! What an initialized node knows of the graph, and that binding establishes it. -/
namespace MinSum

variable {E : Type}

namespace Binding

theorem checkStates_eq_ok {store : EdgeStore E} {size : Nat → Nat} {edges : List Nat}
    (h : ∀ e ∈ edges, e < store.size ∧ (store.stateOf e).domainSize = size e) :
    checkStates store edges (edges.map size) = .ok () := by
  induction edges with
  | nil => rfl
  | cons e edges ih =>
    obtain ⟨hlt, hsize⟩ := h e (by simp)
    rw [List.map_cons, checkStates, EdgeStore.get_eq_ok hlt]
    simp only [if_pos hsize]
    exact ih fun x hx => h x (by simp [hx])

end Binding

theorem Graph.linksAt_var {g : Graph E} {v : Nat} {var : Graph.Variable E}
    (hv : g.vars[v]? = some var) : g.linksAt (.var v) = var.links := by
  simp [linksAt, hv]

theorem Graph.linksAt_factor {g : Graph E} {f : Nat} {factor : Graph.Factor E}
    (hf : g.factors[f]? = some factor) : g.linksAt (.factor f) = factor.links := by
  simp [linksAt, hf]

variable [Energy E]

/-- The states of a store fit the edges of a graph. -/
structure EdgeStore.Fits (store : EdgeStore E) (g : Graph E) : Prop where
  size : store.size = g.edges.size
  states : ∀ e < store.size, (store.stateOf e).HasSize (g.edgeSize e)

theorem LeaveOneOut.length_resize (size : Nat) (sums : List (LeaveOneOut E)) :
    (resize size sums).length = size := by
  rw [resize, List.length_rightpad, List.length_take]
  omega

theorem LeaveOneOut.resize_of_length {size : Nat} {sums : List (LeaveOneOut E)}
    (h : sums.length = size) : resize size sums = sums := by
  subst h
  simp [resize, List.rightpad]

theorem VariableNode.load_load (m : VariableNode E) (var : Graph.Variable E) :
    (m.load var).load var = m.load var := by
  simp only [load, LeaveOneOut.resize_of_length (LeaveOneOut.length_resize _ _)]

namespace Node

/-- The node is bound to the graph as it is now. -/
structure Bound (g : Graph E) (settings : Settings E) (n : Node E) : Prop where
  edges : n.binding.edges = g.incident n.id
  sizes : n.binding.sizes = (g.incident n.id).map g.edgeSize
  damping : n.binding.damping =
    n.binding.choice.inForce (g.incident n.id).length settings.damping
  loaded : ∀ m, n = .var m → ∃ var, g.vars[m.var]? = some var ∧ m = m.load var

structure Placed (g : Graph E) (id : NodeId) (n : Node E) : Prop where
  id_eq : n.id = id
  hasNode : g.HasNode id
  potential : ∀ m, n = .factor m → g.factors[m.factor]?.map (·.potential) = some m.potential
  choice : n.binding.choice.check = .ok ()

/-- The node is at its place, and bound to it if it is initialized. -/
structure Tracks (g : Graph E) (settings : Settings E) (id : NodeId) (n : Node E) : Prop
    extends n.Placed g id where
  bound : n.binding.initialized = true → n.Bound g settings

end Node

namespace Graph.WellFormed

variable {g : Graph E}

theorem edgeSize_of_mem_links_var (h : g.WellFormed) {v : Nat} {var : Variable E}
    (hv : g.vars[v]? = some var) {e : Nat} (he : e ∈ g.incident (.var v)) :
    g.edgeSize e = var.size := by
  obtain ⟨edge, n, hedge, hf⟩ := h.mem_incident.1 he
  simp only [Edge.far, Option.ite_none_right_eq_some] at hf
  simp [edgeSize, hedge, hf.1, sizeAt, hv]

theorem edgeSize_of_mem_links_factor (h : g.WellFormed) {f : Nat} {l : Link}
    (hl : l ∈ g.linksAt (.factor f)) : g.edgeSize l.edge = g.sizeAt l.neighbor := by
  obtain ⟨edge, hedge, hf⟩ := h.mem_linksAt.1 hl
  simp only [Edge.far, Option.ite_none_right_eq_some, Option.some.injEq] at hf
  simp [edgeSize, hedge, hf.2]

theorem sizes_var (h : g.WellFormed) {v : Nat} {var : Variable E}
    (hv : g.vars[v]? = some var) : (g.incident (.var v)).map g.edgeSize =
      List.replicate var.links.length var.size := by
  have hl : (g.incident (.var v)).length = var.links.length := by
    simp [incident, linksAt, hv, edgesOf]
  rw [← hl]
  refine List.eq_replicate_iff.2 ⟨List.length_map _, ?_⟩
  intro size hsize
  obtain ⟨e, he, rfl⟩ := List.mem_map.1 hsize
  exact h.edgeSize_of_mem_links_var hv he

/-- The domain sizes at a factor are those of its variables in port order. -/
theorem sizes_factor (h : g.WellFormed) (f : Nat) :
    (g.incident (.factor f)).map g.edgeSize =
      (neighborsOf (g.linksAt (.factor f))).map g.sizeAt := by
  rw [incident, edgesOf, neighborsOf, List.map_map, List.map_map]
  exact List.map_congr_left fun l hl => h.edgeSize_of_mem_links_factor hl

end Graph.WellFormed

/-- The binding to the edges of a node as they are now. -/
def Binding.renewed (b : Binding E) (g : Graph E) (settings : Settings E) (id : NodeId) :
    Binding E where
  initialized := true
  edges := g.incident id
  sizes := (g.incident id).map g.edgeSize
  choice := b.choice
  damping := b.choice.inForce (g.incident id).length settings.damping

section bind

variable {g : Graph E} {store : EdgeStore E} (hg : g.WellFormed) (hs : store.Fits g)
  (settings : Settings E)

include hg hs

theorem Binding.bind_eq_ok (b : Binding E) (id : NodeId) :
    b.bind (g.incident id) ((g.incident id).map g.edgeSize) store settings =
      .ok (b.renewed g settings id) := by
  have hc : checkStates store (g.incident id) ((g.incident id).map g.edgeSize) = .ok () := by
    refine checkStates_eq_ok fun e he => ?_
    have hlt : e < store.size := hs.size ▸ hg.lt_of_mem_incident he
    exact ⟨hlt, (hs.states e hlt).toFactor⟩
  rw [bind, hc]
  rfl

theorem VariableNode.bind_eq (m : VariableNode E) {var : Graph.Variable E}
    (hv : g.vars[m.var]? = some var) : m.bind g store settings =
      (.ok (), { m.load var with binding := m.binding.renewed g settings (.var m.var) }) := by
  have hb := Binding.bind_eq_ok hg hs settings m.binding (.var m.var)
  rw [hg.sizes_var hv, Graph.incident, Graph.linksAt_var hv] at hb
  simp only [bind, Graph.variableAt, hv]
  simp only [load, hb]

theorem FactorNode.bind_eq (m : FactorNode E) (hf : m.factor < g.factors.size) :
    m.bind g store settings =
      (.ok (), { m with binding := m.binding.renewed g settings (.factor m.factor) }) := by
  have hf' := Array.getElem?_eq_getElem hf
  have hb := Binding.bind_eq_ok hg hs settings m.binding (.factor m.factor)
  rw [hg.sizes_factor, Graph.incident, Graph.linksAt_factor hf'] at hb
  have hd : g.domainSizes (Graph.neighborsOf g.factors[m.factor].links) = .ok _ :=
    Graph.domainSizes_of_lt fun v hv => hg.lt_of_mem_neighborsOf (Array.getElem_mem hf) hv
  simp only [bind, Graph.factorAt, hf', hd, hb]

/-- A node at its place can always be bound to it. -/
theorem Node.exists_bind_eq {id : NodeId} {n : Node E} (h : n.Placed g id) :
    ∃ n', n.bind g store settings = (.ok (), n') ∧ n'.Tracks g settings id ∧
      n'.binding = n.binding.renewed g settings id := by
  obtain ⟨rfl, hnode, hp, hc⟩ := h
  cases n with
  | var m =>
    obtain ⟨var, hv⟩ : ∃ var, g.vars[m.var]? = some var := ⟨_, Array.getElem?_eq_getElem hnode⟩
    refine ⟨.var { m.load var with binding := m.binding.renewed g settings (.var m.var) },
      ?_, ⟨⟨rfl, hnode, ?_, hc⟩, ?_⟩, rfl⟩
    · rw [bind, VariableNode.bind_eq hg hs settings m hv]
    · intro m' hm
      contradiction
    · intro _
      refine ⟨rfl, rfl, rfl, ?_⟩
      rintro m' ⟨rfl⟩
      exact ⟨var, hv, congrArg (fun n : VariableNode E =>
        { n with binding := m.binding.renewed g settings (.var m.var) })
        (m.load_load var).symm⟩
  | factor m =>
    refine ⟨.factor { m with binding := m.binding.renewed g settings (.factor m.factor) },
      ?_, ⟨⟨rfl, hnode, ?_, hc⟩, ?_⟩, rfl⟩
    · rw [bind, FactorNode.bind_eq hg hs settings m hnode]
    · rintro m' ⟨rfl⟩
      exact hp m rfl
    · intro _
      refine ⟨rfl, rfl, rfl, ?_⟩
      intro m' hm
      contradiction

end bind

end MinSum
