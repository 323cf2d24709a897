import Mathlib.Tactic.Common
import MinSum.Graph.Build
import MinSum.Proofs.Table.Sound

/-! What holds of every model graph. The adjacency is stored three times: as the list of edges
and as the links of variables and of factors. The last two are views of the first. -/
namespace MinSum.Graph

/-- The neighbor that an edge leads to from a node, none if it does not end at the node. -/
def Edge.far (e : Edge) : NodeId → Option Nat
  | .var v => if e.var = v then some e.factor else none
  | .factor f => if e.factor = f then some e.var else none

/-- The links of a node along the given edges, which are numbered from `start` on. -/
def linksAlong (id : NodeId) (start : Nat) (edges : List Edge) : List Link :=
  (edges.zipIdx start).filterMap fun x => (x.1.far id).map fun n => ⟨n, x.2⟩

theorem linksAlong_append (id : NodeId) (start : Nat) (as bs : List Edge) :
    linksAlong id start (as ++ bs) =
      linksAlong id start as ++ linksAlong id (start + as.length) bs := by
  simp only [linksAlong, List.zipIdx_append, List.filterMap_append]

theorem linksAlong_cons (id : NodeId) (start : Nat) (e : Edge) (edges : List Edge) :
    linksAlong id start (e :: edges) =
      ((e.far id).map fun n => (⟨n, start⟩ : Link)).toList ++ linksAlong id (start + 1) edges := by
  rw [linksAlong, List.zipIdx_cons, List.filterMap_cons]
  cases e.far id <;> rfl

theorem mem_linksAlong {id : NodeId} {l : Link} {edges : List Edge} :
    l ∈ linksAlong id 0 edges ↔ ∃ e, edges[l.edge]? = some e ∧ e.far id = some l.neighbor := by
  simp only [linksAlong, List.mem_filterMap, Prod.exists, List.mem_zipIdx_iff_getElem?,
    Option.map_eq_some_iff]
  constructor
  · rintro ⟨e, id', he, n, hn, rfl⟩
    exact ⟨e, he, hn⟩
  · rintro ⟨e, he, hn⟩
    exact ⟨e, l.edge, he, l.neighbor, hn, rfl⟩

/-- A node lists its edges by increasing number. -/
theorem pairwise_linksAlong (id : NodeId) (start : Nat) (edges : List Edge) :
    (edgesOf (linksAlong id start edges)).Pairwise (· < ·) ∧
      ∀ e ∈ edgesOf (linksAlong id start edges), start ≤ e := by
  induction edges generalizing start with
  | nil => simp [linksAlong, edgesOf]
  | cons e edges ih =>
    obtain ⟨hp, hl⟩ := ih (start + 1)
    rw [linksAlong_cons]
    cases e.far id with
    | none => exact ⟨hp, fun x hx => Nat.le_of_succ_le (hl x hx)⟩
    | some n =>
      refine ⟨List.pairwise_cons.2 ⟨fun x hx => hl x hx, hp⟩, ?_⟩
      intro x hx
      rcases List.mem_cons.1 hx with rfl | hx
      · exact Nat.le_refl _
      · exact Nat.le_of_succ_le (hl x hx)

variable {E : Type}

/-- The domain size of a variable, zero if there is none. -/
def sizeAt (g : Graph E) (v : Nat) : Nat := (g.vars[v]?.map (·.size)).getD 0

/-- The domain size of the variable of an edge, zero if there is none. -/
def edgeSize (g : Graph E) (e : Nat) : Nat := (g.edges[e]?.map (g.sizeAt ·.var)).getD 0

def HasNode (g : Graph E) : NodeId → Prop
  | .var v => v < g.vars.size
  | .factor f => f < g.factors.size

/-- The links of a node in port order, none if there is no such node. -/
def linksAt (g : Graph E) : NodeId → List Link
  | .var v => (g.vars[v]?.map (·.links)).getD []
  | .factor f => (g.factors[f]?.map (·.links)).getD []

def incident (g : Graph E) (id : NodeId) : List Nat := edgesOf (g.linksAt id)

variable [Energy E]

/-- The rule of a factor suits variables of the given domain sizes. -/
def Potential.Suits (p : Potential E) (sizes : List Nat) : Prop :=
  match p with
  | .table t => t.content.Built ∧ t.content.sizes = sizes
  | .custom c => c.checkDomains sizes = .ok ()

structure Variable.Valid (v : Variable E) : Prop where
  length_input : ∀ m ∈ v.input, m.length = v.size
  admissible : ∀ m ∈ v.input, ∀ x ∈ m, Energy.isAdmissible x = true
  fixed : ∀ i ∈ v.fixed, i < v.size

/-- The links of a factor are numbered one after another, to distinct variables. -/
structure Factor.Valid (g : Graph E) (factor : Factor E) : Prop where
  nodup : (neighborsOf factor.links).Nodup
  consecutive : ∃ start, edgesOf factor.links = List.range' start factor.links.length
  suits : factor.potential.Suits ((neighborsOf factor.links).map g.sizeAt)

structure WellFormed (g : Graph E) : Prop where
  linksAt_eq : ∀ id, g.HasNode id → g.linksAt id = linksAlong id 0 g.edges.toList
  ends : ∀ edge ∈ g.edges, edge.var < g.vars.size ∧ edge.factor < g.factors.size
  valid_variable : ∀ v ∈ g.vars, v.Valid
  valid_factor : ∀ factor ∈ g.factors, factor.Valid g
  names_nodup : (g.vars.toList.map (·.name)).Nodup

theorem wellFormed_empty : ({} : Graph E).WellFormed where
  linksAt_eq id h := by cases id <;> simp [HasNode] at h
  ends := by simp
  valid_variable := by simp
  valid_factor := by simp
  names_nodup := by simp

namespace WellFormed

variable {g : Graph E}

theorem hasNode_of_getElem? {e : Nat} {edge : Edge} {id : NodeId} {n : Nat} (h : g.WellFormed)
    (he : g.edges[e]? = some edge) (hf : edge.far id = some n) : g.HasNode id := by
  obtain ⟨hv, hfac⟩ := h.ends edge (Array.mem_of_getElem? he)
  cases id with
  | var v =>
    simp only [Edge.far, Option.ite_none_right_eq_some] at hf
    simpa [HasNode, ← hf.1] using hv
  | factor f =>
    simp only [Edge.far, Option.ite_none_right_eq_some] at hf
    simpa [HasNode, ← hf.1] using hfac

theorem linksAlong_eq_nil (h : g.WellFormed) (id : NodeId) (hid : ¬ g.HasNode id) :
    linksAlong id 0 g.edges.toList = [] := by
  rw [List.eq_nil_iff_forall_not_mem]
  intro l hl
  obtain ⟨e, he, hf⟩ := mem_linksAlong.1 hl
  exact hid (h.hasNode_of_getElem? (by simpa using he) hf)

omit [Energy E] in
theorem hasNode_of_mem_linksAt {id : NodeId} {l : Link} (hl : l ∈ g.linksAt id) :
    g.HasNode id := by
  by_contra hn
  cases id with
  | var v => simp [linksAt, Array.getElem?_eq_none (Nat.not_lt.1 hn)] at hl
  | factor f => simp [linksAt, Array.getElem?_eq_none (Nat.not_lt.1 hn)] at hl

/-- The links of a node are the edges that end at it. -/
theorem mem_linksAt (h : g.WellFormed) {id : NodeId} {l : Link} :
    l ∈ g.linksAt id ↔ ∃ e, g.edges[l.edge]? = some e ∧ e.far id = some l.neighbor := by
  constructor
  · intro hl
    rw [h.linksAt_eq id (hasNode_of_mem_linksAt hl), mem_linksAlong] at hl
    simpa using hl
  · rintro ⟨e, he, hf⟩
    rw [h.linksAt_eq id (h.hasNode_of_getElem? he hf), mem_linksAlong]
    exact ⟨e, by simpa using he, hf⟩

theorem mem_incident (h : g.WellFormed) {id : NodeId} {e : Nat} :
    e ∈ g.incident id ↔ ∃ edge n, g.edges[e]? = some edge ∧ edge.far id = some n := by
  constructor
  · intro he
    obtain ⟨l, hl, rfl⟩ := List.mem_map.1 he
    obtain ⟨edge, hedge, hf⟩ := h.mem_linksAt.1 hl
    exact ⟨edge, _, hedge, hf⟩
  · rintro ⟨edge, n, he, hf⟩
    exact List.mem_map.2 ⟨⟨n, e⟩, h.mem_linksAt.2 ⟨edge, he, hf⟩, rfl⟩

theorem lt_of_mem_incident (h : g.WellFormed) {id : NodeId} {e : Nat} (he : e ∈ g.incident id) :
    e < g.edges.size := by
  obtain ⟨edge, n, hedge, -⟩ := h.mem_incident.1 he
  exact (Array.getElem?_eq_some_iff.1 hedge).1

theorem pairwise_incident (h : g.WellFormed) (id : NodeId) :
    (g.incident id).Pairwise (· < ·) := by
  by_cases hid : g.HasNode id
  · rw [incident, h.linksAt_eq id hid]
    exact (pairwise_linksAlong id 0 _).1
  · have hnil : g.linksAt id = [] := by
      rw [List.eq_nil_iff_forall_not_mem]
      exact fun l hl => hid (hasNode_of_mem_linksAt hl)
    simp [incident, edgesOf, hnil]

theorem nodup_incident (h : g.WellFormed) (id : NodeId) : (g.incident id).Nodup :=
  (h.pairwise_incident id).imp fun hab => Nat.ne_of_lt hab

end WellFormed

end MinSum.Graph
