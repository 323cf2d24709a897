import Mathlib.Algebra.BigOperators.Group.Finset.Basic
import MinSum.Proofs.Graph.Branch
import MinSum.Proofs.Graph.Cost

/-! Graphs that are trees. Each edge of a node leads to a branch, and a sum over all nodes, or over
a branch, is the term of one node plus the sums over the branches behind its edges. -/
namespace MinSum

/-- Variables count as one, factors as nothing. -/
def NodeId.weight : NodeId → Nat
  | .var _ => 1
  | .factor _ => 0

namespace Graph

variable {E : Type}

/-- The undirected graph of variables and factors. -/
def bipartite (g : Graph E) : SimpleGraph NodeId :=
  .fromRel fun a b => ∃ edge ∈ g.edges, a = .var edge.var ∧ b = .factor edge.factor

structure IsTree (g : Graph E) : Prop where
  acyclic : g.bipartite.IsAcyclic
  connected : ∀ a b, g.HasNode a → g.HasNode b → g.bipartite.Reachable a b

def factorOf (g : Graph E) (e : Nat) : Nat := (g.edges[e]?.map (·.factor)).getD 0

def opposite (g : Graph E) (id : NodeId) (e : Nat) : NodeId :=
  match id with
  | .var _ => .factor (g.factorOf e)
  | .factor _ => .var (g.varOf e)

open Classical in
/-- The nodes that can be reached without entering `o`. -/
noncomputable def branch (g : Graph E) (o : Option NodeId) (id : NodeId) : Finset NodeId :=
  g.nodes.filter (InBranch g.bipartite o id)

namespace WellFormed

variable [Energy E] {g : Graph E} (h : g.WellFormed) {id : NodeId} {e : Nat}

include h

theorem mem_incident_factor {f : Nat} :
    e ∈ g.incident (.factor f) ↔ e < g.edges.size ∧ g.factorOf e = f := by
  rw [h.mem_incident]
  constructor
  · rintro ⟨edge, n, he, hf⟩
    simp only [Edge.far, Option.ite_none_right_eq_some] at hf
    exact ⟨(Array.getElem?_eq_some_iff.1 he).1, by simp [factorOf, he, hf.1]⟩
  · rintro ⟨he, hf⟩
    have hedge := Array.getElem?_eq_getElem he
    simp only [factorOf, hedge, Option.map_some, Option.getD_some] at hf
    exact ⟨_, _, hedge, if_pos hf⟩

theorem factorOf_lt (he : e < g.edges.size) : g.factorOf e < g.factors.size := by
  have hlt := (h.ends g.edges[e] (Array.getElem_mem he)).2
  simpa [factorOf, he] using hlt

theorem mem_incident_opposite (he : e ∈ g.incident id) : e ∈ g.incident (g.opposite id e) := by
  have hlt := h.lt_of_mem_incident he
  cases id with
  | var v => exact h.mem_incident_factor.2 ⟨hlt, rfl⟩
  | factor f => exact h.mem_incident_var.2 ⟨hlt, rfl⟩

theorem opposite_opposite (he : e ∈ g.incident id) : g.opposite (g.opposite id e) e = id := by
  cases id with
  | var v => exact congrArg NodeId.var (h.varOf_of_mem_incident he)
  | factor f => exact congrArg NodeId.factor (h.mem_incident_factor.1 he).2

omit [Energy E] h in
theorem hasNode_of_mem_incident (he : e ∈ g.incident id) : g.HasNode id := by
  obtain ⟨l, hl, -⟩ := List.mem_map.1 he
  exact hasNode_of_mem_linksAt hl

theorem hasNode_opposite (he : e ∈ g.incident id) : g.HasNode (g.opposite id e) :=
  hasNode_of_mem_incident (h.mem_incident_opposite he)

theorem adj_opposite (he : e ∈ g.incident id) : g.bipartite.Adj id (g.opposite id e) := by
  have hlt := h.lt_of_mem_incident he
  have hedge : g.edges[e] ∈ g.edges := Array.getElem_mem hlt
  cases id with
  | var v =>
    have hv := h.varOf_of_mem_incident he
    refine ⟨NodeId.noConfusion, .inl ⟨_, hedge, ?_, ?_⟩⟩
    · simp [← hv, varOf, hlt]
    · simp [opposite, factorOf, hlt]
  | factor f =>
    have hf := (h.mem_incident_factor.1 he).2
    refine ⟨NodeId.noConfusion, .inr ⟨_, hedge, ?_, ?_⟩⟩
    · simp [opposite, varOf, hlt]
    · simp [← hf, factorOf, hlt]

theorem exists_opposite {w : NodeId} (hw : g.bipartite.Adj id w) :
    ∃ e ∈ g.incident id, g.opposite id e = w := by
  obtain ⟨-, ⟨edge, hedge, rfl, rfl⟩ | ⟨edge, hedge, rfl, rfl⟩⟩ := hw
  all_goals
    obtain ⟨e, he⟩ := Array.mem_iff_getElem?.1 hedge
    have hlt := (Array.getElem?_eq_some_iff.1 he).1
  · exact ⟨e, h.mem_incident_var.2 ⟨hlt, by simp [varOf, he]⟩, by simp [opposite, factorOf, he]⟩
  · exact ⟨e, h.mem_incident_factor.2 ⟨hlt, by simp [factorOf, he]⟩, by simp [opposite, varOf, he]⟩

/-- No two edges of a node lead to the same neighbor. -/
theorem eq_of_opposite_eq {e' : Nat} (he : e ∈ g.incident id) (he' : e' ∈ g.incident id)
    (heq : g.opposite id e = g.opposite id e') : e = e' := by
  have hinj : ∀ f, e ∈ g.incident (.factor f) → e' ∈ g.incident (.factor f) →
      g.varOf e = g.varOf e' → e = e' := by
    intro f hf hf' hvar
    have hlt : f < g.factors.size := hasNode_of_mem_incident hf
    exact List.inj_on_of_nodup_map (h.nodup_map_varOf (Array.getElem?_eq_getElem hlt)) hf hf' hvar
  cases id with
  | var v =>
    have hf := h.mem_incident_opposite he
    have hf' := h.mem_incident_opposite he'
    rw [← heq] at hf'
    have hvar := h.varOf_of_mem_incident he
    have hvar' := h.varOf_of_mem_incident he'
    exact hinj _ hf hf' (hvar.trans hvar'.symm)
  | factor f => exact hinj f he he' (NodeId.var.inj heq)

variable {o : Option NodeId} {x : NodeId} (hid : g.HasNode id)

theorem hasNode_of_adj {a b : NodeId} (hab : g.bipartite.Adj a b) : g.HasNode b := by
  obtain ⟨e, he, rfl⟩ := h.exists_opposite hab
  exact h.hasNode_opposite he

include hid

theorem mem_branch : x ∈ g.branch o id ↔ InBranch g.bipartite o id x := by
  classical
  rw [branch, Finset.mem_filter, mem_nodes]
  refine ⟨fun hx => hx.2, fun hx => ⟨?_, hx⟩⟩
  cases hx with
  | refl => exact hid
  | tail _ hx => exact h.hasNode_of_adj hx.1

/-- A connected graph is a single branch. -/
theorem branch_none (ht : g.IsTree) : g.branch none id = g.nodes := by
  classical
  refine (Finset.filter_subset _ _).antisymm fun x hx => ?_
  exact (h.mem_branch hid).2 (InBranch.none_iff.2 (ht.connected id x hid (mem_nodes.1 hx)))

variable {M : Type} [AddCommMonoid M] (ht : g.IsTree) (f : NodeId → M)

include ht

/-- A sum over a branch, split at its root. -/
theorem sum_branch (ho : ∀ v, o = some v → g.bipartite.Adj id v) :
    ∑ x ∈ g.branch o id, f x = f id +
      ∑ e ∈ (g.incident id).toFinset with o ≠ some (g.opposite id e),
        ∑ x ∈ g.branch (some id) (g.opposite id e), f x := by
  have hmem : ∀ e ∈ g.incident id, ∀ x, x ∈ g.branch (some id) (g.opposite id e) ↔
      InBranch g.bipartite (some id) (g.opposite id e) x := fun e he x =>
    h.mem_branch (h.hasNode_opposite he)
  have hsplit : g.branch o id = insert id
      (((g.incident id).toFinset.filter fun e => o ≠ some (g.opposite id e)).biUnion
        fun e => g.branch (some id) (g.opposite id e)) := by
    ext x
    rw [h.mem_branch hid, Finset.mem_insert, Finset.mem_biUnion]
    constructor
    · intro hx
      rcases hx.cases_root with rfl | ⟨w, hw, how, hx⟩
      · exact .inl rfl
      · obtain ⟨e, he, rfl⟩ := h.exists_opposite hw
        exact .inr ⟨e, by simpa [he] using how, (hmem e he x).2 hx⟩
    · rintro (rfl | ⟨e, he, hx⟩)
      · exact .refl
      · obtain ⟨he, how⟩ := Finset.mem_filter.1 he
        have he := List.mem_toFinset.1 he
        refine InBranch.of_adj ht.acyclic (h.adj_opposite he) (fun v hv => ⟨ho v hv, ?_⟩)
          ((hmem e he x).1 hx)
        rintro rfl
        exact how hv
  have hroot : id ∉ ((g.incident id).toFinset.filter fun e => o ≠ some (g.opposite id e)).biUnion
      fun e => g.branch (some id) (g.opposite id e) := by
    simp only [Finset.mem_biUnion, Finset.mem_filter, List.mem_toFinset, not_exists, not_and]
    rintro e ⟨he, -⟩ hx
    exact ((hmem e he id).1 hx).ne (h.adj_opposite he).ne' rfl
  have hdisjoint : (((g.incident id).toFinset.filter fun e => o ≠ some (g.opposite id e)) :
      Set Nat).PairwiseDisjoint fun e => g.branch (some id) (g.opposite id e) := by
    intro e he e' he' hne
    have he := List.mem_toFinset.1 (Finset.mem_filter.1 he).1
    have he' := List.mem_toFinset.1 (Finset.mem_filter.1 he').1
    refine Finset.disjoint_left.2 fun x hx hx' => hne (h.eq_of_opposite_eq he he' ?_)
    exact InBranch.eq_of_inBranch ht.acyclic (h.adj_opposite he) (h.adj_opposite he')
      ((hmem e he x).1 hx) ((hmem e' he' x).1 hx')
  rw [hsplit, Finset.sum_insert hroot, Finset.sum_biUnion hdisjoint]

theorem sum_nodes : ∑ x ∈ g.nodes, f x = f id + ∑ e ∈ (g.incident id).toFinset,
    ∑ x ∈ g.branch (some id) (g.opposite id e), f x := by
  have ho : ∀ v, none = some v → g.bipartite.Adj id v := fun v hv => nomatch hv
  rw [← h.branch_none hid ht, h.sum_branch hid ht f ho]
  simp

omit hid in
/-- The sum over the branch on the near side of an edge. -/
theorem sum_branch_opposite (he : e ∈ g.incident id) :
    ∑ x ∈ g.branch (some (g.opposite id e)) id, f x = f id +
      ∑ e' ∈ (g.incident id).toFinset.erase e,
        ∑ x ∈ g.branch (some id) (g.opposite id e'), f x := by
  have ho : ∀ v, some (g.opposite id e) = some v → g.bipartite.Adj id v := by
    intro v hv
    rw [← Option.some.inj hv]
    exact h.adj_opposite he
  rw [h.sum_branch (hasNode_of_mem_incident he) ht f ho]
  congr 1
  refine Finset.sum_congr ?_ fun _ _ => rfl
  ext e'
  simp only [Finset.mem_filter, List.mem_toFinset, Finset.mem_erase, ne_eq, Option.some.injEq]
  constructor
  · rintro ⟨he', hne⟩
    exact ⟨fun heq => hne (heq ▸ rfl), he'⟩
  · rintro ⟨hne, he'⟩
    exact ⟨he', fun heq => hne (h.eq_of_opposite_eq he he' heq).symm⟩

end WellFormed

noncomputable def reach (g : Graph E) (id : NodeId) (e : Nat) : Nat :=
  ∑ x ∈ g.branch (some (g.opposite id e)) id, x.weight

/-- The number of half sweeps after which the message on an edge is right: a message of a factor
has an even rank, that of a variable an odd one. -/
noncomputable def rank (g : Graph E) (id : NodeId) (e : Nat) : Nat :=
  2 * g.reach id e - id.weight

theorem weight_opposite (g : Graph E) (id : NodeId) (e : Nat) :
    id.weight + (g.opposite id e).weight = 1 := by
  cases id <;> rfl

theorem sum_weight_nodes (g : Graph E) : ∑ x ∈ g.nodes, x.weight = g.vars.size := by
  have hdisjoint : Disjoint ((Finset.range g.vars.size).image NodeId.var)
      ((Finset.range g.factors.size).image NodeId.factor) := by
    simp [Finset.disjoint_left]
  rw [nodes, Finset.sum_union hdisjoint, Finset.sum_image (by simp), Finset.sum_image (by simp)]
  simp [NodeId.weight]

namespace WellFormed

variable [Energy E] {g : Graph E} (h : g.WellFormed) (ht : g.IsTree) {id : NodeId} {e : Nat}

include h ht

theorem reach_eq (he : e ∈ g.incident id) : g.reach id e = id.weight +
    ∑ e' ∈ (g.incident id).toFinset.erase e, g.reach (g.opposite id e') e' := by
  rw [reach, h.sum_branch_opposite ht _ he]
  congr 1
  refine Finset.sum_congr rfl fun e' he' => ?_
  have he' := List.mem_toFinset.1 (Finset.mem_of_mem_erase he')
  rw [reach, h.opposite_opposite he']

theorem rank_eq (he : e ∈ g.incident id) : g.rank id e = id.weight +
    2 * ∑ e' ∈ (g.incident id).toFinset.erase e, g.reach (g.opposite id e') e' := by
  rw [rank, h.reach_eq ht he]
  omega

theorem rank_mod (he : e ∈ g.incident id) : g.rank id e % 2 = id.weight := by
  have hweight := g.weight_opposite id e
  rw [h.rank_eq ht he]
  omega

/-- What a node hears on its other edges is right earlier than what it says. -/
theorem rank_opposite_lt {e' : Nat} (he : e ∈ g.incident id) (he' : e' ∈ g.incident id)
    (hne : e' ≠ e) : g.rank (g.opposite id e') e' < g.rank id e := by
  have hle : g.reach (g.opposite id e') e' ≤
      ∑ e' ∈ (g.incident id).toFinset.erase e, g.reach (g.opposite id e') e' :=
    Finset.single_le_sum (f := fun e' => g.reach (g.opposite id e') e')
      (fun _ _ => Nat.zero_le _) (Finset.mem_erase.2 ⟨hne, List.mem_toFinset.2 he'⟩)
  have hreach := h.reach_eq ht (h.mem_incident_opposite he')
  have hrank := h.rank_eq ht (h.mem_incident_opposite he')
  have hweight := g.weight_opposite id e'
  rw [h.rank_eq ht he]
  omega

/-- The branch behind an edge of a variable does not contain the variable. -/
theorem rank_opposite_lt_size {v : Nat} (he : e ∈ g.incident (.var v)) :
    g.rank (g.opposite (.var v) e) e < 2 * g.vars.size := by
  have hsum := h.sum_nodes (hasNode_of_mem_incident he) ht NodeId.weight
  rw [sum_weight_nodes] at hsum
  have hle : g.reach (g.opposite (.var v) e) e ≤
      ∑ e ∈ (g.incident (.var v)).toFinset,
        ∑ x ∈ g.branch (some (.var v)) (g.opposite (.var v) e), x.weight := by
    rw [reach, h.opposite_opposite he]
    exact Finset.single_le_sum (f := fun e => ∑ x ∈ g.branch (some (.var v))
      (g.opposite (.var v) e), x.weight) (fun _ _ => Nat.zero_le _) (List.mem_toFinset.2 he)
  have hone : (NodeId.var v).weight = 1 := rfl
  rw [rank]
  omega

end WellFormed

end Graph

end MinSum
