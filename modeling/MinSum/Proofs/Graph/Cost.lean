import Mathlib.Algebra.BigOperators.Fin
import Mathlib.Algebra.BigOperators.WithTop
import Mathlib.Data.Finset.Lattice.Fold
import Mathlib.Data.List.GetD
import MinSum.Proofs.Node.Update
import MinSum.Proofs.Table.Message
import MinSum.Solver.Readout

/-! The energy of a joint assignment, how it splits over the nodes of the graph, and its least for
each value of a variable. -/
namespace MinSum.Graph

variable {E : Type} [Energy E]

def Potential.energy (p : Potential E) (indices : List Nat) : E :=
  match p with
  | .table t => t.content.energyOf indices
  | .custom c => c.energy indices

def Factor.energy (factor : Factor E) (a : List Nat) : E :=
  factor.potential.energy (Solver.restrict a (neighborsOf factor.links))

/-- The energies of a joint assignment, first of the variables and then of the factors. -/
def energies (g : Graph E) (a : List Nat) : List E :=
  List.zipWith (fun var x => var.prior.entry x) g.vars.toList a ++
    g.factors.toList.map (·.energy a)

/-- The energy of a joint assignment: all priors and all factors. -/
def energy (g : Graph E) (a : List Nat) : E := (g.energies a).foldl (· + ·) 0

/-- The joint assignments: one value in range for each variable. -/
def assignments (g : Graph E) : List (List Nat) := tuples (g.vars.toList.map (·.size))

/-- The prior of a variable, empty if there is none. -/
def priorOf (g : Graph E) (v : Nat) : Message E := (g.vars[v]?.map (·.prior)).getD []

def varOf (g : Graph E) (e : Nat) : Nat := (g.edges[e]?.map (·.var)).getD 0

def nodes (g : Graph E) : Finset NodeId :=
  (Finset.range g.vars.size).image .var ∪ (Finset.range g.factors.size).image .factor

omit [Energy E] in
theorem mem_nodes {g : Graph E} {id : NodeId} : id ∈ g.nodes ↔ g.HasNode id := by
  cases id <;> simp [nodes, HasNode]

omit [Energy E] in
theorem sum_nodes {M : Type} [AddCommMonoid M] (g : Graph E) (w : NodeId → M) :
    ∑ id ∈ g.nodes, w id = ∑ v ∈ Finset.range g.vars.size, w (.var v) +
      ∑ f ∈ Finset.range g.factors.size, w (.factor f) := by
  have hd : Disjoint ((Finset.range g.vars.size).image NodeId.var)
      ((Finset.range g.factors.size).image NodeId.factor) := by
    simp [Finset.disjoint_left]
  rw [nodes, Finset.sum_union hd, Finset.sum_image (by simp), Finset.sum_image (by simp)]

omit [Energy E] in
theorem mem_assignments {g : Graph E} {a : List Nat} : a ∈ g.assignments ↔
    a.length = g.vars.size ∧ ∀ v < g.vars.size, a.getD v 0 < g.sizeAt v := by
  rw [assignments, mem_tuples, List.forall₂_iff_get]
  constructor
  · rintro ⟨hl, h⟩
    have hl : a.length = g.vars.size := by simpa using hl
    refine ⟨hl, fun v hv => ?_⟩
    have hva : v < a.length := by omega
    have := h v hva (by simpa using hv)
    simpa [sizeAt, hv, hva] using this
  · rintro ⟨hl, h⟩
    refine ⟨by simpa using hl, fun v hva _ => ?_⟩
    have hv : v < g.vars.size := by omega
    simpa [sizeAt, hv, hva] using h v hv

omit [Energy E] in
theorem edgeSize_eq_sizeAt {g : Graph E} {e : Nat} (he : e < g.edges.size) :
    g.edgeSize e = g.sizeAt (g.varOf e) := by
  simp [edgeSize, varOf, he]

namespace WellFormed

variable {g : Graph E} (h : g.WellFormed)

include h

theorem varOf_lt {e : Nat} (he : e < g.edges.size) : g.varOf e < g.vars.size := by
  have := (h.ends g.edges[e] (Array.getElem_mem he)).1
  simpa [varOf, he] using this

theorem length_priorOf (v : Nat) : (g.priorOf v).length = g.sizeAt v := by
  rw [priorOf, sizeAt]
  cases hv : g.vars[v]? with
  | none => rfl
  | some var => exact (h.valid_variable var (Array.mem_of_getElem? hv)).length_prior

theorem mem_incident_var {v e : Nat} :
    e ∈ g.incident (.var v) ↔ e < g.edges.size ∧ g.varOf e = v := by
  rw [h.mem_incident]
  constructor
  · rintro ⟨edge, n, he, hf⟩
    simp only [Edge.far, Option.ite_none_right_eq_some] at hf
    exact ⟨(Array.getElem?_eq_some_iff.1 he).1, by simp [varOf, he, hf.1]⟩
  · rintro ⟨he, hv⟩
    have hedge := Array.getElem?_eq_getElem he
    simp only [varOf, hedge, Option.map_some, Option.getD_some] at hv
    exact ⟨_, _, hedge, if_pos hv⟩

theorem varOf_of_mem_incident {v e : Nat} (he : e ∈ g.incident (.var v)) : g.varOf e = v :=
  (h.mem_incident_var.1 he).2

theorem neighborsOf_eq (f : Nat) :
    neighborsOf (g.linksAt (.factor f)) = (g.incident (.factor f)).map g.varOf := by
  rw [neighborsOf, incident, edgesOf, List.map_map]
  refine List.map_congr_left fun l hl => ?_
  obtain ⟨edge, hedge, hf⟩ := h.mem_linksAt.1 hl
  simp only [Edge.far, Option.ite_none_right_eq_some, Option.some.injEq] at hf
  simp [varOf, hedge, hf.2]

theorem nodup_map_varOf {f : Nat} {factor : Factor E} (hf : g.factors[f]? = some factor) :
    ((g.incident (.factor f)).map g.varOf).Nodup := by
  have hn := (h.valid_factor factor (Array.mem_of_getElem? hf)).nodup
  have hl : g.linksAt (.factor f) = factor.links := by simp [linksAt, hf]
  rw [← h.neighborsOf_eq, hl]
  exact hn

end WellFormed

variable {K : Type} [Field K] [LinearOrder K]

/-- The energy of an assignment at one node, which reads its own variables only. -/
def cost (g : Graph (Extended K)) (id : NodeId) (b : Nat → Nat) : WithTop K :=
  match id with
  | .var v => (g.priorOf v).valueAt (b v)
  | .factor f =>
    ((g.factors[f]?.map fun factor =>
      (factor.potential.energy ((g.incident (.factor f)).map fun e => b (g.varOf e))).value)).getD 0

theorem sum_eq_sum_range {M : Type} [AddCommMonoid M] (l : List M) :
    l.sum = ∑ i ∈ Finset.range l.length, l.getD i 0 := by
  rw [Finset.sum_range, ← Fin.sum_univ_getElem]
  exact Finset.sum_congr rfl fun i _ => (List.getD_eq_getElem _ _ i.isLt).symm

theorem sum_value_factors {g : Graph (Extended K)} (h : g.WellFormed) (a : List Nat) :
    ((g.factors.toList.map (·.energy a)).map Extended.value).sum =
      ∑ f ∈ Finset.range g.factors.size, g.cost (.factor f) (a.getD · 0) := by
  rw [sum_eq_sum_range]
  apply Finset.sum_congr (by simp)
  intro f hmem
  have hf : f < g.factors.size := by simpa using hmem
  have hlinks : g.linksAt (.factor f) = g.factors[f].links := by simp [linksAt, hf]
  have hn := h.neighborsOf_eq f
  rw [hlinks] at hn
  simp only [cost, hf, getElem?_pos, Option.map_some, Option.getD_some, List.map_map]
  simp [Factor.energy, Solver.restrict, hn, hf, Function.comp_def]

/-- The energy of a joint assignment is the sum of the costs of the nodes. -/
theorem value_energy {g : Graph (Extended K)} (h : g.WellFormed) {a : List Nat}
    (hl : a.length = g.vars.size) :
    (g.energy a).value = ∑ id ∈ g.nodes, g.cost id (a.getD · 0) := by
  have hv : ∀ v < g.vars.size, g.cost (.var v) (a.getD · 0) =
      ((List.zipWith (fun var x => var.prior.entry x) g.vars.toList a).map
        Extended.value).getD v 0 := by
    intro v hv
    simp [cost, priorOf, Message.valueAt, hv, hl]
  rw [energy, Extended.value_foldl_add, Extended.value_zero, zero_add, energies, List.map_append,
    List.sum_append, sum_nodes, sum_eq_sum_range, sum_value_factors h]
  congr 1
  refine Finset.sum_congr (by simp [hl]) fun v hmem => (hv v ?_).symm
  simpa [hl] using hmem

theorem cost_congr {g : Graph (Extended K)} {id : NodeId} {b b' : Nat → Nat}
    (hv : ∀ v, id = .var v → b v = b' v)
    (he : ∀ e ∈ g.incident id, b (g.varOf e) = b' (g.varOf e)) :
    g.cost id b = g.cost id b' := by
  cases id with
  | var v => rw [cost, cost, hv v rfl]
  | factor f =>
    have : (g.incident (.factor f)).map (fun e => b (g.varOf e)) =
        (g.incident (.factor f)).map fun e => b' (g.varOf e) := List.map_congr_left he
    simp only [cost, this]

/-- The assignment has a finite energy. -/
structure Possible (g : Graph (Extended K)) (a : List Nat) : Prop where
  mem : a ∈ g.assignments
  finite : ∃ k, g.energy a = .finite k

namespace Possible

variable {g : Graph (Extended K)} {a : List Nat} (h : g.Possible a) (hg : g.WellFormed)

include h hg

/-- No node rules a possible assignment out. -/
theorem cost_ne_top {id : NodeId} (hid : g.HasNode id) : g.cost id (a.getD · 0) ≠ ⊤ := by
  obtain ⟨k, hk⟩ := h.finite
  have hsum := value_energy hg (mem_assignments.1 h.mem).1
  rw [hk] at hsum
  have hne : ∑ id ∈ g.nodes, g.cost id (a.getD · 0) ≠ ⊤ := hsum ▸ WithTop.coe_ne_top
  exact WithTop.sum_ne_top.1 hne id (mem_nodes.2 hid)

theorem lt_edgeSize {e : Nat} (he : e < g.edges.size) : a.getD (g.varOf e) 0 < g.edgeSize e := by
  rw [edgeSize_eq_sizeAt he]
  exact (mem_assignments.1 h.mem).2 _ (hg.varOf_lt he)

end Possible

/-- The least energy of a joint assignment that gives a value to a variable. -/
def minMarginal (g : Graph (Extended K)) (v x : Nat) : WithTop K :=
  {a ∈ g.assignments.toFinset | a.getD v 0 = x}.inf fun a => (g.energy a).value

theorem isMinOver_minMarginal (g : Graph (Extended K)) (v x : Nat) :
    IsMinOver (fun a : List Nat => a ∈ g.assignments ∧ a.getD v 0 = x)
      (fun a => (g.energy a).value) (g.minMarginal v x) where
  le a ha := Finset.inf_le (by simpa using ha)
  attained hne := by
    have hsome : ({a ∈ g.assignments.toFinset | a.getD v 0 = x} : Finset (List Nat)).Nonempty := by
      by_contra hnone
      apply hne
      rw [minMarginal, Finset.not_nonempty_iff_eq_empty.1 hnone, Finset.inf_empty]
    obtain ⟨a, ha, heq⟩ := Finset.exists_mem_eq_inf _ hsome fun a => (g.energy a).value
    exact ⟨a, by simpa using ha, heq.symm⟩

variable {g : Graph (Extended K)} (h : g.WellFormed)

include h

/-- An assignment without infinite costs has all values in range. -/
theorem map_range_mem_assignments {b : Nat → Nat} (hb : ∑ id ∈ g.nodes, g.cost id b ≠ ⊤) :
    (List.range g.vars.size).map b ∈ g.assignments := by
  rw [mem_assignments]
  refine ⟨by simp, fun v hv => ?_⟩
  have hcost : g.cost (.var v) b ≠ ⊤ := WithTop.sum_ne_top.1 hb (.var v) (mem_nodes.2 hv)
  have hget : ((List.range g.vars.size).map b).getD v 0 = b v := by simp [hv]
  rw [hget, ← h.length_priorOf]
  by_contra hle
  exact hcost (Message.valueAt_of_le (Nat.not_lt.1 hle))

/-- The least over all functions is the least over joint assignments. -/
theorem minMarginal_eq {v x : Nat} (hv : v < g.vars.size) {m : WithTop K}
    (hm : IsMinOver (fun b : Nat → Nat => b v = x) (fun b => ∑ id ∈ g.nodes, g.cost id b) m) :
    m = g.minMarginal v x := by
  refine (hm.transfer ?_ ?_).unique (g.isMinOver_minMarginal v x)
  · rintro a ⟨ha, hx⟩ _
    exact ⟨(a.getD · 0), hx, (value_energy h (mem_assignments.1 ha).1).ge⟩
  · intro b hb hne
    have hmem := map_range_mem_assignments h hne
    have hget : ∀ w < g.vars.size, ((List.range g.vars.size).map b).getD w 0 = b w := by
      intro w hw
      simp [hw]
    refine ⟨_, ⟨hmem, (hget v hv).trans hb⟩, ?_⟩
    rw [value_energy h (mem_assignments.1 hmem).1]
    refine Finset.sum_congr rfl fun id hid => cost_congr ?_ ?_
    · rintro w rfl
      exact hget w (mem_nodes.1 hid)
    · exact fun e he => hget _ (h.varOf_lt (h.lt_of_mem_incident he))

end MinSum.Graph
