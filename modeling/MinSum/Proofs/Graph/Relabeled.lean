import Mathlib.Order.Interval.Set.Defs
import MinSum.Proofs.Node.Conveys
import MinSum.Proofs.Table.Permuted

/-! Graphs with the same nodes under other numbers. Each factor may list its variables in another
order, with the columns of its table in that order. Then the edges correspond, and so do the
energies of assignments and what the nodes have to say. -/
namespace MinSum

def NodeId.relabel (σ φ : Nat → Nat) : NodeId → NodeId
  | .var v => .var (σ v)
  | .factor f => .factor (φ f)

theorem NodeId.side_relabel (σ φ : Nat → Nat) (id : NodeId) : (id.relabel σ φ).side = id.side := by
  cases id <;> rfl

theorem sum_range_of_bijOn {M : Type} [AddCommMonoid M] {σ : Nat → Nat} {n n' : Nat}
    (h : Set.BijOn σ (Set.Iio n) (Set.Iio n')) (w : Nat → M) :
    ∑ i ∈ Finset.range n', w i = ∑ i ∈ Finset.range n, w (σ i) := by
  symm
  apply Finset.sum_nbij σ
  · intro i hi
    exact Finset.mem_range.2 (h.mapsTo (Finset.mem_range.1 hi))
  · rw [Finset.coe_range]
    exact h.injOn
  · rw [Finset.coe_range, Finset.coe_range]
    exact h.surjOn
  · exact fun _ _ => rfl

namespace Graph

def Edge.relabel (σ φ : Nat → Nat) (edge : Edge) : Edge := ⟨σ edge.var, φ edge.factor⟩

section

variable {E : Type}

structure Variable.Alike (var var' : Variable E) : Prop where
  size : var'.size = var.size
  input : var'.input = var.input
  fixed : var'.fixed = var.fixed

/-- The second factor lists the variables of the first, under other numbers, in some order, and
has the table of the first with its columns in that order. -/
def Factor.Permutes (σ : Nat → Nat) (factor factor' : Factor E) : Prop :=
  ∃ order t t', factor.potential = .table t ∧ factor'.potential = .table t' ∧
    t.content.Permutes order t'.content ∧
    neighborsOf factor'.links = reorder order ((neighborsOf factor.links).map σ)

structure Relabels (g g' : Graph E) (σ φ : Nat → Nat) : Prop where
  vars : Set.BijOn σ (Set.Iio g.vars.size) (Set.Iio g'.vars.size)
  factors : Set.BijOn φ (Set.Iio g.factors.size) (Set.Iio g'.factors.size)
  alike : ∀ (v : Nat) var var', g.vars[v]? = some var → g'.vars[σ v]? = some var' →
    var.Alike var'
  permutes : ∀ (f : Nat) factor factor', g.factors[f]? = some factor →
    g'.factors[φ f]? = some factor' → factor.Permutes σ factor'

structure Renumbers (g g' : Graph E) (σ φ ε : Nat → Nat) : Prop extends g.Relabels g' σ φ where
  edges : Set.BijOn ε (Set.Iio g.edges.size) (Set.Iio g'.edges.size)
  varOf_eq : ∀ e < g.edges.size, g'.varOf (ε e) = σ (g.varOf e)
  factorOf_eq : ∀ e < g.edges.size, g'.factorOf (ε e) = φ (g.factorOf e)

end

theorem getElem?_edges_iff {E : Type} {g : Graph E} {e : Nat} {edge : Edge} :
    g.edges[e]? = some edge ↔
      e < g.edges.size ∧ g.varOf e = edge.var ∧ g.factorOf e = edge.factor := by
  constructor
  · intro he
    refine ⟨(Array.getElem?_eq_some_iff.1 he).1, ?_, ?_⟩
    · simp only [varOf, he, Option.map_some, Option.getD_some]
    · simp only [factorOf, he, Option.map_some, Option.getD_some]
  · rintro ⟨hlt, hv, hf⟩
    have he := Array.getElem?_eq_getElem hlt
    simp only [varOf, factorOf, he, Option.map_some, Option.getD_some] at hv hf
    rw [he, Option.some.injEq]
    cases edge
    cases hedge : g.edges[e]
    simp_all

/-- An edge is told by its ends. -/
theorem WellFormed.eq_of_ends_eq {E : Type} [Energy E] {g : Graph E} (h : g.WellFormed)
    {e e' : Nat} (he : e < g.edges.size) (he' : e' < g.edges.size) (hv : g.varOf e = g.varOf e')
    (hf : g.factorOf e = g.factorOf e') : e = e' := by
  have hmem : e ∈ g.incident (.factor (g.factorOf e)) := h.mem_incident_factor.2 ⟨he, rfl⟩
  have hmem' : e' ∈ g.incident (.factor (g.factorOf e)) :=
    h.mem_incident_factor.2 ⟨he', hf.symm⟩
  exact h.eq_of_opposite_eq hmem hmem' (congrArg NodeId.var hv)

theorem map_incident_eq {E : Type} {g g' : Graph E} {σ : Nat → Nat} {id id' : NodeId}
    {order : List Nat} {t t' : Table E} (hperm : t.Permutes order t')
    (hlen : t.sizes.length = (g.incident id).length)
    (hmap : (g'.incident id').map g'.varOf = reorder order ((g.incident id).map (σ ∘ g.varOf)))
    (b : Nat → Nat) : (g'.incident id').map (fun e => b (g'.varOf e)) =
      reorder order ((g.incident id).map fun e => (b ∘ σ) (g.varOf e)) := by
  have hrange : order.Perm (List.range ((g.incident id).map (σ ∘ g.varOf)).length) := by
    rw [List.length_map, ← hlen]
    exact hperm.perm
  calc (g'.incident id').map (fun e => b (g'.varOf e))
      = ((g'.incident id').map g'.varOf).map b := List.map_map.symm
    _ = (reorder order ((g.incident id).map (σ ∘ g.varOf))).map b := by rw [hmap]
    _ = reorder order (((g.incident id).map (σ ∘ g.varOf)).map b) := (reorder_map hrange b).symm
    _ = _ := congrArg (reorder order) List.map_map

namespace Relabels

variable {E : Type} [Energy E] {g g' : Graph E} {σ φ : Nat → Nat} (h : g.Relabels g' σ φ)

include h

omit [Energy E] in
theorem exists_alike {v : Nat} (hv : v < g.vars.size) : ∃ var var', g.vars[v]? = some var ∧
    g'.vars[σ v]? = some var' ∧ var.Alike var' := by
  have hlt : σ v < g'.vars.size := h.vars.mapsTo hv
  have hvar := Array.getElem?_eq_getElem hv
  have hvar' := Array.getElem?_eq_getElem hlt
  exact ⟨_, _, hvar, hvar', h.alike v _ _ hvar hvar'⟩

omit [Energy E] in
theorem exists_permutes {f : Nat} (hf : f < g.factors.size) : ∃ factor factor',
    g.factors[f]? = some factor ∧ g'.factors[φ f]? = some factor' ∧
      factor.Permutes σ factor' := by
  have hlt : φ f < g'.factors.size := h.factors.mapsTo hf
  have hfactor := Array.getElem?_eq_getElem hf
  have hfactor' := Array.getElem?_eq_getElem hlt
  exact ⟨_, _, hfactor, hfactor', h.permutes f _ _ hfactor hfactor'⟩

omit [Energy E] in
theorem tabular : g.Tabular := by
  intro factor hfactor
  obtain ⟨f, hf⟩ := Array.mem_iff_getElem?.1 hfactor
  obtain ⟨factor', -, hf', -, order, t, -, ht, -⟩ :=
    h.exists_permutes (Array.getElem?_eq_some_iff.1 hf).1
  obtain rfl := Option.some.inj (hf.symm.trans hf')
  exact ⟨t, ht⟩

omit [Energy E] in
theorem tabular_right : g'.Tabular := by
  intro factor hfactor
  obtain ⟨f', hf'⟩ := Array.mem_iff_getElem?.1 hfactor
  obtain ⟨f, hf, rfl⟩ := h.factors.surjOn (Array.getElem?_eq_some_iff.1 hf').1
  obtain ⟨-, factor', -, hfactor', order, -, t, -, ht, -⟩ := h.exists_permutes hf
  obtain rfl := Option.some.inj (hf'.symm.trans hfactor')
  exact ⟨t, ht⟩

omit [Energy E] in
theorem hasNode {id : NodeId} (hid : g.HasNode id) : g'.HasNode (id.relabel σ φ) := by
  cases id with
  | var v => exact h.vars.mapsTo hid
  | factor f => exact h.factors.mapsTo hid

omit [Energy E] in
theorem sizeAt_eq {v : Nat} (hv : v < g.vars.size) : g'.sizeAt (σ v) = g.sizeAt v := by
  obtain ⟨var, var', hvar, hvar', halike⟩ := h.exists_alike hv
  simp only [sizeAt, hvar, hvar', Option.map_some, Option.getD_some, halike.size]

theorem priorOf_eq {v : Nat} (hv : v < g.vars.size) : g'.priorOf (σ v) = g.priorOf v := by
  obtain ⟨var, var', hvar, hvar', halike⟩ := h.exists_alike hv
  simp only [priorOf, hvar, hvar', Option.map_some, Option.getD_some, Variable.prior, halike.size,
    halike.input, halike.fixed]

variable (hg : g.WellFormed) (hg' : g'.WellFormed)

include hg hg'

/-- The two tables of a factor and the order of its ports. -/
theorem exists_order {f : Nat} (hf : f < g.factors.size) : ∃ factor factor' order t t',
    g.factors[f]? = some factor ∧ g'.factors[φ f]? = some factor' ∧
      factor.potential = .table t ∧ factor'.potential = .table t' ∧ t.content.Sound ∧
      t'.content.Sound ∧ t.content.Permutes order t'.content ∧
      t.content.sizes.length = (g.incident (.factor f)).length ∧
      (g'.incident (.factor (φ f))).map g'.varOf =
        reorder order ((g.incident (.factor f)).map (σ ∘ g.varOf)) := by
  obtain ⟨factor, factor', hfactor, hfactor', order, t, t', ht, ht', hperm, hlinks⟩ :=
    h.exists_permutes hf
  have hsuits := (hg.valid_factor factor (Array.mem_of_getElem? hfactor)).suits
  have hsuits' := (hg'.valid_factor factor' (Array.mem_of_getElem? hfactor')).suits
  rw [ht] at hsuits
  rw [ht'] at hsuits'
  have hneighbors : neighborsOf factor.links = (g.incident (.factor f)).map g.varOf := by
    rw [← linksAt_factor hfactor, hg.neighborsOf_eq]
  have hneighbors' : neighborsOf factor'.links = (g'.incident (.factor (φ f))).map g'.varOf := by
    rw [← linksAt_factor hfactor', hg'.neighborsOf_eq]
  refine ⟨factor, factor', order, t, t', hfactor, hfactor', ht, ht', hsuits.1.sound,
    hsuits'.1.sound, hperm, ?_, ?_⟩
  · rw [hsuits.2, hneighbors, List.length_map, List.length_map]
  · rw [← hneighbors', hlinks, hneighbors, List.map_map]

theorem mem_map_varOf {f : Nat} (hf : f < g.factors.size) {v : Nat} :
    v ∈ (g'.incident (.factor (φ f))).map g'.varOf ↔
      v ∈ (g.incident (.factor f)).map (σ ∘ g.varOf) := by
  obtain ⟨factor, factor', order, t, t', -, -, -, -, -, -, hperm, hlen, hmap⟩ :=
    h.exists_order hg hg' hf
  rw [hmap, mem_reorder]
  rw [List.length_map, ← hlen]
  exact hperm.perm

theorem exists_edge {e : Nat} (he : e < g.edges.size) : ∃ e' < g'.edges.size,
    g'.varOf e' = σ (g.varOf e) ∧ g'.factorOf e' = φ (g.factorOf e) := by
  have hmem : e ∈ g.incident (.factor (g.factorOf e)) := hg.mem_incident_factor.2 ⟨he, rfl⟩
  have hvar := (h.mem_map_varOf hg hg' (hg.factorOf_lt he)).2 (List.mem_map_of_mem hmem)
  obtain ⟨e', he', hv⟩ := List.mem_map.1 hvar
  obtain ⟨hlt, hf⟩ := hg'.mem_incident_factor.1 he'
  exact ⟨e', hlt, hv, hf⟩

/-- Every edge is one that corresponds to another. -/
theorem exists_edge_left {e' : Nat} (he' : e' < g'.edges.size) : ∃ e < g.edges.size,
    g'.varOf e' = σ (g.varOf e) ∧ g'.factorOf e' = φ (g.factorOf e) := by
  obtain ⟨f, hf, hff⟩ := h.factors.surjOn (hg'.factorOf_lt he')
  have hmem : e' ∈ g'.incident (.factor (φ f)) := hg'.mem_incident_factor.2 ⟨he', hff.symm⟩
  have hvar := (h.mem_map_varOf hg hg' hf).1 (List.mem_map_of_mem hmem)
  obtain ⟨e, he, hv⟩ := List.mem_map.1 hvar
  obtain ⟨hlt, rfl⟩ := hg.mem_incident_factor.1 he
  exact ⟨e, hlt, hv.symm, hff.symm⟩

theorem exists_renumbers : ∃ ε, g.Renumbers g' σ φ ε := by
  have hedge : ∀ e, ∃ e', e < g.edges.size → e' < g'.edges.size ∧
      g'.varOf e' = σ (g.varOf e) ∧ g'.factorOf e' = φ (g.factorOf e) := by
    intro e
    by_cases he : e < g.edges.size
    · obtain ⟨e', hends⟩ := h.exists_edge hg hg' he
      exact ⟨e', fun _ => hends⟩
    · exact ⟨0, fun he' => absurd he' he⟩
  choose ε hε using hedge
  refine ⟨ε, h, ⟨fun e he => (hε e he).1, ?_, ?_⟩, fun e he => (hε e he).2.1,
    fun e he => (hε e he).2.2⟩
  · intro e he d hd heq
    obtain ⟨-, hv, hf⟩ := hε e he
    obtain ⟨-, hv', hf'⟩ := hε d hd
    rw [heq] at hv hf
    have hvar := h.vars.injOn (hg.varOf_lt he) (hg.varOf_lt hd) (hv.symm.trans hv')
    have hfactor := h.factors.injOn (hg.factorOf_lt he) (hg.factorOf_lt hd) (hf.symm.trans hf')
    exact hg.eq_of_ends_eq he hd hvar hfactor
  · intro e' he'
    obtain ⟨e, he, hv, hf⟩ := h.exists_edge_left hg hg' he'
    obtain ⟨hlt, hv', hf'⟩ := hε e he
    exact ⟨e, he, hg'.eq_of_ends_eq hlt he' (hv'.trans hv.symm) (hf'.trans hf.symm)⟩

end Relabels

variable {K : Type} [Field K] [LinearOrder K] {g g' : Graph (Extended K)} {σ φ ε : Nat → Nat}

/-- What a node has to say is one message. -/
theorem Says.unique {store : EdgeStore (Extended K)} {id : NodeId} {e : Nat}
    {m m' : Message (Extended K)} (h : g.Says store id e m) (h' : g.Says store id e m')
    (hl : m.length = g.edgeSize e) (hl' : m'.length = g.edgeSize e) : m = m' := by
  apply h.proper.ext h'.proper (hl.trans hl'.symm)
  intro x hx
  rw [hl] at hx
  exact (h.isMinOver x hx).unique (h'.isMinOver x hx)

/-- What a node has to say depends only on the values of the variables. -/
theorem WellFormed.costBut_congr (hg : g.WellFormed) (store : EdgeStore (Extended K)) {id : NodeId}
    (hid : g.HasNode id) (e : Nat) {b b' : Nat → Nat} (hb : ∀ v < g.vars.size, b v = b' v) :
    g.costBut store id e b = g.costBut store id e b' := by
  have hedge : ∀ e' ∈ g.incident id, b (g.varOf e') = b' (g.varOf e') := fun e' he' =>
    hb _ (hg.varOf_lt (hg.lt_of_mem_incident he'))
  have hcost : g.cost id b = g.cost id b' := by
    apply cost_congr _ hedge
    rintro v rfl
    exact hb v hid
  rw [costBut, costBut, hcost]
  congr 1
  apply Finset.sum_congr rfl
  intro e' he'
  rw [inflow, inflow, hedge e' (List.mem_toFinset.1 (Finset.mem_of_mem_erase he'))]

/-- Corresponding edges are in the same states. -/
def Carried (g : Graph (Extended K)) (ε : Nat → Nat) (a a' : EdgeStore (Extended K)) : Prop :=
  ∀ e < g.edges.size, a'.stateOf (ε e) = a.stateOf e

namespace Renumbers

variable (h : g.Renumbers g' σ φ ε) (hg : g.WellFormed) (hg' : g'.WellFormed)

include h

theorem edgeSize_eq (hg : g.WellFormed) {e : Nat} (he : e < g.edges.size) :
    g'.edgeSize (ε e) = g.edgeSize e := by
  rw [edgeSize_eq_sizeAt (h.edges.mapsTo he), edgeSize_eq_sizeAt he, h.varOf_eq e he,
    h.sizeAt_eq (hg.varOf_lt he)]

include hg hg'

theorem mem_incident_iff {id : NodeId} (hid : g.HasNode id) {e : Nat} (he : e < g.edges.size) :
    ε e ∈ g'.incident (id.relabel σ φ) ↔ e ∈ g.incident id := by
  have hlt : ε e < g'.edges.size := h.edges.mapsTo he
  cases id with
  | var v =>
    rw [NodeId.relabel, hg'.mem_incident_var, hg.mem_incident_var, h.varOf_eq e he]
    constructor
    · exact fun hv => ⟨he, h.vars.injOn (hg.varOf_lt he) hid hv.2⟩
    · exact fun hv => ⟨hlt, congrArg σ hv.2⟩
  | factor f =>
    rw [NodeId.relabel, hg'.mem_incident_factor, hg.mem_incident_factor, h.factorOf_eq e he]
    constructor
    · exact fun hf => ⟨he, h.factors.injOn (hg.factorOf_lt he) hid hf.2⟩
    · exact fun hf => ⟨hlt, congrArg φ hf.2⟩

/-- The edges of a node are those of the node under its other number. -/
theorem toFinset_incident {id : NodeId} (hid : g.HasNode id) :
    (g'.incident (id.relabel σ φ)).toFinset = (g.incident id).toFinset.image ε := by
  ext e'
  rw [Finset.mem_image, List.mem_toFinset]
  constructor
  · intro he'
    obtain ⟨e, he, rfl⟩ := h.edges.surjOn (hg'.lt_of_mem_incident he')
    exact ⟨e, List.mem_toFinset.2 ((h.mem_incident_iff hg hg' hid he).1 he'), rfl⟩
  · rintro ⟨e, he, rfl⟩
    have he := List.mem_toFinset.1 he
    exact (h.mem_incident_iff hg hg' hid (hg.lt_of_mem_incident he)).2 he

omit hg' in
theorem injOn_incident (id : NodeId) : Set.InjOn ε ((g.incident id).toFinset : Set Nat) := by
  apply h.edges.injOn.mono
  intro e he
  exact hg.lt_of_mem_incident (List.mem_toFinset.1 he)

/-- Assignments have the same energies at a node and at the node under its other number. -/
theorem cost_eq {id : NodeId} (hid : g.HasNode id) (b : Nat → Nat) :
    g'.cost (id.relabel σ φ) b = g.cost id (b ∘ σ) := by
  cases id with
  | var v => rw [NodeId.relabel, cost, cost, h.priorOf_eq hid, Function.comp_apply]
  | factor f =>
    obtain ⟨factor, factor', order, t, t', hfactor, hfactor', ht, ht', hsound, hsound', hperm,
      hlen, hmap⟩ := h.exists_order hg hg' hid
    have hedges := map_incident_eq hperm hlen hmap b
    have henergy := hperm.energyOf_eq hsound hsound'
      (l := (g.incident (.factor f)).map fun e => (b ∘ σ) (g.varOf e))
      (by rw [List.length_map, hlen])
    simp only [NodeId.relabel, cost, hfactor, hfactor', Option.map_some, Option.getD_some, ht, ht',
      Potential.energy, hedges, henergy]

variable {a a' : EdgeStore (Extended K)} (hc : g.Carried ε a a')

omit hg hg' in
theorem inflow_eq (hc : g.Carried ε a a') (id : NodeId) (b : Nat → Nat) {e : Nat}
    (he : e < g.edges.size) :
    g'.inflow a' (id.relabel σ φ) b (ε e) = g.inflow a id (b ∘ σ) e := by
  rw [inflow, inflow, EdgeStore.heard, EdgeStore.heard, hc e he, NodeId.side_relabel,
    h.varOf_eq e he, Function.comp_apply]

include hc

theorem sum_inflow_eq {id : NodeId} (hid : g.HasNode id) (b : Nat → Nat) :
    ∑ e ∈ (g'.incident (id.relabel σ φ)).toFinset, g'.inflow a' (id.relabel σ φ) b e =
      ∑ e ∈ (g.incident id).toFinset, g.inflow a id (b ∘ σ) e := by
  rw [h.toFinset_incident hg hg' hid, Finset.sum_image (h.injOn_incident hg id)]
  apply Finset.sum_congr rfl
  intro e he
  exact h.inflow_eq hc id b (hg.lt_of_mem_incident (List.mem_toFinset.1 he))

theorem costBut_eq {id : NodeId} {e : Nat} (he : e ∈ g.incident id) (b : Nat → Nat) :
    g'.costBut a' (id.relabel σ φ) (ε e) b = g.costBut a id e (b ∘ σ) := by
  have hid := WellFormed.hasNode_of_mem_incident he
  have hinj := h.injOn_incident hg id
  have hsub : {e} ⊆ (g.incident id).toFinset :=
    Finset.singleton_subset_iff.2 (List.mem_toFinset.2 he)
  have herase : (g'.incident (id.relabel σ φ)).toFinset.erase (ε e) =
      ((g.incident id).toFinset.erase e).image ε := by
    rw [h.toFinset_incident hg hg' hid, Finset.erase_eq, Finset.erase_eq,
      Finset.image_sdiff_of_injOn hinj hsub, Finset.image_singleton]
  rw [costBut, costBut, h.cost_eq hg hg' hid, herase,
    Finset.sum_image (hinj.mono (Finset.coe_subset.2 (Finset.erase_subset _ _)))]
  congr 1
  apply Finset.sum_congr rfl
  intro e' he'
  have hmem := List.mem_toFinset.1 (Finset.mem_of_mem_erase he')
  exact h.inflow_eq hc id b (hg.lt_of_mem_incident hmem)

/-- What a node has to say is what it has to say under its other number. -/
theorem says_relabel {id : NodeId} {e : Nat} {m : Message (Extended K)} (he : e ∈ g.incident id)
    (hm : g.Says a id e m) : g'.Says a' (id.relabel σ φ) (ε e) m := by
  have hlt := hg.lt_of_mem_incident he
  have hid := WellFormed.hasNode_of_mem_incident he
  refine ⟨hm.proper, fun x hx => ?_⟩
  rw [h.edgeSize_eq hg hlt] at hx
  apply (hm.isMinOver x hx).transfer
  · intro b' hb' _
    rw [h.varOf_eq e hlt] at hb'
    exact ⟨b' ∘ σ, hb', (h.costBut_eq hg hg' hc he b').ge⟩
  · intro b hb _
    -- The values of the variables under their other numbers.
    let back := Function.invFunOn σ (Set.Iio g.vars.size)
    have hback : ∀ v < g.vars.size, ((b ∘ back) ∘ σ) v = b v := by
      intro v hv
      exact congrArg b (h.vars.injOn.leftInvOn_invFunOn hv)
    refine ⟨b ∘ back, ?_, ?_⟩
    · rw [h.varOf_eq e hlt]
      exact (hback _ (hg.varOf_lt hlt)).trans hb
    · rw [h.costBut_eq hg hg' hc he]
      exact hg.costBut_congr a hid e hback

end Renumbers

end Graph

end MinSum
