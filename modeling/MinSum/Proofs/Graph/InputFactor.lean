import MinSum.Proofs.Graph.Reachable
import MinSum.Proofs.Graph.Tree
import MinSum.Proofs.Node.Says
import MinSum.Proofs.Table.Unary

/-! The input of a variable as a factor. In the second graph the variable has no input, and a
factor of its own, the last one, whose table has the energies of the input. -/
namespace MinSum.Graph

section

variable {E : Type}

/-- No variable has an empty input: it would count as none. -/
def Inputs (g : Graph E) : Prop := ∀ var ∈ g.vars, var.input ≠ some []

theorem Inputs.attach {g : Graph E} (h : g.Inputs) (potential : Potential E)
    (operands : List Nat) : (g.attach potential operands).2.Inputs := by
  intro var hvar
  obtain ⟨v, hv⟩ := Array.mem_iff_getElem?.1 hvar
  rw [getElem?_vars_attach] at hv
  obtain ⟨old, hold, rfl⟩ := Option.map_eq_some_iff.1 hv
  exact h old (Array.mem_of_getElem? hold)

theorem Inputs.set {g : Graph E} (h : g.Inputs) (v : Nat) {var : Variable E}
    (hvar : var.input ≠ some []) : Inputs { g with vars := g.vars.setIfInBounds v var } := by
  intro w hw
  rcases Array.mem_or_eq_of_mem_setIfInBounds hw with hw | rfl
  · exact h w hw
  · exact hvar

theorem Inputs.setInput [Energy E] {g g' : Graph E} (h : g.Inputs) {v : Nat}
    {input : Option (Message E)} (hg : g.setInput v input = .ok g') : g'.Inputs := by
  unfold Graph.setInput at hg
  simp only at hg
  split at hg
  · contradiction
  split at hg
  · contradiction
  obtain rfl := Except.ok.inj hg
  apply h.set
  cases input with
  | none => simp
  | some m => cases m <;> simp

theorem Inputs.fixValue {g g' : Graph E} (h : g.Inputs) {v : Nat} {fixed : Option Nat}
    (hg : g.fixValue v fixed = .ok g') : g'.Inputs := by
  unfold Graph.fixValue at hg
  split at hg
  · contradiction
  rename_i var hv
  split at hg
  · contradiction
  obtain rfl := Except.ok.inj hg
  exact h.set v (h var (Array.mem_of_getElem? (variableAt_eq_ok hv)))

theorem Reachable.inputs [LogEnergy E] {g : Graph E} (h : g.Reachable) : g.Inputs := by
  induction h with
  | empty =>
    intro var hvar
    simp at hvar
  | addVariable name domain _ hg ih =>
    unfold Graph.addVariable at hg
    split at hg
    · contradiction
    obtain rfl := (Prod.mk.inj (Except.ok.inj hg)).2
    intro var hvar
    rcases Array.mem_push.1 hvar with hvar | rfl
    · exact ih var hvar
    · exact nofun
  | @addTable g _ _ table hb operands _ hg ih =>
    obtain ⟨-, -, -, shared, tables, -, he⟩ := addTable_eq_ok hg
    obtain rfl := congrArg Prod.snd he
    have htables : Inputs { g with tables } := ih
    exact htables.attach _ _
  | addCustom custom operands _ hg ih =>
    obtain ⟨-, -, -, he⟩ := addCustom_eq_ok hg
    obtain rfl := congrArg Prod.snd he
    exact ih.attach _ _
  | setInput v input _ hg ih => exact ih.setInput hg
  | setInputProbabilities v p _ hg ih =>
    unfold Graph.setInputProbabilities at hg
    split at hg
    · contradiction
    exact ih.setInput hg
  | fixValue v fixed _ hg ih => exact ih.fixValue hg
  | fixValueOf v value _ hg ih =>
    unfold Graph.fixValueOf at hg
    split at hg
    · contradiction
    split at hg
    · contradiction
    exact ih.fixValue hg

end

/-- A table of one port may be attached to any variable of its size. -/
theorem exists_addTable {E : Type} [DecidableEq E] {g : Graph E} {v : Nat} {var : Variable E}
    {table : Table E} (hv : g.vars[v]? = some var) (hs : table.sizes = [var.size]) :
    ∃ x, g.addTable table [v] = .ok x := by
  have hcount : ¬ table.portCount ≠ [v].length := by
    rw [Table.portCount, hs]
    exact not_not.2 rfl
  have hports : g.checkPorts [v] table.sizes = .ok () := by
    rw [hs]
    simp [checkPorts, variableAt, hv]
  have hop : g.checkOperands [v] = .ok () := by simp [checkOperands, firstRepeat?]
  rw [addTable, if_neg hcount, hports, hop]
  exact ⟨_, rfl⟩

variable {K : Type} [Field K] [LinearOrder K]

/-- The second graph is the first, but the input of the variable is given by a new factor. -/
structure MovesInput (g g' : Graph (Extended K)) (v : Nat) (input : Message (Extended K)) :
    Prop where
  edges : g'.edges = g.edges.push ⟨v, g.factors.size⟩
  factors : ∃ t : Shared (Table (Extended K)), g'.factors =
    g.factors.push ⟨.table t, [⟨v, g.edges.size⟩]⟩ ∧ t.content.sizes = [input.length] ∧
      ∀ i, t.content.energyOf [i] = input.entry i
  size_vars : g'.vars.size = g.vars.size
  self : ∃ var, g.vars[v]? = some var ∧ var.fixed = none ∧ var.input = some input ∧
    g'.vars[v]? = some { var with
      input := none, links := var.links ++ [⟨g.factors.size, g.edges.size⟩] }
  others : ∀ w, w ≠ v → g'.vars[w]? = g.vars[w]?

theorem Reachable.exists_movesInput [Extended.Exponential K] {g : Graph (Extended K)}
    (hg : g.Reachable) {v : Nat} {var : Variable (Extended K)} {input : Message (Extended K)}
    (hv : g.vars[v]? = some var) (hf : var.fixed = none) (hi : var.input = some input) :
    ∃ table g₁ f g₂, Table.ofRows [var.size] (Table.unaryRows input) = .ok table ∧
      g.setInput v none = .ok g₁ ∧ g₁.addTable table [v] = .ok (f, g₂) ∧ g₂.Reachable ∧
      g.MovesInput g₂ v input := by
  have hmem := Array.mem_of_getElem? hv
  have hvalid := hg.wellFormed.valid_variable var hmem
  have hlen : input.length = var.size := hvalid.length_input input hi
  have hne : input ≠ [] := by
    rintro rfl
    exact hg.inputs var hmem hi
  obtain ⟨table, htable, hsizes, henergy⟩ := Table.exists_unary hne (hvalid.admissible input hi)
  rw [hlen] at htable
  let bare : Variable (Extended K) := { var with input := none }
  let g₁ : Graph (Extended K) := { g with vars := g.vars.setIfInBounds v bare }
  have hset : g.setInput v none = .ok g₁ := by
    simp [Graph.setInput, variableAt, hv, g₁, bare]
  have hlt : v < g.vars.size := (Array.getElem?_eq_some_iff.1 hv).1
  have hself : g₁.vars[v]? = some bare := Array.getElem?_setIfInBounds_self_of_lt hlt
  obtain ⟨⟨f, g₂⟩, hadd⟩ := exists_addTable hself (hsizes.trans (congrArg ([·]) hlen))
  have hreach : g₂.Reachable :=
    .addTable table ⟨_, _, htable⟩ [v] (.setInput v none hg hset) hadd
  refine ⟨table, g₁, f, g₂, htable, hset, hadd, hreach, ?_⟩
  obtain ⟨-, -, -, shared, tables, rfl, hattach⟩ := addTable_eq_ok hadd
  obtain rfl : g₂ = _ := congrArg Prod.snd hattach
  constructor
  · exact edges_attach _ _ _
  · exact ⟨shared, rfl, hsizes, henergy⟩
  · rw [size_vars_attach]
    exact Array.size_setIfInBounds
  · refine ⟨var, hv, hf, hi, ?_⟩
    rw [getElem?_vars_attach]
    change g₁.vars[v]?.map _ = _
    rw [hself, Option.map_some, List.map_singleton, linksAlong_cons, far_mk_var, if_pos rfl]
    rfl
  · intro w hw
    rw [getElem?_vars_attach]
    change g₁.vars[w]?.map _ = _
    rw [List.map_singleton, linksAlong_cons, far_mk_var, if_neg hw.symm]
    have hold : g₁.vars[w]? = g.vars[w]? := by
      rw [Array.getElem?_setIfInBounds, if_neg hw.symm]
    rw [hold]
    simp [linksAlong]

namespace MovesInput

variable {g g' : Graph (Extended K)} {v : Nat} {input : Message (Extended K)}
  (h : g.MovesInput g' v input)

include h

theorem size_edges : g'.edges.size = g.edges.size + 1 := by
  rw [h.edges, Array.size_push]

theorem size_factors : g'.factors.size = g.factors.size + 1 := by
  obtain ⟨t, hfactors, -⟩ := h.factors
  rw [hfactors, Array.size_push]

theorem hasNode {id : NodeId} (hid : g.HasNode id) : g'.HasNode id := by
  cases id with
  | var w =>
    rw [HasNode, h.size_vars]
    exact hid
  | factor f =>
    rw [HasNode, h.size_factors]
    exact Nat.lt_succ_of_lt hid

theorem getElem?_factors {f : Nat} (hf : f < g.factors.size) :
    g'.factors[f]? = g.factors[f]? := by
  obtain ⟨t, hfactors, -⟩ := h.factors
  rw [hfactors, Array.getElem?_push, if_neg (Nat.ne_of_lt hf)]

theorem exists_factor : ∃ t : Shared (Table (Extended K)),
    g'.factors[g.factors.size]? = some ⟨.table t, [⟨v, g.edges.size⟩]⟩ ∧
      t.content.sizes = [input.length] ∧ ∀ i, t.content.energyOf [i] = input.entry i := by
  obtain ⟨t, hfactors, ht⟩ := h.factors
  refine ⟨t, ?_, ht⟩
  rw [hfactors, Array.getElem?_push, if_pos rfl]

/-- The other nodes have their edges as before. -/
theorem incident_eq {id : NodeId} (hid : g.HasNode id) (hne : id ≠ .var v) :
    g'.incident id = g.incident id := by
  cases id with
  | var w =>
    have hw : w ≠ v := fun heq => hne (congrArg NodeId.var heq)
    rw [incident, incident, linksAt, linksAt, h.others w hw]
  | factor f => rw [incident, incident, linksAt, linksAt, h.getElem?_factors hid]

theorem incident_self : g'.incident (.var v) = g.incident (.var v) ++ [g.edges.size] := by
  obtain ⟨var, hv, -, -, hv'⟩ := h.self
  simp [incident, linksAt, hv, hv', edgesOf]

theorem incident_new : g'.incident (.factor g.factors.size) = [g.edges.size] := by
  obtain ⟨t, hf, -⟩ := h.exists_factor
  simp [incident, linksAt, hf, edgesOf]

theorem getElem?_incident {id : NodeId} {p e : Nat} (hp : (g.incident id)[p]? = some e) :
    (g'.incident id)[p]? = some e := by
  have hid := WellFormed.hasNode_of_mem_incident (List.mem_of_getElem? hp)
  by_cases hne : id = .var v
  · subst hne
    rw [h.incident_self, List.getElem?_append_left (List.getElem?_eq_some_iff.1 hp).1]
    exact hp
  · rwa [h.incident_eq hid hne]

theorem sizeAt_eq (w : Nat) : g'.sizeAt w = g.sizeAt w := by
  by_cases hw : w = v
  · obtain ⟨var, hv, -, -, hv'⟩ := h.self
    subst hw
    rw [sizeAt, sizeAt, hv, hv']
    rfl
  · rw [sizeAt, sizeAt, h.others w hw]

theorem edgeSize_eq {e : Nat} (he : e < g.edges.size) : g'.edgeSize e = g.edgeSize e := by
  have hedge : g'.edges[e]? = g.edges[e]? := by
    rw [h.edges, Array.getElem?_push, if_neg (Nat.ne_of_lt he)]
  rw [edgeSize, edgeSize, hedge]
  congr 2
  funext edge
  exact h.sizeAt_eq edge.var

theorem priorOf_of_ne {w : Nat} (hw : w ≠ v) : g'.priorOf w = g.priorOf w := by
  rw [priorOf, priorOf, h.others w hw]

theorem priorOf_self : g.priorOf v = input := by
  obtain ⟨var, hv, hf, hi, -⟩ := h.self
  simp only [priorOf, hv, Option.map_some, Option.getD_some, Variable.prior, hf, hi]

theorem priorOf_self_right (hg : g.WellFormed) : g'.priorOf v = .uniform input.length := by
  obtain ⟨var, hv, hf, hi, hv'⟩ := h.self
  have hlen := (hg.valid_variable var (Array.mem_of_getElem? hv)).length_input input hi
  simp only [priorOf, hv', Option.map_some, Option.getD_some, Variable.prior, hf]
  rw [hlen]
  rfl

theorem length_input (hg : g.WellFormed) : input.length = g.sizeAt v := by
  rw [← h.priorOf_self, hg.length_priorOf]

theorem proper_input (hg : g.WellFormed) : input.Proper := h.priorOf_self ▸ hg.proper_priorOf v

theorem admissible (hx : g.Admissible) : g'.Admissible := by
  obtain ⟨t, hfactors, -⟩ := h.factors
  intro factor hmem c hc
  rw [hfactors] at hmem
  rcases Array.mem_push.1 hmem with hmem | rfl
  · exact hx factor hmem c hc
  · contradiction

end MovesInput

end MinSum.Graph
