import MinSum.Proofs.Graph.Change

/-! Model graphs are built from the empty one by changes that are accepted. -/
namespace MinSum.Graph

variable {E : Type}

/-- `g'` is `g` but for the input and the fixed value of the variable `v`, which suit it. -/
def ChangesInput [Energy E] (g : Graph E) (v : Nat) (g' : Graph E) : Prop :=
  ∃ var input fixed, g.vars[v]? = some var ∧ Variable.Valid { var with input, fixed } ∧
    g' = { g with vars := g.vars.setIfInBounds v { var with input, fixed } }

namespace ChangesInput

variable [Energy E] {g g' : Graph E} {v : Nat}

theorem edges_eq (h : g.ChangesInput v g') : g'.edges = g.edges := by
  obtain ⟨_, _, _, _, _, rfl⟩ := h
  rfl

theorem factors_eq (h : g.ChangesInput v g') : g'.factors = g.factors := by
  obtain ⟨_, _, _, _, _, rfl⟩ := h
  rfl

theorem size_vars (h : g.ChangesInput v g') : g'.vars.size = g.vars.size := by
  obtain ⟨_, _, _, _, _, rfl⟩ := h
  exact Array.size_setIfInBounds

theorem lt_size (h : g.ChangesInput v g') : v < g.vars.size := by
  obtain ⟨_, _, _, hv, _, _⟩ := h
  exact (Array.getElem?_eq_some_iff.1 hv).1

theorem getElem?_of_ne (h : g.ChangesInput v g') {w : Nat} (hw : w ≠ v) :
    g'.vars[w]? = g.vars[w]? := by
  obtain ⟨_, _, _, _, _, rfl⟩ := h
  rw [Array.getElem?_setIfInBounds, if_neg hw.symm]

/-- What a variable keeps in any case. -/
theorem map_vars (h : g.ChangesInput v g') {α : Type} (f : Variable E → α)
    (hf : ∀ (var : Variable E) input fixed, f { var with input, fixed } = f var) (w : Nat) :
    g'.vars[w]?.map f = g.vars[w]?.map f := by
  by_cases hw : w = v
  · subst hw
    have hlt := h.lt_size
    obtain ⟨var, input, fixed, hv, -, rfl⟩ := h
    rw [Array.getElem?_setIfInBounds_self_of_lt hlt, hv]
    exact congrArg some (hf var input fixed)
  · rw [h.getElem?_of_ne hw]

theorem sizeAt_eq (h : g.ChangesInput v g') (w : Nat) : g'.sizeAt w = g.sizeAt w := by
  rw [sizeAt, sizeAt, h.map_vars (·.size) fun _ _ _ => rfl]

theorem edgeSize_eq (h : g.ChangesInput v g') (e : Nat) : g'.edgeSize e = g.edgeSize e := by
  rw [edgeSize, edgeSize, h.edges_eq]
  congr 2
  funext edge
  exact h.sizeAt_eq edge.var

theorem linksAt_eq (h : g.ChangesInput v g') (id : NodeId) : g'.linksAt id = g.linksAt id := by
  cases id with
  | var w => rw [linksAt, linksAt, h.map_vars (·.links) fun _ _ _ => rfl]
  | factor f => rw [linksAt, linksAt, h.factors_eq]

theorem incident_eq (h : g.ChangesInput v g') (id : NodeId) : g'.incident id = g.incident id := by
  rw [incident, incident, h.linksAt_eq]

theorem wellFormed (h : g.ChangesInput v g') (hg : g.WellFormed) : g'.WellFormed := by
  refine ⟨?_, ?_, ?_, ?_, ?_⟩
  · intro id hid
    rw [h.linksAt_eq, h.edges_eq]
    apply hg.linksAt_eq id
    cases id with
    | var w => exact (h.size_vars ▸ hid : w < g.vars.size)
    | factor f => exact (h.factors_eq ▸ hid : f < g.factors.size)
  · intro edge he
    rw [h.edges_eq] at he
    rw [h.size_vars, h.factors_eq]
    exact hg.ends edge he
  · obtain ⟨var, input, fixed, hv, hvalid, rfl⟩ := h
    intro w hw
    rcases Array.mem_or_eq_of_mem_setIfInBounds hw with hw | rfl
    · exact hg.valid_variable w hw
    · exact hvalid
  · intro factor hf
    rw [h.factors_eq] at hf
    exact (hg.valid_factor factor hf).congr fun w _ => h.sizeAt_eq w
  · have : g'.vars.toList.map (·.name) = g.vars.toList.map (·.name) := by
      apply List.ext_getElem?
      intro w
      simpa only [List.getElem?_map, Array.getElem?_toList] using
        h.map_vars (·.name) (fun _ _ _ => rfl) w
    rw [this]
    exact hg.names_nodup

end ChangesInput

theorem variableAt_eq_ok {g : Graph E} {v : Nat} {var : Variable E}
    (h : g.variableAt v = .ok var) : g.vars[v]? = some var := by
  unfold variableAt at h
  split at h
  · rename_i hv
    rw [hv, Except.ok.inj h]
  · contradiction

theorem checkInput_eq_ok [Energy E] {var : Variable E} {m : Message E}
    (h : checkInput var m = .ok ()) :
    m.length = var.size ∧ ∀ x ∈ m, Energy.isAdmissible x = true := by
  unfold checkInput at h
  split at h
  · contradiction
  rename_i hl
  split at h
  · contradiction
  rename_i hf
  exact ⟨Decidable.not_not.1 hl, by simpa using hf⟩

section changes

variable {g g' : Graph E} {v : Nat}

theorem changesInput_of_setInput [Energy E] {input : Option (Message E)} (hg : g.WellFormed)
    (h : g.setInput v input = .ok g') : g.ChangesInput v g' := by
  unfold setInput at h
  simp only at h
  split at h
  · contradiction
  rename_i var hv
  split at h
  · contradiction
  rename_i hc
  have hvar := variableAt_eq_ok hv
  have hold := hg.valid_variable var (Array.mem_of_getElem? hvar)
  have hcheck : ∀ m ∈ input.filter (!·.isEmpty), checkInput var m = .ok () := by
    intro m hm
    rw [Option.mem_def] at hm
    simpa [hm] using hc
  refine ⟨var, input.filter (!·.isEmpty), var.fixed, hvar, ⟨?_, ?_, hold.fixed⟩,
    (Except.ok.inj h).symm⟩
  · exact fun m hm => (checkInput_eq_ok (hcheck m hm)).1
  · exact fun m hm => (checkInput_eq_ok (hcheck m hm)).2

theorem changesInput_of_fixValue [Energy E] {fixed : Option Nat} (hg : g.WellFormed)
    (h : g.fixValue v fixed = .ok g') : g.ChangesInput v g' := by
  unfold fixValue at h
  split at h
  · contradiction
  rename_i var hv
  split at h
  · contradiction
  rename_i hf
  have hvar := variableAt_eq_ok hv
  have hold := hg.valid_variable var (Array.mem_of_getElem? hvar)
  refine ⟨var, var.input, fixed, hvar, ⟨hold.length_input, hold.admissible, ?_⟩,
    (Except.ok.inj h).symm⟩
  intro i hi
  rw [Option.filter_eq_none_iff] at hf
  have : i < var.size := by simpa using hf i hi
  exact this

theorem changesInput_of_fixValueOf [Energy E] {value : Value} (hg : g.WellFormed)
    (h : g.fixValueOf v value = .ok g') : g.ChangesInput v g' := by
  unfold fixValueOf at h
  split at h
  · contradiction
  split at h
  · contradiction
  exact changesInput_of_fixValue hg h

theorem changesInput_of_setInputProbabilities {E : Type} [LogEnergy E] {g g' : Graph E} {v : Nat}
    {p : List E} (hg : g.WellFormed) (h : g.setInputProbabilities v p = .ok g') :
    g.ChangesInput v g' := by
  unfold setInputProbabilities at h
  split at h
  · contradiction
  exact changesInput_of_setInput hg h

end changes

namespace WellFormed

variable [Energy E] {g g' : Graph E} {f : Nat} {operands : List Nat}

theorem withTables (hg : g.WellFormed) (tables : Interner (Table E)) :
    ({ g with tables } : Graph E).WellFormed :=
  ⟨hg.linksAt_eq, hg.ends, hg.valid_variable,
    fun factor hf => (hg.valid_factor factor hf).congr fun _ _ => rfl, hg.names_nodup⟩

theorem addTable {table : Table E} (hg : g.WellFormed) (hb : table.Built)
    (h : g.addTable table operands = .ok (f, g')) : g'.WellFormed := by
  obtain ⟨hlt, hn, hs, shared, tables, rfl, he⟩ := addTable_eq_ok h
  obtain rfl : g' = _ := congrArg Prod.snd he
  exact (hg.withTables tables).attach hlt hn ⟨hb, hs⟩

theorem addCustom {custom : CustomFactor E} (hg : g.WellFormed)
    (h : g.addCustom custom operands = .ok (f, g')) : g'.WellFormed := by
  obtain ⟨hlt, hn, hs, he⟩ := addCustom_eq_ok h
  obtain rfl : g' = _ := congrArg Prod.snd he
  exact hg.attach hlt hn hs

end WellFormed

/-- The result of a change, or the graph before it if the change is refused. -/
def orSame (g : Graph E) : Except (GraphError E) (Graph E) → Graph E
  | .ok g' => g'
  | .error _ => g

theorem orSame_keeps {P : Graph E → Prop} {g : Graph E} (h : P g)
    {r : Except (GraphError E) (Graph E)} (hr : ∀ g', r = .ok g' → P g') : P (g.orSame r) := by
  cases r with
  | ok g' => exact hr g' rfl
  | error e => exact h

theorem orSame_grown_keeps {P : Graph E → Prop} {g : Graph E} (h : P g)
    {r : Except (GraphError E) (Nat × Graph E)} (hr : ∀ i g', r = .ok (i, g') → P g') :
    P (g.orSame (r.map Prod.snd)) := by
  cases r with
  | ok x => exact hr x.1 x.2 rfl
  | error e => exact h

/-- The graphs that the changes lead to. A refused change leaves no graph behind. -/
inductive Reachable [LogEnergy E] : Graph E → Prop where
  | empty : Reachable {}
  | addVariable {g g' : Graph E} {v : Nat} (name : String) (domain : Domain) (h : Reachable g)
      (hg : g.addVariable name domain = .ok (v, g')) : Reachable g'
  | addTable {g g' : Graph E} {f : Nat} (table : Table E) (hb : table.Built)
      (operands : List Nat) (h : Reachable g)
      (hg : g.addTable table operands = .ok (f, g')) : Reachable g'
  | addCustom {g g' : Graph E} {f : Nat} (custom : CustomFactor E) (operands : List Nat)
      (h : Reachable g) (hg : g.addCustom custom operands = .ok (f, g')) : Reachable g'
  | setInput {g g' : Graph E} (v : Nat) (input : Option (Message E)) (h : Reachable g)
      (hg : g.setInput v input = .ok g') : Reachable g'
  | setInputProbabilities {g g' : Graph E} (v : Nat) (p : List E) (h : Reachable g)
      (hg : g.setInputProbabilities v p = .ok g') : Reachable g'
  | fixValue {g g' : Graph E} (v : Nat) (fixed : Option Nat) (h : Reachable g)
      (hg : g.fixValue v fixed = .ok g') : Reachable g'
  | fixValueOf {g g' : Graph E} (v : Nat) (value : Value) (h : Reachable g)
      (hg : g.fixValueOf v value = .ok g') : Reachable g'

theorem Reachable.wellFormed [LogEnergy E] {g : Graph E} (h : g.Reachable) : g.WellFormed := by
  induction h with
  | empty => exact wellFormed_empty
  | addVariable _ _ _ hg ih => exact ih.addVariable hg
  | addTable _ hb _ _ hg ih => exact ih.addTable hb hg
  | addCustom _ _ _ hg ih => exact ih.addCustom hg
  | setInput _ _ _ hg ih => exact (changesInput_of_setInput ih hg).wellFormed ih
  | setInputProbabilities _ _ _ hg ih =>
    exact (changesInput_of_setInputProbabilities ih hg).wellFormed ih
  | fixValue _ _ _ hg ih => exact (changesInput_of_fixValue ih hg).wellFormed ih
  | fixValueOf _ _ _ hg ih => exact (changesInput_of_fixValueOf ih hg).wellFormed ih

end MinSum.Graph
