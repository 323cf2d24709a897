import MinSum.Proofs.Solver.Rekeyed

/-! Growth of a solver that runs already, and changes that it refuses. What is added stands at the
end, and only the variables of a new factor wait for initialization. A refused change leaves the
solver as it was. -/
namespace MinSum

/-- The action asks for another variable or factor, another input or another damping. -/
def Action.IsChange {E : Type} [Energy E] : Action E → Prop
  | .setInput _ _ | .setInputProbabilities _ _ | .fixValue _ _ | .setDamping _ _
  | .setPortDamping _ _ | .addVariable _ _ | .addTable _ _ _ | .addCustom _ _ => True
  | _ => False

def Reply.failure? {E : Type} : Reply E → Option (SolverError E)
  | .done (.error e) | .ports (.error e) | .added (.error e) => some e
  | _ => none

namespace Solver

section

variable {E : Type}

/-- `s'` is `s` with the variable `v` more, whose node waits for initialization. -/
structure GrownByVariable (s : Solver E) (name : String) (domain : Domain) (v : Nat)
    (s' : Solver E) : Prop where
  number : v = s.vars.size ∧ v = s.graph.vars.size
  solver : s' = { s with graph := s'.graph, vars := s.vars.push { var := v } }
  graph : s'.graph = { s.graph with vars := s'.graph.vars, domains := s'.graph.domains }
  graphVars : ∃ shared : Shared Domain, shared.content = domain ∧
    s'.graph.vars = s.graph.vars.push { name, domain := shared }

/-- `s'` is `s` with the factor `f` more, whose node waits for initialization, and so do the nodes of
its variables now. There are new edges in port order, with uniform messages. -/
structure GrownByFactor [Energy E] (s : Solver E) (potential : Graph.Potential E)
    (operands : List Nat) (f : Nat) (s' : Solver E) : Prop where
  number : f = s.factors.size ∧ f = s.graph.factors.size
  solver : s' = { s with
    graph := s'.graph
    store := s'.store
    vars := s'.vars
    factors := s.factors.push { factor := f, potential } }
  barred : ∀ v ∈ operands, ∃ m, s.vars[v]? = some m ∧
    s'.vars[v]? = some { m with binding := { m.binding with initialized := false } }
  others : ∀ v, v ∉ operands → s'.vars[v]? = s.vars[v]?
  initialized_iff : ∀ id, s'.Initialized id ↔ s.Initialized id ∧ ∀ v ∈ operands, id ≠ .var v
  size_store : s'.store.size = s.graph.edges.size + operands.length
  oldMessages : ∀ e < s.graph.edges.size, s'.store.get e = s.store.get e
  newMessages : ∀ (port : Nat) v, operands[port]? = some v → ∃ var, s.graph.vars[v]? = some var ∧
    s'.store.get (s.graph.edges.size + port) = .ok (.uniform var.size)
  graphEdges : s'.graph.edges = s.graph.edges ++ (operands.map (Graph.Edge.mk · f)).toArray
  graphFactors : s'.graph.factors =
    s.graph.factors.push ⟨potential, Graph.newLinks s.graph.edges.size operands⟩
  graphVars : ∀ v : Nat, s'.graph.vars[v]? = s.graph.vars[v]?.map fun var => { var with
    links := var.links ++
      Graph.linksAlong (.var v) s.graph.edges.size (operands.map (Graph.Edge.mk · f)) }
  graphDomains : s'.graph.domains = s.graph.domains

theorem grownByVariable {s s' : Solver E} {name : String} {domain : Domain} {v : Nat}
    (hsize : s.vars.size = s.graph.vars.size)
    (h : s.addVariable name domain = (.ok v, s')) : s.GrownByVariable name domain v s' := by
  unfold addVariable at h
  split at h
  · simp at h
  rename_i w g hadd
  unfold Graph.addVariable at hadd
  split at hadd
  · contradiction
  obtain ⟨hw, hg⟩ := Prod.mk.inj (Except.ok.inj hadd)
  obtain ⟨hv, hs⟩ := Prod.mk.inj h
  obtain rfl : v = s.graph.vars.size := (Except.ok.inj hv).symm.trans hw.symm
  subst hg hs hw
  exact ⟨⟨hsize.symm, rfl⟩, rfl, rfl, _, Interner.content_intern _ _, rfl⟩

theorem initialized_var_iff {s : Solver E} {v : Nat} : s.Initialized (.var v) ↔
    ∃ m, s.vars[v]? = some m ∧ m.binding.initialized = true := by
  constructor
  · rintro ⟨n, hn, hi⟩
    obtain ⟨m, hm, rfl⟩ := nodeAt_var_eq_ok.1 hn
    exact ⟨m, hm, hi⟩
  · rintro ⟨m, hm, hi⟩
    exact ⟨_, nodeAt_var_eq_ok.2 ⟨m, hm, rfl⟩, hi⟩

theorem initialized_factor_iff {s : Solver E} {f : Nat} : s.Initialized (.factor f) ↔
    ∃ m, s.factors[f]? = some m ∧ m.binding.initialized = true := by
  constructor
  · rintro ⟨n, hn, hi⟩
    obtain ⟨m, hm, rfl⟩ := nodeAt_factor_eq_ok.1 hn
    exact ⟨m, hm, hi⟩
  · rintro ⟨m, hm, hi⟩
    exact ⟨_, nodeAt_factor_eq_ok.2 ⟨m, hm, rfl⟩, hi⟩

section

variable [Energy E] (s : Solver E) (g : Graph E) (potential : Graph.Potential E)
  (operands : List Nat)

theorem getElem?_vars_grown (v : Nat) : (s.grown g potential operands).vars[v]? =
    s.vars[v]?.map fun n =>
      if v ∈ operands then { n with binding := n.binding.invalidate } else n :=
  getElem?_vars_invalidate _ operands v

/-- A new factor waits for initialization, and so do its variables now. -/
theorem initialized_grown_iff (id : NodeId) : (s.grown g potential operands).Initialized id ↔
    s.Initialized id ∧ ∀ v ∈ operands, id ≠ .var v := by
  cases id with
  | var v =>
    rw [initialized_var_iff, initialized_var_iff, getElem?_vars_grown]
    cases s.vars[v]? with
    | none => simp
    | some m =>
      by_cases hv : v ∈ operands
      · simp [hv, Binding.invalidate]
      · have hne : ∀ w ∈ operands, v ≠ w := fun w hw heq => hv (heq ▸ hw)
        simpa [hv] using fun _ => hne
  | factor f =>
    have hf : (s.grown g potential operands).factors =
      s.factors.push { factor := s.graph.factors.size, potential } := rfl
    rw [initialized_factor_iff, initialized_factor_iff, hf, Array.getElem?_push]
    split
    · rename_i heq
      simp [heq]
    · simp

end

variable [Energy E] {s : Solver E}

namespace Anchored

variable (h : s.Anchored)

include h

/-- What a new factor leaves alone. -/
theorem grownByFactor (tables : Interner (Table E)) (potential : Graph.Potential E)
    {operands : List Nat} (hlt : ∀ v ∈ operands, v < s.graph.vars.size) :
    s.GrownByFactor potential operands s.graph.factors.size
      (s.grown (({ s.graph with tables } : Graph E).attach potential operands).2 potential
        operands) := by
  generalize hg : (({ s.graph with tables } : Graph E).attach potential operands).2 = g
  have hstore : (s.grown g potential operands).store =
    s.store.extend (operands.map s.graph.sizeAt) := rfl
  exact {
    number := ⟨h.size_factors.symm, rfl⟩
    solver := rfl
    barred := by
      intro v hv
      have hm := Array.getElem?_eq_getElem (h.size_vars.symm ▸ hlt v hv)
      refine ⟨_, hm, ?_⟩
      rw [getElem?_vars_grown, hm]
      simp [hv, Binding.invalidate]
    others := by
      intro v hv
      rw [getElem?_vars_grown]
      simp [hv]
    initialized_iff := s.initialized_grown_iff g potential operands
    size_store := by
      rw [hstore, EdgeStore.size_extend, h.size_store, List.length_map]
    oldMessages := by
      intro e he
      have hlt : e < s.store.size := h.size_store.symm ▸ he
      rw [hstore, EdgeStore.get_eq_ok hlt, EdgeStore.get_eq_ok (by simp; omega),
        EdgeStore.stateOf_extend_of_lt _ _ hlt]
    newMessages := by
      intro port v hv
      obtain ⟨hport, rfl⟩ := List.getElem?_eq_some_iff.1 hv
      have hvar := Array.getElem?_eq_getElem (hlt _ (List.getElem_mem hport))
      refine ⟨_, hvar, ?_⟩
      have hsize : (operands.map s.graph.sizeAt)[port]? = some (s.graph.sizeAt operands[port]) := by
        simp [hport]
      have hnew := s.store.stateOf_extend_add hsize
      rw [h.size_store] at hnew
      rw [hstore, EdgeStore.get_eq_ok (by simp [h.size_store, hport]), hnew, Graph.sizeAt, hvar]
      rfl
    graphEdges := hg ▸ Graph.edges_attach _ potential operands
    graphFactors := hg ▸ Graph.factors_attach _ potential operands
    graphVars := hg ▸ Graph.getElem?_vars_attach _ potential operands
    graphDomains := hg ▸ rfl }

/-- Another input that the graph accepts is not refused. -/
theorem changeInput_of_error {v : Nat} {changed : Except (GraphError E) (Graph E)}
    (hc : ∀ g', changed = .ok g' → s.graph.ChangesInput v g') {e : SolverError E}
    (he : (s.changeInput v changed).1 = .error e) : (s.changeInput v changed).2 = s := by
  cases changed with
  | error e => rfl
  | ok g' =>
    rw [(h.changeInput Node.local_stands (hc g' rfl)).1] at he
    contradiction

/-- A node that is at its place can be bound again, so only a bad choice is refused. -/
theorem modifyChoice_of_error (hstore : s.store.Fits s.graph) {id : NodeId}
    {f : DampingChoice E → DampingChoice E} {e : SolverError E}
    (he : (s.modifyChoice id f).1 = .error e) : (s.modifyChoice id f).2 = s := by
  unfold Solver.modifyChoice
  cases hn : s.nodeAt id with
  | error e => rfl
  | ok n =>
    cases hc : n.choose (f n.binding.choice) with
    | error e => simp only [hc]
    | ok n' =>
      obtain ⟨hp, -⟩ := (h.nodes id n hn).toPlaced.choose hc
      obtain ⟨hg, hset, hst, -, -⟩ := setNode_frame s id n'
      have hat : (s.setNode id n').nodeAt id = .ok n' := by
        rw [nodeAt_setNode hn hp.id_eq, if_pos rfl]
      obtain ⟨n'', hb, -, -⟩ := Node.exists_bind_eq h.graph hstore s.settings hp
      have hbind : ((s.setNode id n').initializeNode id).1 = .ok () := by
        simp only [Solver.initializeNode, hat, hg, hset, hst, hb]
      simp only [Solver.modifyChoice, hn, hc] at he
      split at he
      · rw [hbind] at he
        contradiction
      · contradiction

end Anchored

end

variable {E : Type} [LogEnergy E] {s : Solver E}

/-- A change that is refused leaves the solver as it was. -/
theorem Anchored.perform_of_failure (h : s.Anchored) (hstore : s.store.Fits s.graph)
    {a : Action E} (ha : a.IsChange) {e : SolverError E} (he : (s.reply a).failure? = some e) :
    s.perform a = s := by
  have hdone : ∀ {r : Except (SolverError E) Unit}, (Reply.done r).failure? = some e →
      r = .error e := by
    intro r hr
    cases r with
    | ok _ => simp [Reply.failure?] at hr
    | error e' => exact congrArg Except.error (Option.some.inj hr)
  have hadded : ∀ {r : Except (SolverError E) Nat}, (Reply.added r).failure? = some e →
      r = .error e := by
    intro r hr
    cases r with
    | ok _ => simp [Reply.failure?] at hr
    | error e' => exact congrArg Except.error (Option.some.inj hr)
  cases a with
  | setInput v input =>
    exact h.changeInput_of_error (fun _ => Graph.changesInput_of_setInput h.graph) (hdone he)
  | setInputProbabilities v p =>
    exact h.changeInput_of_error (fun _ => Graph.changesInput_of_setInputProbabilities h.graph)
      (hdone he)
  | fixValue v fixed =>
    exact h.changeInput_of_error (fun _ => Graph.changesInput_of_fixValue h.graph) (hdone he)
  | setDamping id d =>
    have he := hdone he
    simp only [Solver.perform, Solver.setDamping] at he ⊢
    split at he
    · rfl
    · exact h.modifyChoice_of_error hstore he
  | setPortDamping id ds => exact h.modifyChoice_of_error hstore (hdone he)
  | addVariable name domain =>
    have he := hadded he
    simp only [Solver.perform, Solver.addVariable] at he ⊢
    split at he
    · rfl
    · contradiction
  | addTable table built operands =>
    have he := hadded he
    cases hadd : s.graph.addTable table operands with
    | error e => simp only [Solver.perform, Solver.addTable, hadd]
    | ok x =>
      obtain ⟨shared, tables, -, -, heq, -⟩ := h.addTable_eq Node.local_stands built hadd
      rw [heq] at he
      contradiction
  | addCustom custom operands =>
    have he := hadded he
    cases hadd : s.graph.addCustom custom operands with
    | error e => simp only [Solver.perform, Solver.addCustom, hadd]
    | ok x =>
      obtain ⟨-, heq, -⟩ := h.addCustom_eq Node.local_stands hadd
      rw [heq] at he
      contradiction
  | _ => contradiction

/-- A new variable or factor adds its node, its edges and their messages at the end, and bars the
variables of the factor until they are initialized again; nothing else changes. A change that is
refused leaves the solver as it was. The graph may even keep the table of a factor that it refused,
for nobody can tell. -/
theorem Attainable.changes_contained (h : s.Attainable) :
    (∀ name domain v s', s.addVariable name domain = (.ok v, s') →
      s.GrownByVariable name domain v s') ∧
    (∀ table operands f s', table.Built → s.addTable table operands = (.ok f, s') →
      ∃ shared : Shared (Table E), shared.content = table ∧
        s.GrownByFactor (.table shared) operands f s') ∧
    (∀ custom operands f s', s.addCustom custom operands = (.ok f, s') →
      s.GrownByFactor (.custom custom) operands f s') ∧
    (s.store.Fits s.graph → ∀ (a : Action E) e, a.IsChange → (s.reply a).failure? = some e →
      s.perform a = s) ∧
    ∀ table u v, s.Alongside (s.keeping table) u v → u.AnswersAlike v := by
  have ha := h.anchored
  refine ⟨fun name domain v s' => grownByVariable ha.size_vars, ?_, ?_,
    fun hstore a e hc he => ha.perform_of_failure hstore hc he,
    fun table u v => answersAlike_keeping h.keyed table⟩
  · intro table operands f s' hb hadd
    cases hg : s.graph.addTable table operands with
    | error e => simp [Solver.addTable, hg] at hadd
    | ok x =>
      obtain ⟨f₀, g'⟩ := x
      obtain ⟨hlt, -⟩ := Graph.addTable_eq_ok hg
      obtain ⟨shared, tables, rfl, hx, heq, -⟩ := ha.addTable_eq Node.local_stands hb hg
      obtain rfl : f₀ = s.graph.factors.size := congrArg Prod.fst hx
      obtain rfl : g' = _ := congrArg Prod.snd hx
      obtain ⟨hf, rfl⟩ := Prod.mk.inj (heq.symm.trans hadd)
      obtain rfl := Except.ok.inj hf
      exact ⟨shared, rfl, ha.grownByFactor tables _ hlt⟩
  · intro custom operands f s' hadd
    cases hg : s.graph.addCustom custom operands with
    | error e => simp [Solver.addCustom, hg] at hadd
    | ok x =>
      obtain ⟨f₀, g'⟩ := x
      obtain ⟨hlt, -⟩ := Graph.addCustom_eq_ok hg
      obtain ⟨hx, heq, -⟩ := ha.addCustom_eq Node.local_stands hg
      obtain rfl : f₀ = s.graph.factors.size := congrArg Prod.fst hx
      obtain rfl : g' = _ := congrArg Prod.snd hx
      obtain ⟨hf, rfl⟩ := Prod.mk.inj (heq.symm.trans hadd)
      obtain rfl := Except.ok.inj hf
      exact ha.grownByFactor s.graph.tables _ hlt

private def started : Solver Float :=
  [.addVariable "x" .bit, .addVariable "y" .bit, .addCustom .equality [0],
    .initializeAll].foldl Solver.perform .empty

theorem Attainable.changes_contained_started : started.Attainable ∧
    (∃ s', started.addCustom .equality [1] = (.ok 1, s') ∧
      started.GrownByFactor (.custom .equality) [1] 1 s') ∧
    started.perform (.addCustom .equality [1, 1]) = started ∧
    ∀ u v, started.Alongside (started.keeping (.assemble [2, 2] #[⟨[0, 0], 0⟩])) u v →
      u.AnswersAlike v := by
  have hr : started.Reachable := (Reachable.empty (by with_unfolding_all rfl)).foldl_perform _
  obtain ⟨-, -, hcustom, hrefused, hkept⟩ := hr.attainable.changes_contained
  have hadd : (started.addCustom .equality [1]).1 = .ok 1 := by with_unfolding_all rfl
  have hfail : (started.reply (.addCustom .equality [1, 1])).failure? =
      some (.graph (.repeatedOperand "y")) := by with_unfolding_all rfl
  exact ⟨hr.attainable, ⟨_, Prod.ext hadd rfl, hcustom _ _ _ _ (Prod.ext hadd rfl)⟩,
    hrefused hr.wellFormed.store _ _ trivial hfail, hkept _⟩

end Solver

end MinSum
