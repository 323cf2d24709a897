import MinSum.Proofs.Node.SameAt

/-! What can be asked of a node at its place in a graph, such that no change elsewhere takes it
away. Two of these properties matter: to be bound with all settings in force, and to be bound
though the damping may be out of date. -/
namespace MinSum

variable {E : Type} [Energy E]

theorem Binding.eq_of_bind {b b' : Binding E} {edges sizes : List Nat} {store : EdgeStore E}
    {settings : Settings E} (h : b.bind edges sizes store settings = .ok b') :
    b' = { b with
      initialized := true
      edges := edges
      sizes := sizes
      damping := b.choice.inForce edges.length settings.damping } := by
  unfold bind at h
  split at h
  · contradiction
  · exact (Except.ok.inj h).symm

theorem Binding.checkStates_of_bind {b : Binding E} {edges sizes : List Nat}
    {store : EdgeStore E} {settings : Settings E} {e : SolverError E}
    (h : b.bind edges sizes store settings = .error e) :
    checkStates store edges sizes = .error e := by
  unfold bind at h
  split at h
  · rename_i e' he'
    exact he'.trans (congrArg _ (Except.error.inj h))
  · contradiction

/-- What is loaded does not depend on the binding. -/
theorem VariableNode.loaded_withBinding {m : VariableNode E} {var : Graph.Variable E}
    (h : m = m.load var) (b : Binding E) :
    ({ m with binding := b } : VariableNode E) = ({ m with binding := b } : VariableNode E).load
      var :=
  congrArg (fun k : VariableNode E => { k with binding := b }) h

namespace Node

structure Rooted (g : Graph E) (n : Node E) : Prop where
  edges : n.binding.edges = g.incident n.id
  sizes : n.binding.sizes = (g.incident n.id).map g.edgeSize
  loaded : ∀ m, n = .var m → ∃ var, g.vars[m.var]? = some var ∧ m = m.load var

structure Stands (g : Graph E) (id : NodeId) (n : Node E) : Prop extends n.Placed g id where
  rooted : n.binding.initialized = true → n.Rooted g

/-- A property of nodes at their places that nodes which wait for initialization have anyway, and
that changes elsewhere in the graph leave alone. -/
structure Local (T : Graph E → NodeId → Node E → Prop) : Prop where
  placed : ∀ {g id n}, T g id n → n.Placed g id
  waiting : ∀ {g id n}, n.Placed g id → n.binding.initialized = false → T g id n
  congr : ∀ {g g' id n}, T g id n → n.Placed g' id →
    (n.binding.initialized = true → g.SameAt g' id) → T g' id n
  load : ∀ {g g' v m var}, g.ChangesInput v g' → T g (.var v) (.var m) →
    g'.vars[v]? = some var → T g' (.var v) (.var (m.load var))

variable {g g' : Graph E} {settings : Settings E} {id : NodeId} {n : Node E}

theorem Tracks.stands (h : n.Tracks g settings id) : n.Stands g id where
  toPlaced := h.toPlaced
  rooted hi := ⟨(h.bound hi).edges, (h.bound hi).sizes, (h.bound hi).loaded⟩

/-- The potential of a factor is the same wherever its node has a place. -/
theorem Placed.potential_eq (h : n.Placed g id) (h' : n.Placed g' id) (f : Nat)
    (hid : id = .factor f) :
    g'.factors[f]?.map (·.potential) = g.factors[f]?.map (·.potential) := by
  subst hid
  cases n with
  | var m => exact absurd h.id_eq (by simp [Node.id])
  | factor m =>
    obtain rfl := NodeId.factor.inj h.id_eq
    rw [h.potential m rfl, h'.potential m rfl]

theorem Placed.attach {potential : Graph.Potential E} {operands : List Nat}
    (h : n.Placed g id) : n.Placed (g.attach potential operands).2 id := by
  refine ⟨h.id_eq, ?_, ?_, h.choice⟩
  · have hnode := h.hasNode
    cases id with
    | var w => rwa [Graph.HasNode, Graph.size_vars_attach]
    | factor f =>
      rw [Graph.HasNode, Graph.factors_attach, Array.size_push]
      exact Nat.lt_succ_of_lt hnode
  · rintro m rfl
    have hf : m.factor < g.factors.size := by
      have hnode := h.hasNode
      rwa [← h.id_eq] at hnode
    rw [Graph.factors_attach, Array.getElem?_push, if_neg (Nat.ne_of_lt hf)]
    exact h.potential m rfl

theorem Rooted.congr (h : n.Rooted g) (hs : g.SameAt g' n.id) : n.Rooted g' := by
  refine ⟨h.edges.trans hs.incident.symm, ?_, ?_⟩
  · rw [h.sizes, hs.incident]
    exact (List.map_congr_left hs.edgeSize).symm
  · rintro m rfl
    obtain ⟨var, hv, hm⟩ := h.loaded m rfl
    obtain ⟨var', hv', hm'⟩ := hs.loads m.var rfl var hv
    exact ⟨var', hv', hm.trans (hm' m).symm⟩

theorem Rooted.load {m : VariableNode E} {var : Graph.Variable E} (h : (Node.var m).Rooted g)
    (hc : g.ChangesInput m.var g') (hv : g'.vars[m.var]? = some var) :
    (Node.var (m.load var)).Rooted g' := by
  have hsize : g'.edgeSize = g.edgeSize := funext hc.edgeSize_eq
  refine ⟨?_, ?_, ?_⟩
  · rw [hc.incident_eq]
    exact h.edges
  · rw [hc.incident_eq, hsize]
    exact h.sizes
  · rintro _ ⟨rfl⟩
    exact ⟨var, hv, (m.load_load var).symm⟩

theorem local_tracks (settings : Settings E) :
    Local fun (g : Graph E) id n => n.Tracks g settings id where
  placed h := h.toPlaced
  waiting h hi := h.tracks hi
  congr h h' hs := h.congr h'.hasNode (h.toPlaced.potential_eq h') hs
  load hc h hv := hc.tracks_load h hv

theorem local_stands : Local (E := E) fun g id n => n.Stands g id where
  placed h := h.toPlaced
  waiting h hi := ⟨h, fun ht => absurd ht (by simp [hi])⟩
  congr h h' hs := ⟨h', fun hi => (h.rooted hi).congr (h.id_eq ▸ hs hi)⟩
  load {g g' v m var} hc h hv := by
    obtain rfl : m.var = v := NodeId.var.inj h.id_eq
    refine ⟨⟨rfl, (hc.hasNode_iff _).2 h.hasNode, ?_, h.choice⟩, fun hi => (h.rooted hi).load hc hv⟩
    intro m' hm'
    contradiction

namespace Stands

variable (h : n.Stands g id)

include h

/-- A binding fails only for the edge states. Then it may load the input but leaves the binding as it
was. Either way a node that was rooted stays so. -/
theorem bind_spec (hg : g.WellFormed) (store : EdgeStore E) (settings : Settings E) :
    (n.bind g store settings).2.Stands g id ∧
      match (n.bind g store settings).1 with
      | .ok _ => (n.bind g store settings).2.binding = n.binding.renewed g settings id
      | .error e => (n.bind g store settings).2.binding = n.binding ∧
        Binding.checkStates store (g.incident id) ((g.incident id).map g.edgeSize) = .error e := by
  obtain ⟨⟨rfl, hnode, hpot, hchoice⟩, hr⟩ := h
  cases n with
  | var m =>
    obtain ⟨var, hv⟩ : ∃ var, g.vars[m.var]? = some var := ⟨_, Array.getElem?_eq_getElem hnode⟩
    have hloaded : ∀ m', Node.var (m.load var) = .var m' →
        ∃ var, g.vars[m'.var]? = some var ∧ m' = m'.load var := by
      rintro _ ⟨rfl⟩
      exact ⟨var, hv, (m.load_load var).symm⟩
    have hplaced : ∀ {b : Binding E}, b.choice.check = .ok () →
        (Node.var { m.load var with binding := b }).Placed g (Node.var m).id := fun hb =>
      ⟨rfl, hnode, by rintro _ ⟨⟩, hb⟩
    have hedges : Graph.edgesOf var.links = g.incident (Node.var m).id :=
      congrArg Graph.edgesOf (Graph.linksAt_var hv).symm
    have hsizes : List.replicate var.links.length var.size =
        (g.incident (Node.var m).id).map g.edgeSize := (hg.sizes_var hv).symm
    simp only [Node.bind, VariableNode.bind, Graph.variableAt, hv, hedges, hsizes]
    cases hb : (m.load var).binding.bind (g.incident (Node.var m).id)
      ((g.incident (Node.var m).id).map g.edgeSize) store settings with
    | error e =>
      exact ⟨⟨hplaced hchoice, fun hi => ⟨(hr hi).edges, (hr hi).sizes, hloaded⟩⟩, rfl,
        Binding.checkStates_of_bind hb⟩
    | ok b =>
      obtain rfl := Binding.eq_of_bind hb
      refine ⟨⟨hplaced hchoice, fun _ => ⟨rfl, rfl, ?_⟩⟩, rfl⟩
      rintro _ ⟨rfl⟩
      exact ⟨var, hv, VariableNode.loaded_withBinding (m.load_load var).symm _⟩
  | factor m =>
    have hf := Array.getElem?_eq_getElem hnode
    have hedges : Graph.edgesOf g.factors[m.factor].links = g.incident (Node.factor m).id :=
      congrArg Graph.edgesOf (Graph.linksAt_factor hf).symm
    have hsizes : g.domainSizes (Graph.neighborsOf g.factors[m.factor].links) =
        .ok ((g.incident (Node.factor m).id).map g.edgeSize) := by
      have hs := hg.sizes_factor m.factor
      rw [Graph.linksAt_factor hf] at hs
      rw [Graph.domainSizes_of_lt fun v hv =>
        hg.lt_of_mem_neighborsOf (Array.getElem_mem hnode) hv]
      exact congrArg Except.ok hs.symm
    simp only [Node.bind, FactorNode.bind, Graph.factorAt, hf, hedges, hsizes]
    cases hb : m.binding.bind (g.incident (Node.factor m).id)
      ((g.incident (Node.factor m).id).map g.edgeSize) store settings with
    | error e =>
      exact ⟨⟨⟨rfl, hnode, hpot, hchoice⟩, hr⟩, rfl, Binding.checkStates_of_bind hb⟩
    | ok b =>
      obtain rfl := Binding.eq_of_bind hb
      refine ⟨⟨⟨rfl, hnode, ?_, hchoice⟩, fun _ => ⟨rfl, rfl, ?_⟩⟩, rfl⟩
      · rintro _ ⟨rfl⟩
        exact hpot m rfl
      · intro m' hm'
        contradiction

theorem bind (hg : g.WellFormed) (store : EdgeStore E) (settings : Settings E) :
    (n.bind g store settings).2.Stands g id :=
  (h.bind_spec hg store settings).1

theorem choose {choice : DampingChoice E} {n' : Node E} (hc : n.choose choice = .ok n') :
    n'.Stands g id := by
  obtain ⟨hp, hi⟩ := h.toPlaced.choose hc
  obtain ⟨-, rfl⟩ := choose_eq_ok hc
  refine ⟨hp, fun hi' => ?_⟩
  have hr := h.rooted (hi ▸ hi')
  cases n with
  | var m =>
    refine ⟨hr.edges, hr.sizes, ?_⟩
    rintro _ ⟨rfl⟩
    obtain ⟨var, hv, hm⟩ := hr.loaded m rfl
    exact ⟨var, hv, VariableNode.loaded_withBinding hm _⟩
  | factor m =>
    refine ⟨hr.edges, hr.sizes, ?_⟩
    intro m' hm'
    contradiction

end Stands

end Node

end MinSum
