import MinSum.Proofs.Graph.Reachable
import MinSum.Proofs.Node.Binding

/-! Changes of a graph that do not concern a node. The node stays bound through them. -/
namespace MinSum

variable {E : Type} [Energy E]

/-- A changed graph looks the same to a node: it keeps its edges, their sizes and its input. -/
structure Graph.SameAt (g g' : Graph E) (id : NodeId) : Prop where
  incident : g'.incident id = g.incident id
  edgeSize : ∀ e ∈ g.incident id, g'.edgeSize e = g.edgeSize e
  loads : ∀ v, id = .var v → ∀ var, g.vars[v]? = some var →
    ∃ var', g'.vars[v]? = some var' ∧ ∀ m : VariableNode E, m.load var' = m.load var

namespace Node.Tracks

variable {g g' : Graph E} {settings : Settings E} {id : NodeId} {n : Node E}

/-- A node stays bound as long as the changes of the graph do not concern it. -/
theorem congr (h : n.Tracks g settings id) (hnode : g'.HasNode id)
    (hp : ∀ f, id = .factor f →
      g'.factors[f]?.map (·.potential) = g.factors[f]?.map (·.potential))
    (hs : n.binding.initialized = true → g.SameAt g' id) : n.Tracks g' settings id := by
  obtain ⟨⟨rfl, -, hpot, hchoice⟩, hbound⟩ := h
  refine ⟨⟨rfl, hnode, ?_, hchoice⟩, ?_⟩
  · rintro m rfl
    rw [hp m.factor rfl]
    exact hpot m rfl
  · intro hi
    obtain ⟨hedges, hsizes, hdamping, hloaded⟩ := hbound hi
    obtain ⟨hinc, hsize, hload⟩ := hs hi
    refine ⟨hedges.trans hinc.symm, ?_, by rw [hdamping, hinc], ?_⟩
    · rw [hsizes, hinc]
      exact (List.map_congr_left hsize).symm
    · rintro m rfl
      obtain ⟨var, hv, hm⟩ := hloaded m rfl
      obtain ⟨var', hv', hm'⟩ := hload m.var rfl var hv
      exact ⟨var', hv', hm.trans (hm' m).symm⟩

end Node.Tracks

namespace Graph.ChangesInput

variable {g g' : Graph E} {v : Nat} (hc : g.ChangesInput v g')

include hc

/-- Another input concerns only the node of its variable. -/
theorem sameAt {id : NodeId} (hid : id ≠ .var v) : g.SameAt g' id where
  incident := hc.incident_eq id
  edgeSize e _ := hc.edgeSize_eq e
  loads w hw var hvar := by
    have hne : w ≠ v := fun heq => hid (hw.trans (congrArg NodeId.var heq))
    exact ⟨var, (hc.getElem?_of_ne hne).trans hvar, fun _ => rfl⟩

theorem hasNode_iff (id : NodeId) : g'.HasNode id ↔ g.HasNode id := by
  cases id with
  | var w => rw [HasNode, HasNode, hc.size_vars]
  | factor f => rw [HasNode, HasNode, hc.factors_eq]

theorem tracks_load {settings : Settings E} {m : VariableNode E} {var : Variable E}
    (h : (Node.var m).Tracks g settings (.var v)) (hv : g'.vars[v]? = some var) :
    (Node.var (m.load var)).Tracks g' settings (.var v) := by
  have hm : m.var = v := NodeId.var.inj h.id_eq
  refine ⟨⟨h.id_eq, (hc.hasNode_iff _).2 h.hasNode, ?_, h.choice⟩, ?_⟩
  · intro m' hm'
    contradiction
  · intro hi
    obtain ⟨hedges, hsizes, hdamping, -⟩ := h.bound hi
    have hsize : g'.edgeSize = g.edgeSize := funext hc.edgeSize_eq
    refine ⟨?_, ?_, ?_, ?_⟩
    · rw [hc.incident_eq]
      exact hedges
    · rw [hc.incident_eq, hsize]
      exact hsizes
    · rw [hc.incident_eq]
      exact hdamping
    · rintro _ ⟨rfl⟩
      exact ⟨var, hm ▸ hv, (m.load_load var).symm⟩

end Graph.ChangesInput

namespace Graph

variable {g g' : Graph E} {v : Nat} {name : String} {domain : Domain}

/-- A new variable concerns no node that is there. -/
theorem WellFormed.sameAt_addVariable (hg : g.WellFormed)
    (ha : g.addVariable name domain = .ok (v, g')) :
    v = g.vars.size ∧ g'.edges = g.edges ∧ g'.factors = g.factors ∧
      g'.vars.size = g.vars.size + 1 ∧ (∀ e, g'.edgeSize e = g.edgeSize e) ∧
      ∀ id, g.HasNode id → g.SameAt g' id := by
  unfold Graph.addVariable at ha
  split at ha
  · contradiction
  simp only [Except.ok.injEq, Prod.mk.injEq] at ha
  obtain ⟨rfl, rfl⟩ := ha
  have hold : ∀ w < g.vars.size, ∀ var : Variable E, (g.vars.push var)[w]? = g.vars[w]? := by
    intro w hw var
    rw [Array.getElem?_push, if_neg (Nat.ne_of_lt hw)]
  have hsize : ∀ e, edgeSize (E := E) { g with
      vars := g.vars.push { name, domain := (g.domains.intern domain).1 }
      domains := (g.domains.intern domain).2 } e = g.edgeSize e := by
    intro e
    unfold edgeSize
    cases he : g.edges[e]? with
    | none => rfl
    | some edge =>
      have hlt := (hg.ends edge (Array.mem_of_getElem? he)).1
      simp only [Option.map_some, Option.getD_some, sizeAt, hold edge.var hlt]
  refine ⟨rfl, rfl, rfl, Array.size_push .., hsize, fun id hid => ⟨?_, fun e _ => hsize e, ?_⟩⟩
  · cases id with
    | var w => simp only [incident, linksAt, hold w hid]
    | factor f => rfl
  · rintro w rfl var hvar
    exact ⟨var, (hold w hid _).trans hvar, fun _ => rfl⟩

theorem linksAlong_var_of_notMem {w f : Nat} {operands : List Nat} (hw : w ∉ operands)
    (start : Nat) : linksAlong (.var w) start (operands.map (Edge.mk · f)) = [] := by
  induction operands generalizing start with
  | nil => rfl
  | cons u operands ih =>
    rw [List.mem_cons, not_or] at hw
    rw [List.map_cons, linksAlong_cons, ih hw.2, far_mk_var, if_neg (Ne.symm hw.1)]
    rfl

omit [Energy E] in
/-- A new factor keeps the sizes of the old edges. -/
theorem edgeSize_attach (potential : Potential E) (operands : List Nat) {e : Nat}
    (he : e < g.edges.size) : (g.attach potential operands).2.edgeSize e = g.edgeSize e := by
  have hsize : (g.attach potential operands).2.sizeAt = g.sizeAt :=
    funext (sizeAt_attach g potential operands)
  rw [edgeSize, edgeSize, hsize, edges_attach, Array.getElem?_append_left he]

/-- A new factor concerns only the variables it is attached to. -/
theorem WellFormed.sameAt_attach (hg : g.WellFormed) (potential : Potential E)
    (operands : List Nat) {id : NodeId} (hid : g.HasNode id)
    (hop : ∀ w ∈ operands, id ≠ .var w) : g.SameAt (g.attach potential operands).2 id where
  incident := by
    unfold incident
    cases id with
    | var w =>
      have hw : w ∉ operands := fun hw => hop w hw rfl
      rw [linksAt_attach_var _ _ _ hid, linksAlong_var_of_notMem hw, List.append_nil]
    | factor f => rw [linksAt_attach_factor, if_neg (Nat.ne_of_lt hid)]
  edgeSize e he := edgeSize_attach potential operands (hg.lt_of_mem_incident he)
  loads w _ var hvar :=
    ⟨_, (getElem?_vars_attach g potential operands w).trans (congrArg (Option.map _) hvar),
      fun _ => rfl⟩

end Graph

/-- A choice that passes its check changes nothing else of the binding. -/
theorem Node.choose_eq_ok {n n' : Node E} {choice : DampingChoice E}
    (h : n.choose choice = .ok n') :
    choice.check = .ok () ∧ n' = n.withBinding { n.binding with choice } := by
  unfold Node.choose Binding.choose at h
  cases hcheck : choice.check with
  | error e => simp [hcheck] at h
  | ok _ =>
    simp only [hcheck, Except.ok.injEq] at h
    exact ⟨rfl, h.symm⟩

namespace Node.Placed

variable {g : Graph E} {settings : Settings E} {id : NodeId} {n : Node E}

theorem tracks (h : n.Placed g id) (hi : n.binding.initialized = false) :
    n.Tracks g settings id :=
  ⟨h, fun ht => absurd ht (by simp [hi])⟩

/-- The choice of damping is part of no place. -/
theorem withBinding (h : n.Placed g id) {b : Binding E} (hc : b.choice.check = .ok ()) :
    (n.withBinding b).Placed g id := by
  obtain ⟨rfl, hnode, hpot, -⟩ := h
  cases n with
  | var m =>
    refine ⟨rfl, hnode, ?_, hc⟩
    intro m' hm
    contradiction
  | factor m =>
    refine ⟨rfl, hnode, ?_, hc⟩
    rintro _ ⟨rfl⟩
    exact hpot m rfl

theorem choose (h : n.Placed g id) {choice : DampingChoice E} {n' : Node E}
    (hc : n.choose choice = .ok n') :
    n'.Placed g id ∧ n'.binding.initialized = n.binding.initialized := by
  obtain ⟨hcheck, rfl⟩ := choose_eq_ok hc
  exact ⟨h.withBinding hcheck, by cases n <;> rfl⟩

end Node.Placed

end MinSum
