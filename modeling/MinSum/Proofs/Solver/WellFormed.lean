import Mathlib.Data.List.Nodup
import MinSum.Proofs.Node.Deliver

/-! What holds of every solver: its nodes and its store belong to its graph as it is now, and
every initialized node is bound to it. Here: single updates and sweeps. -/
namespace MinSum

open Scratch

namespace Solver

variable {E : Type}

theorem nodeAt_var_eq_ok {s : Solver E} {v : Nat} {n : Node E} :
    s.nodeAt (.var v) = .ok n ↔ ∃ m, s.vars[v]? = some m ∧ n = .var m := by
  simp only [nodeAt]
  cases s.vars[v]? <;> simp [eq_comm]

theorem nodeAt_factor_eq_ok {s : Solver E} {f : Nat} {n : Node E} :
    s.nodeAt (.factor f) = .ok n ↔ ∃ m, s.factors[f]? = some m ∧ n = .factor m := by
  simp only [nodeAt]
  cases s.factors[f]? <;> simp [eq_comm]

theorem nodeAt_congr {s s' : Solver E} (hv : s'.vars = s.vars) (hf : s'.factors = s.factors)
    (id : NodeId) : s'.nodeAt id = s.nodeAt id := by
  cases id with
  | var v => simp only [nodeAt, hv]
  | factor f => simp only [nodeAt, hf]

theorem exists_nodeAt {s : Solver E} (hv : s.vars.size = s.graph.vars.size)
    (hf : s.factors.size = s.graph.factors.size) {id : NodeId} (hid : s.graph.HasNode id) :
    ∃ n, s.nodeAt id = .ok n := by
  cases id with
  | var v =>
    have hlt : v < s.vars.size := hv ▸ hid
    exact ⟨_, nodeAt_var_eq_ok.2 ⟨_, Array.getElem?_eq_getElem hlt, rfl⟩⟩
  | factor f =>
    have hlt : f < s.factors.size := hf ▸ hid
    exact ⟨_, nodeAt_factor_eq_ok.2 ⟨_, Array.getElem?_eq_getElem hlt, rfl⟩⟩

/-- Putting a node into its place changes no other place. -/
theorem nodeAt_setNode {s : Solver E} {id : NodeId} {old n : Node E} (ho : s.nodeAt id = .ok old)
    (hn : n.id = id) (id' : NodeId) :
    (s.setNode id n).nodeAt id' = if id' = id then .ok n else s.nodeAt id' := by
  subst hn
  cases n with
  | var m =>
    obtain ⟨_, hv, -⟩ := nodeAt_var_eq_ok.1 ho
    have hlt := (Array.getElem?_eq_some_iff.1 hv).1
    cases id' with
    | factor f => simp [setNode, Node.id, nodeAt]
    | var v =>
      simp only [setNode, Node.id, nodeAt, NodeId.var.injEq, Array.getElem?_setIfInBounds]
      by_cases h : v = m.var
      · simp [h, hlt]
      · simp [h, Ne.symm h]
  | factor m =>
    obtain ⟨_, hf, -⟩ := nodeAt_factor_eq_ok.1 ho
    have hlt := (Array.getElem?_eq_some_iff.1 hf).1
    cases id' with
    | var v => simp [setNode, Node.id, nodeAt]
    | factor f =>
      simp only [setNode, Node.id, nodeAt, NodeId.factor.injEq, Array.getElem?_setIfInBounds]
      by_cases h : f = m.factor
      · simp [h, hlt]
      · simp [h, Ne.symm h]

theorem setNode_frame (s : Solver E) (id : NodeId) (n : Node E) :
    (s.setNode id n).graph = s.graph ∧ (s.setNode id n).settings = s.settings ∧
      (s.setNode id n).store = s.store ∧ (s.setNode id n).vars.size = s.vars.size ∧
      (s.setNode id n).factors.size = s.factors.size := by
  cases n <;> cases id <;> simp [setNode]

theorem setNode_setNode (s : Solver E) {id : NodeId} {n n' : Node E} (hn : n.id = id)
    (hn' : n'.id = id) : (s.setNode id n).setNode id n' = s.setNode id n' := by
  subst hn
  cases n <;> cases n' <;> simp_all [setNode, Node.id]

variable [Energy E]

structure WellFormed (s : Solver E) : Prop where
  graph : s.graph.WellFormed
  size_vars : s.vars.size = s.graph.vars.size
  size_factors : s.factors.size = s.graph.factors.size
  store : s.store.Fits s.graph
  damping : checkDamping s.settings.damping = .ok ()
  tracks : ∀ id n, s.nodeAt id = .ok n → n.Tracks s.graph s.settings id

/-- Two states with the same nodes of the same graph. Messages and warnings may differ. -/
structure SameNodes (s s' : Solver E) : Prop where
  graph : s'.graph = s.graph
  settings : s'.settings = s.settings
  vars : s'.vars = s.vars
  factors : s'.factors = s.factors

namespace SameNodes

variable {s s' s'' : Solver E}

omit [Energy E]

theorem refl (s : Solver E) : s.SameNodes s := ⟨rfl, rfl, rfl, rfl⟩

theorem trans (h : s.SameNodes s') (h' : s'.SameNodes s'') : s.SameNodes s'' :=
  ⟨h'.graph.trans h.graph, h'.settings.trans h.settings, h'.vars.trans h.vars,
    h'.factors.trans h.factors⟩

theorem nodeAt (h : s.SameNodes s') (id : NodeId) : s'.nodeAt id = s.nodeAt id :=
  nodeAt_congr h.vars h.factors id

theorem wellFormed [Energy E] (h : s.SameNodes s') (hs : s.WellFormed)
    (hstore : s'.store.Fits s.graph) : s'.WellFormed where
  graph := h.graph ▸ hs.graph
  size_vars := h.vars ▸ h.graph ▸ hs.size_vars
  size_factors := h.factors ▸ h.graph ▸ hs.size_factors
  store := h.graph ▸ hstore
  damping := h.settings ▸ hs.damping
  tracks id n hn := by
    rw [h.nodeAt] at hn
    rw [h.graph, h.settings]
    exact hs.tracks id n hn

end SameNodes

/-- The node exists and may be updated. -/
def Initialized (s : Solver E) (id : NodeId) : Prop :=
  ∃ n, s.nodeAt id = .ok n ∧ n.binding.initialized = true

section checked

variable {s : Solver E} {id : NodeId} {n : Node E} (hn : s.nodeAt id = .ok n)
  (hi : n.binding.initialized = true)
  (hx : s.store.exclusive n.binding.edges = .ok (n.binding.edges.map s.store.stateOf))

include hn hi hx

/-- What an update of an initialized node does once its edges are handed out and have passed the
check. -/
theorem update_of_check [Energy.LawfulZero E]
    (hc : n.checkUpdate (n.binding.edges.map s.store.stateOf) = .ok ())
    (hs : ∀ m, n = .var m → m.sums.length = m.prior.length) :
    ∃ pool, s.update id = (.ok (n.reported s.store),
      { s with store := n.deliver s.store, pool }.record id (n.reported s.store)) := by
  obtain ⟨pool, hu⟩ := Node.update_of_check hc hs s.pool
  refine ⟨pool, ?_⟩
  simp only [update, runUpdate, hn, Binding.checkReady, hi, if_true, hx, hu]
  rfl

theorem updatePort_of_check [Energy.LawfulZero E]
    (hc : n.checkUpdate (n.binding.edges.map s.store.stateOf) = .ok ()) {port : Nat}
    (hp : port < n.binding.edges.length) :
    ∃ pool, s.updatePort id port = (.ok (n.reportedPort port s.store),
      { s with store := n.deliverPort port s.store, pool }.record id
        (n.reportedPort port s.store)) := by
  obtain ⟨pool, hu⟩ := Node.updatePort_of_check hc hi hp s.pool
  refine ⟨pool, ?_⟩
  simp only [updatePort, runUpdate, hn, Binding.checkReady, hi, if_true, hx, hu]
  rfl

theorem updatePort_of_length_le {port : Nat} (hp : n.binding.edges.length ≤ port) :
    s.updatePort id port =
      (.error (.noSuchPort n.id port n.binding.edges.length), s) := by
  simp only [updatePort, runUpdate, hn, Binding.checkReady, hi, if_true, hx, Node.updatePort,
    Binding.dampingOf, Binding.checkPort, if_neg (Nat.not_lt.2 hp)]

end checked

namespace WellFormed

variable {s : Solver E} (h : s.WellFormed)

include h

theorem nodeAt_of_hasNode (id : NodeId) (hid : s.graph.HasNode id) :
    ∃ n, s.nodeAt id = .ok n :=
  exists_nodeAt h.size_vars h.size_factors hid

theorem nodeAt_factors : ∀ n ∈ s.factors.map Node.factor, s.nodeAt n.id = .ok n := by
  intro n hn
  obtain ⟨f, hf⟩ := Array.mem_iff_getElem?.1 hn
  rw [Array.getElem?_map] at hf
  obtain ⟨m, hm, rfl⟩ := Option.map_eq_some_iff.1 hf
  have hat : s.nodeAt (.factor f) = .ok (.factor m) := nodeAt_factor_eq_ok.2 ⟨m, hm, rfl⟩
  rwa [(h.tracks _ _ hat).id_eq]

theorem nodeAt_vars : ∀ n ∈ s.vars.map Node.var, s.nodeAt n.id = .ok n := by
  intro n hn
  obtain ⟨v, hv⟩ := Array.mem_iff_getElem?.1 hn
  rw [Array.getElem?_map] at hv
  obtain ⟨m, hm, rfl⟩ := Option.map_eq_some_iff.1 hv
  have hat : s.nodeAt (.var v) = .ok (.var m) := nodeAt_var_eq_ok.2 ⟨m, hm, rfl⟩
  rwa [(h.tracks _ _ hat).id_eq]

/-- The nodes carry the numbers of their places. -/
theorem map_id_factors : (s.factors.map Node.factor).toList.map Node.id = s.factorIds := by
  apply List.ext_getElem?
  intro f
  simp only [factorIds, List.getElem?_map, Array.getElem?_toList, Array.getElem?_map]
  rcases Nat.lt_or_ge f s.factors.size with hf | hf
  · have hat : s.nodeAt (.factor f) = .ok (.factor s.factors[f]) :=
      nodeAt_factor_eq_ok.2 ⟨_, Array.getElem?_eq_getElem hf, rfl⟩
    simp [hf, (h.tracks _ _ hat).id_eq]
  · simp [hf]

theorem map_id_vars : (s.vars.map Node.var).toList.map Node.id = s.variableIds := by
  apply List.ext_getElem?
  intro v
  simp only [variableIds, List.getElem?_map, Array.getElem?_toList, Array.getElem?_map]
  rcases Nat.lt_or_ge v s.vars.size with hv | hv
  · have hat : s.nodeAt (.var v) = .ok (.var s.vars[v]) :=
      nodeAt_var_eq_ok.2 ⟨_, Array.getElem?_eq_getElem hv, rfl⟩
    simp [hv, (h.tracks _ _ hat).id_eq]
  · simp [hv]

theorem nodup_ids_factors : ((s.factors.map Node.factor).toList.map Node.id).Nodup := by
  rw [h.map_id_factors, factorIds]
  exact List.nodup_range.map fun _ _ => NodeId.factor.inj

theorem nodup_ids_vars : ((s.vars.map Node.var).toList.map Node.id).Nodup := by
  rw [h.map_id_vars, variableIds]
  exact List.nodup_range.map fun _ _ => NodeId.var.inj

theorem initialized_of_nodeAt (hi : ∀ id, s.graph.HasNode id → s.Initialized id) {n : Node E}
    (hn : s.nodeAt n.id = .ok n) : n.binding.initialized = true := by
  obtain ⟨n', hn', hi'⟩ := hi n.id (h.tracks n.id n hn).hasNode
  obtain rfl : n = n' := Except.ok.inj (hn.symm.trans hn')
  exact hi'

variable [Energy.LawfulZero E] {id : NodeId} {n : Node E} (hn : s.nodeAt id = .ok n)
  (hi : n.binding.initialized = true)

include hn hi

/-- An initialized node delivers its messages and reports its contradictory ports. -/
theorem update_eq : ∃ pool, s.update id = (.ok (n.reported s.store),
    { s with store := n.deliver s.store, pool }.record id (n.reported s.store)) := by
  have ht := h.tracks id n hn
  have hr := ht.ready h.graph hi h.store
  exact update_of_check hn hi (ht.exclusive_eq hi h.graph h.store) hr.checkUpdate_eq_ok hr.sums

theorem updatePort_eq {port : Nat} (hp : port < n.binding.edges.length) :
    ∃ pool, s.updatePort id port = (.ok (n.reportedPort port s.store),
      { s with store := n.deliverPort port s.store, pool }.record id
        (n.reportedPort port s.store)) := by
  have ht := h.tracks id n hn
  exact updatePort_of_check hn hi (ht.exclusive_eq hi h.graph h.store)
    (ht.ready h.graph hi h.store).checkUpdate_eq_ok hp

omit [Energy.LawfulZero E] in
theorem updatePort_eq_error {port : Nat} (hp : n.binding.edges.length ≤ port) :
    s.updatePort id port =
      (.error (.noSuchPort id port n.binding.edges.length), s) := by
  have ht := h.tracks id n hn
  rw [updatePort_of_length_le hn hi (ht.exclusive_eq hi h.graph h.store) hp, ht.id_eq]

end WellFormed

omit [Energy E] in
theorem runUpdate_of_not_initialized {s : Solver E} {id : NodeId} (hi : ¬ s.Initialized id)
    (f : Node E → List (EdgeMessages E) → Except (SolverError E) (NodeUpdate E)) :
    ∃ e, s.runUpdate id f = (.error e, s) := by
  unfold runUpdate
  cases hn : s.nodeAt id with
  | error e => exact ⟨e, rfl⟩
  | ok n =>
    have : n.binding.initialized = false := by
      cases hb : n.binding.initialized with
      | false => rfl
      | true => exact absurd ⟨n, hn, hb⟩ hi
    simp [Binding.checkReady, this]

omit [Energy E] in
theorem runUpdate_of_waiting {s : Solver E} {id : NodeId} {n : Node E} (hn : s.nodeAt id = .ok n)
    (hi : n.binding.initialized = false)
    (f : Node E → List (EdgeMessages E) → Except (SolverError E) (NodeUpdate E)) :
    s.runUpdate id f = (.error (.notInitialized id), s) := by
  simp [runUpdate, hn, Binding.checkReady, hi]

theorem updatePort_of_le {s : Solver E} {id : NodeId} {n : Node E} (hn : s.nodeAt id = .ok n)
    {port : Nat} (hp : n.binding.edges.length ≤ port) :
    ∃ e, s.updatePort id port = (.error e, s) := by
  unfold updatePort runUpdate
  simp only [hn]
  split
  · exact ⟨_, rfl⟩
  split
  · exact ⟨_, rfl⟩
  rename_i siblings _
  have hd : ∃ e, n.updatePort port siblings s.pool = .error e := by
    unfold Node.updatePort Binding.dampingOf Binding.checkPort
    rw [if_neg (Nat.not_lt.2 hp)]
    cases n.binding.checkReady n.id <;> exact ⟨_, rfl⟩
  obtain ⟨e, he⟩ := hd
  rw [he]
  exact ⟨e, rfl⟩

namespace WellFormed

variable [Energy.LawfulZero E] {s : Solver E} (h : s.WellFormed)

include h

theorem update_isOk_iff {id : NodeId} :
    (∃ ports, (s.update id).1 = .ok ports) ↔ s.Initialized id := by
  constructor
  · rintro ⟨ports, hp⟩
    by_contra hi
    obtain ⟨e, he⟩ := runUpdate_of_not_initialized hi fun n siblings => n.update siblings s.pool
    rw [Solver.update, he] at hp
    contradiction
  · rintro ⟨n, hn, hi⟩
    obtain ⟨pool, he⟩ := h.update_eq hn hi
    exact ⟨_, congrArg Prod.fst he⟩

theorem updatePort_isOk_iff {id : NodeId} {port : Nat} :
    (∃ ports, (s.updatePort id port).1 = .ok ports) ↔
      s.Initialized id ∧ port < (s.graph.incident id).length := by
  constructor
  · rintro ⟨ports, hp⟩
    by_cases hi : s.Initialized id
    · obtain ⟨n, hn, hi'⟩ := hi
      refine ⟨⟨n, hn, hi'⟩, ?_⟩
      rw [← (h.tracks id n hn).edges_eq hi']
      by_contra hlt
      obtain ⟨e, he⟩ := updatePort_of_le hn (Nat.not_lt.1 hlt)
      rw [he] at hp
      contradiction
    · obtain ⟨e, he⟩ :=
        runUpdate_of_not_initialized hi fun n siblings => n.updatePort port siblings s.pool
      rw [Solver.updatePort, he] at hp
      contradiction
  · rintro ⟨⟨n, hn, hi⟩, hp⟩
    rw [← (h.tracks id n hn).edges_eq hi] at hp
    obtain ⟨pool, he⟩ := h.updatePort_eq hn hi hp
    exact ⟨_, congrArg Prod.fst he⟩

end WellFormed

end Solver

end MinSum
