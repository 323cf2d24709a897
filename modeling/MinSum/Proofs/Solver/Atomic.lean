import MinSum.Proofs.Solver.Attainable

/-! What an update may change, in every state that a run leads to, also after edge states have been
replaced by others: the messages that the node sends, or nothing if the update is refused. -/
namespace MinSum

open Scratch

variable {E : Type} [Energy E]

omit [Energy E] in
@[simp] theorem Side.incoming_send (side : Side) (state : EdgeMessages E) (m : Message E) :
    side.incoming (side.send state m) = side.incoming state := by
  cases side <;> rfl

omit [Energy E] in
/-- The check stops at the first edge that has another size than expected. -/
theorem Binding.checkSizes_map (got expected : Nat → Nat) (edges : List Nat) :
    checkSizes (E := E) (edges.map got) (edges.map expected) edges =
      match edges.find? fun e => got e ≠ expected e with
      | none => .ok ()
      | some e => .error (.domainSize e (expected e) (got e)) := by
  induction edges with
  | nil => rfl
  | cons e edges ih =>
    rw [List.map_cons, List.map_cons, checkSizes, ih, List.find?_cons]
    by_cases he : got e = expected e <;> simp [he]

namespace Node

variable {n : Node E} {store : EdgeStore E} (hd : n.binding.edges.Nodup)
  (hlt : ∀ e ∈ n.binding.edges, e < store.size)

include hd hlt

theorem incoming_stateOf_deliver (e : Nat) :
    n.side.incoming ((n.deliver store).stateOf e) = n.side.incoming (store.stateOf e) := by
  by_cases he : e ∈ n.binding.edges
  · obtain ⟨p, hp⟩ := List.mem_iff_getElem?.1 he
    have hlen : (n.sent (n.binding.edges.map store.stateOf)).length = n.binding.edges.length := by
      simpa using congrArg List.length (n.lengths_sent (n.binding.edges.map store.stateOf))
    have hm := List.getElem?_eq_getElem (hlen.symm ▸ (List.getElem?_eq_some_iff.1 hp).1)
    rw [stateOf_deliver hd hlt hp hm, Side.incoming_send]
  · rw [stateOf_deliver_of_notMem n store hlt he]

theorem incoming_stateOf_deliverPort (port e : Nat) :
    n.side.incoming ((n.deliverPort port store).stateOf e) =
      n.side.incoming (store.stateOf e) := by
  by_cases he : e ∈ n.binding.edges
  · obtain ⟨p, hp⟩ := List.mem_iff_getElem?.1 he
    rw [stateOf_deliverPort hd hlt hp]
    split
    · exact Side.incoming_send _ _ _
    · rfl
  · rw [stateOf_deliverPort_of_notMem n port store hlt he]

/-- The update of one port touches the edge of the port only. -/
theorem stateOf_deliverPort_of_ne {port edge e : Nat} (hp : n.binding.edges[port]? = some edge)
    (he : e ≠ edge) : (n.deliverPort port store).stateOf e = store.stateOf e := by
  by_cases hmem : e ∈ n.binding.edges
  · obtain ⟨p, hpe⟩ := List.mem_iff_getElem?.1 hmem
    rw [stateOf_deliverPort hd hlt hpe, if_neg]
    rintro rfl
    exact he (Option.some.inj (hpe.symm.trans hp))
  · exact stateOf_deliverPort_of_notMem n port store hlt hmem

end Node

namespace EdgeStore

variable {a b : EdgeStore E} (hs : b.size = a.size) {e : Nat}

include hs

omit [Energy E] in
theorem map_get_congr {α : Type} {f : EdgeMessages E → α}
    (hf : f (b.stateOf e) = f (a.stateOf e)) : (b.get e).map f = (a.get e).map f := by
  rcases Nat.lt_or_ge e a.size with he | he
  · rw [get_eq_ok he, get_eq_ok (hs.symm ▸ he)]
    exact congrArg Except.ok hf
  · rw [get_eq_error he, get_eq_error (hs.symm ▸ he)]

omit [Energy E] in
theorem get_congr (hf : b.stateOf e = a.stateOf e) : b.get e = a.get e := by
  rcases Nat.lt_or_ge e a.size with he | he
  · rw [get_eq_ok he, get_eq_ok (hs.symm ▸ he), hf]
  · rw [get_eq_error he, get_eq_error (hs.symm ▸ he)]

end EdgeStore

namespace Solver

variable {s s' : Solver E} {id : NodeId}

/-- The first edge of a node whose state has another domain size than the edge. -/
def misfit? (s : Solver E) (id : NodeId) : Option Nat :=
  (s.graph.incident id).find? fun e => (s.store.stateOf e).domainSize ≠ s.graph.edgeSize e

/-- Why an update is refused, of all ports of a node or of the port that is given. -/
inductive Refuses (s : Solver E) (id : NodeId) (port? : Option Nat) : SolverError E → Prop where
  | noSuchNode (h : ¬ s.graph.HasNode id) : Refuses s id port? (.noSuchNode id)
  | notInitialized (h : s.graph.HasNode id) (hi : ¬ s.Initialized id) :
      Refuses s id port? (.notInitialized id)
  | noSuchPort {port : Nat} (hi : s.Initialized id) (hp : port? = some port)
      (hl : (s.graph.incident id).length ≤ port) :
      Refuses s id port? (.noSuchPort id port (s.graph.incident id).length)
  | domainSize {e : Nat} (hi : s.Initialized id)
      (hp : ∀ port ∈ port?, port < (s.graph.incident id).length) (he : s.misfit? id = some e) :
      Refuses s id port? (.domainSize e (s.graph.edgeSize e) (s.store.stateOf e).domainSize)

namespace Anchored

variable (h : s.Anchored)

include h

theorem nodeAt_of_missing (hid : ¬ s.graph.HasNode id) :
    s.nodeAt id = .error (.noSuchNode id) := by
  cases id with
  | var v =>
    have hv : ¬ v < s.vars.size := h.size_vars.symm ▸ hid
    simp [Solver.nodeAt, Nat.not_lt.1 hv]
  | factor f =>
    have hf : ¬ f < s.factors.size := h.size_factors.symm ▸ hid
    simp [Solver.nodeAt, Nat.not_lt.1 hf]

section initialized

variable {n : Node E} (hn : s.nodeAt id = .ok n) (hi : n.binding.initialized = true)

include hn hi

theorem edges_eq : n.binding.edges = s.graph.incident id :=
  (h.nodes id n hn).id_eq ▸ ((h.nodes id n hn).rooted hi).edges

theorem nodup_edges : n.binding.edges.Nodup := by
  rw [h.edges_eq hn hi]
  exact h.graph.nodup_incident id

theorem lt_size : ∀ e ∈ n.binding.edges, e < s.store.size := by
  rw [h.edges_eq hn hi, h.size_store]
  exact fun e he => h.graph.lt_of_mem_incident he

theorem exclusive_eq :
    s.store.exclusive n.binding.edges = .ok (n.binding.edges.map s.store.stateOf) :=
  EdgeStore.exclusive_eq_ok (h.nodup_edges hn hi) (h.lt_size hn hi)

/-- An initialized node checks nothing but the sizes of its edge states. -/
theorem checkUpdate_eq : n.checkUpdate (n.binding.edges.map s.store.stateOf) =
    match s.misfit? id with
    | none => .ok ()
    | some e => .error (.domainSize e (s.graph.edgeSize e) (s.store.stateOf e).domainSize) := by
  have hs := h.nodes id n hn
  have hsizes : n.binding.sizes = n.binding.edges.map s.graph.edgeSize := by
    rw [(hs.rooted hi).sizes, (hs.rooted hi).edges]
  have hcheck : n.binding.checkSiblings n.id
      ((n.binding.edges.map s.store.stateOf).map EdgeMessages.domainSize) =
        Binding.checkSizes (n.binding.edges.map fun e => (s.store.stateOf e).domainSize)
          (n.binding.edges.map s.graph.edgeSize) n.binding.edges := by
    rw [Binding.checkSiblings, if_neg (by simp), hsizes, List.map_map]
    rfl
  simp only [Node.checkUpdate, Binding.checkReady, hi, if_true]
  rw [hcheck, Binding.checkSizes_map, h.edges_eq hn hi]
  rfl

end initialized

theorem refuses_update {e : SolverError E} (hr : s.Refuses id none e) :
    s.update id = (.error e, s) := by
  cases hr with
  | noSuchNode hid => simp only [Solver.update, runUpdate, h.nodeAt_of_missing hid]
  | notInitialized hid hi =>
    obtain ⟨n, hn⟩ := h.nodeAt_of_hasNode id hid
    exact runUpdate_of_waiting hn (Bool.eq_false_iff.2 fun ht => hi ⟨n, hn, ht⟩) _
  | noSuchPort hi hp hl => contradiction
  | domainSize hi hp he =>
    obtain ⟨n, hn, hi⟩ := hi
    have hc := h.checkUpdate_eq hn hi
    rw [he] at hc
    simp only [Solver.update, runUpdate, hn, Binding.checkReady, hi, if_true,
      h.exclusive_eq hn hi, Node.update, hc]

theorem refuses_updatePort {port : Nat} {e : SolverError E} (hr : s.Refuses id (some port) e) :
    s.updatePort id port = (.error e, s) := by
  cases hr with
  | noSuchNode hid => simp only [Solver.updatePort, runUpdate, h.nodeAt_of_missing hid]
  | notInitialized hid hi =>
    obtain ⟨n, hn⟩ := h.nodeAt_of_hasNode id hid
    exact runUpdate_of_waiting hn (Bool.eq_false_iff.2 fun ht => hi ⟨n, hn, ht⟩) _
  | noSuchPort hi hp hl =>
    obtain ⟨n, hn, hi⟩ := hi
    obtain rfl := Option.some.inj hp
    rw [updatePort_of_length_le hn hi (h.exclusive_eq hn hi) (by rwa [h.edges_eq hn hi]),
      (h.nodes id n hn).id_eq, h.edges_eq hn hi]
  | domainSize hi hp he =>
    obtain ⟨n, hn, hi⟩ := hi
    have hport : port < n.binding.edges.length := by
      rw [h.edges_eq hn hi]
      exact hp port rfl
    have hc := h.checkUpdate_eq hn hi
    rw [he] at hc
    simp only [Solver.updatePort, runUpdate, hn, Binding.checkReady, hi, if_true,
      h.exclusive_eq hn hi, Node.updatePort, Binding.dampingOf_eq_ok n.id hi hport, hc]

/-- A node that is not refused is initialized, and its edges pass the check. -/
theorem exists_of_not_refuses {port? : Option Nat} (hno : ∀ e, ¬ s.Refuses id port? e) :
    ∃ n, s.nodeAt id = .ok n ∧ n.binding.initialized = true ∧
      n.checkUpdate (n.binding.edges.map s.store.stateOf) = .ok () ∧
        ∀ port ∈ port?, port < n.binding.edges.length := by
  have hid : s.graph.HasNode id := by
    by_contra hid
    exact hno _ (.noSuchNode hid)
  have hi : s.Initialized id := by
    by_contra hi
    exact hno _ (.notInitialized hid hi)
  have hp : ∀ port ∈ port?, port < (s.graph.incident id).length := by
    intro port hport
    by_contra hl
    exact hno _ (.noSuchPort hi hport (Nat.not_lt.1 hl))
  obtain ⟨n, hn, hin⟩ := hi
  refine ⟨n, hn, hin, ?_, by rwa [h.edges_eq hn hin]⟩
  rw [h.checkUpdate_eq hn hin]
  cases hm : s.misfit? id with
  | none => rfl
  | some e => exact absurd (.domainSize ⟨n, hn, hin⟩ hp hm) (hno _)

end Anchored

/-- The state after an update of the node `id` that has sent messages on `edges` and has reported
`ports`. Nodes and graph are the same, and so is every message but those sent on these edges. -/
structure Updated (s : Solver E) (id : NodeId) (edges ports : List Nat) (s' : Solver E) : Prop
    extends s.Refilled s' where
  others : ∀ e, e ∉ edges → s'.store.get e = s.store.get e
  heard : ∀ e, (s'.store.get e).map id.side.incoming = (s.store.get e).map id.side.incoming
  warnings : s'.warnings = s.warnings ++ ports.map (Contradiction.mk id)

omit [Energy E] in
/-- It is enough to know which edge states are written. -/
theorem updated_record {edges ports : List Nat} {store : EdgeStore E}
    (hsize : store.size = s.store.size)
    (hothers : ∀ e, e ∉ edges → store.stateOf e = s.store.stateOf e)
    (hheard : ∀ e, id.side.incoming (store.stateOf e) = id.side.incoming (s.store.stateOf e))
    (pool : Pool E) : s.Updated id edges ports ({ s with store, pool }.record id ports) where
  toSameNodes := ⟨rfl, rfl, rfl, rfl⟩
  size_store := hsize
  others e he := EdgeStore.get_congr hsize (hothers e he)
  heard e := EdgeStore.map_get_congr hsize (hheard e)
  warnings := rfl

namespace Anchored

variable [Energy.LawfulZero E] (h : s.Anchored)

include h

theorem exists_updated (hno : ∀ e, ¬ s.Refuses id none e) : ∃ ports s',
    s.update id = (.ok ports, s') ∧ s.Updated id (s.graph.incident id) ports s' ∧
      ports.Pairwise (· < ·) ∧ ∀ port ∈ ports, port < (s.graph.incident id).length := by
  obtain ⟨n, hn, hi, hc, -⟩ := h.exists_of_not_refuses hno
  have hs := h.nodes id n hn
  have hd := h.nodup_edges hn hi
  have hlt := h.lt_size hn hi
  obtain ⟨pool, he⟩ := update_of_check hn hi (h.exclusive_eq hn hi) hc
    ((hs.rooted hi).length_sums h.graph)
  rw [← h.edges_eq hn hi]
  refine ⟨_, _, he, updated_record (EdgeStore.size_write _ _ _) ?_ ?_ pool,
    Update.pairwise_contradictory _ _, fun port hp => Node.lt_of_mem_reported hp⟩
  · exact fun e he => Node.stateOf_deliver_of_notMem n s.store hlt he
  · rw [← hs.id_eq, ← n.side_eq]
    exact Node.incoming_stateOf_deliver hd hlt

theorem exists_updatedPort {port : Nat} (hno : ∀ e, ¬ s.Refuses id (some port) e) :
    ∃ edge ports s', (s.graph.incident id)[port]? = some edge ∧
      s.updatePort id port = (.ok ports, s') ∧ s.Updated id [edge] ports s' ∧
        (ports = [] ∨ ports = [port]) := by
  obtain ⟨n, hn, hi, hc, hport⟩ := h.exists_of_not_refuses hno
  have hs := h.nodes id n hn
  have hd := h.nodup_edges hn hi
  have hlt := h.lt_size hn hi
  have hp := hport port rfl
  obtain ⟨pool, he⟩ := updatePort_of_check hn hi (h.exclusive_eq hn hi) hc hp
  have hedge := List.getElem?_eq_getElem hp
  rw [← h.edges_eq hn hi]
  refine ⟨_, _, _, hedge, he, updated_record (EdgeStore.size_write _ _ _) ?_ ?_ pool,
    n.reportedPort_eq_nil_or port s.store⟩
  · intro e hne
    exact Node.stateOf_deliverPort_of_ne hd hlt hedge (by simpa using hne)
  · rw [← hs.id_eq, ← n.side_eq]
    exact Node.incoming_stateOf_deliverPort hd hlt port

end Anchored

/-- An update that succeeds changes the messages sent by the node on its edges, or on the edge of
the port, and adds what it reports to the warnings, in the order of the ports. An update that is
refused changes nothing, and it is refused for one of four reasons. -/
theorem Attainable.update_atomic {E : Type} [LogEnergy E] [Energy.LawfulZero E] {s : Solver E}
    (h : s.Attainable) (id : NodeId) :
    (∀ ports s', s.update id = (.ok ports, s') →
      s.Updated id (s.graph.incident id) ports s' ∧ ports.Pairwise (· < ·) ∧
        ∀ port ∈ ports, port < (s.graph.incident id).length) ∧
    (∀ port ports s', s.updatePort id port = (.ok ports, s') →
      ∃ edge, (s.graph.incident id)[port]? = some edge ∧ s.Updated id [edge] ports s' ∧
        (ports = [] ∨ ports = [port])) ∧
    (∀ e s', s.update id = (.error e, s') ↔ s.Refuses id none e ∧ s' = s) ∧
    ∀ port e s', s.updatePort id port = (.error e, s') ↔ s.Refuses id (some port) e ∧ s' = s := by
  have ha := h.anchored
  refine ⟨fun ports s' hu => ?_, fun port ports s' hu => ?_, fun e s' => ⟨fun hu => ?_, ?_⟩,
    fun port e s' => ⟨fun hu => ?_, ?_⟩⟩
  · have hno : ∀ e, ¬ s.Refuses id none e := fun e hr => by
      simp [ha.refuses_update hr] at hu
    obtain ⟨_, _, he, hs⟩ := ha.exists_updated hno
    obtain ⟨hports, rfl⟩ := Prod.mk.inj (he.symm.trans hu)
    obtain rfl := Except.ok.inj hports
    exact hs
  · have hno : ∀ e, ¬ s.Refuses id (some port) e := fun e hr => by
      simp [ha.refuses_updatePort hr] at hu
    obtain ⟨edge, _, _, hedge, he, hs⟩ := ha.exists_updatedPort hno
    obtain ⟨hports, rfl⟩ := Prod.mk.inj (he.symm.trans hu)
    obtain rfl := Except.ok.inj hports
    exact ⟨edge, hedge, hs⟩
  · by_cases hno : ∃ e, s.Refuses id none e
    · obtain ⟨e', hr⟩ := hno
      obtain ⟨he, rfl⟩ := Prod.mk.inj ((ha.refuses_update hr).symm.trans hu)
      exact ⟨Except.error.inj he ▸ hr, rfl⟩
    · obtain ⟨_, _, he, -⟩ := ha.exists_updated (not_exists.1 hno)
      simp [he] at hu
  · rintro ⟨hr, rfl⟩
    exact ha.refuses_update hr
  · by_cases hno : ∃ e, s.Refuses id (some port) e
    · obtain ⟨e', hr⟩ := hno
      obtain ⟨he, rfl⟩ := Prod.mk.inj ((ha.refuses_updatePort hr).symm.trans hu)
      exact ⟨Except.error.inj he ▸ hr, rfl⟩
    · obtain ⟨_, _, _, -, he, -⟩ := ha.exists_updatedPort (not_exists.1 hno)
      simp [he] at hu
  · rintro ⟨hr, rfl⟩
    exact ha.refuses_updatePort hr

/-- Two bits with an equality factor, and on the second edge a state for a domain of three values. -/
private def displaced : Solver Float :=
  (([.addVariable "x" .bit, .addVariable "y" .bit, .addCustom .equality [0, 1],
    .initializeAll].foldl Solver.perform .empty).modifyEdge 1 fun _ => .ok (.uniform 3)).2

theorem Attainable.update_atomic_displaced : displaced.Attainable ∧
    displaced.update (.factor 0) = (.error (.domainSize 1 2 3), displaced) ∧
      ∃ s', displaced.update (.var 0) = (.ok [], s') ∧
        displaced.Updated (.var 0) (displaced.graph.incident (.var 0)) [] s' := by
  have hs : displaced.Attainable :=
    ((Reachable.empty (by with_unfolding_all rfl)).foldl_perform _).attainable.replaceEdge 1 _
  have hi : ∃ n, displaced.nodeAt (.factor 0) = .ok n ∧ n.binding.initialized = true :=
    ⟨_, by with_unfolding_all rfl, by with_unfolding_all rfl⟩
  have hm : displaced.misfit? (.factor 0) = some 1 := by decide +kernel
  have hsizes : displaced.graph.edgeSize 1 = 2 ∧ (displaced.store.stateOf 1).domainSize = 3 := by
    decide +kernel
  have hr := ((hs.update_atomic (.factor 0)).2.2.1 _ _).2 ⟨.domainSize hi (by simp) hm, rfl⟩
  rw [hsizes.1, hsizes.2] at hr
  have hu : (displaced.update (.var 0)).1 = .ok [] := by decide +kernel
  exact ⟨hs, hr, _, Prod.ext hu rfl, ((hs.update_atomic (.var 0)).1 _ _ (Prod.ext hu rfl)).1⟩

end Solver

end MinSum
