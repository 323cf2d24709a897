import MinSum.Proofs.Node.Update
import MinSum.Solver.Schedule

/-! What the update of a node does to the store of edge states: every edge of the node carries
the message sent on its port, every other edge is left alone. -/
namespace MinSum

open Scratch

variable {E : Type}

def NodeId.side : NodeId → Side
  | .var _ => .variable
  | .factor _ => .factor

theorem Side.outgoing_send_eq (side side' : Side) (s : EdgeMessages E) (m : Message E) :
    side.outgoing (side'.send s m) = if side = side' then m else side.outgoing s := by
  cases side <;> cases side' <;> rfl

theorem Node.side_eq (n : Node E) : n.side = n.id.side := by
  cases n <;> rfl

def Graph.Edge.node (e : Graph.Edge) : Side → NodeId
  | .variable => .var e.var
  | .factor => .factor e.factor

theorem Graph.Edge.far_eq_some {e : Graph.Edge} {id : NodeId} :
    (∃ n, e.far id = some n) ↔ e.node id.side = id := by
  cases id <;> simp [far, node, NodeId.side]

namespace Graph.WellFormed

variable {g : Graph E} [Energy E] (h : g.WellFormed)

include h

theorem mem_incident_iff {id : NodeId} {e : Nat} :
    e ∈ g.incident id ↔ ∃ edge, g.edges[e]? = some edge ∧ edge.node id.side = id := by
  simp only [h.mem_incident, exists_and_left, Edge.far_eq_some]

/-- On each side an edge ends at one node. -/
theorem eq_of_mem_incident {id id' : NodeId} {e : Nat} (he : e ∈ g.incident id)
    (he' : e ∈ g.incident id') (hs : id.side = id'.side) : id = id' := by
  obtain ⟨edge, hedge, hid⟩ := h.mem_incident_iff.1 he
  obtain ⟨edge', hedge', hid'⟩ := h.mem_incident_iff.1 he'
  obtain rfl : edge = edge' := by simpa [hedge] using hedge'
  rw [← hid, ← hid', hs]

end Graph.WellFormed

namespace EdgeStore.Fits

variable {store : EdgeStore E} {g : Graph E}

theorem write (h : store.Fits g) {edges : List Nat} {states : List (EdgeMessages E)}
    (hd : edges.Nodup) (hlt : ∀ e ∈ edges, e < store.size)
    (hs : List.Forall₂ EdgeMessages.HasSize states (edges.map g.edgeSize)) :
    (store.write edges states).Fits g := by
  refine ⟨(size_write _ _ _).trans h.size, fun e he => ?_⟩
  rw [size_write] at he
  by_cases hmem : e ∈ edges
  · obtain ⟨k, hk, rfl⟩ := List.getElem_of_mem hmem
    have hl : states.length = edges.length := by simpa using hs.length_eq
    rw [stateOf_write_getElem _ hd hlt hk (hl ▸ hk)]
    have := hs.get (hl ▸ hk) (by simpa using hk)
    simpa using this
  · rw [stateOf_write_of_notMem _ _ hlt hmem]
    exact h.states e he

theorem set (h : store.Fits g) {e : Nat} {s : EdgeMessages E} (he : e < store.size)
    (hs : s.HasSize (g.edgeSize e)) : (store.set e s).Fits g := by
  refine ⟨(size_set _ _ _).trans h.size, fun x hx => ?_⟩
  rw [stateOf_set _ _ _ he]
  split
  · rename_i hxe
    exact hxe ▸ hs
  · exact h.states x (by simpa using hx)

theorem reset [Energy E] (h : store.Fits g) : store.reset.Fits g := by
  refine ⟨(size_reset _).trans h.size, fun e he => ?_⟩
  rw [size_reset] at he
  rw [stateOf_reset]
  exact (h.states e he).reset

/-- Graphs with the same edges and sizes fit the same stores. -/
theorem congr (h : store.Fits g) {g' : Graph E} (hl : g'.edges.size = g.edges.size)
    (hs : ∀ e, g'.edgeSize e = g.edgeSize e) : store.Fits g' :=
  ⟨h.size.trans hl.symm, fun e he => (hs e).symm ▸ h.states e he⟩

end EdgeStore.Fits

/-- The message that a node hears on an edge. -/
def EdgeStore.heard (store : EdgeStore E) (id : NodeId) (e : Nat) : Message E :=
  id.side.incoming (store.stateOf e)

/-- The message that a node sent on an edge last. -/
def EdgeStore.said (store : EdgeStore E) (id : NodeId) (e : Nat) : Message E :=
  id.side.outgoing (store.stateOf e)

namespace Node

variable [Energy E]

/-- The store after an update of the node. -/
def deliver (n : Node E) (store : EdgeStore E) : EdgeStore E :=
  let states := n.binding.edges.map store.stateOf
  store.write n.binding.edges (List.zipWith n.side.send states (n.sent states))

def deliverPort (n : Node E) (port : Nat) (store : EdgeStore E) : EdgeStore E :=
  let states := n.binding.edges.map store.stateOf
  store.write n.binding.edges (states.modify port (n.side.send · (n.sentPort states port)))

/-- The ports that an update of the node reports as contradictory. -/
def reported (n : Node E) (store : EdgeStore E) : List Nat :=
  Update.contradictory 0 (n.raw (n.binding.edges.map store.stateOf))

def reportedPort (n : Node E) (port : Nat) (store : EdgeStore E) : List Nat :=
  let raw := n.rawPort (n.binding.edges.map store.stateOf) port
  if (Message.normalize raw).2 = .contradiction then [port] else []

theorem lt_of_mem_reported {n : Node E} {store : EdgeStore E} {p : Nat}
    (hp : p ∈ n.reported store) : p < n.binding.edges.length := by
  obtain ⟨m, hm, -⟩ := Update.mem_contradictory.1 hp
  have hlen : (n.raw (n.binding.edges.map store.stateOf)).length = n.binding.edges.length := by
    simpa using congrArg List.length (n.lengths_raw (n.binding.edges.map store.stateOf))
  exact hlen ▸ (List.getElem?_eq_some_iff.1 hm).1

theorem mem_reportedPort {n : Node E} {store : EdgeStore E} {p port : Nat} :
    p ∈ n.reportedPort port store ↔
      p = port ∧ (Message.normalize
        (n.rawPort (n.binding.edges.map store.stateOf) port)).2 = .contradiction := by
  unfold reportedPort
  simp only
  split
  case isTrue h => simp [h]
  case isFalse h => simp [h]

theorem reportedPort_eq_nil_or (n : Node E) (port : Nat) (store : EdgeStore E) :
    n.reportedPort port store = [] ∨ n.reportedPort port store = [port] := by
  unfold reportedPort
  simp only
  split
  · exact .inr rfl
  · exact .inl rfl

theorem stateOf_deliver_of_notMem (n : Node E) (store : EdgeStore E) {e : Nat}
    (hlt : ∀ e ∈ n.binding.edges, e < store.size) (he : e ∉ n.binding.edges) :
    (n.deliver store).stateOf e = store.stateOf e :=
  EdgeStore.stateOf_write_of_notMem _ _ hlt he

theorem stateOf_deliverPort_of_notMem (n : Node E) (port : Nat) (store : EdgeStore E) {e : Nat}
    (hlt : ∀ e ∈ n.binding.edges, e < store.size) (he : e ∉ n.binding.edges) :
    (n.deliverPort port store).stateOf e = store.stateOf e :=
  EdgeStore.stateOf_write_of_notMem _ _ hlt he

section

variable {n : Node E} {store : EdgeStore E} (hd : n.binding.edges.Nodup)
  (hlt : ∀ e ∈ n.binding.edges, e < store.size)

include hd hlt

theorem stateOf_deliver {p e : Nat} {m : Message E} (hp : n.binding.edges[p]? = some e)
    (hm : (n.sent (n.binding.edges.map store.stateOf))[p]? = some m) :
    (n.deliver store).stateOf e = n.side.send (store.stateOf e) m := by
  obtain ⟨hlp, rfl⟩ := List.getElem?_eq_some_iff.1 hp
  obtain ⟨hlm, rfl⟩ := List.getElem?_eq_some_iff.1 hm
  rw [deliver, EdgeStore.stateOf_write_getElem _ hd hlt hlp (by simp; omega)]
  simp

theorem stateOf_deliverPort {port p e : Nat} (hp : n.binding.edges[p]? = some e) :
    (n.deliverPort port store).stateOf e =
      if port = p then n.side.send (store.stateOf e)
        (n.sentPort (n.binding.edges.map store.stateOf) port)
      else store.stateOf e := by
  obtain ⟨hlp, rfl⟩ := List.getElem?_eq_some_iff.1 hp
  rw [deliverPort, EdgeStore.stateOf_write_getElem _ hd hlt hlp (by simpa using hlp),
    List.getElem_modify]
  simp only [List.getElem_map]

end

namespace Tracks

variable {g : Graph E} {settings : Settings E} {id : NodeId} {n : Node E} {store : EdgeStore E}
  (h : n.Tracks g settings id) (hi : n.binding.initialized = true) (hg : g.WellFormed)
  (hs : store.Fits g)

include h hi

theorem edges_eq : n.binding.edges = g.incident id := h.id_eq ▸ (h.bound hi).edges

theorem sizes_eq : n.binding.sizes = n.binding.edges.map g.edgeSize := by
  rw [(h.bound hi).sizes, (h.bound hi).edges]

theorem map_incoming : (n.binding.edges.map store.stateOf).map n.side.incoming =
    (g.incident id).map (store.heard id) := by
  rw [h.edges_eq hi, List.map_map, n.side_eq, h.id_eq]
  rfl

theorem map_outgoing : (n.binding.edges.map store.stateOf).map n.side.outgoing =
    (g.incident id).map (store.said id) := by
  rw [h.edges_eq hi, List.map_map, n.side_eq, h.id_eq]
  rfl

include hg

theorem nodup_edges : n.binding.edges.Nodup := by
  rw [h.edges_eq hi]
  exact hg.nodup_incident id

include hs

theorem lt_size : ∀ e ∈ n.binding.edges, e < store.size := by
  rw [h.edges_eq hi, hs.size]
  exact fun e he => hg.lt_of_mem_incident he

theorem fits_deliver : (n.deliver store).Fits g := by
  apply hs.write (h.nodup_edges hi hg) (h.lt_size hi hg hs)
  rw [← h.sizes_eq hi]
  exact (h.ready hg hi hs).sizes_update

theorem fits_deliverPort {port : Nat} (hp : port < n.binding.edges.length) :
    (n.deliverPort port store).Fits g := by
  apply hs.write (h.nodup_edges hi hg) (h.lt_size hi hg hs)
  rw [← h.sizes_eq hi]
  exact (h.ready hg hi hs).sizes_updatePort hp

theorem siblings_eq : store.siblings n.binding.edges = .ok (n.binding.edges.map store.stateOf) :=
  EdgeStore.siblings_eq_ok (h.lt_size hi hg hs)

theorem exclusive_eq : store.exclusive n.binding.edges = .ok (n.binding.edges.map store.stateOf) :=
  EdgeStore.exclusive_eq_ok (h.nodup_edges hi hg) (h.lt_size hi hg hs)

/-- Only the messages sent on the edges of the node change, each to the settled raw message. -/
theorem stateOf_deliver_eq {p e : Nat} {m : Message E} (hp : n.binding.edges[p]? = some e)
    (hm : (n.raw (n.binding.edges.map store.stateOf))[p]? = some m) :
    (n.deliver store).stateOf e = id.side.send (store.stateOf e)
      (Update.settled n.binding.damping p m (store.said id e)) := by
  have hold : ((n.binding.edges.map store.stateOf).map n.side.outgoing)[p]? =
      some (store.said id e) := by
    rw [h.map_outgoing hi, List.getElem?_map, ← h.edges_eq hi, hp]
    rfl
  rw [stateOf_deliver (h.nodup_edges hi hg) (h.lt_size hi hg hs) hp
    (by rw [sent, Update.getElem?_settledAll, hm, hold]), n.side_eq, h.id_eq]

theorem stateOf_deliverPort_eq {port p e : Nat} (hp : n.binding.edges[p]? = some e) :
    (n.deliverPort port store).stateOf e = if port = p then id.side.send (store.stateOf e)
      (Update.settled n.binding.damping p (n.rawPort (n.binding.edges.map store.stateOf) p)
        (store.said id e)) else store.stateOf e := by
  have hold : ((n.binding.edges.map store.stateOf).map n.side.outgoing).getD p [] =
      store.said id e := by
    rw [h.map_outgoing hi, ← h.edges_eq hi, List.getD_eq_getElem?_getD, List.getElem?_map, hp]
    rfl
  rw [Node.stateOf_deliverPort (h.nodup_edges hi hg) (h.lt_size hi hg hs) hp]
  by_cases heq : port = p
  · subst heq
    rw [if_pos rfl, if_pos rfl, sentPort, hold, n.side_eq, h.id_eq]
  · rw [if_neg heq, if_neg heq]

theorem said_deliver {p e : Nat} {m : Message E} (hp : n.binding.edges[p]? = some e)
    (hm : (n.raw (n.binding.edges.map store.stateOf))[p]? = some m) :
    (n.deliver store).said id e =
      Update.settled n.binding.damping p m (store.said id e) := by
  rw [EdgeStore.said, h.stateOf_deliver_eq hi hg hs hp hm, Side.outgoing_send]

theorem said_deliverPort {p e : Nat} (hp : n.binding.edges[p]? = some e) :
    (n.deliverPort p store).said id e = Update.settled n.binding.damping p
      (n.rawPort (n.binding.edges.map store.stateOf) p) (store.said id e) := by
  rw [EdgeStore.said, h.stateOf_deliverPort_eq hi hg hs hp, if_pos rfl, Side.outgoing_send]

/-- A property of every message in the store is kept if the settled messages have it. -/
theorem deliver_forall {Q : Nat → Side → Message E → Prop}
    (hq : ∀ e side, Q e side (side.outgoing (store.stateOf e)))
    (hnew : ∀ p e m, n.binding.edges[p]? = some e →
      (n.raw (n.binding.edges.map store.stateOf))[p]? = some m →
      Q e id.side (Update.settled n.binding.damping p m (store.said id e))) :
    ∀ e side, Q e side (side.outgoing ((n.deliver store).stateOf e)) := by
  intro e side
  by_cases he : e ∈ n.binding.edges
  · obtain ⟨p, hp⟩ := List.mem_iff_getElem?.1 he
    have hlen := (h.ready hg hi hs).lengths_raw
    have hlt : p < (n.raw (n.binding.edges.map store.stateOf)).length := by
      rw [← List.length_map, hlen, (h.ready hg hi hs).length_sizes]
      exact (List.getElem?_eq_some_iff.1 hp).1
    have hm := List.getElem?_eq_getElem hlt
    rw [h.stateOf_deliver_eq hi hg hs hp hm, Side.outgoing_send_eq]
    split
    · rename_i heq
      exact heq ▸ hnew p e _ hp hm
    · exact hq e side
  · rw [stateOf_deliver_of_notMem _ _ (h.lt_size hi hg hs) he]
    exact hq e side

theorem deliverPort_forall {Q : Nat → Side → Message E → Prop}
    (hq : ∀ e side, Q e side (side.outgoing (store.stateOf e))) {p e : Nat}
    (hp : n.binding.edges[p]? = some e)
    (hnew : Q e id.side (Update.settled n.binding.damping p
      (n.rawPort (n.binding.edges.map store.stateOf) p) (store.said id e))) :
    ∀ e side, Q e side (side.outgoing ((n.deliverPort p store).stateOf e)) := by
  intro e' side
  by_cases he : e' ∈ n.binding.edges
  · obtain ⟨p', hp'⟩ := List.mem_iff_getElem?.1 he
    rw [h.stateOf_deliverPort_eq hi hg hs hp']
    split
    · rename_i heq
      subst heq
      obtain rfl : e = e' := by simpa [hp] using hp'
      rw [Side.outgoing_send_eq]
      split
      · rename_i hside
        exact hside ▸ hnew
      · exact hq e side
    · exact hq e' side
  · rw [stateOf_deliverPort_of_notMem _ _ _ (h.lt_size hi hg hs) he]
    exact hq e' side

/-- A node that runs in a parallel phase delivers the same as one that is updated by itself. -/
theorem runNode_eq [Energy.LawfulZero E] (pool : Pool E) :
    Phase.runNode store n pool = (.ok (n.reported store), n.deliver store) := by
  have hr := h.ready hg hi hs
  obtain ⟨pool', hu⟩ := update_of_check hr.checkUpdate_eq_ok hr.sums pool
  simp only [Phase.runNode, h.siblings_eq hi hg hs, hu]
  rfl

end Tracks

end Node

end MinSum
