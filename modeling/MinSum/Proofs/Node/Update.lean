import Mathlib.Data.List.Forall2
import Mathlib.Data.List.GetD
import MinSum.Proofs.Node.Local

/-! Updates of a node on states that fit its binding. They cannot fail, and each port gets its
settled message. -/
namespace MinSum

open Scratch

variable {E : Type}

namespace Side

@[simp] theorem outgoing_send (side : Side) (s : EdgeMessages E) (m : Message E) :
    side.outgoing (side.send s m) = m := by
  cases side <;> rfl

end Side

variable [Energy E]

namespace EdgeMessages.HasSize

variable {s : EdgeMessages E} {size : Nat}

omit [Energy E]

theorem incoming (h : s.HasSize size) (side : Side) : (side.incoming s).length = size := by
  cases side
  · exact h.toVariable
  · exact h.toFactor

theorem outgoing (h : s.HasSize size) (side : Side) : (side.outgoing s).length = size := by
  cases side
  · exact h.toFactor
  · exact h.toVariable

theorem send (h : s.HasSize size) (side : Side) {m : Message E} (hm : m.length = size) :
    (side.send s m).HasSize size := by
  cases side
  · exact ⟨hm, h.toVariable⟩
  · exact ⟨h.toFactor, hm⟩

variable {states : List (EdgeMessages E)} {sizes : List Nat}
  (hs : List.Forall₂ HasSize states sizes)

include hs

theorem map_domainSize : states.map EdgeMessages.domainSize = sizes := by
  induction hs with
  | nil => rfl
  | cons h _ ih => rw [List.map_cons, ih, domainSize, h.toFactor]

theorem lengths_incoming (side : Side) :
    (states.map side.incoming).map List.length = sizes := by
  induction hs with
  | nil => rfl
  | cons h _ ih => rw [List.map_cons, List.map_cons, ih, h.incoming]

theorem lengths_outgoing (side : Side) :
    (states.map side.outgoing).map List.length = sizes := by
  induction hs with
  | nil => rfl
  | cons h _ ih => rw [List.map_cons, List.map_cons, ih, h.outgoing]

theorem zipWith_send (side : Side) {ms : List (Message E)} (hm : ms.map List.length = sizes) :
    List.Forall₂ HasSize (List.zipWith side.send states ms) sizes := by
  induction hs generalizing ms with
  | nil => exact .nil
  | cons h _ ih =>
    cases ms with
    | nil => simp at hm
    | cons m ms =>
      simp only [List.map_cons, List.cons.injEq] at hm
      exact .cons (h.send side hm.1) (ih hm.2)

theorem modify_send (side : Side) {port : Nat} {m : Message E}
    (hm : m.length = ((states.map side.outgoing).getD port []).length) :
    List.Forall₂ HasSize (states.modify port (side.send · m)) sizes := by
  induction hs generalizing port with
  | nil =>
    rw [List.modify_nil]
    exact .nil
  | cons h hs ih =>
    cases port with
    | zero =>
      exact .cons (h.send side (hm.trans (h.outgoing side))) hs
    | succ port => exact .cons h (ih hm)

end EdgeMessages.HasSize

theorem DampingChoice.length_of_inForce {c : DampingChoice E} {siblings : Nat} {default : E}
    {ds : List E} (h : c.inForce siblings default = some ds) : ds.length = siblings := by
  unfold inForce at h
  simp only at h
  split at h
  · contradiction
  rename_i hl
  rw [Option.ite_none_right_eq_some] at h
  obtain rfl := Option.some.inj h.2
  split
  · exact List.length_replicate
  · rename_i he
    simp only [he, Bool.not_false, Bool.true_and, bne_iff_ne, ne_eq, Decidable.not_not] at hl
    exact hl

namespace Binding

omit [Energy E] in
theorem checkSizes_self (sizes edges : List Nat) :
    checkSizes (E := E) sizes sizes edges = .ok () := by
  induction sizes generalizing edges with
  | nil => rfl
  | cons size sizes ih =>
    cases edges with
    | nil => rfl
    | cons edge edges => rw [checkSizes, if_pos rfl, ih]

theorem dampingOf_eq_ok {b : Binding E} {port : Nat} (id : NodeId)
    (hi : b.initialized = true) (hp : port < b.edges.length) :
    b.dampingOf id port = .ok (Update.dampingAt b.damping port) := by
  simp only [dampingOf, checkReady, hi, checkPort, hp, if_true]
  cases b.damping <;> rfl

end Binding

namespace Node

def raw (n : Node E) (siblings : List (EdgeMessages E)) : List (Message E) :=
  n.rule.raw (siblings.map n.side.incoming) (siblings.map n.side.outgoing)

def rawPort (n : Node E) (siblings : List (EdgeMessages E)) (port : Nat) : Message E :=
  n.rule.rawPort (siblings.map n.side.incoming) port
    ((siblings.map n.side.outgoing).getD port [])

/-- The messages that an update sends. -/
def sent (n : Node E) (siblings : List (EdgeMessages E)) : List (Message E) :=
  Update.settledAll n.binding.damping (n.raw siblings) (siblings.map n.side.outgoing)

def sentPort (n : Node E) (siblings : List (EdgeMessages E)) (port : Nat) : Message E :=
  Update.settled n.binding.damping port (n.rawPort siblings port)
    ((siblings.map n.side.outgoing).getD port [])

theorem compute_eq [Energy.LawfulZero E] (n : Node E)
    (hs : ∀ m, n = .var m → m.sums.length = m.prior.length) (inputs previous : List (Message E))
    (hl : inputs.length = previous.length) (pool : Pool E) :
    (n.compute inputs previous pool).outputs =
        Update.settledAll n.binding.damping (n.rule.raw inputs previous) previous ∧
      (n.compute inputs previous pool).contradictions =
        Update.contradictory 0 (n.rule.raw inputs previous) := by
  cases n with
  | var m => exact Prior.update_eq m.prior hl (hs m rfl) m.binding.damping pool
  | factor m => exact Rule.update_eq _ hl m.binding.damping pool

theorem lengths_raw (n : Node E) (siblings : List (EdgeMessages E)) :
    (n.raw siblings).map List.length = (siblings.map n.side.outgoing).map List.length :=
  n.rule.lengths_raw (by simp)

theorem lengths_sent (n : Node E) (siblings : List (EdgeMessages E)) :
    (n.sent siblings).map List.length = (siblings.map n.side.outgoing).map List.length :=
  Update.lengths_settledAll (n.lengths_raw siblings) _

section checked

variable [Energy.LawfulZero E] {n : Node E} {siblings : List (EdgeMessages E)}
  (hc : n.checkUpdate siblings = .ok ())

include hc

/-- On states that pass the check an update settles the raw messages. -/
theorem update_of_check (hs : ∀ m, n = .var m → m.sums.length = m.prior.length) (pool : Pool E) :
    ∃ pool', n.update siblings pool = .ok ⟨Update.contradictory 0 (n.raw siblings),
      List.zipWith n.side.send siblings (n.sent siblings), pool'⟩ := by
  obtain ⟨ho, hk⟩ := n.compute_eq hs (siblings.map n.side.incoming)
    (siblings.map n.side.outgoing) (by simp) pool
  simp only [update, hc, ho, hk]
  exact ⟨_, rfl⟩

theorem updatePort_of_check (hi : n.binding.initialized = true) {port : Nat}
    (hp : port < n.binding.edges.length) (pool : Pool E) : ∃ pool',
    n.updatePort port siblings pool =
      .ok ⟨if (Message.normalize (n.rawPort siblings port)).2 = .contradiction then [port] else [],
        siblings.modify port (n.side.send · (n.sentPort siblings port)), pool'⟩ := by
  have hd := Binding.dampingOf_eq_ok n.id hi hp
  simp only [updatePort, hd, hc, Rule.updatePort_eq, Update.onePort_eq_damp,
    Update.onePort_verdict, sentPort, Update.settled_eq_damp]
  exact ⟨_, rfl⟩

end checked

/-- The node may be updated on these states: there is one for each edge, of the size that the
rule expects there. -/
structure Ready (n : Node E) (siblings : List (EdgeMessages E)) : Prop where
  initialized : n.binding.initialized = true
  length_sizes : n.binding.sizes.length = n.binding.edges.length
  sizes : List.Forall₂ EdgeMessages.HasSize siblings n.binding.sizes
  fits : n.rule.Fits n.binding.sizes
  /-- There is one accumulator per value. -/
  sums : ∀ m, n = .var m → m.sums.length = m.prior.length
  damping : ∀ ds ∈ n.binding.damping, ds.length = n.binding.edges.length

namespace Ready

variable {n : Node E} {siblings : List (EdgeMessages E)} (h : n.Ready siblings)

include h

omit [Energy E] in
theorem length_eq : siblings.length = n.binding.edges.length :=
  h.sizes.length_eq.trans h.length_sizes

omit [Energy E] in
theorem checkUpdate_eq_ok : n.checkUpdate siblings = .ok () := by
  have hl : ¬ (siblings.map EdgeMessages.domainSize).length ≠ n.binding.edges.length := by
    simp [h.length_eq]
  simp only [checkUpdate, Binding.checkReady, h.initialized, if_true, Binding.checkSiblings,
    if_neg hl]
  rw [EdgeMessages.HasSize.map_domainSize h.sizes]
  exact Binding.checkSizes_self _ _

theorem lengths_raw : (n.raw siblings).map List.length = n.binding.sizes := by
  rw [n.lengths_raw, EdgeMessages.HasSize.lengths_outgoing h.sizes]

theorem lengths_sent : (n.sent siblings).map List.length = n.binding.sizes := by
  rw [n.lengths_sent, EdgeMessages.HasSize.lengths_outgoing h.sizes]

theorem sizes_update : List.Forall₂ EdgeMessages.HasSize
    (List.zipWith n.side.send siblings (n.sent siblings)) n.binding.sizes :=
  EdgeMessages.HasSize.zipWith_send h.sizes n.side h.lengths_sent

variable {port : Nat} (hp : port < n.binding.edges.length)

include hp

omit [Energy E] in
theorem getD_outgoing_mem :
    ((siblings.map n.side.outgoing).getD port []).length ∈ n.binding.sizes := by
  have hlt : port < siblings.length := h.length_eq ▸ hp
  rw [← EdgeMessages.HasSize.lengths_outgoing h.sizes n.side,
    List.getD_eq_getElem _ _ (by simpa using hlt)]
  exact List.mem_map_of_mem (List.getElem_mem _)

theorem length_sentPort : (n.sentPort siblings port).length =
    ((siblings.map n.side.outgoing).getD port []).length := by
  have hr := Rule.length_rawPort h.fits (siblings.map n.side.incoming) port
    (h.getD_outgoing_mem hp)
  exact (Update.length_settled _ port hr.symm).trans hr

theorem sizes_updatePort : List.Forall₂ EdgeMessages.HasSize
    (siblings.modify port (n.side.send · (n.sentPort siblings port))) n.binding.sizes :=
  EdgeMessages.HasSize.modify_send h.sizes n.side (h.length_sentPort hp)

end Ready

end Node

/-- The prior of a variable has one energy per value. -/
theorem Graph.Variable.Valid.length_prior {v : Graph.Variable E} (h : v.Valid) :
    v.prior.length = v.size := by
  unfold prior
  split
  · simp [Message.impossible]
  · rename_i m _ hm
    exact h.length_input m hm
  · simp [Message.uniform]

/-- A loaded variable has one accumulator for each of its values. -/
theorem Node.Rooted.length_sums {g : Graph E} {n : Node E} (h : n.Rooted g) (hg : g.WellFormed)
    (m : VariableNode E) (hm : n = .var m) : m.sums.length = m.prior.length := by
  obtain ⟨var, hv, hload⟩ := h.loaded m hm
  have hl := (hg.valid_variable var (Array.mem_of_getElem? hv)).length_prior
  rw [hload]
  exact (LeaveOneOut.length_resize _ _).trans hl.symm

namespace Node.Tracks

variable {g : Graph E} {settings : Settings E} {id : NodeId} {n : Node E}
  (h : n.Tracks g settings id) (hg : g.WellFormed) (hi : n.binding.initialized = true)

include h hg hi

theorem fits : n.rule.Fits n.binding.sizes := by
  have hb := h.bound hi
  rw [hb.sizes]
  cases n with
  | var m =>
    obtain ⟨var, hv, hm⟩ := hb.loaded m rfl
    have hl := (hg.valid_variable var (Array.mem_of_getElem? hv)).length_prior
    rw [Node.id, hg.sizes_var hv]
    intro size hsize
    rw [(List.mem_replicate.1 hsize).2, hm]
    exact hl.symm
  | factor m =>
    obtain ⟨factor, hf, hp⟩ := Option.map_eq_some_iff.1 (h.potential m rfl)
    have hs := (hg.valid_factor factor (Array.mem_of_getElem? hf)).suits
    rw [Node.id, hg.sizes_factor, Graph.linksAt_factor hf]
    rw [hp] at hs
    cases hpot : m.potential with
    | table t =>
      rw [hpot] at hs
      simp only [rule, hpot]
      exact hs.2
    | custom c =>
      simp only [rule, hpot]
      trivial

/-- An initialized node of the graph can be updated on the states of its edges. -/
theorem ready {store : EdgeStore E} (hs : store.Fits g) :
    n.Ready (n.binding.edges.map store.stateOf) := by
  have hb := h.bound hi
  refine ⟨hi, by rw [hb.sizes, hb.edges, List.length_map], ?_, h.fits hg hi,
    (h.stands.rooted hi).length_sums hg, ?_⟩
  · rw [hb.edges, hb.sizes, List.forall₂_map_left_iff, List.forall₂_map_right_iff,
      List.forall₂_same]
    intro e he
    exact hs.states e (hs.size ▸ hg.lt_of_mem_incident he)
  · intro ds hds
    rw [hb.damping] at hds
    rw [hb.edges]
    exact DampingChoice.length_of_inForce hds

end Node.Tracks

end MinSum
