import MinSum.Proofs.Node.Says
import MinSum.Proofs.Solver.Frame
import MinSum.Proofs.Solver.Reachable

/-! In a run with exact energies no message ever holds an invalid energy, as long as the custom
factors make none: neither updates with any damping nor messages from outside bring one in. -/
namespace MinSum

open Scratch

section

variable {E : Type} [Energy E]

theorem unit_of_checkDamping {d : E} (h : checkDamping d = .ok ()) : 0 ≤ d ∧ d ≤ 1 := by
  unfold checkDamping at h
  split at h
  · assumption
  · contradiction

namespace DampingChoice

theorem unit_of_checkAll {ds : List E} (h : checkAll ds = .ok ()) {d : E} (hd : d ∈ ds) :
    0 ≤ d ∧ d ≤ 1 := by
  induction ds with
  | nil => simp at hd
  | cons x ds ih =>
    rw [checkAll] at h
    split at h
    · contradiction
    rename_i hx
    rcases List.mem_cons.1 hd with rfl | hd
    · exact unit_of_checkDamping hx
    · exact ih h hd

/-- A coefficient in force was chosen for the node, or is the default. -/
theorem mem_of_inForce {c : DampingChoice E} {siblings : Nat} {default : E} {ds : List E}
    (h : c.inForce siblings default = some ds) {d : E} (hd : d ∈ ds) :
    d ∈ c.damping.toList ++ c.portDamping.getD [] ∨ d = default := by
  unfold inForce at h
  simp only at h
  split at h
  · contradiction
  rw [Option.ite_none_right_eq_some] at h
  obtain rfl := Option.some.inj h.2
  split at hd
  · obtain rfl := (List.mem_replicate.1 hd).2
    cases c.damping with
    | none => exact .inr rfl
    | some d => exact .inl (by simp)
  · exact .inl (List.mem_append_right _ hd)

end DampingChoice

end

variable {K : Type} [Field K] [LinearOrder K]

theorem Node.Tracks.unitDamping {g : Graph (Extended K)} {settings : Settings (Extended K)}
    {id : NodeId} {n : Node (Extended K)} (h : n.Tracks g settings id)
    (hi : n.binding.initialized = true) (hs : checkDamping settings.damping = .ok ()) :
    Update.UnitDamping n.binding.damping := by
  intro ds hds d hd
  rw [(h.bound hi).damping] at hds
  rcases DampingChoice.mem_of_inForce hds hd with hd | rfl
  · exact DampingChoice.unit_of_checkAll h.choice hd
  · exact unit_of_checkDamping hs

/-- All messages are admissible, and finite at the values marked for their edges. -/
structure EdgeStore.FiniteOn (store : EdgeStore (Extended K)) (F : Nat → Nat → Prop) : Prop where
  proper : store.Proper
  finite : ∀ e x, F e x → ∀ side, (Side.outgoing side (store.stateOf e)).valueAt x ≠ ⊤

theorem EdgeStore.finiteOn_nowhere (store : EdgeStore (Extended K)) :
    (store.FiniteOn fun _ _ => False) ↔ store.Proper :=
  ⟨fun h => h.proper, fun h => ⟨h, fun _ _ hx => hx.elim⟩⟩

namespace EdgeStore.Proper

variable {store : EdgeStore (Extended K)} (h : store.Proper)

include h

theorem push (size : Nat) : (store.push (.uniform size)).Proper := by
  intro e side
  rw [stateOf_push]
  split
  · cases side <;> exact Message.proper_uniform size
  · exact h e side

theorem set {edge : Nat} (he : edge < store.size) {state : EdgeMessages (Extended K)}
    (hs : ∀ side : Side, (side.outgoing state).Proper) : (store.set edge state).Proper := by
  intro e side
  rw [stateOf_set _ _ _ he]
  split
  · exact hs side
  · exact h e side

omit h in
theorem reset (store : EdgeStore (Extended K)) : store.reset.Proper := by
  intro e side
  rw [stateOf_reset]
  cases side <;> exact Message.proper_uniform _

end EdgeStore.Proper

namespace Solver

variable [IsStrictOrderedRing K] {s : Solver (Extended K)}

/-- What an edge is left with by a raw message that leaves its marked values possible. -/
theorem WellFormed.settled_finiteOn (h : s.WellFormed) {F : Nat → Nat → Prop} {id : NodeId}
    {n : Node (Extended K)} (hn : s.nodeAt id = .ok n) (hi : n.binding.initialized = true)
    {store : EdgeStore (Extended K)} (hs : store.Fits s.graph) (hstore : store.FiniteOn F)
    {p e : Nat} {raw : Message (Extended K)} (hp : n.binding.edges[p]? = some e)
    (hraw : raw.Proper) (hl : raw.length = s.graph.edgeSize e)
    (hF : ∀ x, F e x → raw.valueAt x ≠ ⊤) :
    let m := Update.settled n.binding.damping p raw (store.said id e)
    m.Proper ∧ ∀ x, F e x → m.valueAt x ≠ ⊤ := by
  have ht := h.tracks id n hn
  have he : e < store.size := ht.lt_size hi h.graph hs e (List.mem_of_getElem? hp)
  have hlen : (store.said id e).length = raw.length := ((hs.states e he).outgoing _).trans hl.symm
  obtain ⟨hproper, hfinite⟩ := (ht.unitDamping hi h.damping).settled p hraw
    (hstore.proper.said id e) hlen
  exact ⟨hproper, fun x hx => hfinite x (hF x hx) (hstore.finite e x hx id.side)⟩

/-- Updates rule no marked value out, if no raw message does, whatever the damping. Then no
contradiction is reported on an edge with a marked value. -/
theorem WellFormed.keeps_finiteOn (h : s.WellFormed) (ha : s.graph.Admissible)
    {F : Nat → Nat → Prop}
    (hF : ∀ id n, s.nodeAt id = .ok n → n.binding.initialized = true →
      ∀ store : EdgeStore (Extended K), store.Fits s.graph → store.FiniteOn F →
      ∀ p e m, n.binding.edges[p]? = some e → n.rule.Sends (s.graph.edgeSize e)
        ((s.graph.incident id).map (store.heard id)) p m → ∀ x, F e x → m.valueAt x ≠ ⊤) :
    s.Keeps (·.FiniteOn F) fun w =>
      ∃ e, (s.graph.incident w.node)[w.port]? = some e ∧ ∀ x, ¬ F e x where
  deliver id n hn hi store hs hstore := by
    have ht := h.tracks id n hn
    have hnew := ht.deliver_forall hi h.graph hs
      (Q := fun e _ m => m.Proper ∧ ∀ x, F e x → m.valueAt x ≠ ⊤)
      (fun e side => ⟨hstore.proper e side, fun x hx => hstore.finite e x hx side⟩) ?_
    · exact ⟨fun e side => (hnew e side).1, fun e x hx side => (hnew e side).2 x hx⟩
    · intro p e m hp hm
      obtain ⟨m', hm', hlen, hsend⟩ := ht.sends_raw hi h.graph hs hstore.proper ha hp
      obtain rfl : m = m' := Option.some.inj (hm.symm.trans hm')
      exact h.settled_finiteOn hn hi hs hstore hp hsend.proper hlen
        (hF id n hn hi store hs hstore p e m hp hsend)
  deliverPort id n hn hi store hs hstore port hp := by
    have ht := h.tracks id n hn
    have hpe := List.getElem?_eq_getElem hp
    obtain ⟨hlen, hsend⟩ := ht.sends_rawPort hi h.graph hs hstore.proper ha hpe
    have hnew := ht.deliverPort_forall hi h.graph hs
      (Q := fun e _ m => m.Proper ∧ ∀ x, F e x → m.valueAt x ≠ ⊤)
      (fun e side => ⟨hstore.proper e side, fun x hx => hstore.finite e x hx side⟩) hpe
      (h.settled_finiteOn hn hi hs hstore hpe hsend.proper hlen
        (hF id n hn hi store hs hstore port _ _ hpe hsend))
    exact ⟨fun e side => (hnew e side).1, fun e x hx side => (hnew e side).2 x hx⟩
  reported id n hn hi store hs hstore port hp := by
    have ht := h.tracks id n hn
    obtain ⟨m, hm, hv⟩ := Update.mem_contradictory.1 hp
    have hlt := Node.lt_of_mem_reported hp
    obtain ⟨e, hpe⟩ : ∃ e, n.binding.edges[port]? = some e := ⟨_, List.getElem?_eq_getElem hlt⟩
    obtain ⟨m', hm', -, hsend⟩ := ht.sends_raw hi h.graph hs hstore.proper ha hpe
    obtain rfl : m = m' := Option.some.inj (hm.symm.trans hm')
    refine ⟨e, (congrArg (·[port]?) (ht.edges_eq hi)).symm.trans hpe, fun x hx => ?_⟩
    exact hF id n hn hi store hs hstore port e m hpe hsend x hx
      (hsend.proper.normalize_snd_iff.1 hv x)
  reportedPort id n hn hi store hs hstore port hp p hport := by
    have ht := h.tracks id n hn
    obtain ⟨e, hpe⟩ : ∃ e, n.binding.edges[port]? = some e := ⟨_, List.getElem?_eq_getElem hp⟩
    obtain ⟨-, hsend⟩ := ht.sends_rawPort hi h.graph hs hstore.proper ha hpe
    obtain ⟨rfl, hv⟩ := Node.mem_reportedPort.1 hport
    refine ⟨e, (congrArg (·[p]?) (ht.edges_eq hi)).symm.trans hpe, fun x hx => ?_⟩
    exact hF id n hn hi store hs hstore p e _ hpe hsend x hx
      (hsend.proper.normalize_snd_iff.1 hv x)

/-- Updates make admissible messages from admissible ones. -/
theorem WellFormed.keeps_proper (h : s.WellFormed) (ha : s.graph.Admissible) :
    s.Keeps EdgeStore.Proper fun _ => True := by
  have hk := h.keeps_finiteOn ha (F := fun _ _ => False)
    fun _ _ _ _ _ _ _ _ _ _ _ _ _ hx => hx.elim
  have hF : (·.FiniteOn fun _ _ => False) = EdgeStore.Proper (K := K) :=
    funext fun store => propext store.finiteOn_nowhere
  exact (hF ▸ hk).weaken fun _ _ => trivial

omit [IsStrictOrderedRing K]

theorem WellFormed.holds_proper (h : s.WellFormed) (hp : s.store.Proper) :
    s.Holds EdgeStore.Proper fun _ => True :=
  ⟨h, hp, fun _ _ => trivial⟩

/-- A step of a run. Factors stay, and messages stay admissible. -/
structure Carries (s s' : Solver (Extended K)) : Prop where
  factors : ∀ factor ∈ s.graph.factors, factor ∈ s'.graph.factors
  proper : s.graph.Admissible → s.store.Proper → s'.store.Proper

theorem Carries.of_eq {s s' : Solver (Extended K)} (hg : s'.graph.factors = s.graph.factors)
    (hs : s'.store = s.store) : s.Carries s' :=
  ⟨fun _ hf => hg ▸ hf, fun _ hp => hs ▸ hp⟩

theorem Carries.initializeAll (s : Solver (Extended K)) : s.Carries s.initializeAll.2 := by
  let s' : Solver (Extended K) := { s with store := s.store.reset }
  have hkeep : ∀ t : Solver (Extended K), t.graph = s.graph ∧ t.store = s.store.reset →
      s.Carries t := fun t ht =>
    ⟨fun factor hf => ht.1.symm ▸ hf, fun _ _ => ht.2 ▸ EdgeStore.Proper.reset s.store⟩
  refine hkeep _ (Attempt.andThen_keeps
    (p := fun t : Solver (Extended K) => t.graph = s.graph ∧ t.store = s.store.reset)
    (s'.frame_initializeNodes _) fun _ t ht => ht)

theorem Carries.modifyEdge {f : EdgeMessages (Extended K) →
      Except (SolverError (Extended K)) (EdgeMessages (Extended K))}
    (hf : ∀ state state', f state = .ok state' →
      (∀ side : Side, (side.outgoing state).Proper) → ∀ side : Side, (side.outgoing state').Proper)
    (s : Solver (Extended K)) (edge : Nat) : s.Carries (s.modifyEdge edge f).2 := by
  unfold Solver.modifyEdge
  rcases Nat.lt_or_ge edge s.store.size with he | he
  · rw [EdgeStore.get_eq_ok he]
    simp only
    cases hstate : f (s.store.stateOf edge) with
    | error e => exact .of_eq rfl rfl
    | ok state =>
      exact ⟨fun _ h => h, fun _ hp => hp.set he (hf _ _ hstate fun side => hp edge side)⟩
  · rw [EdgeStore.get_eq_error he]
    exact .of_eq rfl rfl

theorem proper_setToFactor {state state' : EdgeMessages (Extended K)} {m : Message (Extended K)}
    (h : state.setToFactor m = .ok state') (hs : ∀ side : Side, (side.outgoing state).Proper)
    (side : Side) : (side.outgoing state').Proper := by
  obtain ⟨hc, rfl⟩ := EdgeMessages.setToFactor_eq_ok h
  cases side
  · exact EdgeMessages.isAdmissible_of_checkMessage hc
  · exact hs .factor

theorem proper_setToVariable {state state' : EdgeMessages (Extended K)} {m : Message (Extended K)}
    (h : state.setToVariable m = .ok state') (hs : ∀ side : Side, (side.outgoing state).Proper)
    (side : Side) : (side.outgoing state').Proper := by
  obtain ⟨hc, rfl⟩ := EdgeMessages.setToVariable_eq_ok h
  cases side
  · exact hs .variable
  · exact EdgeMessages.isAdmissible_of_checkMessage hc

theorem proper_ofGraph {g : Graph (Extended K)} {settings : Settings (Extended K)}
    (hs : Solver.ofGraph g settings = .ok s) : s.store.Proper := by
  unfold Solver.ofGraph at hs
  split at hs
  · contradiction
  split at hs
  · contradiction
  simp only at hs
  split at hs
  · contradiction
  rename_i s' hs'
  obtain rfl := Except.ok.inj hs
  have hempty : ({} : EdgeStore (Extended K)).Proper := by
    intro e side
    cases side <;> simp [EdgeStore.stateOf, Side.outgoing, Message.Proper]
  have hkeep : ∀ s₀ : Solver (Extended K), s₀.store.Proper →
      s₀.createMissingEdges.2.store.Proper := fun s₀ h₀ =>
    (createEdges_keeps (P := EdgeStore.Proper) (fun _ size h => h.push size) s₀ _ _ h₀).2
  rw [← show _ = s' from congrArg Prod.snd hs']
  exact hkeep _ hempty

variable [IsStrictOrderedRing K] [Extended.Exponential K]

theorem WellFormed.carries_perform (h : s.WellFormed) (a : Action (Extended K)) :
    s.Carries (s.perform a) := by
  have hupdate : ∀ t, (∀ P W, s.Holds P W → s.Keeps P W → s.Continues P W t) → s.Carries t := by
    intro t ht
    have hg := (ht _ _ h.holds s.keeps_trivial).graph
    refine ⟨fun _ hf => hg ▸ hf, fun ha hp => ?_⟩
    exact (ht _ _ (h.holds_proper hp) (h.keeps_proper ha)).holds.store
  cases a with
  | initializeAll => exact .initializeAll s
  | initializeNode id =>
    obtain ⟨hg, hs⟩ := s.frame_initializeNode id
    exact .of_eq (congrArg Graph.factors hg) hs
  | update id => exact hupdate _ fun P W hs hk => hs.continues_update hk id
  | updatePort id port => exact hupdate _ fun P W hs hk => hs.continues_updatePort hk id port
  | iterate n => exact hupdate _ fun P W hs hk => hs.continues_iterate hk n
  | iterateParallel n => exact hupdate _ fun P W hs hk => hs.continues_iterateParallel hk n
  | iterateInOrder orders => exact hupdate _ fun P W hs hk => hs.continues_iterateInOrder hk orders
  | setInput v input =>
    obtain ⟨hg, hs⟩ := s.frame_changeInput fun g' hg => Graph.changesInput_of_setInput h.graph hg
    exact .of_eq hg hs
  | setInputProbabilities v p =>
    obtain ⟨hg, hs⟩ := s.frame_changeInput fun g' hg =>
      Graph.changesInput_of_setInputProbabilities h.graph hg
    exact .of_eq hg hs
  | fixValue v fixed =>
    obtain ⟨hg, hs⟩ := s.frame_changeInput fun g' hg => Graph.changesInput_of_fixValue h.graph hg
    exact .of_eq hg hs
  | setDamping id d =>
    obtain ⟨hg, hs⟩ := s.frame_setDamping id d
    exact .of_eq (congrArg Graph.factors hg) hs
  | setPortDamping id ds =>
    obtain ⟨hg, hs⟩ := s.frame_modifyChoice id _
    exact .of_eq (congrArg Graph.factors hg) hs
  | addVariable name domain =>
    obtain ⟨hg, hs⟩ := s.frame_addVariable h.graph name domain
    exact .of_eq hg hs
  | addTable table built operands =>
    have hgraph :=
      addTable_keeps (P := fun _ => True) (fun _ _ _ => trivial) s table operands trivial
    have hstore :=
      addTable_keeps (P := EdgeStore.Proper) (fun _ size h => h.push size) s table operands
    exact ⟨hgraph.1, fun _ hp => (hstore hp).2⟩
  | addCustom custom operands =>
    have hgraph :=
      addCustom_keeps (P := fun _ => True) (fun _ _ _ => trivial) s custom operands trivial
    have hstore :=
      addCustom_keeps (P := EdgeStore.Proper) (fun _ size h => h.push size) s custom operands
    exact ⟨hgraph.1, fun _ hp => (hstore hp).2⟩
  | setToFactor edge m => exact .modifyEdge (fun _ _ => proper_setToFactor) s edge
  | setToVariable edge m => exact .modifyEdge (fun _ _ => proper_setToVariable) s edge
  | resetEdge edge =>
    refine .modifyEdge (fun state state' he _ side => ?_) s edge
    obtain rfl := Except.ok.inj he
    cases side <;> exact Message.proper_uniform _
  | takeWarnings => exact .of_eq rfl rfl

/-- No run brings an invalid energy into a message. -/
theorem Reachable.proper (h : s.Reachable) (ha : s.graph.Admissible) : s.store.Proper := by
  induction h with
  | ofGraph hg hs => exact proper_ofGraph hs
  | perform h a ih =>
    have hc := h.wellFormed.carries_perform a
    have ha' := fun factor hf => ha factor (hc.factors factor hf)
    exact hc.proper ha' (ih ha')

end Solver

end MinSum
