import MinSum.Proofs.Solver.AnyOrder
import MinSum.Proofs.Solver.Contradiction
import MinSum.Proofs.Solver.Exact

/-! What a sweep leaves of the messages. In each of its phases the nodes of one kind speak: they
settle what they compute from the messages before the phase, and the others keep silent. -/
namespace MinSum

variable {E : Type} [Energy E]

omit [Energy E] in
/-- A state is told by its two messages. -/
theorem EdgeMessages.ext_outgoing {state state' : EdgeMessages E}
    (h : ∀ side : Side, side.outgoing state = side.outgoing state') : state = state' := by
  cases state
  cases state'
  congr
  · exact h .variable
  · exact h .factor

/-- Each message of an edge is said by a node. -/
theorem Graph.WellFormed.exists_speaker {g : Graph E} (hg : g.WellFormed) {e : Nat}
    (he : e < g.edges.size) (side : Side) : ∃ id : NodeId, id.side = side ∧ e ∈ g.incident id := by
  have hedge := Array.getElem?_eq_getElem he
  have hside : (g.edges[e].node side).side = side := by cases side <;> rfl
  exact ⟨_, hside, hg.mem_incident_iff.2 ⟨_, hedge, by rw [hside]⟩⟩

/-- So its state is told by what its nodes said. -/
theorem Graph.WellFormed.state_ext {g : Graph E} (hg : g.WellFormed) {e : Nat}
    (he : e < g.edges.size) {state state' : EdgeMessages E}
    (h : ∀ id : NodeId, e ∈ g.incident id → id.side.outgoing state = id.side.outgoing state') :
    state = state' := by
  apply EdgeMessages.ext_outgoing
  intro side
  obtain ⟨id, rfl, hmem⟩ := hg.exists_speaker he side
  exact h id hmem

theorem EdgeStore.Fits.ext_said {g : Graph E} (hg : g.WellFormed) {a b : EdgeStore E}
    (ha : a.Fits g) (hb : b.Fits g)
    (h : ∀ id e, e ∈ g.incident id → a.said id e = b.said id e) : a = b := by
  apply ext_stateOf (ha.size.trans hb.size.symm)
  intro e
  rcases Nat.lt_or_ge e g.edges.size with he | he
  · exact hg.state_ext he fun id => h id e
  · rw [stateOf_of_le (ha.size ▸ he), stateOf_of_le (hb.size ▸ he)]

def Graph.Potential.rule (p : Graph.Potential E) : Rule E :=
  match p with
  | .table t => .table t.content
  | .custom c => .custom c

def Graph.ruleAt (g : Graph E) (id : NodeId) : Rule E :=
  match id with
  | .var v => .prior (g.priorOf v)
  | .factor f => (g.factors[f]?.map (·.potential.rule)).getD (.prior [])

/-- What a node of the graph computes for its ports from what it hears. -/
def Graph.rawAt (g : Graph E) (store : EdgeStore E) (id : NodeId) : List (Message E) :=
  (g.ruleAt id).raw ((g.incident id).map (store.heard id)) ((g.incident id).map (store.said id))

namespace Node.Tracks

variable {g : Graph E} {settings : Settings E} {id : NodeId} {n : Node E}
  (h : n.Tracks g settings id) (hi : n.binding.initialized = true)

include h hi

/-- An initialized node computes as the graph says. -/
theorem rule_eq : n.rule = g.ruleAt id := by
  cases n with
  | var m =>
    obtain ⟨rfl, hprior⟩ := h.prior_eq hi rfl
    rw [rule, Graph.ruleAt, hprior]
  | factor m =>
    obtain rfl : id = .factor m.factor := h.id_eq.symm
    obtain ⟨factor, hf, hpot⟩ := Option.map_eq_some_iff.1 (h.potential m rfl)
    simp only [rule, Graph.ruleAt, hf, ← hpot]
    rfl

theorem raw_eq (store : EdgeStore E) :
    n.raw (n.binding.edges.map store.stateOf) = g.rawAt store id := by
  rw [raw, h.map_incoming hi, h.map_outgoing hi, h.rule_eq hi, Graph.rawAt]

end Node.Tracks

namespace Solver

/-- The coefficients in force at a node; none if no port is damped. -/
def dampings (s : Solver E) (id : NodeId) : Option (List E) :=
  match s.nodeAt id with
  | .ok n => n.binding.damping
  | .error _ => none

/-- The nodes on one side have spoken, each on all of its edges, and no other node has. -/
structure Spoken (s : Solver E) (side : Side) (store store' : EdgeStore E) : Prop where
  fits : store'.Fits s.graph
  own : ∀ id, id.side = side → ∀ (p e : Nat) raw, (s.graph.incident id)[p]? = some e →
    (s.graph.rawAt store id)[p]? = some raw →
    store'.said id e = Update.settled (s.dampings id) p raw (store.said id e)
  other : ∀ id e, e ∈ s.graph.incident id → id.side ≠ side →
    store'.said id e = store.said id e

/-- `n` sweeps have led from one store to the other. -/
inductive Swept (s : Solver E) : Nat → EdgeStore E → EdgeStore E → Prop where
  | zero (store : EdgeStore E) : Swept s 0 store store
  | succ {n : Nat} {a b c d : EdgeStore E} (factors : s.Spoken .factor a b)
      (vars : s.Spoken .variable b c) (rest : Swept s n c d) : Swept s (n + 1) a d

variable {s s' : Solver E} {side : Side} {a b : EdgeStore E}

omit [Energy E] in
theorem dampings_eq {id : NodeId} {n : Node E} (hn : s.nodeAt id = .ok n) :
    s.dampings id = n.binding.damping := by
  simp only [dampings, hn]

omit [Energy E] in
theorem SameNodes.dampings (h : s.SameNodes s') (id : NodeId) :
    s'.dampings id = s.dampings id := by
  simp only [Solver.dampings, h.nodeAt]

omit [Energy E] in
theorem SameNodes.symm (h : s.SameNodes s') : s'.SameNodes s :=
  ⟨h.graph.symm, h.settings.symm, h.vars.symm, h.factors.symm⟩

theorem SameNodes.spoken (h : s.SameNodes s') (hs : s'.Spoken side a b) : s.Spoken side a b where
  fits := h.graph ▸ hs.fits
  own id hid := by
    rw [← h.dampings id, ← h.graph]
    exact hs.own id hid
  other id e he := hs.other id e (h.graph ▸ he)

theorem SameNodes.swept {n : Nat} (h : s.SameNodes s') (hs : s'.Swept n a b) :
    s.Swept n a b := by
  induction hs with
  | zero store => exact .zero store
  | succ factors vars _ ih => exact .succ (h.spoken factors) (h.spoken vars) ih

omit [Energy E] in
theorem mem_factors {id : NodeId} {n : Node E} (hn : s.nodeAt id = .ok n)
    (hid : id.side = .factor) : n ∈ s.factors.map Node.factor := by
  cases id with
  | var v => contradiction
  | factor f =>
    obtain ⟨m, hm, rfl⟩ := nodeAt_factor_eq_ok.1 hn
    exact Array.mem_map.2 ⟨m, Array.mem_of_getElem? hm, rfl⟩

omit [Energy E] in
theorem mem_vars {id : NodeId} {n : Node E} (hn : s.nodeAt id = .ok n)
    (hid : id.side = .variable) : n ∈ s.vars.map Node.var := by
  cases id with
  | factor f => contradiction
  | var v =>
    obtain ⟨m, hm, rfl⟩ := nodeAt_var_eq_ok.1 hn
    exact Array.mem_map.2 ⟨m, Array.mem_of_getElem? hm, rfl⟩

def Ready (s : Solver E) : Prop := ∀ id, s.graph.HasNode id → s.Initialized id

omit [Energy E] in
theorem SameNodes.ready (h : s.SameNodes s') (hr : s.Ready) : s'.Ready := by
  intro id hid
  exact (h.initialized_iff id).2 (hr id (h.graph ▸ hid))

omit [Energy E] in
theorem ready_of_forall (hsv : s.vars.size = s.graph.vars.size)
    (hsf : s.factors.size = s.graph.factors.size)
    (hv : ∀ n ∈ s.vars.toList, n.binding.initialized = true)
    (hf : ∀ n ∈ s.factors.toList, n.binding.initialized = true) : s.Ready := by
  intro id hid
  obtain ⟨n, hn⟩ := exists_nodeAt hsv hsf hid
  refine ⟨n, hn, ?_⟩
  cases id with
  | var v =>
    obtain ⟨m, hm, rfl⟩ := nodeAt_var_eq_ok.1 hn
    exact hv m (Array.mem_toList_iff.2 (Array.mem_of_getElem? hm))
  | factor f =>
    obtain ⟨m, hm, rfl⟩ := nodeAt_factor_eq_ok.1 hn
    exact hf m (Array.mem_toList_iff.2 (Array.mem_of_getElem? hm))

namespace WellFormed

variable [Energy.LawfulZero E] (h : s.WellFormed) (hr : s.Ready)

include h hr

/-- A phase in which all nodes of one side take part. -/
theorem spoken_updateNodes {nodes : Array (Node E)} (hl : s.Lineup side nodes)
    (hall : ∀ id n, s.nodeAt id = .ok n → id.side = side → n ∈ nodes) :
    ∃ s', s.updateNodes (nodes.toList.map Node.id) = (.ok (), s') ∧ s.SameNodes s' ∧
      s'.WellFormed ∧ s.Spoken side s.store s'.store := by
  have hi : ∀ n ∈ nodes, n.binding.initialized = true := fun n hn =>
    h.initialized_of_nodeAt hr (hl.nodeAt n hn)
  obtain ⟨store, pool, hd, hu⟩ := h.updateNodes_delivered
    (fun n hn => hl.nodeAt n (Array.mem_toList_iff.1 hn))
    (fun n hn => hi n (Array.mem_toList_iff.1 hn)) (h.apart hl hi)
  have hc := h.holds.continues_updateNodes s.keeps_trivial (nodes.toList.map Node.id)
  rw [hu] at hc
  refine ⟨_, hu, hc.toSameNodes, hc.holds.wellFormed, hc.holds.wellFormed.store, ?_, ?_⟩
  · intro id hid p e raw hp hraw
    have he := List.mem_of_getElem? hp
    obtain ⟨n, hn⟩ := h.nodeAt_of_hasNode id (Graph.WellFormed.hasNode_of_mem_incident he)
    have ht := h.tracks id n hn
    have hmem := hall id n hn hid
    rw [← ht.edges_eq (hi n hmem)] at hp he
    rw [← ht.raw_eq (hi n hmem)] at hraw
    have hown := hd.own n (Array.mem_toList_iff.2 hmem) e he
    have hsaid := ht.said_deliver (hi n hmem) h.graph h.store hp hraw
    rw [EdgeStore.said] at hsaid ⊢
    rw [hown, hsaid, dampings_eq hn]
  · intro id e he hne
    rw [EdgeStore.said]
    by_cases hmem : ∃ n ∈ nodes, e ∈ n.binding.edges
    · obtain ⟨n, hn, hen⟩ := hmem
      have hn' := hl.nodeAt n hn
      have hside : n.id.side = side := by
        rw [← n.side_eq]
        exact hl.side_eq n (Array.mem_toList_iff.2 hn)
      have hid : id ≠ n.id := by
        rintro rfl
        exact hne hside
      have hsaid := (h.tracks _ n hn').said_deliver_of_ne (hi n hn) h.graph h.store he hid
      rw [EdgeStore.said] at hsaid
      rw [hd.own n (Array.mem_toList_iff.2 hn) e hen, hsaid]
    · rw [hd.other e fun n hn hen => hmem ⟨n, Array.mem_toList_iff.1 hn, hen⟩]
      rfl

/-- In a sweep the factors speak and then the variables. -/
theorem exists_swept : ∃ s', s.updateNodes (s.factorIds ++ s.variableIds) = (.ok (), s') ∧
    s.SameNodes s' ∧ s'.WellFormed ∧
    ∃ heard, s.Spoken .factor s.store heard ∧ s.Spoken .variable heard s'.store := by
  obtain ⟨s₁, hu₁, hs₁, hw₁, hf⟩ := h.spoken_updateNodes hr h.lineup_factors
    fun id n hn hid => mem_factors hn hid
  obtain ⟨s₂, hu₂, hs₂, hw₂, hv⟩ := hw₁.spoken_updateNodes (hs₁.ready hr) hw₁.lineup_vars
    fun id n hn hid => mem_vars hn hid
  rw [h.map_id_factors] at hu₁
  rw [hw₁.map_id_vars] at hu₂
  refine ⟨s₂, ?_, hs₁.trans hs₂, hw₂, s₁.store, hf, hs₁.spoken hv⟩
  rw [updateNodes_append, Attempt.andThen_eq (congrArg Prod.fst hu₁), hu₁]
  rwa [variableIds, hs₁.vars] at hu₂

theorem swept_iterate (n : Nat) : ∃ s', s.iterate n = (.ok (), s') ∧ s.SameNodes s' ∧
    s'.WellFormed ∧ s.Swept n s.store s'.store := by
  induction n generalizing s with
  | zero => exact ⟨s, rfl, .refl s, h, .zero _⟩
  | succ n ih =>
    obtain ⟨s₁, hu, hs₁, hw₁, heard, hf, hv⟩ := h.exists_swept hr
    obtain ⟨s₂, hn, hs₂, hw₂, hrest⟩ := ih hw₁ (hs₁.ready hr)
    refine ⟨s₂, ?_, hs₁.trans hs₂, hw₂, .succ hf hv (hs₁.swept hrest)⟩
    rw [iterate, Attempt.andThen_eq (congrArg Prod.fst hu), hu]
    exact hn

omit [Energy.LawfulZero E] in
/-- A node computes a message of the right length for each of its ports. -/
theorem exists_rawAt (ha : a.Fits s.graph) {id : NodeId} {p e : Nat}
    (hp : (s.graph.incident id)[p]? = some e) :
    ∃ raw, (s.graph.rawAt a id)[p]? = some raw ∧ raw.length = s.graph.edgeSize e := by
  have hid := Graph.WellFormed.hasNode_of_mem_incident (List.mem_of_getElem? hp)
  obtain ⟨n, hn, hi⟩ := hr id hid
  have ht := h.tracks id n hn
  have hlen := (ht.ready h.graph hi ha).lengths_raw
  rw [ht.raw_eq hi, ht.sizes_eq hi, ht.edges_eq hi] at hlen
  have hget := congrArg (·[p]?) hlen
  simp only [List.getElem?_map, hp, Option.map_some] at hget
  exact Option.map_eq_some_iff.1 hget

omit [Energy.LawfulZero E] in
theorem length_rawAt (ha : a.Fits s.graph) {id : NodeId} {p e : Nat} {raw : Message E}
    (hp : (s.graph.incident id)[p]? = some e) (hraw : (s.graph.rawAt a id)[p]? = some raw) :
    raw.length = s.graph.edgeSize e := by
  obtain ⟨raw', hraw', hlen⟩ := h.exists_rawAt hr ha hp
  rwa [Option.some.inj (hraw.symm.trans hraw')]

end WellFormed

variable {K : Type} [Field K] [LinearOrder K] {s : Solver (Extended K)} {side : Side}
  {a b : EdgeStore (Extended K)}

namespace WellFormed

variable (h : s.WellFormed) (hr : s.Ready) (ha : a.Fits s.graph) (hp : a.Proper)
  (hx : s.graph.Admissible)

include h hr ha hp hx

theorem sends_rawAt {id : NodeId} {p e : Nat} {raw : Message (Extended K)}
    (hpe : (s.graph.incident id)[p]? = some e) (hraw : (s.graph.rawAt a id)[p]? = some raw) :
    (s.graph.ruleAt id).Sends (s.graph.edgeSize e) ((s.graph.incident id).map (a.heard id)) p
      raw := by
  have hid := Graph.WellFormed.hasNode_of_mem_incident (List.mem_of_getElem? hpe)
  obtain ⟨n, hn, hi⟩ := hr id hid
  have ht := h.tracks id n hn
  rw [← ht.edges_eq hi] at hpe
  obtain ⟨m, hm, -, hsend⟩ := ht.sends_raw hi h.graph ha hp hx hpe
  rw [ht.raw_eq hi, hraw] at hm
  obtain rfl := Option.some.inj hm
  rwa [ht.rule_eq hi] at hsend

omit hx in
/-- In a graph of tables and equalities it is what the node has to say. -/
theorem says_rawAt (hx : s.graph.Exact) {id : NodeId} {p e : Nat} {raw : Message (Extended K)}
    (hpe : (s.graph.incident id)[p]? = some e) (hraw : (s.graph.rawAt a id)[p]? = some raw) :
    s.graph.Says a id e raw := by
  have hid := Graph.WellFormed.hasNode_of_mem_incident (List.mem_of_getElem? hpe)
  obtain ⟨n, hn, hi⟩ := hr id hid
  have ht := h.tracks id n hn
  have hsend := h.sends_rawAt hr ha hp hx.admissible hpe hraw
  rw [← ht.rule_eq hi] at hsend
  rw [← ht.edges_eq hi] at hpe
  exact ht.says_of_sends hi h.graph hx hpe hsend

variable [IsStrictOrderedRing K]

theorem proper_settled {id : NodeId} {p e : Nat} {raw : Message (Extended K)}
    (hpe : (s.graph.incident id)[p]? = some e) (hraw : (s.graph.rawAt a id)[p]? = some raw) :
    (Update.settled (s.dampings id) p raw (a.said id e)).Proper := by
  have hid := Graph.WellFormed.hasNode_of_mem_incident (List.mem_of_getElem? hpe)
  obtain ⟨n, hn, hi⟩ := hr id hid
  have hsend := h.sends_rawAt hr ha hp hx hpe hraw
  have hlen := h.length_rawAt hr ha hpe hraw
  have hlt : e < a.size :=
    ha.size ▸ h.graph.lt_of_mem_incident (List.mem_of_getElem? hpe)
  have hold : (a.said id e).length = raw.length :=
    ((ha.states e hlt).outgoing _).trans hlen.symm
  have hunit := (h.tracks id n hn).unitDamping hi h.damping
  rw [dampings_eq hn]
  exact (hunit.settled p hsend.proper (hp.said id e) hold).1

theorem proper_spoken (hs : s.Spoken side a b) : b.Proper := by
  intro e side'
  rcases Nat.lt_or_ge e s.graph.edges.size with he | he
  · obtain ⟨id, rfl, hmem⟩ := h.graph.exists_speaker he side'
    change (b.said id e).Proper
    by_cases hown : id.side = side
    · obtain ⟨p, hpe⟩ := List.mem_iff_getElem?.1 hmem
      obtain ⟨raw, hraw, -⟩ := h.exists_rawAt hr ha hpe
      rw [hs.own id hown p e raw hpe hraw]
      exact h.proper_settled hr ha hp hx hpe hraw
    · rw [hs.other id e hmem hown]
      exact hp.said id e
  · rw [EdgeStore.stateOf_of_le (hs.fits.size ▸ he)]
    cases side' <;> simp [Side.outgoing, Message.Proper]

end WellFormed

end Solver

end MinSum
