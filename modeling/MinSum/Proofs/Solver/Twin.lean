import MinSum.Proofs.Solver.Initialize
import MinSum.Proofs.Solver.Mirror

/-! Updates of two solvers side by side. As long as their nodes compute the same messages, no run of
updates tells them apart, whether it succeeds or fails. -/
namespace MinSum

open Scratch

variable {E : Type} {Q : Graph.Potential E → Graph.Potential E → Prop}

namespace Node

variable [Energy E]

/-- From the given states both nodes compute the same messages, all at once and one by one. -/
structure Echoes (n n' : Node E) (states : List (EdgeMessages E)) : Prop where
  raw : n'.raw states = n.raw states
  rawPort : ∀ port < n.binding.edges.length, n'.rawPort states port = n.rawPort states port

namespace Mirrors

variable {n n' : Node E} (h : n.Mirrors Q n')

include h

omit [Energy E] in
theorem side_eq : n'.side = n.side := by
  rw [n'.side_eq, n.side_eq, h.id_eq]

variable {store : EdgeStore E} (he : n.Echoes n' (n.binding.edges.map store.stateOf))

include he

theorem deliver_eq : n'.deliver store = n.deliver store := by
  simp only [deliver, sent, h.binding_eq, h.side_eq, he.raw]

theorem reported_eq : n'.reported store = n.reported store := by
  simp only [reported, h.binding_eq, he.raw]

variable {port : Nat} (hp : port < n.binding.edges.length)

include hp

theorem deliverPort_eq : n'.deliverPort port store = n.deliverPort port store := by
  simp only [deliverPort, sentPort, h.binding_eq, h.side_eq, he.rawPort port hp]

theorem reportedPort_eq : n'.reportedPort port store = n.reportedPort port store := by
  simp only [reportedPort, h.binding_eq, he.rawPort port hp]

end Mirrors

end Node

namespace Phase

theorem checkReady_congr {nodes nodes' : List (Node E)}
    (h : nodes'.map (fun n => (n.id, n.binding)) = nodes.map fun n => (n.id, n.binding)) :
    checkReady nodes' = checkReady nodes := by
  induction nodes generalizing nodes' with
  | nil =>
    obtain rfl := List.map_eq_nil_iff.1 h
    rfl
  | cons n nodes ih =>
    obtain ⟨n', rest, rfl, hn, hrest⟩ := List.map_eq_cons_iff.1 h
    obtain ⟨hid, hb⟩ := Prod.mk.inj hn
    rw [checkReady, checkReady, hid, hb, ih hrest]

theorem gather_congr {nodes nodes' : List (Node E)} (h : nodes'.map Node.id = nodes.map Node.id)
    (answers : List (Option (Answer E))) : gather nodes' answers = gather nodes answers := by
  induction nodes generalizing nodes' answers with
  | nil =>
    obtain rfl := List.map_eq_nil_iff.1 h
    rfl
  | cons n nodes ih =>
    obtain ⟨n', rest, rfl, hid, hrest⟩ := List.map_eq_cons_iff.1 h
    rcases answers with _ | ⟨_ | answer, answers⟩
    · rfl
    · exact ih hrest answers
    · simp only [gather, ih hrest, hid]

variable [Energy E]

/-- Phases end alike if the nodes are bound alike and do the same once all are initialized. -/
theorem run_eq_of_runPlan {nodes nodes' : Array (Node E)}
    (h : nodes'.toList.map (fun n => (n.id, n.binding)) =
      nodes.toList.map fun n => (n.id, n.binding)) {store : EdgeStore E} {plan : Plan E}
    (hplan : (∀ n ∈ nodes, n.binding.initialized = true) →
      (∀ n ∈ nodes', n.binding.initialized = true) → ∀ answers,
        runPlan nodes' store answers plan = runPlan nodes store answers plan) :
    run nodes' store plan = run nodes store plan := by
  have hids : nodes'.toList.map Node.id = nodes.toList.map Node.id := by
    simpa [Function.comp_def] using congrArg (List.map Prod.fst) h
  have hedges : nodes'.toList.flatMap (·.binding.edges) =
      nodes.toList.flatMap (·.binding.edges) := by
    simpa [List.flatMap_map] using congrArg (List.flatMap fun x => x.2.edges) h
  have hsize : nodes'.size = nodes.size := by simpa using congrArg List.length h
  unfold run
  rw [checkReady_congr h, hedges, hsize]
  split
  · rfl
  rename_i hready
  have hi : ∀ n ∈ nodes, n.binding.initialized = true := by
    simpa using checkReady_eq_ok_iff.1 hready
  have hi' : ∀ n ∈ nodes', n.binding.initialized = true := by
    rw [← checkReady_congr h] at hready
    simpa using checkReady_eq_ok_iff.1 hready
  split
  · rfl
  rw [hplan hi hi']
  simp only [gather_congr hids]

variable {P P' : EdgeStore E → Prop}

/-- Bound to the same edges, the nodes do the same in a phase. -/
structure Echoes (P P' : EdgeStore E → Prop) (n n' : Node E) : Prop where
  id_eq : n'.id = n.id
  binding_eq : n'.binding = n.binding
  store : n.binding.initialized = true → ∀ store, P store → P' store
  deliver_eq : n.binding.initialized = true → ∀ store, P store →
    n'.deliver store = n.deliver store
  reported_eq : n.binding.initialized = true → ∀ store, P store →
    n'.reported store = n.reported store

variable {nodes nodes' : Array (Node E)} (hm : Matched (Echoes P P') nodes nodes')

include hm

theorem runPlan_congr (hi : ∀ n ∈ nodes, n.binding.initialized = true) (h : Runs nodes P)
    (h' : Runs nodes' P') {store : EdgeStore E} (hs : P store)
    (answers : Array (Option (Answer E))) (plan : Plan E) :
    runPlan nodes' store answers plan = runPlan nodes store answers plan := by
  induction plan generalizing store answers with
  | nil => rfl
  | cons step plan ih =>
    obtain ⟨i, pool⟩ := step
    rw [runPlan, runPlan]
    rcases hm.getElem? i with ⟨hn, hn'⟩ | ⟨n, n', hn, hn', he⟩
    · rw [hn, hn']
      exact ih hs answers
    · have hmem := Array.mem_of_getElem? hn
      have hs' := he.store (hi n hmem) store hs
      simp only [hn, hn', h.runNode n hmem store hs,
        h'.runNode n' (Array.mem_of_getElem? hn') store hs', he.deliver_eq (hi n hmem) store hs,
        he.reported_eq (hi n hmem) store hs]
      exact ih (h.deliver n hmem store hs) _

theorem run_congr (h : (∀ n ∈ nodes, n.binding.initialized = true) → Runs nodes P)
    (h' : (∀ n ∈ nodes', n.binding.initialized = true) → Runs nodes' P') {store : EdgeStore E}
    (hs : P store) (plan : Plan E) : run nodes' store plan = run nodes store plan := by
  have hkey := hm.map_eq (f := fun n => (n.id, n.binding)) (g := fun n => (n.id, n.binding))
    fun n n' he => by rw [he.id_eq, he.binding_eq]
  exact run_eq_of_runPlan hkey fun hi hi' answers =>
    runPlan_congr hm hi (h hi) (h' hi') hs answers plan

end Phase

namespace Solver

variable [Energy E] {P : EdgeStore E → Prop} {s t : Solver E}

/-- Mirrored solvers whose initialized nodes compute the same messages from the stores that
satisfy `P`, as the own one does. -/
structure Twins (Q : Graph.Potential E → Graph.Potential E → Prop) (P : EdgeStore E → Prop)
    (s t : Solver E) : Prop where
  mirrors : s.Mirrors Q t
  holds : s.Holds P fun _ => True
  keeps : s.Keeps P fun _ => True
  wellFormed : t.WellFormed
  echoes : ∀ id n n', s.nodeAt id = .ok n → t.nodeAt id = .ok n' → n.binding.initialized = true →
    ∀ store : EdgeStore E, store.Fits s.graph → P store →
      n.Echoes n' (n.binding.edges.map store.stateOf)

namespace Twins

variable (h : Twins Q P s t)

include h

/-- Updates that leave the same messages and warnings leave twins. -/
theorem next {s' t' : Solver E} (hs : s.Continues P (fun _ => True) s')
    (ht : t.Continues (fun _ => True) (fun _ => True) t') (hstore : t'.store = s'.store)
    (hw : t'.warnings = s'.warnings) : Twins Q P s' t' where
  mirrors := {
    graph := hs.graph.symm ▸ ht.graph.symm ▸ h.mirrors.graph
    settings := ht.settings.trans (h.mirrors.settings.trans hs.settings.symm)
    store := hstore
    warnings := hw
    vars := hs.vars.symm ▸ ht.vars.symm ▸ h.mirrors.vars
    factors := hs.factors.symm ▸ ht.factors.symm ▸ h.mirrors.factors }
  holds := hs.holds
  keeps := h.keeps.congr hs.toSameNodes
  wellFormed := ht.holds.wellFormed
  echoes id n n' hn hn' := by
    rw [hs.nodeAt] at hn
    rw [ht.nodeAt] at hn'
    rw [hs.graph]
    exact h.echoes id n n' hn hn'

theorem paired {ε α : Type} {a b : Attempt ε (Solver E) α}
    (hs : s.Continues P (fun _ => True) a.2)
    (ht : t.Continues (fun _ => True) (fun _ => True) b.2)
    (he : b.1 = a.1 ∧ b.2.store = a.2.store ∧ b.2.warnings = a.2.warnings) :
    Attempt.Paired (Twins Q P) a b :=
  ⟨he.1, h.next hs ht he.2.1 he.2.2⟩

theorem warnings_append (l : List Contradiction) : t.warnings ++ l = s.warnings ++ l := by
  rw [h.mirrors.warnings]

variable [Energy.LawfulZero E]

/-! Single updates -/

theorem update (id : NodeId) : Attempt.Paired (Twins Q P) (s.update id) (t.update id) := by
  refine h.paired (h.holds.continues_update h.keeps id)
    (h.wellFormed.holds.continues_update t.keeps_trivial id) ?_
  rcases h.mirrors.beside.nodeAt id with ⟨e, hn, hn'⟩ | ⟨n, n', hn, hn', hnn⟩
  · simp only [Solver.update, runUpdate, hn, hn', h.mirrors.store, h.mirrors.warnings, and_self]
  cases hi : n.binding.initialized with
  | false =>
    have hi' : n'.binding.initialized = false := hnn.binding_eq ▸ hi
    rw [Solver.update, Solver.update, runUpdate_of_waiting hn hi, runUpdate_of_waiting hn' hi']
    exact ⟨rfl, h.mirrors.store, h.mirrors.warnings⟩
  | true =>
    obtain ⟨pool, hu⟩ := h.holds.wellFormed.update_eq hn hi
    obtain ⟨pool', hu'⟩ := h.wellFormed.update_eq hn' (hnn.binding_eq ▸ hi)
    have he := h.echoes id n n' hn hn' hi s.store h.holds.wellFormed.store h.holds.store
    rw [hu, hu', h.mirrors.store, hnn.deliver_eq he, hnn.reported_eq he]
    exact ⟨rfl, rfl, h.warnings_append _⟩

theorem updatePort (id : NodeId) (port : Nat) :
    Attempt.Paired (Twins Q P) (s.updatePort id port) (t.updatePort id port) := by
  refine h.paired (h.holds.continues_updatePort h.keeps id port)
    (h.wellFormed.holds.continues_updatePort t.keeps_trivial id port) ?_
  rcases h.mirrors.beside.nodeAt id with ⟨e, hn, hn'⟩ | ⟨n, n', hn, hn', hnn⟩
  · simp only [Solver.updatePort, runUpdate, hn, hn', h.mirrors.store, h.mirrors.warnings,
      and_self]
  cases hi : n.binding.initialized with
  | false =>
    have hi' : n'.binding.initialized = false := hnn.binding_eq ▸ hi
    rw [Solver.updatePort, Solver.updatePort, runUpdate_of_waiting hn hi,
      runUpdate_of_waiting hn' hi']
    exact ⟨rfl, h.mirrors.store, h.mirrors.warnings⟩
  | true =>
    have hi' : n'.binding.initialized = true := hnn.binding_eq ▸ hi
    rcases Nat.lt_or_ge port n.binding.edges.length with hp | hp
    · obtain ⟨pool, hu⟩ := h.holds.wellFormed.updatePort_eq hn hi hp
      obtain ⟨pool', hu'⟩ := h.wellFormed.updatePort_eq hn' hi' (hnn.binding_eq ▸ hp)
      have he := h.echoes id n n' hn hn' hi s.store h.holds.wellFormed.store h.holds.store
      rw [hu, hu', h.mirrors.store, hnn.deliverPort_eq he hp, hnn.reportedPort_eq he hp]
      exact ⟨rfl, rfl, h.warnings_append _⟩
    · rw [h.holds.wellFormed.updatePort_eq_error hn hi hp,
        h.wellFormed.updatePort_eq_error hn' hi' (hnn.binding_eq ▸ hp), hnn.binding_eq]
      exact ⟨rfl, h.mirrors.store, h.mirrors.warnings⟩

theorem updateNodes (ids : List NodeId) :
    Attempt.Paired (Twins Q P) (s.updateNodes ids) (t.updateNodes ids) := by
  induction ids generalizing s t with
  | nil => exact ⟨rfl, h⟩
  | cons id ids ih => exact (h.update id).andThen fun _ _ _ h' => ih h'

theorem iterate (n : Nat) : Attempt.Paired (Twins Q P) (s.iterate n) (t.iterate n) := by
  induction n generalizing s t with
  | zero => exact ⟨rfl, h⟩
  | succ n ih =>
    rw [Solver.iterate, Solver.iterate, h.mirrors.beside.factorIds, h.mirrors.beside.variableIds]
    exact (h.updateNodes _).andThen fun _ _ _ h' => ih h'

/-! Parallel phases -/

omit [Energy.LawfulZero E] in
theorem echoes_phase {n n' : Node E} (hn : s.nodeAt n.id = .ok n) (hn' : t.nodeAt n'.id = .ok n')
    (hnn : n.Mirrors Q n') :
    Phase.Echoes (fun store => store.Fits s.graph ∧ P store)
      (fun store => store.Fits t.graph ∧ True) n n' := by
  have he : n.binding.initialized = true → ∀ store : EdgeStore E, store.Fits s.graph ∧ P store →
      n.Echoes n' (n.binding.edges.map store.stateOf) := fun hi store hs =>
    h.echoes n.id n n' hn (hnn.id_eq ▸ hn') hi store hs.1 hs.2
  have hg := h.mirrors.graph
  exact {
    id_eq := hnn.id_eq
    binding_eq := hnn.binding_eq
    store := fun _ store hs => ⟨hs.1.congr (by rw [hg.edges]) hg.edgeSize, trivial⟩
    deliver_eq := fun hi store hs => hnn.deliver_eq (he hi store hs)
    reported_eq := fun hi store hs => hnn.reported_eq (he hi store hs) }

theorem runPhase {nodes nodes' : Array (Node E)} (hnodes : ∀ n ∈ nodes, s.nodeAt n.id = .ok n)
    (hnodes' : ∀ n ∈ nodes', t.nodeAt n.id = .ok n)
    (hm : Matched (Node.Mirrors Q) nodes nodes') (plan : Plan E) :
    Attempt.Paired (Twins Q P) (s.runPhase nodes plan) (t.runPhase nodes' plan) := by
  refine h.paired (h.holds.continues_runPhase h.keeps hnodes plan)
    (h.wellFormed.holds.continues_runPhase t.keeps_trivial hnodes' plan) ?_
  have hrun := Phase.run_congr (hm.imp fun i n n' hn hn' hnn =>
      h.echoes_phase (hnodes n (Array.mem_of_getElem? hn)) (hnodes' n' (Array.mem_of_getElem? hn'))
        hnn)
    (h.holds.runs h.keeps hnodes) (h.wellFormed.holds.runs t.keeps_trivial hnodes')
    ⟨h.holds.wellFormed.store, h.holds.store⟩ plan
  simp only [Solver.runPhase, h.mirrors.store, hrun]
  cases (Phase.run nodes s.store plan).1 with
  | error e => exact ⟨rfl, rfl, h.mirrors.warnings⟩
  | ok reports =>
    simp only [foldl_record, h.mirrors.warnings, and_self]

theorem sweep (order : Sweep E) : Attempt.Paired (Twins Q P) (s.sweep order) (t.sweep order) := by
  have hf : Matched (Node.Mirrors Q) (s.factors.map .factor) (t.factors.map .factor) :=
    h.mirrors.factors.map fun _ _ hmm => .factor hmm
  refine (h.runPhase h.holds.wellFormed.nodeAt_factors h.wellFormed.nodeAt_factors hf
    order.factors).andThen fun _ s t h => ?_
  have hv : Matched (Node.Mirrors Q) (s.vars.map .var) (t.vars.map .var) :=
    h.mirrors.vars.map fun _ _ hmm => .var hmm
  exact h.runPhase h.holds.wellFormed.nodeAt_vars h.wellFormed.nodeAt_vars hv order.vars

theorem iterateInOrder (orders : List (Sweep E)) :
    Attempt.Paired (Twins Q P) (s.iterateInOrder orders) (t.iterateInOrder orders) := by
  induction orders generalizing s t with
  | nil => exact ⟨rfl, h⟩
  | cons order orders ih => exact (h.sweep order).andThen fun _ _ _ h' => ih h'

theorem iterateParallel (n : Nat) :
    Attempt.Paired (Twins Q P) (s.iterateParallel n) (t.iterateParallel n) := by
  induction n generalizing s t with
  | zero => exact ⟨rfl, h⟩
  | succ n ih =>
    rw [Solver.iterateParallel, Solver.iterateParallel, sweepOrder, sweepOrder,
      h.mirrors.factors.size, h.mirrors.vars.size, h.mirrors.settings]
    exact (h.sweep _).andThen fun _ _ _ h' => ih h'

end Twins

/-- Twins answer every action alike and mirror each other afterwards. -/
theorem Twins.perform {E : Type} [LogEnergy E] [Energy.LawfulZero E]
    {Q : Graph.Potential E → Graph.Potential E → Prop} {P : EdgeStore E → Prop} {s t : Solver E}
    (h : Twins Q P s t) (hQ : ∀ p p', Graph.Potential.Same p p' → Q p p') (a : Action E) :
    t.reply a = s.reply a ∧ (s.perform a).Mirrors Q (t.perform a) := by
  have hb : ∀ {α : Type} {x y : Attempt (SolverError E) (Solver E) α},
      Attempt.Paired (Twins Q P) x y →
        Attempt.Paired (Beside Q (Node.Mirrors Q) fun _ _ => True) x y :=
    fun hxy => hxy.imp fun _ _ h => h.mirrors.beside
  have hR := Node.congruent_mirrors Q
  obtain ⟨hreply, hs⟩ := h.mirrors.beside.perform hR hQ (fun id => hb (h.update id))
    (fun id port => hb (h.updatePort id port)) (fun n => hb (h.iterate n))
    (fun n => hb (h.iterateParallel n)) (fun orders => hb (h.iterateInOrder orders)) a
  exact ⟨hreply, hs.mirrors hR⟩

end Solver

end MinSum
