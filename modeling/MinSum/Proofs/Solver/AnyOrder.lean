import Mathlib.Data.Nat.Find
import MinSum.Proofs.Solver.Delivered
import MinSum.Proofs.Solver.Initialize
import MinSum.Proofs.Solver.Reachable

/-! Parallel sweeps. In whatever order the nodes of a phase run, a sweep leaves the messages and the
warnings of the sequential one, and if a node waits for initialization it stops with the same error
before the phase of that node has changed a message. -/
namespace MinSum

open Scratch

variable {E : Type}

def NodeId.number : NodeId → Nat
  | .var v => v
  | .factor f => f

/-- Warnings about nodes on one side, by the number of the node and by port. -/
structure InOrder (side : Side) (log : List Contradiction) : Prop where
  side_eq : ∀ w ∈ log, w.node.side = side
  sorted : log.Pairwise fun w w' =>
    w.node.number < w'.node.number ∨ w.node = w'.node ∧ w.port < w'.port

theorem Phase.inOrder_log [Energy E] {nodes : List (Node E)} {side : Side}
    (hside : ∀ n ∈ nodes, n.side = side)
    (hsorted : (nodes.map Node.id).Pairwise fun id id' => id.number < id'.number)
    (store : EdgeStore E) : InOrder side (log nodes store) where
  side_eq w hw := by
    obtain ⟨n, hn, hw⟩ := List.mem_flatMap.1 hw
    obtain ⟨port, -, rfl⟩ := List.mem_map.1 hw
    rw [← n.side_eq, hside n hn]
  sorted := by
    rw [log, List.pairwise_flatMap]
    constructor
    · intro n _
      refine List.Pairwise.map _ ?_ (Update.pairwise_contradictory 0 _)
      exact fun p p' hp => .inr ⟨rfl, hp⟩
    · refine (List.pairwise_map.1 hsorted).imp fun {n n'} hlt w hw w' hw' => ?_
      obtain ⟨port, -, rfl⟩ := List.mem_map.1 hw
      obtain ⟨port', -, rfl⟩ := List.mem_map.1 hw'
      exact .inl hlt

/-- Both phases run all nodes of the solver, each once. -/
structure Sweep.Covers (order : Sweep E) (s : Solver E) : Prop where
  factors : Phase.Covers order.factors s.factors.size
  vars : Phase.Covers order.vars s.vars.size

/-- The first node that waits for initialization. Factors come before variables. -/
inductive Solver.FirstWaiting (s : Solver E) : NodeId → Prop where
  | factor {f : Nat} (hf : f < s.factors.size) (waits : ¬ s.Initialized (.factor f))
      (before : ∀ f' < f, s.Initialized (.factor f')) : FirstWaiting s (.factor f)
  | var {v : Nat} (factors : ∀ f < s.factors.size, s.Initialized (.factor f))
      (hv : v < s.vars.size) (waits : ¬ s.Initialized (.var v))
      (before : ∀ v' < v, s.Initialized (.var v')) : FirstWaiting s (.var v)

theorem Phase.checkReady_append {before after : List (Node E)} {n : Node E}
    (hb : ∀ n ∈ before, n.binding.initialized = true) (hn : n.binding.initialized = false) :
    checkReady (before ++ n :: after) = .error (.notInitialized n.id) := by
  induction before with
  | nil => simp [checkReady, Binding.checkReady, hn]
  | cons m before ih =>
    rw [List.forall_mem_cons] at hb
    simp only [List.cons_append, checkReady, Binding.checkReady, hb.1, if_true, ih hb.2]

namespace Solver

theorem exists_range_eq {i n : Nat} (h : i < n) :
    ∃ rest, List.range n = List.range i ++ i :: rest := by
  obtain ⟨k, rfl⟩ := Nat.exists_eq_add_of_lt h
  refine ⟨(List.range k).map fun j => i + (j + 1), ?_⟩
  rw [Nat.add_assoc, List.range_add, List.range_succ_eq_map, List.map_cons, List.map_map]
  rfl

theorem FirstWaiting.exists_split {s : Solver E} {id : NodeId} (h : s.FirstWaiting id) :
    ∃ before after, s.factorIds ++ s.variableIds = before ++ id :: after ∧
      (∀ id' ∈ before, s.Initialized id') ∧ ¬ s.Initialized id := by
  cases h with
  | @factor f hf waits before =>
    obtain ⟨rest, hrange⟩ := exists_range_eq hf
    refine ⟨(List.range f).map .factor, rest.map .factor ++ s.variableIds, ?_, ?_, waits⟩
    · simp [factorIds, hrange]
    · simpa using before
  | @var v factors hv waits before =>
    obtain ⟨rest, hrange⟩ := exists_range_eq hv
    refine ⟨s.factorIds ++ (List.range v).map .var, rest.map .var, ?_, ?_, waits⟩
    · simp [variableIds, hrange]
    · intro id hid
      rcases List.mem_append.1 hid with hid | hid
      · obtain ⟨f, hf, rfl⟩ := List.mem_map.1 hid
        exact factors f (List.mem_range.1 hf)
      · obtain ⟨v', hv', rfl⟩ := List.mem_map.1 hid
        exact before v' (List.mem_range.1 hv')

/-- The pool of a solver takes no part in a phase. -/
def withPool (s : Solver E) (pool : Pool E) : Solver E := { s with pool }

variable [Energy E]

theorem runPhase_withPool (s : Solver E) (pool : Pool E) (nodes : Array (Node E))
    (plan : Plan E) : (s.withPool pool).runPhase nodes plan =
      ((s.runPhase nodes plan).1, (s.runPhase nodes plan).2.withPool pool) := by
  simp only [runPhase, withPool, foldl_record]
  cases (Phase.run nodes s.store plan).1 <;> rfl

theorem sweep_withPool (s : Solver E) (pool : Pool E) (order : Sweep E) :
    (s.withPool pool).sweep order =
      ((s.sweep order).1, (s.sweep order).2.withPool pool) := by
  have hf := s.runPhase_withPool pool (s.factors.map .factor) order.factors
  simp only [sweep]
  rw [show (s.withPool pool).factors = s.factors from rfl, hf]
  obtain ⟨r, s'⟩ := s.runPhase (s.factors.map .factor) order.factors
  cases r with
  | error e => rfl
  | ok _ => exact s'.runPhase_withPool pool _ _

theorem iterateInOrder_withPool (s : Solver E) (pool : Pool E) (orders : List (Sweep E)) :
    (s.withPool pool).iterateInOrder orders =
      ((s.iterateInOrder orders).1, (s.iterateInOrder orders).2.withPool pool) := by
  induction orders generalizing s with
  | nil => rfl
  | cons order orders ih =>
    simp only [iterateInOrder]
    rw [s.sweep_withPool]
    obtain ⟨r, s'⟩ := s.sweep order
    cases r with
    | error e => rfl
    | ok _ => exact ih s'

/-- The nodes of a phase: different ones, all on one side and by number. -/
structure Lineup (s : Solver E) (side : Side) (nodes : Array (Node E)) : Prop where
  nodeAt : ∀ n ∈ nodes, s.nodeAt n.id = .ok n
  side_eq : ∀ n ∈ nodes.toList, n.side = side
  sorted : (nodes.toList.map Node.id).Pairwise fun id id' => id.number < id'.number

namespace WellFormed

variable {s : Solver E} (h : s.WellFormed)

include h

theorem lineup_factors : s.Lineup .factor (s.factors.map .factor) where
  nodeAt := h.nodeAt_factors
  side_eq := by simp [Node.side]
  sorted := by
    rw [h.map_id_factors, factorIds]
    exact List.Pairwise.map _ (fun _ _ hlt => hlt) List.pairwise_lt_range

theorem lineup_vars : s.Lineup .variable (s.vars.map .var) where
  nodeAt := h.nodeAt_vars
  side_eq := by simp [Node.side]
  sorted := by
    rw [h.map_id_vars, variableIds]
    exact List.Pairwise.map _ (fun _ _ hlt => hlt) List.pairwise_lt_range

section

variable [Energy.LawfulZero E]

/-- One after another the nodes deliver and report. -/
theorem updateNodes_delivered {nodes : List (Node E)} (hn : ∀ n ∈ nodes, s.nodeAt n.id = .ok n)
    (hi : ∀ n ∈ nodes, n.binding.initialized = true) (ha : Phase.Apart nodes s.store.size) :
    ∃ store pool, Phase.Delivered nodes s.store store ∧ s.updateNodes (nodes.map Node.id) =
      (.ok (), { s with
        store, pool, warnings := s.warnings ++ Phase.log nodes s.store }) := by
  induction nodes generalizing s with
  | nil => exact ⟨s.store, s.pool, .nil s.store, by simp [updateNodes, Phase.log]⟩
  | cons n nodes ih =>
    rw [List.forall_mem_cons] at hn hi
    obtain ⟨pool, hu⟩ := h.update_eq hn.1 hi.1
    have hc := h.holds.continues_update s.keeps_trivial n.id
    rw [hu] at hc
    obtain ⟨store, pool', hd, hrest⟩ := ih hc.holds.wellFormed
      (fun n' hn' => (hc.nodeAt _).trans (hn.2 n' hn')) hi.2
      (by simpa [record] using ha.tail)
    refine ⟨store, pool', hd.cons ha, ?_⟩
    rw [List.map_cons, updateNodes, Attempt.andThen_eq (congrArg Prod.fst hu), hu, hrest]
    have hlog : Phase.log nodes (n.deliver s.store) = Phase.log nodes s.store :=
      Phase.log_congr fun n' hn' => ha.stateOf_deliver hn'
    simp only [record, hlog, Array.appendList_append]
    rfl

variable {side : Side} {nodes : Array (Node E)} (hl : s.Lineup side nodes)
  (hi : ∀ n ∈ nodes, n.binding.initialized = true)

include hl hi

omit [Energy.LawfulZero E] in
theorem apart : Phase.Apart nodes.toList s.store.size where
  nodup := by
    refine h.nodup_flatMap_edges hl.nodeAt hi side
      (fun n hn => hl.side_eq n (Array.mem_toList_iff.2 hn)) (hl.sorted.imp ?_)
    rintro id _ hlt rfl
    exact Nat.lt_irrefl _ hlt
  lt n hn :=
    have hn := Array.mem_toList_iff.1 hn
    (h.tracks n.id n (hl.nodeAt n hn)).lt_size (hi n hn) h.graph h.store

/-- A phase that runs in parallel leaves what its nodes leave one after another. -/
theorem runPhase_eq {plan : Plan E} (hp : Phase.Covers plan nodes.size) :
    ∃ (s' : Solver E) (log : List Contradiction),
    s.updateNodes (nodes.toList.map Node.id) = (.ok (), s') ∧
      s.runPhase nodes plan = (.ok (), s'.withPool s.pool) ∧
      s'.warnings = s.warnings ++ log ∧ InOrder side log := by
  have ha := h.apart hl hi
  obtain ⟨store, pool, hseq, hu⟩ := h.updateNodes_delivered
    (fun n hn => hl.nodeAt n (Array.mem_toList_iff.1 hn))
    (fun n hn => hi n (Array.mem_toList_iff.1 hn)) ha
  obtain ⟨store', hpar, hr⟩ := Phase.run_eq (h.holds.runs s.keeps_trivial hl.nodeAt hi) hi
    ⟨h.store, trivial⟩ ha hp
  obtain rfl := hseq.unique hpar
  refine ⟨_, _, hu, ?_, rfl, Phase.inOrder_log hl.side_eq hl.sorted s.store⟩
  simp only [runPhase, hr, foldl_record, List.flatMap_map]
  rfl

end

variable [Energy.LawfulZero E]

/-- A sweep with both phases in parallel is the sequential sweep, apart from the pool. -/
theorem sweep_eq (hi : ∀ id, s.graph.HasNode id → s.Initialized id) {order : Sweep E}
    (hc : order.Covers s) : ∃ (s' : Solver E) (l l' : List Contradiction),
      s.updateNodes (s.factorIds ++ s.variableIds) = (.ok (), s') ∧
      s.sweep order = (.ok (), s'.withPool s.pool) ∧ s.SameNodes s' ∧ s'.WellFormed ∧
      s'.warnings = s.warnings ++ (l ++ l') ∧ InOrder .factor l ∧ InOrder .variable l' := by
  have hfactors := h.lineup_factors
  have hplan : Phase.Covers order.factors (s.factors.map Node.factor).size := by
    simpa using hc.factors
  obtain ⟨s₁, l, hu, hr, hw, hl⟩ := h.runPhase_eq hfactors
    (fun n hn => h.initialized_of_nodeAt hi (hfactors.nodeAt n hn)) hplan
  rw [h.map_id_factors] at hu
  have hs₁ : s.Continues (fun _ => True) (fun _ => True) s₁ := by
    have := h.holds.continues_updateNodes s.keeps_trivial s.factorIds
    rwa [hu] at this
  have hvars := hs₁.holds.wellFormed.lineup_vars
  have hplan' : Phase.Covers order.vars (s₁.vars.map Node.var).size := by
    simpa [hs₁.vars] using hc.vars
  obtain ⟨s₂, l', hu', hr', hw', hl'⟩ := hs₁.holds.wellFormed.runPhase_eq hvars
    (fun n hn => h.initialized_of_nodeAt hi ((hs₁.nodeAt _).symm.trans (hvars.nodeAt n hn)))
    hplan'
  rw [hs₁.holds.wellFormed.map_id_vars] at hu'
  have hs₂ : s₁.Continues (fun _ => True) (fun _ => True) s₂ := by
    have := hs₁.holds.continues_updateNodes s₁.keeps_trivial s₁.variableIds
    rwa [hu'] at this
  refine ⟨s₂, l, l', ?_, ?_, hs₁.toSameNodes.trans hs₂.toSameNodes, hs₂.holds.wellFormed, ?_,
    hl, hl'⟩
  · rw [updateNodes_append, Attempt.andThen_eq (congrArg Prod.fst hu), hu]
    rwa [variableIds, hs₁.vars] at hu'
  · rw [sweep, Attempt.andThen_eq (congrArg Prod.fst hr), hr]
    rw [show (s₁.withPool s.pool).vars = s₁.vars from rfl, runPhase_withPool, hr']
    rfl
  · rw [hw', hw, Array.appendList_append]

theorem iterateInOrder_eq (hi : ∀ id, s.graph.HasNode id → s.Initialized id)
    {orders : List (Sweep E)} (hc : ∀ order ∈ orders, order.Covers s) :
    ∃ (s' : Solver E) (logs : List (List Contradiction × List Contradiction)),
      s.iterate orders.length = (.ok (), s') ∧
      s.iterateInOrder orders = (.ok (), s'.withPool s.pool) ∧ logs.length = orders.length ∧
      s'.warnings = s.warnings ++ logs.flatMap (fun l => l.1 ++ l.2) ∧
      ∀ l ∈ logs, InOrder .factor l.1 ∧ InOrder .variable l.2 := by
  induction orders generalizing s with
  | nil => exact ⟨s, [], rfl, rfl, rfl, by simp, by simp⟩
  | cons order orders ih =>
    rw [List.forall_mem_cons] at hc
    obtain ⟨s₁, l, l', hu, hr, hsame, hw₁, hwarn, hl, hl'⟩ := h.sweep_eq hi hc.1
    obtain ⟨s₂, logs, hu', hr', hlen, hwarn', hlogs⟩ := ih hw₁
      (fun id hid => (hsame.initialized_iff id).2 (hi id (hsame.graph ▸ hid)))
      fun order ho => ⟨hsame.factors ▸ (hc.2 order ho).factors, hsame.vars ▸ (hc.2 order ho).vars⟩
    refine ⟨s₂, (l, l') :: logs, ?_, ?_, ?_, ?_, List.forall_mem_cons.2 ⟨⟨hl, hl'⟩, hlogs⟩⟩
    · rw [List.length_cons, iterate, Attempt.andThen_eq (congrArg Prod.fst hu), hu, hu']
    · rw [iterateInOrder, Attempt.andThen_eq (congrArg Prod.fst hr), hr, iterateInOrder_withPool,
        hr']
      rfl
    · rw [List.length_cons, List.length_cons, hlen]
    · rw [hwarn', hwarn, Array.appendList_append, List.flatMap_cons]

omit [Energy.LawfulZero E] in
/-- Unless all nodes are initialized, there is a first one that is not. -/
theorem exists_firstWaiting (hi : ¬ ∀ id, s.graph.HasNode id → s.Initialized id) :
    ∃ id, s.FirstWaiting id := by
  classical
  by_cases hf : ∃ f, f < s.factors.size ∧ ¬ s.Initialized (.factor f)
  · obtain ⟨hlt, hw⟩ := Nat.find_spec hf
    refine ⟨_, .factor hlt hw fun f' hf' => ?_⟩
    by_contra hw'
    exact Nat.find_min hf hf' ⟨Nat.lt_trans hf' hlt, hw'⟩
  · have hall : ∀ f < s.factors.size, s.Initialized (.factor f) := by simpa using hf
    have hv : ∃ v, v < s.vars.size ∧ ¬ s.Initialized (.var v) := by
      by_contra hv
      simp only [not_exists, not_and, Decidable.not_not] at hv
      refine hi fun id hid => ?_
      cases id with
      | factor f => exact hall f (h.size_factors ▸ hid)
      | var v => exact hv v (h.size_vars ▸ hid)
    obtain ⟨hlt, hw⟩ := Nat.find_spec hv
    refine ⟨_, .var hall hlt hw fun v' hv' => ?_⟩
    by_contra hw'
    exact Nat.find_min hv hv' ⟨Nat.lt_trans hv' hlt, hw'⟩

/-- A sequential sweep stops at the first node that waits. -/
theorem updateNodes_of_waiting {before after : List NodeId} {id : NodeId}
    (hb : ∀ id ∈ before, s.Initialized id) (hid : s.graph.HasNode id)
    (hw : ¬ s.Initialized id) :
    (s.updateNodes (before ++ id :: after)).1 = .error (.notInitialized id) := by
  induction before generalizing s with
  | nil =>
    obtain ⟨n, hn⟩ := h.nodeAt_of_hasNode id hid
    have hi : n.binding.initialized = false := by
      by_contra hi
      exact hw ⟨n, hn, by simpa using hi⟩
    rw [List.nil_append, updateNodes, Solver.update, runUpdate_of_waiting hn hi]
    rfl
  | cons id' before ih =>
    rw [List.forall_mem_cons] at hb
    have hc := h.holds.continues_update s.keeps_trivial id'
    obtain ⟨ports, hu⟩ := h.update_isOk_iff.2 hb.1
    rw [List.cons_append, updateNodes, Attempt.andThen_eq hu]
    refine ih hc.holds.wellFormed (fun id hid => (hc.initialized_iff id).2 (hb.2 id hid)) ?_ ?_
    · rwa [hc.graph]
    · rwa [hc.initialized_iff]

omit h in
theorem iterate_of_firstWaiting (h : s.WellFormed) {id : NodeId} (hw : s.FirstWaiting id)
    (n : Nat) : (s.iterate (n + 1)).1 = .error (.notInitialized id) := by
  obtain ⟨before, after, hids, hb, hwaits⟩ := hw.exists_split
  have hid : s.graph.HasNode id := h.mem_ids.1 (by simp [hids])
  have herror : (s.updateNodes (before ++ id :: after)).1 = .error (.notInitialized id) :=
    h.updateNodes_of_waiting hb hid hwaits
  rw [iterate, hids, Attempt.andThen_of_error herror]

end WellFormed

omit [Energy E] in
theorem initialized_of_ids {s : Solver E} {nodes : List (Node E)}
    (hnodes : ∀ n ∈ nodes, s.nodeAt n.id = .ok n)
    (hi : ∀ id ∈ nodes.map Node.id, s.Initialized id) :
    ∀ n ∈ nodes, n.binding.initialized = true := by
  intro n hn
  obtain ⟨n', hn', hi⟩ := hi n.id (List.mem_map_of_mem hn)
  obtain rfl := Except.ok.inj ((hnodes n hn).symm.trans hn')
  exact hi

/-- A parallel phase stops at the first of its nodes that waits, before it changes anything. -/
theorem runPhase_of_waiting {s : Solver E} {nodes : Array (Node E)} {before after : List NodeId}
    {id : NodeId} (hnodes : ∀ n ∈ nodes, s.nodeAt n.id = .ok n)
    (hids : nodes.toList.map Node.id = before ++ id :: after)
    (hb : ∀ id ∈ before, s.Initialized id) (hw : ¬ s.Initialized id) (plan : Plan E) :
    s.runPhase nodes plan = (.error (.notInitialized id), s) := by
  obtain ⟨bs, rest, hlist, rfl, hrest⟩ := List.map_eq_append_iff.1 hids
  obtain ⟨n, as, rfl, rfl, -⟩ := List.map_eq_cons_iff.1 hrest
  have hat : ∀ m ∈ bs ++ n :: as, s.nodeAt m.id = .ok m := fun m hm =>
    hnodes m (Array.mem_toList_iff.1 (hlist ▸ hm))
  have hready : Phase.checkReady nodes.toList = .error (.notInitialized n.id) := by
    rw [hlist]
    refine Phase.checkReady_append (initialized_of_ids (fun m hm => hat m (by simp [hm])) hb) ?_
    by_contra hi
    exact hw ⟨n, hat n (by simp), by simpa using hi⟩
  simp only [runPhase, Phase.run, hready]

namespace WellFormed

variable [Energy.LawfulZero E] {s : Solver E} (h : s.WellFormed)

include h

omit [Energy.LawfulZero E] in
/-- If a factor waits, nothing is changed at all. -/
theorem iterateInOrder_of_waitingFactor {f : Nat} (hw : s.FirstWaiting (.factor f))
    (order : Sweep E) (orders : List (Sweep E)) :
    s.iterateInOrder (order :: orders) = (.error (.notInitialized (.factor f)), s) := by
  cases hw with
  | factor hf waits before =>
    obtain ⟨rest, hrange⟩ := exists_range_eq hf
    have hids := h.map_id_factors
    rw [factorIds, hrange, List.map_append, List.map_cons] at hids
    have hphase := runPhase_of_waiting h.nodeAt_factors hids (by simpa using before) waits
      order.factors
    simp only [iterateInOrder, sweep, hphase, Attempt.andThen]

/-- If a variable waits, the variables change nothing of what the factors leave behind. -/
theorem iterateInOrder_of_waitingVar {v : Nat} (hw : s.FirstWaiting (.var v)) (order : Sweep E)
    (orders : List (Sweep E)) :
    ∃ s', s.runPhase (s.factors.map .factor) order.factors = (.ok (), s') ∧
      s.iterateInOrder (order :: orders) = (.error (.notInitialized (.var v)), s') := by
  cases hw with
  | var factors hv waits before =>
    have hall : ∀ id ∈ (s.factors.map Node.factor).toList.map Node.id, s.Initialized id := by
      rw [h.map_id_factors, factorIds]
      simpa using factors
    have hi := initialized_of_ids (by simpa using h.nodeAt_factors) hall
    simp only [Array.mem_toList_iff] at hi
    have hc := h.holds.continues_runPhase s.keeps_trivial h.nodeAt_factors order.factors
    obtain ⟨_, hok⟩ := h.runPhase_isOk h.nodeAt_factors hi
      (h.apart h.lineup_factors hi).nodup order.factors
    obtain ⟨rest, hrange⟩ := exists_range_eq hv
    have hids := hc.holds.wellFormed.map_id_vars
    rw [variableIds, hc.vars, hrange, List.map_append, List.map_cons] at hids
    rw [← hc.vars] at hids
    have hphase := runPhase_of_waiting hc.holds.wellFormed.nodeAt_vars hids
      (by simpa [hc.initialized_iff] using before) (mt (hc.initialized_iff _).1 waits) order.vars
    refine ⟨_, Prod.ext hok rfl, ?_⟩
    rw [iterateInOrder, sweep, Attempt.andThen_eq hok, hphase]
    rfl

omit [Energy.LawfulZero E] in
/-- A phase whose nodes are initialized finds every edge it asks for, and finds it free. -/
theorem reserveEdges_eq {side : Side} {nodes : Array (Node E)} (hl : s.Lineup side nodes)
    (hr : Phase.checkReady nodes.toList = .ok ()) :
    Phase.reserveEdges (E := E) (Array.replicate s.store.size true)
      (nodes.toList.flatMap (·.binding.edges)) = .ok () := by
  have hi := Phase.checkReady_eq_ok_iff.1 hr
  exact (h.apart hl fun n hn => hi n (Array.mem_toList_iff.2 hn)).reserveEdges_eq

/-- Sweeps fail for no other reason than a node that waits. -/
theorem iterateInOrder_error {orders : List (Sweep E)} {e : SolverError E}
    (he : (s.iterateInOrder orders).1 = .error e) : ∃ id, e = .notInitialized id := by
  by_cases hi : ∀ id, s.graph.HasNode id → s.Initialized id
  · obtain ⟨_, hok⟩ := h.iterateInOrder_isOk hi orders
    rw [hok] at he
    contradiction
  obtain ⟨id, hid⟩ := h.exists_firstWaiting hi
  refine ⟨id, ?_⟩
  cases orders with
  | nil => contradiction
  | cons order orders =>
    cases id with
    | factor f =>
      rw [h.iterateInOrder_of_waitingFactor hid] at he
      exact (Except.error.inj he).symm
    | var v =>
      obtain ⟨s', -, hstop⟩ := h.iterateInOrder_of_waitingVar hid order orders
      rw [hstop] at he
      exact (Except.error.inj he).symm

theorem iterateParallel_eq (n : Nat) :
    s.iterateParallel n = s.iterateInOrder (List.replicate n s.sweepOrder) := by
  induction n generalizing s with
  | zero => rfl
  | succ n ih =>
    have hc := h.holds.continues_sweep s.keeps_trivial s.sweepOrder
    have horder : (s.sweep s.sweepOrder).2.sweepOrder = s.sweepOrder := by
      unfold sweepOrder at hc ⊢
      rw [hc.factors, hc.vars, hc.settings]
    rw [iterateParallel, List.replicate_succ, iterateInOrder]
    exact Attempt.andThen_congr fun _ => by rw [ih hc.holds.wellFormed, horder]

end WellFormed

omit [Energy E] in
theorem covers_sweepOrder (s : Solver E) : s.sweepOrder.Covers s where
  factors := by simp [Phase.Covers, sweepOrder, Phase.plan, List.map_map, Function.comp_def]
  vars := by simp [Phase.Covers, sweepOrder, Phase.plan, List.map_map, Function.comp_def]

/-- Parallel sweeps in any orders leave what as many sequential sweeps leave, and warn of the same
contradictions in the same order. Where a node waits for initialization both stop with its name,
and the phase of that node changes no message. No other failure is possible. -/
theorem Reachable.iterateInOrder_eq_iterate {E : Type} [LogEnergy E] [Energy.LawfulZero E]
    {s : Solver E} (h : s.Reachable) :
    ((∀ id, s.graph.HasNode id → s.Initialized id) → ∀ orders : List (Sweep E),
      (∀ order ∈ orders, order.Covers s) →
        ∃ (s' : Solver E) (logs : List (List Contradiction × List Contradiction)),
          s.iterate orders.length = (.ok (), s') ∧
          s.iterateInOrder orders = (.ok (), { s' with pool := s.pool }) ∧
          logs.length = orders.length ∧
          s'.warnings = s.warnings ++ logs.flatMap (fun log => log.1 ++ log.2) ∧
          ∀ log ∈ logs, InOrder .factor log.1 ∧ InOrder .variable log.2) ∧
    ((¬ ∀ id, s.graph.HasNode id → s.Initialized id) → ∃ id, s.FirstWaiting id) ∧
    (∀ id, s.FirstWaiting id → ∀ n, (s.iterate (n + 1)).1 = .error (.notInitialized id)) ∧
    (∀ f, s.FirstWaiting (.factor f) → ∀ order orders,
      s.iterateInOrder (order :: orders) = (.error (.notInitialized (.factor f)), s)) ∧
    (∀ v, s.FirstWaiting (.var v) → ∀ order orders, ∃ s',
      s.runPhase (s.factors.map .factor) order.factors = (.ok (), s') ∧
      s.iterateInOrder (order :: orders) = (.error (.notInitialized (.var v)), s')) ∧
    (∀ nodes, nodes = s.factors.map Node.factor ∨ nodes = s.vars.map Node.var →
      Phase.checkReady nodes.toList = .ok () → Phase.reserveEdges (E := E)
        (Array.replicate s.store.size true) (nodes.toList.flatMap (·.binding.edges)) = .ok ()) ∧
    (∀ orders e, (s.iterateInOrder orders).1 = .error e → ∃ id, e = .notInitialized id) ∧
    s.sweepOrder.Covers s ∧
    ∀ n, s.iterateParallel n = s.iterateInOrder (List.replicate n s.sweepOrder) := by
  have hw := h.wellFormed
  refine ⟨fun hi orders hc => hw.iterateInOrder_eq hi hc, hw.exists_firstWaiting,
    fun id hid => hw.iterate_of_firstWaiting hid, fun f hf => hw.iterateInOrder_of_waitingFactor hf,
    fun v hv => hw.iterateInOrder_of_waitingVar hv, ?_,
    fun orders e => hw.iterateInOrder_error, s.covers_sweepOrder, hw.iterateParallel_eq⟩
  rintro nodes (rfl | rfl) hr
  · exact hw.reserveEdges_eq hw.lineup_factors hr
  · exact hw.reserveEdges_eq hw.lineup_vars hr

private def paired : Solver Float :=
  [.addVariable "x" .bit, .addVariable "y" .bit, .addCustom .equality [1, 0],
    .addCustom .equality [1], .fixValue 0 (some 1)].foldl Solver.perform .empty

/-- The nodes in falling order, one of them with a used buffer. -/
private def falling : Sweep Float where
  factors := [(1, ⟨1, [], 0⟩), (0, ⟨2, [⟨5, [1]⟩], 3⟩)]
  vars := [(1, ⟨0, [], 0⟩), (0, ⟨1, [], 0⟩)]

theorem Reachable.iterateInOrder_eq_iterate_paired : paired.Reachable ∧
    (∃ s', paired.initializeAll.2.iterate 2 = (.ok (), s') ∧
      paired.initializeAll.2.iterateInOrder [falling, paired.sweepOrder] =
        (.ok (), { s' with pool := paired.initializeAll.2.pool })) ∧
    (paired.iterate 1).1 = .error (.notInitialized (.factor 0)) ∧
    paired.iterateInOrder [falling] = (.error (.notInitialized (.factor 0)), paired) := by
  have hreach : paired.Reachable := (Reachable.empty (by with_unfolding_all rfl)).foldl_perform _
  obtain ⟨-, hg, -, -, hi⟩ := hreach.wellFormed.initializeAll_eq
  obtain ⟨hall, -⟩ := (hreach.perform .initializeAll).iterateInOrder_eq_iterate
  have hcovers : ∀ order ∈ [falling, paired.sweepOrder], order.Covers paired.initializeAll.2 := by
    have hf : paired.initializeAll.2.factors.size = 2 := by with_unfolding_all rfl
    have hv : paired.initializeAll.2.vars.size = 2 := by with_unfolding_all rfl
    simp only [List.forall_mem_cons, List.not_mem_nil, false_imp_iff, implies_true, and_true]
    refine ⟨⟨?_, ?_⟩, ?_, ?_⟩
    all_goals
      simp only [Phase.Covers, hf, hv]
      decide +kernel
  obtain ⟨s', -, hseq, hpar, -⟩ := hall (fun id hid => hi id (hg ▸ hid)) _ hcovers
  have hwaits : paired.FirstWaiting (.factor 0) := by
    refine .factor (by decide +kernel) ?_ (by simp)
    rintro ⟨n, hn, hi⟩
    obtain ⟨m, hm, rfl⟩ := nodeAt_factor_eq_ok.1 hn
    have hnot : paired.factors[0]?.map (·.binding.initialized) = some false := by
      with_unfolding_all rfl
    simp [hm, show m.binding.initialized = true from hi] at hnot
  obtain ⟨-, -, hsingle, hfactor, -⟩ := hreach.iterateInOrder_eq_iterate
  exact ⟨hreach, ⟨s', hseq, hpar⟩, hsingle _ hwaits 0, hfactor 0 hwaits falling []⟩

end Solver

end MinSum
