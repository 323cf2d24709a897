import Mathlib.Data.List.Nodup
import MinSum.Proofs.Solver.Phase

/-! Runs of updates, one node after another or in parallel. One principle serves all of them: a
property that every node keeps when it delivers is kept by every run, and so is what the
reported contradictions say. -/
namespace MinSum

open Scratch

theorem Array.appendList_append {α : Type} (a : Array α) (l l' : List α) :
    a ++ l ++ l' = a ++ (l ++ l') := by
  apply Array.ext'
  simp

namespace Attempt

variable {ε σ α β : Type} {a : Attempt ε σ α} {next : α → σ → Attempt ε σ β}

theorem andThen_keeps {p : σ → Prop} (ha : p a.2) (hn : ∀ x s, p s → p (next x s).2) :
    p (a.andThen next).2 := by
  obtain ⟨r, s⟩ := a
  cases r with
  | ok x => exact hn x s ha
  | error e => exact ha

theorem andThen_eq {x : α} (ha : a.1 = .ok x) : a.andThen next = next x a.2 := by
  obtain ⟨r, s⟩ := a
  obtain rfl : r = .ok x := ha
  rfl

theorem andThen_congr {next' : α → σ → Attempt ε σ β} (h : ∀ x, next x a.2 = next' x a.2) :
    a.andThen next = a.andThen next' := by
  obtain ⟨r, s⟩ := a
  cases r with
  | ok x => exact h x
  | error e => rfl

theorem andThen_of_error {e : ε} (ha : a.1 = .error e) : a.andThen next = (.error e, a.2) := by
  obtain ⟨r, s⟩ := a
  obtain rfl : r = .error e := ha
  rfl

/-- Both steps succeed, or the first fails. -/
theorem isOk_andThen_iff : (∃ y, (a.andThen next).1 = .ok y) ↔
    ∃ x, a.1 = .ok x ∧ ∃ y, (next x a.2).1 = .ok y := by
  obtain ⟨r, s⟩ := a
  cases r <;> simp [andThen]

end Attempt

namespace Solver

variable {E : Type} [Energy E] {P : EdgeStore E → Prop} {W : Contradiction → Prop}
  {s s' s'' : Solver E}

omit [Energy E] in
theorem SameNodes.initialized_iff (h : s.SameNodes s') (id : NodeId) :
    s'.Initialized id ↔ s.Initialized id := by
  simp only [Initialized, h.nodeAt]

/-- A well-formed solver whose store satisfies `P`, and whose warnings satisfy `W`. -/
structure Holds (P : EdgeStore E → Prop) (W : Contradiction → Prop) (s : Solver E) : Prop where
  wellFormed : s.WellFormed
  store : P s.store
  warnings : ∀ w ∈ s.warnings, W w

theorem WellFormed.holds (h : s.WellFormed) : s.Holds (fun _ => True) fun _ => True :=
  ⟨h, trivial, fun _ _ => trivial⟩

structure Keeps (s : Solver E) (P : EdgeStore E → Prop) (W : Contradiction → Prop) : Prop where
  deliver : ∀ id n, s.nodeAt id = .ok n → n.binding.initialized = true →
    ∀ store : EdgeStore E, store.Fits s.graph → P store → P (n.deliver store)
  deliverPort : ∀ id n, s.nodeAt id = .ok n → n.binding.initialized = true →
    ∀ store : EdgeStore E, store.Fits s.graph → P store → ∀ port < n.binding.edges.length,
      P (n.deliverPort port store)
  reported : ∀ id n, s.nodeAt id = .ok n → n.binding.initialized = true →
    ∀ store : EdgeStore E, store.Fits s.graph → P store →
      ∀ port ∈ n.reported store, W ⟨id, port⟩
  reportedPort : ∀ id n, s.nodeAt id = .ok n → n.binding.initialized = true →
    ∀ store : EdgeStore E, store.Fits s.graph → P store → ∀ port < n.binding.edges.length,
      ∀ p ∈ n.reportedPort port store, W ⟨id, p⟩

theorem keeps_trivial (s : Solver E) : s.Keeps (fun _ => True) fun _ => True where
  deliver _ _ _ _ _ _ _ := trivial
  deliverPort _ _ _ _ _ _ _ _ _ := trivial
  reported _ _ _ _ _ _ _ _ _ := trivial
  reportedPort _ _ _ _ _ _ _ _ _ _ _ := trivial

theorem Keeps.congr (hk : s.Keeps P W) (h : s.SameNodes s') : s'.Keeps P W where
  deliver id n hn := by
    rw [h.nodeAt] at hn
    rw [h.graph]
    exact hk.deliver id n hn
  deliverPort id n hn := by
    rw [h.nodeAt] at hn
    rw [h.graph]
    exact hk.deliverPort id n hn
  reported id n hn := by
    rw [h.nodeAt] at hn
    rw [h.graph]
    exact hk.reported id n hn
  reportedPort id n hn := by
    rw [h.nodeAt] at hn
    rw [h.graph]
    exact hk.reportedPort id n hn

theorem Keeps.weaken {W' : Contradiction → Prop} (hk : s.Keeps P W) (h : ∀ w, W w → W' w) :
    s.Keeps P W' where
  deliver := hk.deliver
  deliverPort := hk.deliverPort
  reported id n hn hi store hs hp port hport := h _ (hk.reported id n hn hi store hs hp port hport)
  reportedPort id n hn hi store hs hp port hlt p hport :=
    h _ (hk.reportedPort id n hn hi store hs hp port hlt p hport)

/-- A later state between two changes of the graph, with the properties again. -/
structure Continues (P : EdgeStore E → Prop) (W : Contradiction → Prop) (s s' : Solver E) : Prop
    extends s.SameNodes s' where
  holds : s'.Holds P W

theorem Holds.continues_refl (h : s.Holds P W) : s.Continues P W s := ⟨.refl s, h⟩

theorem Continues.trans (h : s.Continues P W s') (h' : s'.Continues P W s'') :
    s.Continues P W s'' := ⟨h.toSameNodes.trans h'.toSameNodes, h'.holds⟩

omit [Energy E] in
theorem foldl_record (s : Solver E) (reports : List (NodeId × List Nat)) :
    reports.foldl (fun s (id, ports) => s.record id ports) s = { s with
      warnings := s.warnings ++ reports.flatMap fun r => r.2.map (Contradiction.mk r.1) } := by
  induction reports generalizing s with
  | nil => simp
  | cons r reports ih =>
    rw [List.foldl_cons, ih]
    simp only [record, List.flatMap_cons, Array.appendList_append]

/-- New messages and new warnings, and nothing else. -/
theorem Holds.continues_record (h : s.Holds P W) {store : EdgeStore E} (hf : store.Fits s.graph)
    (hp : P store) (pool : Pool E) {id : NodeId} {ports : List Nat}
    (hw : ∀ port ∈ ports, W ⟨id, port⟩) :
    s.Continues P W ({ s with store, pool }.record id ports) := by
  have hsame : s.SameNodes ({ s with store, pool }.record id ports) := ⟨rfl, rfl, rfl, rfl⟩
  refine ⟨hsame, hsame.wellFormed h.wellFormed hf, hp, ?_⟩
  intro w hm
  rw [record, ← Array.mem_toList_iff, Array.toList_appendList, List.mem_append] at hm
  rcases hm with hm | hm
  · exact h.warnings w (Array.mem_toList_iff.1 hm)
  · obtain ⟨port, hport, rfl⟩ := List.mem_map.1 hm
    exact hw port hport

theorem Continues.foldl_record (h : s.Continues P W s') {reports : List (NodeId × List Nat)}
    (hw : ∀ id ports, (id, ports) ∈ reports → ∀ port ∈ ports, W ⟨id, port⟩) :
    s.Continues P W (reports.foldl (fun s (id, ports) => s.record id ports) s') := by
  induction reports generalizing s' with
  | nil => exact h
  | cons r reports ih =>
    refine ih (h.trans ?_) fun id ports hm => hw id ports (List.mem_cons_of_mem _ hm)
    exact h.holds.continues_record h.holds.wellFormed.store h.holds.store s'.pool
      (hw r.1 r.2 List.mem_cons_self)

namespace Holds

variable [Energy.LawfulZero E] (h : s.Holds P W) (hk : s.Keeps P W)

include h hk

theorem continues_update (id : NodeId) : s.Continues P W (s.update id).2 := by
  by_cases hi : s.Initialized id
  · obtain ⟨n, hn, hi⟩ := hi
    obtain ⟨pool, he⟩ := h.wellFormed.update_eq hn hi
    have hf := h.wellFormed.store
    rw [he]
    exact h.continues_record
      ((h.wellFormed.tracks id n hn).fits_deliver hi h.wellFormed.graph hf)
      (hk.deliver id n hn hi s.store hf h.store) pool
      (hk.reported id n hn hi s.store hf h.store)
  · obtain ⟨e, he⟩ := runUpdate_of_not_initialized hi fun n siblings => n.update siblings s.pool
    rw [update, he]
    exact h.continues_refl

theorem continues_updatePort (id : NodeId) (port : Nat) :
    s.Continues P W (s.updatePort id port).2 := by
  by_cases hi : s.Initialized id
  · obtain ⟨n, hn, hi⟩ := hi
    rcases Nat.lt_or_ge port n.binding.edges.length with hp | hp
    · obtain ⟨pool, he⟩ := h.wellFormed.updatePort_eq hn hi hp
      have hf := h.wellFormed.store
      rw [he]
      exact h.continues_record
        ((h.wellFormed.tracks id n hn).fits_deliverPort hi h.wellFormed.graph hf hp)
        (hk.deliverPort id n hn hi s.store hf h.store port hp) pool
        (hk.reportedPort id n hn hi s.store hf h.store port hp)
    · obtain ⟨e, he⟩ := updatePort_of_le hn hp
      rw [he]
      exact h.continues_refl
  · obtain ⟨e, he⟩ :=
      runUpdate_of_not_initialized hi fun n siblings => n.updatePort port siblings s.pool
    rw [updatePort, he]
    exact h.continues_refl

theorem continues_updateNodes (ids : List NodeId) : s.Continues P W (s.updateNodes ids).2 := by
  induction ids generalizing s with
  | nil => exact h.continues_refl
  | cons id ids ih =>
    apply Attempt.andThen_keeps (h.continues_update hk id)
    exact fun _ s' hs => hs.trans (ih hs.holds (hk.congr hs.toSameNodes))

theorem continues_iterate (n : Nat) : s.Continues P W (s.iterate n).2 := by
  induction n generalizing s with
  | zero => exact h.continues_refl
  | succ n ih =>
    apply Attempt.andThen_keeps (h.continues_updateNodes hk _)
    exact fun _ s' hs => hs.trans (ih hs.holds (hk.congr hs.toSameNodes))

/-- The nodes of a phase run as they would one after another. -/
theorem runs {nodes : Array (Node E)} (hnodes : ∀ n ∈ nodes, s.nodeAt n.id = .ok n)
    (hi : ∀ n ∈ nodes, n.binding.initialized = true) :
    Phase.Runs nodes fun store => store.Fits s.graph ∧ P store where
  runNode n hn _ hs pool :=
    (h.wellFormed.tracks n.id n (hnodes n hn)).runNode_eq (hi n hn) h.wellFormed.graph hs.1 pool
  deliver n hn store hs :=
    ⟨(h.wellFormed.tracks n.id n (hnodes n hn)).fits_deliver (hi n hn) h.wellFormed.graph hs.1,
      hk.deliver n.id n (hnodes n hn) (hi n hn) store hs.1 hs.2⟩

theorem continues_runPhase {nodes : Array (Node E)}
    (hnodes : ∀ n ∈ nodes, s.nodeAt n.id = .ok n) (plan : Plan E) :
    s.Continues P W (s.runPhase nodes plan).2 := by
  obtain ⟨⟨hf, hp⟩, hreports⟩ := Phase.run_keeps (h.runs hk hnodes)
    ⟨h.wellFormed.store, h.store⟩ plan
  have hsame : s.SameNodes { s with store := (Phase.run nodes s.store plan).2 } :=
    ⟨rfl, rfl, rfl, rfl⟩
  have hc : s.Continues P W { s with store := (Phase.run nodes s.store plan).2 } :=
    ⟨hsame, hsame.wellFormed h.wellFormed hf, hp, h.warnings⟩
  unfold runPhase
  simp only
  cases hr : (Phase.run nodes s.store plan).1 with
  | error e => exact hc
  | ok reports =>
    refine hc.foldl_record fun id ports hm port hport => ?_
    obtain ⟨n, hn, rfl, hi, store, hstore, rfl⟩ := hreports reports hr id ports hm
    exact hk.reported n.id n (hnodes n hn) hi store hstore.1 hstore.2 port hport

theorem continues_sweep (order : Sweep E) : s.Continues P W (s.sweep order).2 := by
  apply Attempt.andThen_keeps (h.continues_runPhase hk h.wellFormed.nodeAt_factors _)
  exact fun _ s' hs => hs.trans
    (hs.holds.continues_runPhase (hk.congr hs.toSameNodes) hs.holds.wellFormed.nodeAt_vars _)

theorem continues_iterateInOrder (orders : List (Sweep E)) :
    s.Continues P W (s.iterateInOrder orders).2 := by
  induction orders generalizing s with
  | nil => exact h.continues_refl
  | cons order orders ih =>
    apply Attempt.andThen_keeps (h.continues_sweep hk order)
    exact fun _ s' hs => hs.trans (ih hs.holds (hk.congr hs.toSameNodes))

theorem continues_iterateParallel (n : Nat) : s.Continues P W (s.iterateParallel n).2 := by
  induction n generalizing s with
  | zero => exact h.continues_refl
  | succ n ih =>
    apply Attempt.andThen_keeps (h.continues_sweep hk _)
    exact fun _ s' hs => hs.trans (ih hs.holds (hk.congr hs.toSameNodes))

end Holds

theorem updateNodes_append (s : Solver E) (ids ids' : List NodeId) :
    s.updateNodes (ids ++ ids') =
      (s.updateNodes ids).andThen fun _ s' => s'.updateNodes ids' := by
  induction ids generalizing s with
  | nil => rfl
  | cons id ids ih =>
    simp only [List.cons_append, updateNodes]
    obtain ⟨r, s'⟩ := s.update id
    cases r with
    | ok ports => exact ih s'
    | error e => rfl

namespace WellFormed

variable [Energy.LawfulZero E] (h : s.WellFormed)

include h

theorem updateNodes_isOk_iff {ids : List NodeId} :
    (∃ r, (s.updateNodes ids).1 = .ok r) ↔ ∀ id ∈ ids, s.Initialized id := by
  induction ids generalizing s with
  | nil => simp [updateNodes]
  | cons id ids ih =>
    have hc := h.holds.continues_update s.keeps_trivial id
    simp only [Solver.updateNodes, Attempt.isOk_andThen_iff, ih hc.holds.wellFormed,
      hc.initialized_iff, List.forall_mem_cons, ← h.update_isOk_iff]
    constructor
    · rintro ⟨x, hx, hids⟩
      exact ⟨⟨x, hx⟩, hids⟩
    · rintro ⟨⟨x, hx⟩, hids⟩
      exact ⟨x, hx, hids⟩

omit [Energy.LawfulZero E] in
theorem mem_ids {id : NodeId} : id ∈ s.factorIds ++ s.variableIds ↔ s.graph.HasNode id := by
  simp only [factorIds, variableIds, List.mem_append, List.mem_map, List.mem_range,
    h.size_vars, h.size_factors]
  cases id <;> simp [Graph.HasNode]

theorem iterate_isOk (hi : ∀ id, s.graph.HasNode id → s.Initialized id) (n : Nat) :
    ∃ r, (s.iterate n).1 = .ok r := by
  induction n generalizing s with
  | zero => exact ⟨(), rfl⟩
  | succ n ih =>
    have hc := h.holds.continues_updateNodes s.keeps_trivial (s.factorIds ++ s.variableIds)
    obtain ⟨x, hx⟩ := h.updateNodes_isOk_iff.2 fun id hid => hi id (h.mem_ids.1 hid)
    rw [iterate, Attempt.andThen_eq hx]
    refine ih hc.holds.wellFormed fun id hid => ?_
    rw [hc.graph] at hid
    exact (hc.initialized_iff id).2 (hi id hid)

theorem runPhase_isOk {nodes : Array (Node E)} (hnodes : ∀ n ∈ nodes, s.nodeAt n.id = .ok n)
    (hi : ∀ n ∈ nodes, n.binding.initialized = true)
    (hd : (nodes.toList.flatMap (·.binding.edges)).Nodup) (plan : Plan E) :
    ∃ r, (s.runPhase nodes plan).1 = .ok r := by
  have hlt : ∀ n ∈ nodes, ∀ e ∈ n.binding.edges, e < s.store.size := fun n hn =>
    (h.tracks n.id n (hnodes n hn)).lt_size (hi n hn) h.graph h.store
  obtain ⟨reports, hr⟩ := Phase.run_isOk (h.holds.runs s.keeps_trivial hnodes hi) hi
    ⟨h.store, trivial⟩ hd hlt plan
  refine ⟨(), ?_⟩
  simp only [runPhase, hr]

omit [Energy.LawfulZero E] in
/-- No two nodes on one side share an edge. -/
theorem nodup_flatMap_edges {nodes : Array (Node E)} (hnodes : ∀ n ∈ nodes, s.nodeAt n.id = .ok n)
    (hi : ∀ n ∈ nodes, n.binding.initialized = true) (side : Side)
    (hside : ∀ n ∈ nodes, n.side = side) (hd : (nodes.toList.map Node.id).Nodup) :
    (nodes.toList.flatMap (·.binding.edges)).Nodup := by
  have hedges : ∀ n ∈ nodes.toList, n.binding.edges = s.graph.incident n.id := fun n hn =>
    have hn := Array.mem_toList_iff.1 hn
    (h.tracks n.id n (hnodes n hn)).edges_eq (hi n hn)
  rw [List.nodup_flatMap]
  refine ⟨fun n hn => hedges n hn ▸ h.graph.nodup_incident n.id, ?_⟩
  refine List.Pairwise.imp_of_mem ?_ (List.pairwise_map.1 hd)
  intro n n' hn hn' hne e he he'
  simp only [hedges n hn, hedges n' hn'] at he he'
  refine hne (h.graph.eq_of_mem_incident he he' ?_)
  rw [← n.side_eq, ← n'.side_eq, hside n (by simpa using hn), hside n' (by simpa using hn')]

theorem sweep_isOk (hi : ∀ id, s.graph.HasNode id → s.Initialized id) (order : Sweep E) :
    ∃ r, (s.sweep order).1 = .ok r := by
  have hif : ∀ n ∈ s.factors.map Node.factor, n.binding.initialized = true := fun n hn =>
    h.initialized_of_nodeAt hi (h.nodeAt_factors n hn)
  obtain ⟨x, hx⟩ := h.runPhase_isOk h.nodeAt_factors hif
    (h.nodup_flatMap_edges h.nodeAt_factors hif .factor (by simp [Node.side])
      h.nodup_ids_factors) order.factors
  have hc := h.holds.continues_runPhase s.keeps_trivial h.nodeAt_factors order.factors
  rw [sweep, Attempt.andThen_eq hx]
  have h' := hc.holds.wellFormed
  have hi' : ∀ n ∈ s.vars.map Node.var, n.binding.initialized = true := fun n hn =>
    h.initialized_of_nodeAt hi (h.nodeAt_vars n hn)
  rw [← hc.vars] at hi'
  exact h'.runPhase_isOk h'.nodeAt_vars hi'
    (h'.nodup_flatMap_edges h'.nodeAt_vars hi' .variable (by simp [Node.side])
      h'.nodup_ids_vars) order.vars

theorem iterateInOrder_isOk (hi : ∀ id, s.graph.HasNode id → s.Initialized id)
    (orders : List (Sweep E)) : ∃ r, (s.iterateInOrder orders).1 = .ok r := by
  induction orders generalizing s with
  | nil => exact ⟨(), rfl⟩
  | cons order orders ih =>
    have hc := h.holds.continues_sweep s.keeps_trivial order
    obtain ⟨x, hx⟩ := h.sweep_isOk hi order
    rw [iterateInOrder, Attempt.andThen_eq hx]
    refine ih hc.holds.wellFormed fun id hid => ?_
    rw [hc.graph] at hid
    exact (hc.initialized_iff id).2 (hi id hid)

theorem iterateParallel_isOk (hi : ∀ id, s.graph.HasNode id → s.Initialized id) (n : Nat) :
    ∃ r, (s.iterateParallel n).1 = .ok r := by
  induction n generalizing s with
  | zero => exact ⟨(), rfl⟩
  | succ n ih =>
    have hc := h.holds.continues_sweep s.keeps_trivial s.sweepOrder
    obtain ⟨x, hx⟩ := h.sweep_isOk hi s.sweepOrder
    rw [iterateParallel, Attempt.andThen_eq hx]
    refine ih hc.holds.wellFormed fun id hid => ?_
    rw [hc.graph] at hid
    exact (hc.initialized_iff id).2 (hi id hid)

end WellFormed

end Solver

end MinSum
