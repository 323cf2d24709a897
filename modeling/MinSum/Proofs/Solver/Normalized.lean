import MinSum.Proofs.Solver.Contradiction

/-! In exact energies every message, belief and factor belief consists of numbers and `top`, at
every point of a run. A port without damping is left with a message of minimum zero, or with one
that rules out all values. -/
namespace MinSum

open Scratch

variable {K : Type} [Field K] [LinearOrder K]

theorem Extended.Proper.nonneg_iff {x : Extended K} (h : x.Proper) :
    (0 : Extended K) ≤ x ↔ 0 ≤ x.value := by
  change Extended.le (finite 0) x ↔ _
  rcases proper_iff.1 h with rfl | ⟨k, rfl⟩
  · exact iff_of_true trivial le_top
  · exact WithTop.coe_le_coe.symm

namespace Message

/-- The least energy is zero. -/
def Normalized {E : Type} [Energy E] (m : Message E) : Prop := 0 ∈ m ∧ ∀ x ∈ m, 0 ≤ x

instance {E : Type} [Energy E] (m : Message E) : Decidable m.Normalized :=
  inferInstanceAs (Decidable (0 ∈ m ∧ ∀ x ∈ m, 0 ≤ x))

theorem Proper.normalized_iff {m : Message (Extended K)} (h : m.Proper) :
    m.Normalized ↔ IsMinOver (fun _ => True) m.valueAt 0 := by
  have hentry : ∀ {x : Nat} {y : Extended K}, m[x]? = some y → m.valueAt x = y.value := by
    intro x y hxy
    rw [valueAt_eq, hxy]
    rfl
  constructor
  · rintro ⟨hzero, hall⟩
    obtain ⟨x, hx⟩ := List.mem_iff_getElem?.1 hzero
    refine ⟨fun y _ => ?_, fun _ => ⟨x, trivial, hentry hx⟩⟩
    cases hy : m[y]? with
    | none =>
      rw [valueAt_eq, hy]
      exact le_top
    | some a =>
      have ha := List.mem_of_getElem? hy
      rw [hentry hy]
      exact (h a ha).nonneg_iff.1 (hall a ha)
  · intro hmin
    obtain ⟨x, -, hx⟩ := hmin.attained WithTop.zero_ne_top
    constructor
    · cases ha : m[x]? with
      | none =>
        rw [valueAt_eq, ha] at hx
        exact absurd hx WithTop.top_ne_zero
      | some a =>
        have hmem := List.mem_of_getElem? ha
        rw [hentry ha, ← Extended.value_zero] at hx
        exact (h a hmem).ext Extended.proper_zero hx ▸ hmem
    · intro a ha
      obtain ⟨y, hy⟩ := List.mem_iff_getElem?.1 ha
      exact (h a ha).nonneg_iff.2 (hentry hy ▸ hmin.le y trivial)

/-- Normalization makes the least energy zero, unless all values are ruled out. -/
theorem Proper.normalized_or_hopeless [IsStrictOrderedRing K] {m : Message (Extended K)}
    (h : m.Proper) : (Message.normalize m).1.Normalized ∨ (Message.normalize m).1.Hopeless := by
  rcases normalize_cases h with ⟨he, htop⟩ | ⟨k, hk, -, hp, hv⟩
  · right
    rw [he]
    exact h.hopeless_iff.2 htop
  · left
    have hmin := isMinOver_lowest_valueAt h
    rw [hk, Extended.value_finite] at hmin
    have hshift := hmin.shift (-k) (fun x _ => (hv x).ge) fun x _ _ => ⟨x, trivial, hv x⟩
    rw [← WithTop.coe_add, add_neg_cancel, WithTop.coe_zero] at hshift
    exact hp.normalized_iff.2 hshift

end Message

namespace Node.Tracks

variable {g : Graph (Extended K)} {settings : Settings (Extended K)} {id : NodeId}
  {n : Node (Extended K)} {store : EdgeStore (Extended K)} (h : n.Tracks g settings id)
  (hi : n.binding.initialized = true) (hg : g.WellFormed) (hs : store.Fits g)
  (hm : store.Proper) (ha : g.Admissible)

include h hi hg hs hm ha

/-- What an update leaves on a port without damping. -/
theorem normalized_deliver [IsStrictOrderedRing K] {p e : Nat} (hp : n.binding.edges[p]? = some e)
    (hd : Update.dampingAt n.binding.damping p = 0) :
    ((n.deliver store).said id e).Normalized ∨ ((n.deliver store).said id e).Hopeless := by
  obtain ⟨m, hraw, -, hsend⟩ := h.sends_raw hi hg hs hm ha hp
  rw [h.said_deliver hi hg hs hp hraw, Update.settled_of_zero hd]
  exact hsend.proper.normalized_or_hopeless

theorem normalized_deliverPort [IsStrictOrderedRing K] {p e : Nat}
    (hp : n.binding.edges[p]? = some e) (hd : Update.dampingAt n.binding.damping p = 0) :
    ((n.deliverPort p store).said id e).Normalized ∨
      ((n.deliverPort p store).said id e).Hopeless := by
  obtain ⟨-, hsend⟩ := h.sends_rawPort hi hg hs hm ha hp
  rw [h.said_deliverPort hi hg hs hp, Update.settled_of_zero hd]
  exact hsend.proper.normalized_or_hopeless

theorem proper_belief {b : List (Extended K)}
    (hb : n.belief (n.binding.edges.map store.stateOf) = .ok b) : ∀ x ∈ b, x.Proper := by
  have hready := (h.ready hg hi hs).checkUpdate_eq_ok
  have hserves := h.serves hi hg ha
  have hheard : ∀ m ∈ (g.incident id).map (store.heard id), m.Proper := (proper_heard hm).1
  rw [← h.map_incoming hi] at hheard
  unfold Node.belief at hb
  cases hr : n.rule with
  | custom c => simp [hr] at hb
  | prior p =>
    simp only [hr, hready, Except.ok.injEq] at hb
    rw [hr] at hserves
    exact hb ▸ Message.proper_foldl_plus hheard hserves.1
  | table t =>
    simp only [hr, hready, Except.ok.injEq] at hb
    rw [hr] at hserves
    subst hb
    intro x hx
    obtain ⟨row, hrow, rfl⟩ := List.mem_map.1 hx
    exact Extended.proper_foldl_add (Table.proper_received hheard row.indices)
      (hserves.1.fits row (Array.mem_toList_iff.1 hrow)).proper

end Node.Tracks

namespace Solver

variable {s : Solver (Extended K)}

theorem initialized_of_nodeBelief {E : Type} [Energy E] {s : Solver E} {n : Node E} {b : List E}
    (h : s.nodeBelief n = .ok b) : n.binding.initialized = true := by
  unfold nodeBelief at h
  split at h
  · contradiction
  rename_i siblings _
  by_contra hi
  have hc : n.checkUpdate siblings = .error (.notInitialized n.id) := by
    simp [Node.checkUpdate, Binding.checkReady, hi]
  unfold Node.belief at h
  cases hr : n.rule <;> simp [hr, hc] at h

theorem WellFormed.proper_nodeBelief (h : s.WellFormed) (hm : s.store.Proper)
    (ha : s.graph.Admissible) {id : NodeId} {n : Node (Extended K)} (hn : s.nodeAt id = .ok n)
    {b : List (Extended K)} (hb : s.nodeBelief n = .ok b) : ∀ x ∈ b, x.Proper := by
  have ht := h.tracks id n hn
  have hi := initialized_of_nodeBelief hb
  rw [nodeBelief, ht.siblings_eq hi h.graph h.store] at hb
  exact ht.proper_belief hi h.graph h.store hm ha hb

theorem WellFormed.proper_belief (h : s.WellFormed) (hm : s.store.Proper)
    (ha : s.graph.Admissible) {v : Nat} {m : Message (Extended K)} (hb : s.belief v = .ok m) :
    m.Proper := by
  rw [belief, variableNodeAt] at hb
  cases hv : s.vars[v]? with
  | none => simp [hv] at hb
  | some n =>
    rw [hv] at hb
    exact h.proper_nodeBelief hm ha (nodeAt_var_eq_ok.2 ⟨n, hv, rfl⟩) hb

theorem WellFormed.proper_factorBelief (h : s.WellFormed) (hm : s.store.Proper)
    (ha : s.graph.Admissible) {f : Nat} {b : List (Extended K)}
    (hb : s.factorBelief f = .ok b) : ∀ x ∈ b, x.Proper := by
  rw [factorBelief, factorNodeAt] at hb
  cases hf : s.factors[f]? with
  | none => simp [hf] at hb
  | some n =>
    rw [hf] at hb
    exact h.proper_nodeBelief hm ha (nodeAt_factor_eq_ok.2 ⟨n, hf, rfl⟩) hb

variable [IsStrictOrderedRing K]

/-- An update leaves no other messages on the ports without damping. -/
theorem WellFormed.normalized_update (h : s.WellFormed) (hm : s.store.Proper)
    (ha : s.graph.Admissible) {id : NodeId} {ports : List Nat}
    (hports : (s.update id).1 = .ok ports) {port e : Nat}
    (hp : (s.graph.incident id)[port]? = some e) (hd : s.damping id port = .ok 0) :
    ((s.update id).2.store.said id e).Normalized ∨
      ((s.update id).2.store.said id e).Hopeless := by
  obtain ⟨n, hn, hi⟩ := h.update_isOk_iff.1 ⟨ports, hports⟩
  have ht := h.tracks id n hn
  obtain ⟨pool, hu⟩ := h.update_eq hn hi
  rw [← ht.edges_eq hi] at hp
  have hlt := (List.getElem?_eq_some_iff.1 hp).1
  have hzero := Except.ok.inj ((damping_eq hn hi hlt).symm.trans hd)
  rw [hu]
  exact ht.normalized_deliver hi h.graph h.store hm ha hp hzero

theorem WellFormed.normalized_updatePort (h : s.WellFormed) (hm : s.store.Proper)
    (ha : s.graph.Admissible) {id : NodeId} {port : Nat} {ports : List Nat}
    (hports : (s.updatePort id port).1 = .ok ports) (hd : s.damping id port = .ok 0) :
    ∃ e, (s.graph.incident id)[port]? = some e ∧
      (((s.updatePort id port).2.store.said id e).Normalized ∨
        ((s.updatePort id port).2.store.said id e).Hopeless) := by
  obtain ⟨⟨n, hn, hi⟩, hlt⟩ := h.updatePort_isOk_iff.1 ⟨ports, hports⟩
  have ht := h.tracks id n hn
  rw [← ht.edges_eq hi] at hlt
  obtain ⟨pool, hu⟩ := h.updatePort_eq hn hi hlt
  have hp := List.getElem?_eq_getElem hlt
  have hzero := Except.ok.inj ((damping_eq hn hi hlt).symm.trans hd)
  rw [hu, ← ht.edges_eq hi]
  exact ⟨_, hp, ht.normalized_deliverPort hi h.graph h.store hm ha hp hzero⟩

variable [Extended.Exponential K]

/-- At every point of a run on tables and equalities all messages and beliefs are admissible.
After an update of a node or of one port, the ports without damping have been left with messages
of minimum zero, or without a possible value. -/
theorem Reachable.admissible_and_normalized (h : s.Reachable) (hx : s.graph.Exact) :
    (∀ e state, s.store.get e = .ok state →
      state.toFactor.Proper ∧ state.toVariable.Proper) ∧
    (∀ v m, s.belief v = .ok m → m.Proper) ∧
    (∀ f b, s.factorBelief f = .ok b → ∀ x ∈ b, x.Proper) ∧
    (∀ id ports, (s.update id).1 = .ok ports → ∀ (port e : Nat),
      (s.graph.incident id)[port]? = some e → s.damping id port = .ok 0 →
        ((s.update id).2.store.said id e).Normalized ∨
          ((s.update id).2.store.said id e).Hopeless) ∧
    ∀ id port ports, (s.updatePort id port).1 = .ok ports → s.damping id port = .ok 0 →
      ∃ e, (s.graph.incident id)[port]? = some e ∧
        (((s.updatePort id port).2.store.said id e).Normalized ∨
          ((s.updatePort id port).2.store.said id e).Hopeless) := by
  have hw := h.wellFormed
  have ha := hx.admissible
  have hm := h.proper ha
  refine ⟨?_, fun v m => hw.proper_belief hm ha, fun f b => hw.proper_factorBelief hm ha,
    fun id ports hports port e => hw.normalized_update hm ha hports,
    fun id port ports => hw.normalized_updatePort hm ha⟩
  intro e state he
  rcases Nat.lt_or_ge e s.store.size with hlt | hle
  · obtain rfl := Except.ok.inj ((EdgeStore.get_eq_ok hlt).symm.trans he)
    exact ⟨hm e .variable, hm e .factor⟩
  · rw [EdgeStore.get_eq_error hle] at he
    contradiction

private def exclusive : Table (Extended ℚ) :=
  Table.assemble [2, 2] #[⟨[0, 0], 0⟩, ⟨[0, 1], 1⟩, ⟨[1, 0], .finite (-1)⟩]

private theorem built_exclusive : exclusive.Built :=
  ⟨[2, 2], [⟨[0, 0], 0⟩, ⟨[0, 1], 1⟩, ⟨[1, 0], .finite (-1)⟩], by decide +kernel⟩

private instance exponentialOfClamped : Extended.Exponential ℚ := ⟨id, id⟩

/-- Two bits that exclude each other and yet are to be equal. One of them is fixed, the other is
damped, and a message was set from outside. -/
private def clamped : Solver (Extended ℚ) :=
  [.addVariable "x" .bit, .addVariable "y" .bit, .addTable exclusive built_exclusive [0, 1],
    .addCustom .equality [1, 0], .setDamping (.var 1) (.finite (1 / 2)), .fixValue 0 (some 1),
    .initializeAll, .setToFactor 3 [.finite 3, Energy.top], .iterateParallel 1].foldl
      Solver.perform .empty

theorem Reachable.admissible_and_normalized_clamped : clamped.Reachable ∧
    (((clamped.update (.var 0)).2.store.said (.var 0) 3).Normalized ∨
      ((clamped.update (.var 0)).2.store.said (.var 0) 3).Hopeless) ∧
    ∃ e, (((clamped.updatePort (.factor 1) 0).2.store.said (.factor 1) e).Normalized ∨
      ((clamped.updatePort (.factor 1) 0).2.store.said (.factor 1) e).Hopeless) := by
  have hreach : clamped.Reachable := (Reachable.empty (by with_unfolding_all rfl)).foldl_perform _
  have hlist : clamped.graph.factors.toList.map (·.potential) =
      [.table ⟨0, exclusive⟩, .custom .equality] := by
    with_unfolding_all rfl
  have hexact : clamped.graph.Exact := by
    apply Graph.forall_potential hlist (P := Graph.Potential.Exact)
    simp [Graph.Potential.Exact]
  have hi : ∀ id ∈ [NodeId.var 0, .factor 1], clamped.Initialized id := by
    simp only [List.forall_mem_cons, List.not_mem_nil, false_imp_iff, implies_true, and_true]
    exact ⟨⟨_, by with_unfolding_all rfl, by decide +kernel⟩,
      ⟨_, by with_unfolding_all rfl, by decide +kernel⟩⟩
  obtain ⟨ports, hports⟩ := hreach.wellFormed.update_isOk_iff.2 (hi (.var 0) (by simp))
  obtain ⟨ports', hports'⟩ := hreach.wellFormed.updatePort_isOk_iff.2
    ⟨hi (.factor 1) (by simp),
      (by decide +kernel : 0 < (clamped.graph.incident (.factor 1)).length)⟩
  obtain ⟨-, -, -, hupdate, hport⟩ := hreach.admissible_and_normalized hexact
  obtain ⟨e, -, he⟩ := hport (.factor 1) 0 ports' hports' (by decide +kernel)
  exact ⟨hreach, hupdate (.var 0) ports hports 1 3 (by decide +kernel) (by decide +kernel), e, he⟩

end Solver

end MinSum
