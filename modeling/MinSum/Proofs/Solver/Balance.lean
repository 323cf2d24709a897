import Mathlib.Tactic.Ring
import MinSum.Proofs.Solver.Loaded
import MinSum.Proofs.Solver.Spoken

/-! The balance of beliefs and messages. A belief is the energy of one node plus what the node
hears, and each message is heard by one node. So what all nodes believe of an assignment, less all
messages, is the energy of the assignment, whatever the messages are. -/
namespace MinSum

/-- Nodes of one kind list each edge once between them. -/
theorem Graph.sum_incident {E M : Type} [AddCommMonoid M] {g : Graph E} (node : Nat → NodeId)
    {count : Nat} {last : Nat → Nat}
    (hmem : ∀ i e, e ∈ g.incident (node i) ↔ e < g.edges.size ∧ last e = i)
    (hlt : ∀ e < g.edges.size, last e < count) (w : Nat → M) :
    ∑ i ∈ Finset.range count, ∑ e ∈ (g.incident (node i)).toFinset, w e =
      ∑ e ∈ Finset.range g.edges.size, w e := by
  have hfiber : ∀ i, (g.incident (node i)).toFinset =
      (Finset.range g.edges.size).filter (last · = i) := by
    intro i
    ext e
    rw [List.mem_toFinset, hmem, Finset.mem_filter, Finset.mem_range]
  simp only [hfiber]
  apply Finset.sum_fiberwise_of_maps_to
  intro e he
  exact Finset.mem_range.2 (hlt e (Finset.mem_range.1 he))

namespace Solver.Anchored

variable {E : Type} [Energy E] {s : Solver E} (h : s.Anchored)

include h

/-- A table whose edges have states of the right sizes believes what it hears. -/
theorem factorBelief_eq {f : Nat} (hi : s.Initialized (.factor f))
    (hfit : s.misfit? (.factor f) = none) {factor : Graph.Factor E}
    (hf : s.graph.factors[f]? = some factor) {t : Shared (Table E)}
    (ht : factor.potential = .table t) : s.factorBelief f =
      .ok (t.content.belief ((s.graph.incident (.factor f)).map (s.store.heard (.factor f)))) := by
  obtain ⟨n, hn, hi⟩ := hi
  obtain ⟨m, hm, rfl⟩ := nodeAt_factor_eq_ok.1 hn
  have hs := h.nodes _ _ hn
  obtain rfl : m.factor = f := NodeId.factor.inj hs.id_eq
  have hpot : m.potential = .table t := by
    obtain ⟨factor', hf', hp⟩ := Option.map_eq_some_iff.1 (hs.potential m rfl)
    obtain rfl := Option.some.inj (hf.symm.trans hf')
    exact hp.symm.trans ht
  have hedges := h.edges_eq hn hi
  have hcheck := h.checkUpdate_eq hn hi
  rw [hfit] at hcheck
  have hsiblings : s.store.siblings (Node.factor m).binding.edges =
      .ok ((Node.factor m).binding.edges.map s.store.stateOf) :=
    EdgeStore.siblings_eq_ok (h.lt_size hn hi)
  have hheard : ((Node.factor m).binding.edges.map s.store.stateOf).map Side.factor.incoming =
      (s.graph.incident (.factor m.factor)).map (s.store.heard (.factor m.factor)) := by
    rw [hedges, List.map_map]
    rfl
  have hrule : (Node.factor m).rule = .table t.content := by
    simp only [Node.rule, hpot]
  simp only [Solver.factorBelief, factorNodeAt, hm, nodeBelief, hsiblings, Node.belief, hrule]
  rw [← hheard]
  simp only [hcheck]
  rfl

end Solver.Anchored

namespace Graph.WellFormed

variable {K : Type} [Field K] [LinearOrder K] {g : Graph (Extended K)} (h : g.WellFormed)

include h

/-- The belief of a table in a row is the energy of the row plus what it hears of it. -/
theorem value_rowBelief (store : EdgeStore (Extended K)) {f : Nat} {factor : Factor (Extended K)}
    (hf : g.factors[f]? = some factor) {t : Shared (Table (Extended K))}
    (ht : factor.potential = .table t) {r : Row (Extended K)} (hr : r ∈ t.content.rows)
    {b : Nat → Nat} (hb : r.indices = (g.incident (.factor f)).map fun e => b (g.varOf e)) :
    ((Table.received ((g.incident (.factor f)).map (store.heard (.factor f)))
      r.indices).foldl (· + ·) r.energy).value = g.cost (.factor f) b +
        ∑ e ∈ (g.incident (.factor f)).toFinset, g.inflow store (.factor f) b e := by
  have hsuits := (h.valid_factor factor (Array.mem_of_getElem? hf)).suits
  rw [ht] at hsuits
  have henergy : t.content.energyOf r.indices = r.energy := hsuits.1.sound.energyOf_of_mem hr
  have hcost : g.cost (.factor f) b = r.energy.value := by
    simp only [cost, hf, ht, Option.map_some, Option.getD_some, Potential.energy]
    rw [← hb, henergy]
  rw [hcost, hb, Table.received_map, Extended.value_foldl_add, List.map_map,
    List.sum_toFinset _ (h.nodup_incident _)]
  rfl

end Graph.WellFormed

namespace Solver

variable {K : Type} [Field K] [LinearOrder K] {s : Solver (Extended K)} {a : List Nat}

/-- What a solver tells of a joint assignment: what each variable believes of its value, what each
table believes of its row, and what the two messages of each edge say of the value together. -/
structure Account (s : Solver (Extended K)) (a : List Nat) (ofVar ofRow ofEdge : Nat → K) :
    Prop where
  belief : ∀ v < s.graph.vars.size, ∃ energies, s.belief v = .ok energies ∧
    energies.entry (a.getD v 0) = .finite (ofVar v)
  factorBelief : ∀ f < s.graph.factors.size, ∃ factor t, s.graph.factors[f]? = some factor ∧
    factor.potential = .table t ∧ ∃ energies, s.factorBelief f = .ok energies ∧
      ∃ (r : Nat) (row : Row (Extended K)), t.content.rows[r]? = some row ∧
        row.indices = restrict a (Graph.neighborsOf factor.links) ∧
        energies[r]? = some (.finite (ofRow f))
  messages : ∀ e < s.graph.edges.size, ∃ k k',
    (s.store.stateOf e).toFactor.entry (a.getD (s.graph.varOf e) 0) = .finite k ∧
      (s.store.stateOf e).toVariable.entry (a.getD (s.graph.varOf e) 0) = .finite k' ∧
      ofEdge e = k + k'

theorem misfit?_eq_none {E : Type} [Energy E] {s : Solver E} (hg : s.graph.WellFormed)
    (hf : s.store.Fits s.graph) (id : NodeId) : s.misfit? id = none := by
  apply List.find?_eq_none.2
  intro e he
  have hlt : e < s.store.size := hf.size ▸ hg.lt_of_mem_incident he
  have hsize : (s.store.stateOf e).domainSize = s.graph.edgeSize e := (hf.states e hlt).toFactor
  simp [hsize]

namespace Anchored

variable (h : s.Anchored) (hf : s.store.Fits s.graph) {v f : Nat}
  {factor : Graph.Factor (Extended K)} {t : Shared (Table (Extended K))}

include h hf

theorem belief_eq (hi : s.Initialized (.var v)) : s.belief v =
    .ok (Prior.belief (s.graph.priorOf v)
      ((s.graph.incident (.var v)).map (s.store.heard (.var v)))) := by
  obtain ⟨var, hv, hcounts⟩ := h.countsWith hi
  have hprior : s.graph.priorOf v = (List.range var.size).map var.energyBefore := by
    rw [Graph.priorOf, hv]
    exact (h.graph.valid_variable var (Array.mem_of_getElem? hv)).prior_eq
  rw [hprior]
  exact hcounts.belief (misfit?_eq_none h.graph hf _)

theorem exists_entry_eq (hm : s.store.Finite) (hx : s.graph.Possible a) {e : Nat}
    (he : e < s.graph.edges.size) (side : Side) :
    ∃ k, (side.outgoing (s.store.stateOf e)).entry (a.getD (s.graph.varOf e) 0) = .finite k := by
  have hlen := (hf.states e (hf.size ▸ he)).outgoing side
  have hlt : a.getD (s.graph.varOf e) 0 < (side.outgoing (s.store.stateOf e)).length := by
    rw [hlen]
    exact hx.lt_edgeSize h.graph he
  obtain ⟨k, hk⟩ := hm e side _ (List.getElem_mem hlt)
  refine ⟨k, ?_⟩
  rw [Message.entry, List.getD_eq_getElem _ _ hlt, hk]

/-- A variable believes what its prior and the messages say of its value. -/
theorem exists_belief_entry (hi : s.Initialized (.var v)) {x : Nat → Nat} {k : K}
    {m : Nat → K} (hk : s.graph.cost (.var v) x = k)
    (hm : ∀ e ∈ s.graph.incident (.var v), s.graph.inflow s.store (.var v) x e = m e) :
    ∃ energies, s.belief v = .ok energies ∧ energies.entry (x v) =
      .finite (k + ∑ e ∈ (s.graph.incident (.var v)).toFinset, m e) := by
  refine ⟨_, h.belief_eq hf hi, Extended.value_eq_coe.1 ?_⟩
  have hvalue := h.graph.valueAt_belief hf v x
  rw [Message.valueAt] at hvalue
  rw [hvalue, hk, WithTop.coe_add, WithTop.coe_sum]
  congr 1
  exact Finset.sum_congr rfl fun e he => hm e (List.mem_toFinset.1 he)

/-- A table that does not rule an assignment out has a row for it, and believes of the row what its
energy and the messages say. -/
theorem exists_factorBelief_entry (hi : s.Initialized (.factor f))
    (hfactor : s.graph.factors[f]? = some factor) (ht : factor.potential = .table t) {x : Nat → Nat}
    {k : K} {m : Nat → K} (hk : s.graph.cost (.factor f) x = k)
    (hm : ∀ e ∈ s.graph.incident (.factor f), s.graph.inflow s.store (.factor f) x e = m e) :
    ∃ energies, s.factorBelief f = .ok energies ∧ ∃ (r : Nat) (row : Row (Extended K)),
      t.content.rows[r]? = some row ∧ row.indices = (Graph.neighborsOf factor.links).map x ∧
      energies[r]? = some (.finite (k + ∑ e ∈ (s.graph.incident (.factor f)).toFinset, m e)) := by
  have hneighbors : (Graph.neighborsOf factor.links).map x =
      (s.graph.incident (.factor f)).map fun e => x (s.graph.varOf e) := by
    rw [← Graph.linksAt_factor hfactor, h.graph.neighborsOf_eq, List.map_map]
    rfl
  have henergy : t.content.energyOf ((s.graph.incident (.factor f)).map
      fun e => x (s.graph.varOf e)) ≠ Energy.top := by
    intro htop
    simp only [Graph.cost, hfactor, ht, Option.map_some, Option.getD_some,
      Graph.Potential.energy, htop] at hk
    exact WithTop.top_ne_coe hk
  obtain ⟨row, hrow, hindices⟩ := Table.exists_of_energyOf_ne_top henergy
  obtain ⟨r, hr⟩ := Array.mem_iff_getElem?.1 hrow
  refine ⟨_, h.factorBelief_eq hi (misfit?_eq_none h.graph hf _) hfactor ht, r, row, hr,
    hindices.trans hneighbors.symm, ?_⟩
  rw [Table.belief, List.getElem?_map, Array.getElem?_toList, hr, Option.map_some]
  congr 1
  apply Extended.value_eq_coe.1
  rw [h.graph.value_rowBelief s.store hfactor ht hrow hindices, hk, WithTop.coe_add,
    WithTop.coe_sum]
  congr 1
  exact Finset.sum_congr rfl fun e he => hm e (List.mem_toFinset.1 he)

end Anchored

/-- Beliefs re-express the energy of the model. In every state that a run leads to, whatever its
messages are, as long as they are finite, the beliefs of all variables and all tables at an
assignment of finite energy, less both messages of every edge, are the energy of the assignment. -/
theorem Attainable.energy_eq_balance [Extended.Exponential K] (h : s.Attainable)
    (ht : s.graph.Tabular) (hr : s.Ready) (hf : s.store.Fits s.graph) (hm : s.store.Finite)
    (hx : s.graph.Possible a) : ∃ ofVar ofRow ofEdge : Nat → K, s.Account a ofVar ofRow ofEdge ∧
      s.graph.energy a = .finite (∑ v ∈ Finset.range s.graph.vars.size, ofVar v +
        ∑ f ∈ Finset.range s.graph.factors.size, ofRow f -
        ∑ e ∈ Finset.range s.graph.edges.size, ofEdge e) := by
  have hs := h.anchored
  have hg := hs.graph
  -- The energies of the nodes and the messages, as numbers.
  have hcost : ∀ id, ∃ k : K, s.graph.HasNode id → s.graph.cost id (a.getD · 0) = k := by
    intro id
    by_cases hid : s.graph.HasNode id
    · obtain ⟨k, hk⟩ := WithTop.ne_top_iff_exists.1 (hx.cost_ne_top hg hid)
      exact ⟨k, fun _ => hk.symm⟩
    · exact ⟨0, fun hid' => absurd hid' hid⟩
  have hsent : ∀ side e, ∃ k : K, e < s.graph.edges.size →
      (Side.outgoing side (s.store.stateOf e)).entry (a.getD (s.graph.varOf e) 0) = .finite k := by
    intro side e
    by_cases he : e < s.graph.edges.size
    · obtain ⟨k, hk⟩ := hs.exists_entry_eq hf hm hx he side
      exact ⟨k, fun _ => hk⟩
    · exact ⟨0, fun he' => absurd he' he⟩
  choose energy henergy using hcost
  choose sent hsent using hsent
  have hheard : ∀ id side, (∀ state : EdgeMessages (Extended K),
      id.side.incoming state = side.outgoing state) → ∀ e ∈ s.graph.incident id,
      s.graph.inflow s.store id (a.getD · 0) e = sent side e := by
    intro id side hside e he
    have hentry := hsent side e (hg.lt_of_mem_incident he)
    rw [Graph.inflow, EdgeStore.heard, hside, Message.valueAt, hentry]
    rfl
  refine ⟨fun v => energy (.var v) + ∑ e ∈ (s.graph.incident (.var v)).toFinset, sent .factor e,
    fun f => energy (.factor f) + ∑ e ∈ (s.graph.incident (.factor f)).toFinset, sent .variable e,
    fun e => sent .variable e + sent .factor e, ⟨?_, ?_, ?_⟩, ?_⟩
  · intro v hv
    exact hs.exists_belief_entry hf (hr (.var v) hv) (henergy (.var v) hv)
      (hheard (.var v) .factor fun _ => rfl)
  · intro f hlt
    have hfactor := Array.getElem?_eq_getElem hlt
    obtain ⟨t, hpot⟩ := ht _ (Array.getElem_mem hlt)
    exact ⟨_, t, hfactor, hpot, hs.exists_factorBelief_entry hf (hr (.factor f) hlt) hfactor hpot
      (henergy (.factor f) hlt) (hheard (.factor f) .variable fun _ => rfl)⟩
  · intro e he
    exact ⟨_, _, hsent .variable e he, hsent .factor e he, rfl⟩
  · obtain ⟨k, hk⟩ := hx.finite
    have hsum : (k : WithTop K) =
        (∑ v ∈ Finset.range s.graph.vars.size, energy (.var v) +
          ∑ f ∈ Finset.range s.graph.factors.size, energy (.factor f) : K) := by
      have hvalue := Graph.value_energy hg (Graph.mem_assignments.1 hx.mem).1
      rw [hk, Extended.value_finite, s.graph.sum_nodes] at hvalue
      rw [hvalue, WithTop.coe_add, WithTop.coe_sum, WithTop.coe_sum]
      congr 1
      · exact Finset.sum_congr rfl fun v hv => henergy (.var v) (Finset.mem_range.1 hv)
      · exact Finset.sum_congr rfl fun f hf => henergy (.factor f) (Finset.mem_range.1 hf)
    have hvars := Graph.sum_incident NodeId.var (fun _ _ => hg.mem_incident_var)
      (fun _ => hg.varOf_lt) (sent .factor)
    have hfactors := Graph.sum_incident NodeId.factor (fun _ _ => hg.mem_incident_factor)
      (fun _ => hg.factorOf_lt) (sent .variable)
    rw [hk, WithTop.coe_inj.1 hsum, Finset.sum_add_distrib, Finset.sum_add_distrib,
      Finset.sum_add_distrib, hvars, hfactors]
    congr 1
    ring

/-- A table of two bits, and one that leaves out that both are one. -/
private def biased : Table (Extended ℚ) := Table.assemble [2, 2]
  #[⟨[0, 0], .finite 2⟩, ⟨[0, 1], 1⟩, ⟨[1, 0], .finite (-1)⟩, ⟨[1, 1], .finite (1 / 2)⟩]

private def sparse : Table (Extended ℚ) :=
  Table.assemble [2, 2] #[⟨[1, 0], .finite 3⟩, ⟨[0, 1], 1⟩, ⟨[0, 0], 0⟩]

private theorem built_biased : biased.Built := ⟨[2, 2],
  [⟨[0, 0], .finite 2⟩, ⟨[0, 1], 1⟩, ⟨[1, 0], .finite (-1)⟩, ⟨[1, 1], .finite (1 / 2)⟩],
  by decide +kernel⟩

private theorem built_sparse : sparse.Built :=
  ⟨[2, 2], [⟨[1, 0], .finite 3⟩, ⟨[0, 1], 1⟩, ⟨[0, 0], 0⟩], by decide +kernel⟩

private instance exponentialOfEntangled : Extended.Exponential ℚ := ⟨id, id⟩

/-- Two bits in two tables, one bit fixed and the other with an input. Some messages were set from
outside, and a state put in the place of another. -/
private def entangled : Solver (Extended ℚ) :=
  (([.addVariable "x" .bit, .addVariable "y" .bit, .addTable biased built_biased [0, 1],
    .addTable sparse built_sparse [1, 0], .setInput 1 (some [.finite (1 / 2), .finite 3]),
    .fixValue 0 (some 1), .initializeAll, .setToFactor 0 [1, .finite 2],
    .setToVariable 3 [.finite (-1), .finite 5]].foldl Solver.perform .empty).modifyEdge 1 fun _ =>
      .ok ⟨[.finite 4, .finite (-4)], [.finite (1 / 3), 0]⟩).2

theorem Attainable.energy_eq_balance_entangled : entangled.Attainable ∧
    ∃ ofVar ofRow ofEdge : Nat → ℚ, entangled.Account [1, 0] ofVar ofRow ofEdge ∧
      entangled.graph.energy [1, 0] = .finite (∑ v ∈ Finset.range entangled.graph.vars.size,
        ofVar v + ∑ f ∈ Finset.range entangled.graph.factors.size, ofRow f -
        ∑ e ∈ Finset.range entangled.graph.edges.size, ofEdge e) := by
  have hreach : entangled.Attainable :=
    ((Reachable.empty (by with_unfolding_all rfl)).foldl_perform _).attainable.replaceEdge 1 _
  have hlist : entangled.graph.factors.toList.map (·.potential) =
      [.table ⟨0, biased⟩, .table ⟨1, sparse⟩] := by
    with_unfolding_all rfl
  have htabular : entangled.graph.Tabular := by
    apply Graph.forall_potential hlist (P := fun p => ∃ t, p = .table t)
    simp
  have hsize : entangled.store.size = 4 := by decide +kernel
  have hlengths : ∀ e < 4, entangled.graph.edgeSize e = 2 ∧
      (entangled.store.stateOf e).toFactor.length = 2 ∧
      (entangled.store.stateOf e).toVariable.length = 2 := by decide +kernel
  have hentries : ∀ e < 4, ∀ x ∈ (entangled.store.stateOf e).toFactor ++
      (entangled.store.stateOf e).toVariable, x ≠ .top ∧ x ≠ .bot ∧ x ≠ .nan := by decide +kernel
  have hfits : entangled.store.Fits entangled.graph := by
    refine ⟨hreach.anchored.size_store, fun e he => ?_⟩
    obtain ⟨hedge, hfactor, hvar⟩ := hlengths e (hsize ▸ he)
    exact ⟨hfactor.trans hedge.symm, hvar.trans hedge.symm⟩
  have hfinite : entangled.store.Finite := by
    intro e side x hx
    have he : e < 4 := by
      by_contra he
      rw [EdgeStore.stateOf_of_le (by omega)] at hx
      cases side <;> simp [Side.outgoing] at hx
    have hmem : x ∈ (entangled.store.stateOf e).toFactor ++
        (entangled.store.stateOf e).toVariable := by
      rw [List.mem_append]
      cases side
      · exact .inl hx
      · exact .inr hx
    obtain ⟨htop, hbot, hnan⟩ := hentries e he x hmem
    cases x with
    | finite k => exact ⟨k, rfl⟩
    | top => contradiction
    | bot => contradiction
    | nan => contradiction
  have hready : entangled.Ready := ready_of_forall hreach.anchored.size_vars
    hreach.anchored.size_factors (by decide +kernel) (by decide +kernel)
  have hpossible : entangled.graph.Possible [1, 0] := ⟨by decide +kernel, 1 / 2, by decide +kernel⟩
  exact ⟨hreach, hreach.energy_eq_balance htabular hready hfits hfinite hpossible⟩

end Solver

end MinSum
