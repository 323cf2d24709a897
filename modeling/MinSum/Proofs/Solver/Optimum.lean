import Mathlib.Algebra.Order.Ring.Rat
import MinSum.Proofs.Solver.Exact

/-! Exactness on trees. After as many sweeps as there are variables the beliefs are the
min-marginals up to constants, and a single best assignment is guessed. -/
namespace MinSum

variable {K : Type} [Field K] [LinearOrder K]

theorem Extended.value_lt_of_lt {k : K} {y : Extended K} (h : Extended.finite k < y) :
    (k : WithTop K) < y.value := by
  cases y with
  | finite l => exact WithTop.coe_lt_coe.2 h
  | top => exact WithTop.coe_lt_top k
  | bot => exact h.elim
  | nan => exact h.elim

namespace Graph

variable {g : Graph (Extended K)} {a : List Nat}

/-- The assignment is possible, and every other one has a greater energy. -/
structure Optimal (g : Graph (Extended K)) (a : List Nat) : Prop extends g.Possible a where
  lt : ∀ a' ∈ g.assignments, a' ≠ a → g.energy a < g.energy a'

/-- The values of the best assignment have the least min-marginals. -/
theorem Optimal.minMarginal_lt (h : g.Optimal a) {v x : Nat} (hx : x ≠ a.getD v 0) :
    g.minMarginal v (a.getD v 0) < g.minMarginal v x := by
  obtain ⟨k, hk⟩ := h.finite
  have hbest : g.minMarginal v (a.getD v 0) ≤ k := by
    have hle := (g.isMinOver_minMarginal v (a.getD v 0)).le a ⟨h.mem, rfl⟩
    simpa only [hk, Extended.value_finite] using hle
  apply hbest.trans_lt
  by_cases ht : g.minMarginal v x = ⊤
  · rw [ht]
    exact WithTop.coe_lt_top k
  · obtain ⟨a', ⟨ha', hx'⟩, heq⟩ := (g.isMinOver_minMarginal v x).attained ht
    have hne : a' ≠ a := by
      rintro rfl
      exact hx hx'.symm
    have hlt := h.lt a' ha' hne
    rw [hk] at hlt
    exact heq ▸ Extended.value_lt_of_lt hlt

theorem Possible.prior_ne_top (h : g.Possible a) (hg : g.WellFormed) {v : Nat}
    {var : Variable (Extended K)} (hv : g.vars[v]? = some var) :
    var.prior.entry (a.getD v 0) ≠ Energy.top := by
  have hid : g.HasNode (.var v) := (Array.getElem?_eq_some_iff.1 hv).1
  have hcost := h.cost_ne_top hg hid
  intro ht
  apply hcost
  rw [cost, priorOf, hv, Option.map_some, Option.getD_some, Message.valueAt, ht,
    Extended.value_top]

end Graph

namespace Solver

variable {s : Solver (Extended K)} {a : List Nat}

/-- The belief of the variable is its min-marginal, up to a constant. -/
def BelievesExactly (s : Solver (Extended K)) (v : Nat) : Prop :=
  ∃ belief, s.belief v = .ok belief ∧ belief.length = s.graph.sizeAt v ∧ belief.Proper ∧
    ∃ c : K, ∀ x < s.graph.sizeAt v, belief.valueAt x = c + s.graph.minMarginal v x

section

variable [IsStrictOrderedRing K] (h : s.WellFormed) (ht : s.OnTree)

include h ht

/-- A variable that hears exact messages on all edges has an exact belief. -/
theorem WellFormed.believesExactly (hm : s.store.Proper) {v : Nat}
    (hv : v < s.graph.vars.size) (hconv : ∀ e ∈ s.graph.incident (.var v),
      s.graph.Conveys s.store (s.graph.opposite (.var v) e) e) : s.BelievesExactly v := by
  have hproper := h.graph.proper_belief hm v
  have hvalue := h.graph.valueAt_belief h.store v
  have hlen : (Prior.belief (s.graph.priorOf v)
      ((s.graph.incident (.var v)).map (s.store.heard (.var v)))).length = s.graph.sizeAt v := by
    rw [Prior.belief, Message.length_foldl_plus, h.graph.length_priorOf]
  refine ⟨_, h.belief_eq (ht.initialized _ hv), hlen, hproper, ?_⟩
  obtain ⟨k, hk⟩ := Graph.exists_shift h.graph ht.tree ht.tabular
    (S := (s.graph.incident (.var v)).toFinset) (fun e he => List.mem_toFinset.1 he)
    fun e he => hconv e (List.mem_toFinset.1 he)
  refine ⟨-k, fun x _ => ?_⟩
  have hnodes : ∀ b : Nat → Nat, s.graph.cost (.var v) b +
      ∑ e ∈ (s.graph.incident (.var v)).toFinset,
        s.graph.branchCost (s.graph.opposite (.var v) e) e b =
      ∑ id ∈ s.graph.nodes, s.graph.cost id b := by
    intro b
    rw [h.graph.sum_nodes (show s.graph.HasNode (.var v) from hv) ht.tree]
    congr 1
    refine Finset.sum_congr rfl fun e he => ?_
    rw [Graph.branchCost_opposite h.graph (List.mem_toFinset.1 he)]
  have hmin := hk (fun b => b v = x) _ (fun b b' hown _ hb => (hown v rfl).trans hb)
    ⟨fun b hb => (hb ▸ hvalue b).le, fun _ => ⟨fun _ => x, rfl, (hvalue fun _ => x).symm⟩⟩
  simp only [hnodes] at hmin
  rw [← Graph.minMarginal_eq h.graph hv hmin, add_comm _ (k : WithTop K), ← add_assoc,
    ← WithTop.coe_add, neg_add_cancel, WithTop.coe_zero, zero_add]

/-- With an exact belief the best value is guessed. -/
theorem WellFormed.guess_optimal (ha : s.graph.Optimal a) {v : Nat} (hv : v < s.graph.vars.size)
    (hb : s.BelievesExactly v) : s.guess v = .ok (a.getD v 0) := by
  have hi := ht.initialized (.var v) hv
  obtain ⟨belief, hbelief, hlen, hproper, c, hc⟩ := hb
  obtain ⟨var, hvar, hguess⟩ := h.guess_eq hi
  obtain rfl := Except.ok.inj ((h.belief_eq hi).symm.trans hbelief)
  rw [hguess]
  congr 1
  cases hf : var.fixed with
  | some i =>
    have hne := ha.toPossible.prior_ne_top h.graph hvar
    exact (Graph.Variable.eq_of_fixed hf hne).1.symm
  | none =>
    have hlt : a.getD v 0 < s.graph.sizeAt v := (Graph.mem_assignments.1 ha.mem).2 v hv
    have hargmin := hproper.argmin_eq (hlen.symm ▸ hlt) fun y hy hne => by
      rw [hc _ hlt, hc _ (hlen ▸ hy)]
      exact WithTop.add_lt_add_left WithTop.coe_ne_top (ha.minMarginal_lt hne)
    rw [hargmin]
    rfl

omit [IsStrictOrderedRing K] in
/-- The best assignment scores its energy. -/
theorem WellFormed.score_optimal (ha : s.graph.Optimal a) (hg : s.guesses = .ok a) :
    s.score = .ok (s.graph.energy a) := by
  have hscore := h.score_eq ht.initialized hg (Graph.mem_assignments.1 ha.mem).1
    fun v var hv => ha.toPossible.prior_ne_top h.graph hv
  obtain ⟨k, hk⟩ := ha.finite
  have hvalue : (s.graph.energy a).value = k := by rw [hk, Extended.value_finite]
  rw [hscore, hk]
  congr 1
  rw [← Extended.value_eq_coe, ← hvalue, Graph.energy, Graph.energies, Extended.value_add,
    Extended.value_foldl_add, Extended.value_foldl_add, Extended.value_foldl_add, List.map_append,
    List.sum_append, Extended.value_zero, zero_add, zero_add, zero_add]

omit h in
/-- On a tree of tables without damping, as many sweeps as there are variables make all beliefs
exact, whatever the messages were before. If a single assignment is best, then it is guessed and
scored. -/
theorem Reachable.iterate_exact [Extended.Exponential K] (h : s.Reachable) {n : Nat}
    (hn : s.graph.vars.size ≤ n) :
    let s' := (s.iterate n).2
    (s.iterate n).1 = .ok () ∧ s'.graph = s.graph ∧
      (∀ v < s.graph.vars.size, s'.BelievesExactly v) ∧
      ∀ a, s.graph.Optimal a → s'.guesses = .ok a ∧ s'.score = .ok (s.graph.energy a) := by
  intro s'
  have hw := h.wellFormed
  have hproper := h.proper ht.tabular.exact.admissible
  have hstart : s.graph.Knows (2 * 0) (fun _ => False) s.store := by
    refine ⟨hproper, fun id e _ hrank => ?_⟩
    rcases hrank with hlt | ⟨-, hfalse⟩
    · omega
    · exact hfalse.elim
  have hknows := hw.knows_iterate ht hstart n
  have hc := hw.holds.continues_iterate s.keeps_trivial n
  have hw' : s'.WellFormed := hc.holds.wellFormed
  have ht' : s'.OnTree := ht.congr hc.toSameNodes
  have hg : s'.graph = s.graph := hc.graph
  have hbelief : ∀ v < s.graph.vars.size, s'.BelievesExactly v := by
    intro v hv
    rw [← hg] at hv hn
    refine hw'.believesExactly ht' hknows.proper hv fun e he => ?_
    have hlt := hw'.graph.rank_opposite_lt_size ht'.tree he
    have hmem := hw'.graph.mem_incident_opposite he
    rw [hg] at hlt hmem hn ⊢
    exact hknows.conveys _ e hmem (.inl (by omega))
  obtain ⟨_, hok⟩ := hw.iterate_isOk ht.initialized n
  refine ⟨hok, hg, hbelief, ?_⟩
  intro a ha
  have ha' : s'.graph.Optimal a := hg ▸ ha
  have hguesses : s'.guesses = .ok a := by
    apply guesses_eq
    · rw [hw'.size_vars]
      exact (Graph.mem_assignments.1 ha'.mem).1
    · intro v hv
      rw [hw'.size_vars] at hv
      exact hw'.guess_optimal ht' ha' hv (hbelief v (hg ▸ hv))
  exact ⟨hguesses, hg ▸ hw'.score_optimal ht' ha' hguesses⟩

end

private def linking : Table (Extended ℚ) := Table.assemble [2, 2] #[⟨[0, 0], 0⟩, ⟨[1, 1], 1⟩]

private theorem built_linking : linking.Built :=
  ⟨[2, 2], [⟨[0, 0], 0⟩, ⟨[1, 1], 1⟩], by decide +kernel⟩

private instance exponentialOfChain : Extended.Exponential ℚ := ⟨id, id⟩

/-- Three bits in a row, the first of them with an input, after messages from outside. -/
private def chain : Solver (Extended ℚ) :=
  [.addVariable "x" .bit, .addVariable "y" .bit, .addVariable "z" .bit,
    .addTable linking built_linking [0, 1], .addTable linking built_linking [1, 2],
    .setInput 0 (some [.finite 3, 0]), .initializeAll, .setToFactor 0 [0, Energy.top],
    .setToVariable 3 [.finite 7, 0]].foldl Solver.perform .empty

private theorem reachable_chain : chain.Reachable :=
  (Reachable.empty (by with_unfolding_all rfl)).foldl_perform _

private def depth : NodeId → Nat
  | .var v => 2 * v
  | .factor f => 2 * f + 1

private theorem isTree_chain : chain.graph.IsTree := by
  have hedges : chain.graph.edges = #[⟨0, 0⟩, ⟨1, 0⟩, ⟨1, 1⟩, ⟨2, 1⟩] := by decide +kernel
  have hvars : chain.graph.vars.size = 3 := by decide +kernel
  have hfactors : chain.graph.factors.size = 2 := by decide +kernel
  let pairs : List (NodeId × NodeId) := [(.var 0, .factor 0), (.var 1, .factor 0),
    (.var 1, .factor 1), (.var 2, .factor 1), (.factor 0, .var 0), (.factor 0, .var 1),
    (.factor 1, .var 1), (.factor 1, .var 2)]
  have hpairs : ∀ a b, chain.graph.bipartite.Adj a b → (a, b) ∈ pairs := by
    rintro a b ⟨-, ⟨edge, he, rfl, rfl⟩ | ⟨edge, he, rfl, rfl⟩⟩
    all_goals
      rw [hedges] at he
      simp only [List.mem_toArray, List.mem_cons, List.not_mem_nil, or_false] at he
      obtain rfl | rfl | rfl | rfl := he
      all_goals simp [pairs]
  have hedge : ∀ edge ∈ chain.graph.edges,
      chain.graph.bipartite.Adj (.var edge.var) (.factor edge.factor) := fun edge he =>
    ⟨NodeId.noConfusion, .inl ⟨edge, he, rfl, rfl⟩⟩
  constructor
  · apply isAcyclic_of_depth depth
    have hcheck : ∀ p ∈ pairs, ∀ q ∈ pairs, p.1 = q.1 → depth p.2 ≤ depth p.1 →
        depth q.2 ≤ depth q.1 → p.2 = q.2 := by decide
    intro a b c hb hc
    exact hcheck _ (hpairs a b hb) _ (hpairs a c hc) rfl
  · have hx := (hedge ⟨0, 0⟩ (by simp [hedges])).reachable
    have hy := hx.trans (hedge ⟨1, 0⟩ (by simp [hedges])).symm.reachable
    have hyz := hy.trans (hedge ⟨1, 1⟩ (by simp [hedges])).reachable
    have hz := hyz.trans (hedge ⟨2, 1⟩ (by simp [hedges])).symm.reachable
    have hfirst : ∀ id, chain.graph.HasNode id → chain.graph.bipartite.Reachable (.var 0) id := by
      intro id hid
      cases id with
      | var v =>
        have hv : v < 3 := hvars ▸ hid
        obtain rfl | rfl | rfl : v = 0 ∨ v = 1 ∨ v = 2 := by omega
        · exact .rfl
        · exact hy
        · exact hz
      | factor f =>
        have hf : f < 2 := hfactors ▸ hid
        obtain rfl | rfl : f = 0 ∨ f = 1 := by omega
        · exact hx
        · exact hyz
    exact fun a b ha hb => (hfirst a ha).symm.trans (hfirst b hb)

private theorem bound_chain {id : NodeId} {n : Node (Extended ℚ)} (hn : chain.nodeAt id = .ok n) :
    n.binding.initialized = true ∧ n.binding.damping = none := by
  have hall : ∀ n ∈ chain.vars.toList.map Node.var ++ chain.factors.toList.map Node.factor,
      n.binding.initialized = true ∧ n.binding.damping = none := by decide +kernel
  apply hall
  rw [List.mem_append]
  cases id with
  | var v =>
    obtain ⟨m, hm, rfl⟩ := nodeAt_var_eq_ok.1 hn
    exact .inl (List.mem_map.2 ⟨m, Array.mem_toList_iff.2 (Array.mem_of_getElem? hm), rfl⟩)
  | factor f =>
    obtain ⟨m, hm, rfl⟩ := nodeAt_factor_eq_ok.1 hn
    exact .inr (List.mem_map.2 ⟨m, Array.mem_toList_iff.2 (Array.mem_of_getElem? hm), rfl⟩)

private theorem onTree_chain : chain.OnTree where
  tree := isTree_chain
  tabular := by
    have hlist : chain.graph.factors.toList.map (·.potential) =
        [.table ⟨0, linking⟩, .table ⟨0, linking⟩] := by
      with_unfolding_all rfl
    apply Graph.forall_potential hlist (P := fun p => ∃ t, p = .table t)
    simp
  initialized id hid := by
    obtain ⟨n, hn⟩ := reachable_chain.wellFormed.nodeAt_of_hasNode id hid
    exact ⟨n, hn, (bound_chain hn).1⟩
  undamped id port d hd := by
    unfold damping at hd
    split at hd
    · contradiction
    rename_i n hn
    obtain ⟨hi, hnone⟩ := bound_chain hn
    unfold Binding.dampingOf at hd
    rw [hnone] at hd
    split at hd
    · contradiction
    split at hd
    · contradiction
    exact (Except.ok.inj hd).symm

/-- All of them one is best, against the messages from outside. -/
theorem Reachable.iterate_exact_chain : chain.Reachable ∧ chain.OnTree ∧
    chain.graph.vars.size ≤ 3 ∧ (chain.iterate 3).2.guesses = .ok [1, 1, 1] ∧
      (chain.iterate 3).2.score = .ok (.finite 2) := by
  have hsize : chain.graph.vars.size ≤ 3 := by decide +kernel
  have hbest : chain.graph.Optimal [1, 1, 1] :=
    ⟨⟨by decide +kernel, 2, by decide +kernel⟩, by decide +kernel⟩
  obtain ⟨-, -, -, hopt⟩ := Reachable.iterate_exact onTree_chain reachable_chain hsize
  obtain ⟨hguesses, hscore⟩ := hopt _ hbest
  refine ⟨reachable_chain, onTree_chain, hsize, hguesses, hscore.trans ?_⟩
  decide +kernel

end Solver

end MinSum
