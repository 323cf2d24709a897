import MinSum.Proofs.Solver.FixedPoint
import MinSum.Proofs.Solver.Forget

/-! Runs from the start. A solver is made of a graph, initialized and swept some times: before the
first sweep all messages are uniform, and every port is damped as the settings say. -/
namespace MinSum

section

variable {E : Type} [Energy E]

namespace Solver

/-- The solver that is left once it is made of the graph, initialized and swept `n` times. -/
def Started (g : Graph E) (settings : Settings E) (n : Nat) (s : Solver E) : Prop :=
  ∃ fresh, Solver.ofGraph g settings = .ok fresh ∧ fresh.initializeAll.1 = .ok () ∧
    fresh.initializeAll.2.iterate n = (.ok (), s)

/-- Two runs from the start that take the same number of sweeps. What their stores have in common
at the start and after each phase, they have in common at the end. -/
theorem Swept.simulate {s t : Solver E} {R Q : EdgeStore E → EdgeStore E → Prop}
    (hfactors : ∀ {a b a' b'}, R a a' → s.Spoken .factor a b → t.Spoken .factor a' b' → Q b b')
    (hvars : ∀ {a b a' b'}, Q a a' → s.Spoken .variable a b → t.Spoken .variable a' b' → Q b b')
    (hR : ∀ {a a'}, Q a a' → R a a') {n : Nat} {a b a' b' : EdgeStore E} (h : s.Swept n a b)
    (h' : t.Swept n a' b') (ha : R a a') : R b b' ∧ (0 < n → Q b b') := by
  induction h generalizing a' with
  | zero store =>
    cases h'
    exact ⟨ha, fun hn => absurd hn (Nat.lt_irrefl 0)⟩
  | succ factors vars rest ih =>
    cases h' with
    | succ factors' vars' rest' =>
      have hstep := hvars (hfactors ha factors factors') vars vars'
      obtain ⟨hr, hq⟩ := ih rest' (hR hstep)
      refine ⟨hr, fun _ => ?_⟩
      cases rest with
      | zero =>
        cases rest'
        exact hstep
      | succ => exact hq (Nat.succ_pos _)

variable [Energy.LawfulZero E] {g : Graph E} {settings : Settings E} {n : Nat} {s : Solver E}

/-- Nothing can go wrong at the start. -/
theorem exists_started (hg : g.WellFormed) (hd : checkDamping settings.damping = .ok ())
    (n : Nat) : ∃ s, Started g settings n s := by
  obtain ⟨fresh, hfresh, rfl, -, hw, -⟩ := exists_ofGraph hg hd
  obtain ⟨hok, hgraph, -, -, hready⟩ := hw.initializeAll_eq
  have hr : fresh.initializeAll.2.Ready := by
    intro id hid
    exact hready id (hgraph ▸ hid)
  obtain ⟨s, hs, -⟩ := hw.initializeAll.swept_iterate hr n
  exact ⟨s, fresh, hfresh, hok, hs⟩

/-- What a run from the start leaves: all nodes of the graph, bound to it, and the messages of `n`
sweeps from uniform ones. -/
structure Running (g : Graph E) (settings : Settings E) (n : Nat) (s : Solver E) : Prop where
  graph : s.graph = g
  settings : s.settings = settings
  wellFormed : s.WellFormed
  ready : s.Ready
  choiceOf : ∀ id, s.choiceOf id = {}
  swept : s.Swept n g.quiet s.store

theorem Started.running (h : Started g settings n s) (hg : g.WellFormed) :
    s.Running g settings n := by
  obtain ⟨fresh, hfresh, -, hs⟩ := h
  obtain ⟨rfl, rfl, hw, hb⟩ := ofGraph_eq_ok hg hfresh
  obtain ⟨-, hgraph, hstore, -, hready⟩ := hw.initializeAll_eq
  have hr : fresh.initializeAll.2.Ready := by
    intro id hid
    exact hready id (hgraph ▸ hid)
  have hchoices := hw.sameChoices_initializeAll
  obtain ⟨s', hs', hsame, hw', hswept⟩ := hw.initializeAll.swept_iterate hr n
  rw [hs] at hs'
  obtain rfl := congrArg Prod.snd hs'
  refine ⟨hsame.graph.trans hgraph, hsame.settings.trans hchoices.settings, hw', hsame.ready hr,
    ?_, ?_⟩
  · intro id
    rw [choiceOf_congr hsame.vars hsame.factors, hchoices.choiceOf]
    cases hn : fresh.nodeAt id with
    | error e => simp only [Solver.choiceOf, hn]
    | ok n =>
      rw [choiceOf_eq hn, hb id n hn]
  · rw [hstore, hw.store.reset_eq] at hswept
    exact hsame.symm.swept hswept

end Solver

end

theorem Graph.proper_quiet {K : Type} [Field K] [LinearOrder K] (g : Graph (Extended K)) :
    g.quiet.Proper := by
  intro e side
  rcases Nat.lt_or_ge e g.edges.size with he | he
  · rw [stateOf_quiet he]
    cases side <;> exact Message.proper_uniform _
  · rw [EdgeStore.stateOf_of_le (g.size_quiet ▸ he)]
    cases side <;> simp [Side.outgoing, Message.Proper]

namespace Solver

variable {K : Type} [Field K] [LinearOrder K] {g : Graph (Extended K)}
  {settings : Settings (Extended K)} {n : Nat} {s : Solver (Extended K)}

/-- No node has chosen another damping than that of the settings. -/
theorem Running.dampingAt_eq (h : s.Running g settings n) {id : NodeId} {p e : Nat}
    (hp : (g.incident id)[p]? = some e) :
    Update.dampingAt (s.dampings id) p = settings.damping := by
  obtain ⟨hlt, -⟩ := List.getElem?_eq_some_iff.1 hp
  rw [← h.graph] at hlt
  have hunsigned := h.wellFormed.unsigned_dampingAt h.ready hlt
  rw [Extended.unsigned_eq, Extended.unsigned_eq, h.choiceOf, h.settings] at hunsigned
  exact hunsigned

end Solver

end MinSum
