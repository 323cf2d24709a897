import MinSum.Proofs.Solver.Beside

/-! One solver mirrors the other if they differ in nothing but scratch memory and in how the factors
are given. Nothing that is read off the two tells them apart. -/
namespace MinSum.Solver

open Scratch

variable {E : Type} {Q : Graph.Potential E → Graph.Potential E → Prop}

structure Mirrors (Q : Graph.Potential E → Graph.Potential E → Prop) (s t : Solver E) : Prop where
  graph : s.graph.Mirrors Q t.graph
  settings : t.settings = s.settings
  store : t.store = s.store
  warnings : t.warnings = s.warnings
  vars : Matched VariableNode.Mirrors s.vars t.vars
  factors : Matched (FactorNode.Mirrors Q) s.factors t.factors

theorem Beside.mirrors [Energy E] {R : Node E → Node E → Prop} {W : Pool E → Pool E → Prop}
    {s t : Solver E} (h : Beside Q R W s t) (hR : Node.Congruent Q R) : s.Mirrors Q t where
  graph := h.graph
  settings := h.settings
  store := h.store
  warnings := h.warnings
  vars := h.vars.imp fun _ m m' _ _ hm => by
    cases hR.mirrors hm with
    | var hmm => exact hmm
  factors := h.factors.imp fun _ m m' _ _ hm => by
    cases hR.mirrors hm with
    | factor hmm => exact hmm

namespace Mirrors

variable {s t : Solver E} (h : s.Mirrors Q t)

include h

theorem beside : Beside Q (Node.Mirrors Q) (fun _ _ => True) s t where
  graph := h.graph
  settings := h.settings
  store := h.store
  warnings := h.warnings
  vars := h.vars.imp fun _ _ _ _ _ => .var
  factors := h.factors.imp fun _ _ _ _ _ => .factor
  pool := trivial

theorem variableNodeAt (v : Nat) :
    Agree VariableNode.Mirrors (s.variableNodeAt v) (t.variableNodeAt v) := by
  rcases h.vars.getElem? v with ⟨hm, hm'⟩ | ⟨m, m', hm, hm', hmm⟩
  · exact .inl ⟨_, by rw [Solver.variableNodeAt, hm], by rw [Solver.variableNodeAt, hm']⟩
  · exact .inr ⟨m, m', by rw [Solver.variableNodeAt, hm], by rw [Solver.variableNodeAt, hm'], hmm⟩

theorem factorNodeAt (f : Nat) :
    Agree (FactorNode.Mirrors Q) (s.factorNodeAt f) (t.factorNodeAt f) := by
  rcases h.factors.getElem? f with ⟨hm, hm'⟩ | ⟨m, m', hm, hm', hmm⟩
  · exact .inl ⟨_, by rw [Solver.factorNodeAt, hm], by rw [Solver.factorNodeAt, hm']⟩
  · exact .inr ⟨m, m', by rw [Solver.factorNodeAt, hm], by rw [Solver.factorNodeAt, hm'], hmm⟩

theorem node {id : NodeId} {n n' : Node E} (hn : s.nodeAt id = .ok n) (hn' : t.nodeAt id = .ok n') :
    n.Mirrors Q n' := by
  rcases h.beside.nodeAt id with ⟨e, he, -⟩ | ⟨m, m', hm, hm', hmm⟩
  · rw [hn] at he
    contradiction
  · obtain rfl := Except.ok.inj (hn.symm.trans hm)
    obtain rfl := Except.ok.inj (hn'.symm.trans hm')
    exact hmm

variable [Energy E]

theorem belief (v : Nat) : t.belief v = s.belief v := by
  simp only [Solver.belief]
  rcases h.variableNodeAt v with ⟨e, hm, hm'⟩ | ⟨m, m', hm, hm', sums, rfl⟩
  · simp only [hm, hm']
  · simp only [hm, hm', nodeBelief, h.store]
    rfl

theorem guess (v : Nat) : t.guess v = s.guess v := by
  simp only [Solver.guess]
  rcases h.variableNodeAt v with ⟨e, hm, hm'⟩ | ⟨m, m', hm, hm', sums, rfl⟩
  · simp only [hm, hm']
  · simp only [hm, hm', h.store]
    rfl

theorem guesses : t.guesses = s.guesses := by
  have hall : ∀ vs, t.guessAll vs = s.guessAll vs := by
    intro vs
    induction vs with
    | nil => rfl
    | cons v vs ih => simp only [guessAll, h.guess, ih]
  rw [Solver.guesses, Solver.guesses, h.vars.size, hall]

omit h in
theorem addFactorScores (hg : s.graph.Mirrors Q t.graph) {guesses : List Nat} {f : Nat}
    {nodes nodes' : List (FactorNode E)} (hl : nodes'.length = nodes.length) (sum : E)
    (hs : ∀ (i : Nat) m m' factor, nodes[i]? = some m → nodes'[i]? = some m' →
      s.graph.factors[f + i]? = some factor →
      m'.score (restrict guesses (Graph.neighborsOf factor.links)) =
        m.score (restrict guesses (Graph.neighborsOf factor.links))) :
    t.addFactorScores guesses sum f nodes' = s.addFactorScores guesses sum f nodes := by
  induction nodes generalizing nodes' f sum with
  | nil =>
    obtain rfl : nodes' = [] := List.eq_nil_of_length_eq_zero hl
    rfl
  | cons m nodes ih =>
    cases nodes' with
    | nil => contradiction
    | cons m' nodes' =>
      have hrest : ∀ sum, t.addFactorScores guesses sum (f + 1) nodes' =
          s.addFactorScores guesses sum (f + 1) nodes := fun sum =>
        ih (Nat.succ.inj hl) sum fun i m m' factor hm hm' hf =>
          hs (i + 1) m m' factor hm hm' (by rwa [← Nat.add_assoc, Nat.add_right_comm])
      simp only [Solver.addFactorScores, Graph.factorAt]
      rcases hg.factors.getElem? f with ⟨ha, hb⟩ | ⟨a, b, ha, hb, hlinks, -⟩
      · simp only [ha, hb]
      · simp only [ha, hb, hlinks, hs 0 m m' a rfl rfl ha, hrest]

theorem score (hs : ∀ guesses, s.guesses = .ok guesses → ∀ (f : Nat) m m' factor,
      s.factors[f]? = some m → t.factors[f]? = some m' → s.graph.factors[f]? = some factor →
      m'.score (restrict guesses (Graph.neighborsOf factor.links)) =
        m.score (restrict guesses (Graph.neighborsOf factor.links))) : t.score = s.score := by
  simp only [Solver.score, h.guesses]
  cases hg : s.guesses with
  | error e => rfl
  | ok guesses =>
    have hvars : List.zipWith (fun m guess => m.score guess) t.vars.toList guesses =
        List.zipWith (fun m guess => m.score guess) s.vars.toList guesses := by
      apply List.ext_getElem?
      intro v
      simp only [List.getElem?_zipWith, Array.getElem?_toList]
      rcases h.vars.getElem? v with ⟨hm, hm'⟩ | ⟨m, m', hm, hm', sums, rfl⟩
      · rw [hm, hm']
      · rw [hm, hm']
        cases guesses[v]? <;> rfl
    have hfactors : t.addFactorScores guesses 0 0 t.factors.toList =
        s.addFactorScores guesses 0 0 s.factors.toList :=
      addFactorScores h.graph (by simpa using h.factors.size) 0 (by simpa using hs guesses hg)
    simp only [hvars, hfactors]

/-- A factor with the same potential has the same belief. -/
theorem factorBelief {f : Nat} (hs : ∀ m m', s.factors[f]? = some m → t.factors[f]? = some m' →
    m.potential.Same m'.potential) : t.factorBelief f = s.factorBelief f := by
  simp only [Solver.factorBelief, Solver.factorNodeAt]
  rcases h.factors.getElem? f with ⟨hm, hm'⟩ | ⟨m, m', hm, hm', potential, rfl, -⟩
  · rw [hm, hm']
  · have hsame := hs m _ hm hm'
    have hrule := Node.rule_eq_of_same hsame
    simp only [hm, hm', nodeBelief, h.store, Node.belief, hrule]
    rfl

end Mirrors

theorem agree_factorNodes {g g' : Graph E} (h : g.Mirrors Q g') [Energy E] (fs : List Nat) :
    Agree (List.Forall₂ (FactorNode.Mirrors Q)) (factorNodes g fs) (factorNodes g' fs) := by
  induction fs with
  | nil => exact .inr ⟨[], [], rfl, rfl, .nil⟩
  | cons f fs ih =>
    simp only [factorNodes, FactorNode.ofGraph]
    rcases h.factorAt f with ⟨e, ha, hb⟩ | ⟨a, b, ha, hb, -, hQ⟩
    · simp only [ha, hb]
      exact .inl ⟨_, rfl, rfl⟩
    rcases ih with ⟨e, hm, hm'⟩ | ⟨ms, ms', hm, hm', hmm⟩
    · simp only [ha, hb, hm, hm']
      exact .inl ⟨e, rfl, rfl⟩
    · simp only [ha, hb, hm, hm']
      exact .inr ⟨_, _, rfl, rfl, .cons ⟨b.potential, rfl, hQ⟩ hmm⟩

theorem agree_ofGraph {g g' : Graph E} (h : g.Mirrors Q g') [Energy E] (settings : Settings E) :
    Agree (Mirrors Q) (ofGraph g settings) (ofGraph g' settings) := by
  simp only [ofGraph, h.factors.size, h.vars]
  cases checkDamping settings.damping with
  | error e => exact .inl ⟨e, rfl, rfl⟩
  | ok _ =>
    rcases agree_factorNodes h (List.range g.factors.size) with
      ⟨e, hm, hm'⟩ | ⟨ms, ms', hm, hm', hmm⟩
    · exact .inl ⟨e, by simp only [hm], by simp only [hm']⟩
    simp only [hm, hm']
    have hstart : ∀ vars pool, Mirrors Q
        { graph := g, settings, vars, factors := ms.toArray, pool }
        { graph := g', settings, vars, factors := ms'.toArray, pool } := fun vars pool => {
      graph := h
      settings := rfl
      store := rfl
      warnings := rfl
      vars := .refl (fun m => ⟨m.sums, rfl⟩) vars
      factors := .of_forall₂ hmm }
    have hc := (hstart ((Array.range g.vars.size).map fun v => { var := v })
      { limit := settings.poolCapacity }).beside.createMissingEdges (Node.congruent_mirrors Q)
    generalize Solver.createMissingEdges (E := E) _ = x at hc ⊢
    generalize Solver.createMissingEdges (E := E) _ = y at hc ⊢
    obtain ⟨r, s⟩ := x
    obtain ⟨r', t⟩ := y
    obtain ⟨rfl : r' = r, hst⟩ := hc
    cases r' with
    | error e => exact .inl ⟨e, rfl, rfl⟩
    | ok _ => exact .inr ⟨s, t, rfl, rfl, hst.mirrors (Node.congruent_mirrors Q)⟩

theorem Mirrors.readings [LogEnergy E] {s t : Solver E} (h : s.Mirrors Q t)
    (hs : t.score = s.score) : t.readings = s.readings := by
  have hb : t.belief = s.belief := funext h.belief
  have hp : t.beliefProbabilities = s.beliefProbabilities := by
    funext v
    rw [Solver.beliefProbabilities, Solver.beliefProbabilities, hb]
  have hd : t.damping = s.damping := by
    funext id port
    simp only [Solver.damping]
    rcases h.beside.nodeAt id with ⟨e, hn, hn'⟩ | ⟨n, n', hn, hn', hnn⟩
    · simp only [hn, hn']
    · simp only [hn, hn', hnn.binding_eq, hnn.id_eq]
  have hc : t.createEdge = s.createEdge := by
    funext id edge
    simp only [Solver.createEdge]
    rcases h.beside.nodeAt id with ⟨e, hn, hn'⟩ | ⟨n, n', hn, hn', hnn⟩
    · simp only [hn, hn']
    · simp only [hn, hn', hnn.createEdge h.graph]
  have hn : ∀ id, (t.nodeAt id).map (·.binding) = (s.nodeAt id).map (·.binding) := by
    intro id
    rcases h.beside.nodeAt id with ⟨e, hn, hn'⟩ | ⟨n, n', hn, hn', hnn⟩
    · rw [hn, hn']
    · rw [hn, hn']
      exact congrArg Except.ok hnn.binding_eq
  have hv : ∀ {α : Type} (f : VariableNode E → α), (∀ m sums, f { m with sums } = f m) →
      ∀ v, (t.variableNodeAt v).map f = (s.variableNodeAt v).map f := by
    intro α f hf v
    rcases h.variableNodeAt v with ⟨e, hm, hm'⟩ | ⟨m, m', hm, hm', sums, rfl⟩
    · rw [hm, hm']
    · rw [hm, hm']
      exact congrArg Except.ok (hf m sums)
  simp only [Solver.readings, h.store, hb, hp, funext h.guess, h.guesses, hs, hd, hc, hn,
    h.warnings, hv (·.input) fun _ _ => rfl, hv (·.fixed) fun _ _ => rfl,
    hv (·.prior) fun _ _ => rfl]

section

variable [LogEnergy E] {s t : Solver E} (h : s.Mirrors Graph.Potential.Same t)

include h

omit [LogEnergy E] in
theorem Mirrors.same {f : Nat} {m m' : FactorNode E} (hm : s.factors[f]? = some m)
    (hm' : t.factors[f]? = some m') : m.potential.Same m'.potential := by
  obtain ⟨potential, rfl, hp⟩ := h.factors.rel f m m' hm hm'
  exact hp

theorem Mirrors.readings_eq : t.readings = s.readings := by
  refine h.readings (h.score fun guesses _ f m m' factor hm hm' _ => ?_)
  exact FactorNode.score_eq_of_same (h.same hm hm') _

theorem Mirrors.factorBelief_eq : t.factorBelief = s.factorBelief :=
  funext fun _ => h.factorBelief fun _ _ hm hm' => h.same hm hm'

theorem Mirrors.factorScore_eq : t.factorScore = s.factorScore := by
  funext f indices
  simp only [Solver.factorScore]
  rcases h.factorNodeAt f with ⟨e, hn, hn'⟩ | ⟨m, m', hn, hn', potential, rfl, hp⟩
  · rw [hn, hn']
  · rw [hn, hn']
    exact congrArg Except.ok (FactorNode.score_eq_of_same hp indices)

end

end MinSum.Solver
