import MinSum.Proofs.Graph.Mirror
import MinSum.Solver.Basic

/-! Two nodes that differ in what no binding depends on: accumulators, and the potential of a
factor. -/
namespace MinSum

/-- The steps give the same answer and leave related states. -/
structure Attempt.Paired {ε σ τ α : Type} (R : σ → τ → Prop) (a : Attempt ε σ α)
    (b : Attempt ε τ α) : Prop where
  answer : b.1 = a.1
  state : R a.2 b.2

theorem Attempt.Paired.imp {ε σ τ α : Type} {R R' : σ → τ → Prop} {a : Attempt ε σ α}
    {b : Attempt ε τ α} (h : Attempt.Paired R a b) (hR : ∀ s t, R s t → R' s t) :
    Attempt.Paired R' a b :=
  ⟨h.answer, hR _ _ h.state⟩

theorem Attempt.Paired.andThen {ε σ τ α β : Type} {R : σ → τ → Prop} {a : Attempt ε σ α}
    {b : Attempt ε τ α} {next : α → σ → Attempt ε σ β} {next' : α → τ → Attempt ε τ β}
    (h : Attempt.Paired R a b)
    (hn : ∀ x s t, R s t → Attempt.Paired R (next x s) (next' x t)) :
    Attempt.Paired R (a.andThen next) (b.andThen next') := by
  obtain ⟨r, s⟩ := a
  obtain ⟨r', t⟩ := b
  obtain ⟨rfl : r' = r, hR⟩ := h
  cases r' with
  | ok x => exact hn x s t hR
  | error e => exact ⟨rfl, hR⟩

variable {E : Type} {Q : Graph.Potential E → Graph.Potential E → Prop}

/-- The nodes differ in nothing but the content of their accumulators. -/
def VariableNode.Mirrors (m m' : VariableNode E) : Prop := ∃ sums, m' = { m with sums }

def FactorNode.Mirrors (Q : Graph.Potential E → Graph.Potential E → Prop) (m m' : FactorNode E) :
    Prop :=
  ∃ potential, m' = { m with potential } ∧ Q m.potential potential

namespace Node

inductive Mirrors (Q : Graph.Potential E → Graph.Potential E → Prop) : Node E → Node E → Prop where
  | var {m m' : VariableNode E} (h : m.Mirrors m') : Mirrors Q (.var m) (.var m')
  | factor {m m' : FactorNode E} (h : m.Mirrors Q m') : Mirrors Q (.factor m) (.factor m')

namespace Mirrors

variable {n n' : Node E} (h : n.Mirrors Q n')

include h

theorem id_eq : n'.id = n.id := by
  cases h with
  | var h =>
    obtain ⟨sums, rfl⟩ := h
    rfl
  | factor h =>
    obtain ⟨potential, rfl, -⟩ := h
    rfl

theorem binding_eq : n'.binding = n.binding := by
  cases h with
  | var h =>
    obtain ⟨sums, rfl⟩ := h
    rfl
  | factor h =>
    obtain ⟨potential, rfl, -⟩ := h
    rfl

theorem withBinding (b : Binding E) : (n.withBinding b).Mirrors Q (n'.withBinding b) := by
  cases h with
  | var h =>
    obtain ⟨sums, rfl⟩ := h
    exact .var ⟨sums, rfl⟩
  | factor h =>
    obtain ⟨potential, rfl, hQ⟩ := h
    exact .factor ⟨potential, rfl, hQ⟩

variable [Energy E]

theorem createEdge {g g' : Graph E} (hg : g.Mirrors Q g') (edge : Nat) :
    n'.createEdge g' edge = n.createEdge g edge := by
  simp only [Node.createEdge, hg.edgeAt, hg.domainSizeAt, h.id_eq]

end Mirrors

/-- What a relation between nodes has to respect so that changes of a solver do not break it. -/
structure Congruent [Energy E] (Q : Graph.Potential E → Graph.Potential E → Prop)
    (R : Node E → Node E → Prop) : Prop where
  mirrors : ∀ {n n'}, R n n' → n.Mirrors Q n'
  withBinding : ∀ {n n'} b, R n n' → R (n.withBinding b) (n'.withBinding b)
  load : ∀ {m m'} var, R (.var m) (.var m') → R (.var (m.load var)) (.var (m'.load var))
  newVariable : ∀ v, R (.var { var := v }) (.var { var := v })
  newFactor : ∀ f {p p'}, Q p p' →
    R (.factor { factor := f, potential := p }) (.factor { factor := f, potential := p' })

theorem congruent_mirrors [Energy E] (Q : Graph.Potential E → Graph.Potential E → Prop) :
    Congruent Q (Mirrors Q) where
  mirrors h := h
  withBinding b h := h.withBinding b
  load var h := by
    cases h with
    | var h =>
      obtain ⟨sums, rfl⟩ := h
      exact .var ⟨_, rfl⟩
  newVariable v := .var ⟨[], rfl⟩
  newFactor f _ p' hQ := .factor ⟨p', rfl, hQ⟩

namespace Congruent

variable [Energy E] {R : Node E → Node E → Prop} (hR : Congruent Q R) {n n' : Node E} (h : R n n')

include hR h

theorem choose (choice : DampingChoice E) : Agree R (n.choose choice) (n'.choose choice) := by
  simp only [Node.choose, (hR.mirrors h).binding_eq]
  cases n.binding.choose choice with
  | error e => exact .inl ⟨_, rfl, rfl⟩
  | ok b => exact .inr ⟨_, _, rfl, rfl, hR.withBinding b h⟩

theorem bind {g g' : Graph E} (hg : g.Mirrors Q g') (store : EdgeStore E)
    (settings : Settings E) :
    Attempt.Paired R (n.bind g store settings) (n'.bind g' store settings) := by
  have hm := hR.mirrors h
  have hbinding := hm.binding_eq
  have hid := hm.id_eq
  cases hm with
  | @var m m' _ =>
    have hbinding : m'.binding = m.binding := hbinding
    have hat : g'.variableAt m'.var = g.variableAt m.var := by
      rw [hg.variableAt, NodeId.var.inj hid]
    simp only [Node.bind, VariableNode.bind, hat]
    cases g.variableAt m.var with
    | error e => exact ⟨rfl, h⟩
    | ok v =>
      have hload := hR.load v h
      simp only [VariableNode.load, hbinding] at hload ⊢
      split
      · exact ⟨rfl, hload⟩
      · exact ⟨rfl, hR.withBinding _ hload⟩
  | @factor m m' _ =>
    have hbinding : m'.binding = m.binding := hbinding
    have hat := hg.factorAt m.factor
    have hfactor : g'.factorAt m'.factor = g'.factorAt m.factor := by rw [NodeId.factor.inj hid]
    simp only [Node.bind, FactorNode.bind, hg.domainSizes, hfactor]
    rcases hat with ⟨e, ha, hb⟩ | ⟨a, b, ha, hb, hlinks, -⟩
    · simp only [ha, hb]
      exact ⟨rfl, h⟩
    · simp only [ha, hb, hlinks]
      cases g.domainSizes (Graph.neighborsOf a.links) with
      | error e => exact ⟨rfl, h⟩
      | ok sizes =>
        simp only [hbinding]
        split
        · exact ⟨rfl, h⟩
        · exact ⟨rfl, hR.withBinding _ h⟩

end Congruent

theorem rule_eq_of_same {m m' : FactorNode E} (h : m.potential.Same m'.potential) :
    (Node.factor m').rule = (Node.factor m).rule := by
  simp only [rule]
  generalize m.potential = p, m'.potential = p' at h
  cases h with
  | table ht => simp only [ht]
  | custom c => rfl

end Node

theorem FactorNode.score_eq_of_same [Energy E] {m m' : FactorNode E}
    (h : m.potential.Same m'.potential) (indices : List Nat) :
    m'.score indices = m.score indices := by
  simp only [score]
  generalize m.potential = p, m'.potential = p' at h
  cases h with
  | table ht => simp only [ht]
  | custom c => rfl

end MinSum
