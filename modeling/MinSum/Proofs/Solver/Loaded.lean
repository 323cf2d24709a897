import Mathlib.Algebra.BigOperators.Group.List.Basic
import MinSum.Proofs.Solver.Atomic
import MinSum.Proofs.Solver.Readout

/-! Inputs and fixed values in force. An initialized variable counts with those that it has in the
graph now, in its messages, its guess and the score. Exact energies form a commutative monoid, with
the infinities and invalid results as they are, so their score is a sum in any order. -/
namespace MinSum

variable {E : Type} [Energy E]

namespace Graph.Variable

/-- The energy of a value before any message. A fixed value excludes the others. -/
def energyBefore (var : Variable E) (x : Nat) : E :=
  match var.fixed, var.input with
  | some i, _ => if x = i then 0 else Energy.top
  | none, some input => input.entry x
  | none, none => 0

/-- What a guess adds to the score. A fixed variable has nothing to guess. -/
def inputEnergy (var : Variable E) (x : Nat) : E :=
  match var.fixed, var.input with
  | none, some input => input.entry x
  | _, _ => 0

/-- The prior lists the energies before any message. -/
theorem Valid.prior_eq {var : Variable E} (h : var.Valid) :
    var.prior = (List.range var.size).map var.energyBefore := by
  apply List.ext_getElem
  · rw [h.length_prior, List.length_map, List.length_range]
  intro x hx hx'
  have hlt : x < var.size := h.length_prior ▸ hx
  rw [List.getElem_map, List.getElem_range]
  cases hf : var.fixed with
  | some i =>
    simp [prior, energyBefore, hf, Message.impossible, List.getElem_set, eq_comm]
  | none =>
    cases hm : var.input with
    | some input =>
      have hlen := h.length_input input hm
      simp [prior, energyBefore, hf, hm, Message.entry, hlen, hlt]
    | none => simp [prior, energyBefore, hf, hm, Message.uniform]

end Graph.Variable

theorem VariableNode.score_load_eq (m : VariableNode E) (var : Graph.Variable E) (x : Nat) :
    (m.load var).score x = var.inputEnergy x := rfl

namespace Solver

variable {s : Solver E} {v : Nat}

/-- The node of a variable counts with the given input and fixed value. -/
structure CountsWith (s : Solver E) (v : Nat) (var : Graph.Variable E) : Prop where
  node : ∃ m, s.vars[v]? = some m ∧ m.prior = (List.range var.size).map var.energyBefore ∧
    ∀ x, m.score x = var.inputEnergy x
  belief : s.misfit? (.var v) = none → s.belief v =
    .ok (Prior.belief ((List.range var.size).map var.energyBefore)
      ((s.graph.incident (.var v)).map (s.store.heard (.var v))))
  guess : s.guess v =
    match var.fixed with
    | some i => .ok i
    | none => (s.belief v).map fun energies => (Message.argmin? energies).getD 0

namespace Anchored

variable (h : s.Anchored)

include h

/-- An initialized variable has loaded what the graph says of it now. -/
theorem exists_loaded (hi : s.Initialized (.var v)) : ∃ m var, s.vars[v]? = some m ∧
    m.binding.initialized = true ∧ s.graph.vars[v]? = some var ∧ m = m.load var := by
  obtain ⟨n, hn, hi⟩ := hi
  obtain ⟨m, hm, rfl⟩ := nodeAt_var_eq_ok.1 hn
  have hs := h.nodes _ _ hn
  obtain ⟨var, hv, hload⟩ := (hs.rooted hi).loaded m rfl
  have hid : m.var = v := NodeId.var.inj hs.id_eq
  exact ⟨m, var, hm, hi, hid ▸ hv, hload⟩

theorem countsWith (hi : s.Initialized (.var v)) :
    ∃ var, s.graph.vars[v]? = some var ∧ s.CountsWith v var := by
  obtain ⟨m, var, hm, hi, hv, hload⟩ := h.exists_loaded hi
  have hn : s.nodeAt (.var v) = .ok (.var m) := nodeAt_var_eq_ok.2 ⟨m, hm, rfl⟩
  have hvalid := h.graph.valid_variable var (Array.mem_of_getElem? hv)
  have hprior : m.prior = (List.range var.size).map var.energyBefore :=
    (congrArg VariableNode.prior hload).trans hvalid.prior_eq
  have hfixed : m.fixed = var.fixed := congrArg VariableNode.fixed hload
  have hedges : m.binding.edges = s.graph.incident (.var v) := h.edges_eq hn hi
  have hstates : s.store.siblings m.binding.edges = .ok (m.binding.edges.map s.store.stateOf) :=
    EdgeStore.siblings_eq_ok (h.lt_size hn hi)
  have hcheck := h.checkUpdate_eq hn hi
  refine ⟨var, hv, ⟨m, hm, hprior, fun x => ?_⟩, fun hfit => ?_, ?_⟩
  · rw [hload]
    exact m.score_load_eq var x
  · rw [hfit] at hcheck
    have hheard : (m.binding.edges.map s.store.stateOf).map Side.variable.incoming =
        (s.graph.incident (.var v)).map (s.store.heard (.var v)) := by
      rw [hedges, List.map_map]
      rfl
    rw [← hprior, ← hheard]
    simp only [Solver.belief, variableNodeAt, hm, nodeBelief, Node.binding, hstates]
    simp only [Node.belief, Node.rule]
    rw [show (Node.var m).checkUpdate (m.binding.edges.map s.store.stateOf) = .ok () from hcheck]
    rfl
  · cases hf : var.fixed with
    | some i =>
      simp only [Solver.guess, variableNodeAt, hm, hstates, VariableNode.guess, hfixed, hf,
        Binding.checkReady, hi, if_true]
    | none =>
      simp only [Solver.guess, Solver.belief, variableNodeAt, hm, nodeBelief, Node.binding,
        hstates, VariableNode.guess, hfixed, hf]
      cases (Node.var m).belief (m.binding.edges.map s.store.stateOf) <;> rfl

/-- The score adds up what the guesses cost by the inputs and the factors of the graph. -/
theorem score_eq : s.score = s.guesses.map fun a =>
    (List.zipWith Graph.Variable.inputEnergy s.graph.vars.toList a).foldl (· + ·) 0 +
      (s.graph.factors.toList.map (·.energy a)).foldl (· + ·) 0 := by
  cases hg : s.guesses with
  | error e => simp only [score, hg, Except.map]
  | ok a =>
    have hvars : List.zipWith (fun n guess => n.score guess) s.vars.toList a =
        List.zipWith Graph.Variable.inputEnergy s.graph.vars.toList a := by
      apply List.ext_getElem
      · simp [h.size_vars]
      intro v h₁ h₂
      rw [List.length_zipWith, Array.length_toList] at h₁
      have hv : v < s.vars.size := by omega
      have ha : v < a.length := by omega
      obtain ⟨m, var, hm, -, hvar, hload⟩ :=
        h.exists_loaded (initialized_of_guess (guesses_eq_ok hg hv))
      have hscore := m.score_load_eq var a[v]
      rw [← hload] at hscore
      obtain ⟨hm₁, rfl⟩ := Array.getElem?_eq_some_iff.1 hm
      obtain ⟨hv₁, rfl⟩ := Array.getElem?_eq_some_iff.1 hvar
      simpa using hscore
    have hfactors : s.addFactorScores a 0 0 s.factors.toList =
        .ok ((s.graph.factors.toList.map (·.energy a)).foldl (· + ·) 0) :=
      Assembled.addFactorScores_eq h Node.local_stands rfl
    simp only [score, hg, hvars, hfactors, Except.map]

end Anchored

end Solver

section

variable {K : Type} [Field K] [LinearOrder K]

namespace Extended

scoped instance : AddCommMonoid (Extended K) where
  add_assoc x y z := by
    change Extended.add (Extended.add x y) z = Extended.add x (Extended.add y z)
    cases x <;> cases y <;> cases z <;> simp [Extended.add, add_assoc]
  zero_add x := by
    change Extended.add (.finite 0) x = x
    cases x <;> simp [Extended.add]
  add_zero x := by
    change Extended.add x (.finite 0) = x
    cases x <;> simp [Extended.add]
  add_comm x y := by
    change Extended.add x y = Extended.add y x
    cases x <;> cases y <;> simp [Extended.add, add_comm]
  nsmul := nsmulRec

end Extended

namespace Graph

def inputAt (g : Graph (Extended K)) (v x : Nat) : Extended K :=
  (g.vars[v]?.map (·.inputEnergy x)).getD 0

def energyAt (g : Graph (Extended K)) (f : Nat) (a : List Nat) : Extended K :=
  (g.factors[f]?.map (·.energy a)).getD 0

end Graph

open scoped Extended

/-- The score is the sum over all variables and all factors. -/
theorem Solver.Anchored.score_eq_sum {s : Solver (Extended K)} (h : s.Anchored) {a : List Nat}
    (hg : s.guesses = .ok a) (hl : a.length = s.graph.vars.size) : s.score =
      .ok (∑ v ∈ Finset.range s.graph.vars.size, s.graph.inputAt v (a.getD v 0) +
        ∑ f ∈ Finset.range s.graph.factors.size, s.graph.energyAt f a) := by
  rw [h.score_eq, hg, Except.map, ← List.sum_eq_foldl, ← List.sum_eq_foldl,
    Graph.sum_eq_sum_range, Graph.sum_eq_sum_range]
  congr 2
  · apply Finset.sum_congr (by simp [hl])
    intro v hmem
    have hv : v < s.graph.vars.size := by simpa [hl] using hmem
    simp [Graph.inputAt, hv, hl]
  · apply Finset.sum_congr (by simp)
    intro f hmem
    have hf : f < s.graph.factors.size := by simpa using hmem
    simp [Graph.energyAt, hf]

end

end MinSum
