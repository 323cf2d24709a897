import MinSum.Proofs.Node.Says
import MinSum.Proofs.Solver.Assembled

/-! What is read off a solver. The belief of a variable is its prior plus everything that it hears,
and the score of guesses that no node rules out is their energy. -/
namespace MinSum

theorem Graph.Variable.eq_of_fixed {E : Type} [Energy E] {var : Graph.Variable E} {i x : Nat}
    (hf : var.fixed = some i) (hx : var.prior.entry x ≠ Energy.top) :
    x = i ∧ var.prior.entry x = 0 := by
  have hold : (List.replicate var.size (Energy.top : E))[x]?.getD Energy.top = Energy.top := by
    rw [List.getElem?_replicate]
    split <;> rfl
  have hentry : var.prior.entry x =
      if i = x then if i < var.size then 0 else Energy.top else Energy.top := by
    simp only [prior, hf, Message.entry, Message.impossible, List.getD_eq_getElem?_getD,
      List.getElem?_set, List.length_replicate]
    split
    · split <;> rfl
    · exact hold
  rw [hentry] at hx ⊢
  by_cases hi : i = x
  · by_cases hlt : i < var.size
    · exact ⟨hi.symm, by rw [if_pos hi, if_pos hlt]⟩
    · rw [if_pos hi, if_neg hlt] at hx
      exact absurd rfl hx
  · rw [if_neg hi] at hx
    exact absurd rfl hx

/-- A value that the prior does not rule out scores its energy. -/
theorem VariableNode.score_load {E : Type} [Energy E] (n : VariableNode E)
    (var : Graph.Variable E) {x : Nat} (hx : var.prior.entry x ≠ Energy.top) :
    (n.load var).score x = var.prior.entry x := by
  cases hf : var.fixed with
  | some i =>
    rw [(Graph.Variable.eq_of_fixed hf hx).2]
    simp only [load, score, hf]
  | none =>
    cases hm : var.input with
    | some m => simp only [load, score, Graph.Variable.prior, hf, hm]
    | none =>
      have hprior : var.prior = Message.uniform var.size := by
        simp only [Graph.Variable.prior, hf, hm]
      rw [hprior, Message.entry, Message.uniform, List.getD_eq_getElem?_getD] at hx ⊢
      by_cases hlt : x < var.size
      · simp [load, score, hf, hm, hlt]
      · rw [List.getElem?_eq_none (by simpa using hlt)] at hx
        exact absurd rfl hx

namespace Solver.WellFormed

variable {E : Type} [Energy E] {s : Solver E} (h : s.WellFormed) {v : Nat}

include h

/-- An initialized variable has the input of the graph, and a belief. -/
theorem exists_variable (hi : s.Initialized (.var v)) : ∃ m var siblings,
    s.vars[v]? = some m ∧ m.binding.initialized = true ∧ s.graph.vars[v]? = some var ∧
      m = m.load var ∧ s.store.siblings m.binding.edges = .ok siblings ∧
      (Node.var m).belief siblings = .ok (Prior.belief (s.graph.priorOf v)
        ((s.graph.incident (.var v)).map (s.store.heard (.var v)))) := by
  obtain ⟨n, hn, hi⟩ := hi
  obtain ⟨m, hm, rfl⟩ := nodeAt_var_eq_ok.1 hn
  have ht := h.tracks _ _ hn
  have hin : ((Node.var m).binding.edges.map s.store.stateOf).map (Node.var m).side.incoming =
      (s.graph.incident (.var v)).map (s.store.heard (.var v)) := ht.map_incoming hi
  have hr := (ht.ready h.graph hi h.store).checkUpdate_eq_ok
  have hbelief : (Node.var m).belief ((Node.var m).binding.edges.map s.store.stateOf) =
      .ok (Prior.belief m.prior (((Node.var m).binding.edges.map s.store.stateOf).map
        (Node.var m).side.incoming)) := by
    simp only [Node.belief, hr]
    rfl
  obtain ⟨hid, hprior⟩ := ht.prior_eq hi rfl
  obtain ⟨var, hv, hload⟩ := (ht.bound hi).loaded m rfl
  obtain rfl := NodeId.var.inj hid
  rw [hin, hprior] at hbelief
  exact ⟨m, var, _, hm, hi, hv, hload, ht.siblings_eq hi h.graph h.store, hbelief⟩

theorem belief_eq (hi : s.Initialized (.var v)) : s.belief v =
    .ok (Prior.belief (s.graph.priorOf v)
      ((s.graph.incident (.var v)).map (s.store.heard (.var v)))) := by
  obtain ⟨m, -, siblings, hm, -, -, -, hs, hb⟩ := h.exists_variable hi
  simp only [Solver.belief, variableNodeAt, hm, nodeBelief]
  have hs' : s.store.siblings (Node.var m).binding.edges = .ok siblings := hs
  rw [hs']
  exact hb

/-- The guess is the fixed value, or else one of least belief. -/
theorem guess_eq (hi : s.Initialized (.var v)) : ∃ var, s.graph.vars[v]? = some var ∧
    s.guess v = .ok (var.fixed.getD ((Message.argmin? (Prior.belief (s.graph.priorOf v)
      ((s.graph.incident (.var v)).map (s.store.heard (.var v))))).getD 0)) := by
  obtain ⟨m, var, siblings, hm, hi, hv, hload, hs, hb⟩ := h.exists_variable hi
  have hfixed : m.fixed = var.fixed := congrArg VariableNode.fixed hload
  refine ⟨var, hv, ?_⟩
  simp only [Solver.guess, variableNodeAt, hm, hs, VariableNode.guess, hb, hfixed]
  cases var.fixed with
  | none => rfl
  | some i => simp only [Binding.checkReady, hi, if_true, Option.getD_some]

end Solver.WellFormed

namespace Solver

variable {E : Type} [Energy E] {s : Solver E} {a : List Nat}

/-- An initialized node tells the damping in force on its ports. -/
theorem damping_eq {id : NodeId} {n : Node E} (hn : s.nodeAt id = .ok n)
    (hi : n.binding.initialized = true) {port : Nat} (hp : port < n.binding.edges.length) :
    s.damping id port = .ok (Update.dampingAt n.binding.damping port) := by
  simp only [damping, hn, Binding.dampingOf_eq_ok n.id hi hp]

theorem initialized_of_guess {v x : Nat} (hg : s.guess v = .ok x) : s.Initialized (.var v) := by
  cases hm : s.vars[v]? with
  | none => simp [guess, variableNodeAt, hm] at hg
  | some m =>
    cases hi : m.binding.initialized with
    | true => exact ⟨.var m, nodeAt_var_eq_ok.2 ⟨m, hm, rfl⟩, hi⟩
    | false =>
      simp only [guess, variableNodeAt, hm] at hg
      split at hg
      · contradiction
      simp only [VariableNode.guess, Node.belief, Node.rule, Node.checkUpdate, Node.binding,
        Binding.checkReady, hi, Bool.false_eq_true, if_false] at hg
      split at hg <;> contradiction

/-- All guesses are there only if each variable has one. -/
theorem guessAll_eq_ok {vs guesses : List Nat} (h : s.guessAll vs = .ok guesses) :
    List.Forall₂ (fun v x => s.guess v = .ok x) vs guesses := by
  induction vs generalizing guesses with
  | nil =>
    obtain rfl : [] = guesses := Except.ok.inj h
    exact .nil
  | cons v vs ih =>
    simp only [guessAll] at h
    split at h
    · contradiction
    rename_i x hx
    split at h
    · contradiction
    rename_i rest hrest
    obtain rfl := Except.ok.inj h
    exact .cons hx (ih hrest)

theorem guesses_eq_ok {guesses : List Nat} (h : s.guesses = .ok guesses) {v : Nat}
    (hv : v < s.vars.size) : s.guess v = .ok (guesses.getD v 0) := by
  have hall := guessAll_eq_ok h
  have hlt : v < guesses.length := by
    rw [← hall.length_eq, List.length_range]
    exact hv
  have := hall.get (i := v) (by simpa using hv) hlt
  simpa [hlt] using this

theorem guessAll_eq {vs : List Nat} {f : Nat → Nat} (hv : ∀ v ∈ vs, s.guess v = .ok (f v)) :
    s.guessAll vs = .ok (vs.map f) := by
  induction vs with
  | nil => rfl
  | cons v vs ih =>
    have hrest := ih fun w hw => hv w (List.mem_cons_of_mem v hw)
    simp only [guessAll, hv v List.mem_cons_self, hrest, List.map_cons]

theorem guesses_eq (hl : a.length = s.vars.size)
    (hv : ∀ v < s.vars.size, s.guess v = .ok (a.getD v 0)) : s.guesses = .ok a := by
  rw [guesses, guessAll_eq fun v hmem => hv v (List.mem_range.1 hmem)]
  congr 1
  apply List.ext_getElem (by simp [hl])
  intro v h₁ h₂
  simp [h₂]

namespace Assembled

variable {T : Graph E → NodeId → Node E → Prop} (h : s.Assembled T) (hT : Node.Local T)

include h hT

theorem exists_factor {f : Nat} {m : FactorNode E} (hm : s.factors[f]? = some m) :
    m.factor = f ∧ ∃ factor, s.graph.factors[f]? = some factor ∧
      factor.potential = m.potential := by
  have hp := hT.placed (h.nodes _ _ (nodeAt_factor_eq_ok.2 ⟨m, hm, rfl⟩))
  obtain rfl : m.factor = f := NodeId.factor.inj hp.id_eq
  exact ⟨rfl, Option.map_eq_some_iff.1 (hp.potential m rfl)⟩

/-- The factor nodes from `f` on score the energies of the factors. -/
theorem addFactorScores_eq {sum : E} {f : Nat} {nodes : List (FactorNode E)}
    (hn : s.factors.toList.drop f = nodes) : s.addFactorScores a sum f nodes =
      .ok (((s.graph.factors.toList.drop f).map (·.energy a)).foldl (· + ·) sum) := by
  induction nodes generalizing sum f with
  | nil =>
    have hlen : s.factors.toList.length ≤ f := List.drop_eq_nil_iff.1 hn
    have hnil : s.graph.factors.toList.drop f = [] := by
      rw [List.drop_eq_nil_iff, Array.length_toList, ← h.size_factors]
      exact hlen
    rw [hnil]
    rfl
  | cons n nodes ih =>
    have hdrop : (s.factors.toList.drop f)[0]? = s.factors.toList[f + 0]? := List.getElem?_drop
    rw [hn] at hdrop
    have hf : s.factors[f]? = some n := by simpa using hdrop.symm
    obtain ⟨rfl, factor, hfactor, hp⟩ := h.exists_factor hT hf
    have hhead : s.graph.factors.toList.drop n.factor =
        factor :: s.graph.factors.toList.drop (n.factor + 1) := by
      obtain ⟨hlt, rfl⟩ := Array.getElem?_eq_some_iff.1 hfactor
      exact List.drop_eq_getElem_cons hlt
    have hrest : s.factors.toList.drop (n.factor + 1) = nodes := by
      rw [← List.drop_drop, hn]
      rfl
    have hscore : ∀ x, n.score x = factor.potential.energy x := by
      intro x
      rw [FactorNode.score, hp]
      rfl
    simp only [addFactorScores, Graph.factorAt, hfactor, hscore]
    rw [ih hrest, hhead]
    rfl

end Assembled

namespace WellFormed

variable (h : s.WellFormed)

include h

theorem exists_factor {f : Nat} {m : FactorNode E} (hm : s.factors[f]? = some m) :
    m.factor = f ∧ ∃ factor, s.graph.factors[f]? = some factor ∧
      factor.potential = m.potential :=
  h.assembled.exists_factor (Node.local_tracks s.settings) hm

/-- The score adds up the variables and the factors apart. -/
theorem score_eq (hi : ∀ id, s.graph.HasNode id → s.Initialized id) (hg : s.guesses = .ok a)
    (hl : a.length = s.graph.vars.size)
    (ha : ∀ (v : Nat) var, s.graph.vars[v]? = some var →
      var.prior.entry (a.getD v 0) ≠ Energy.top) : s.score =
      .ok ((List.zipWith (fun var x => var.prior.entry x) s.graph.vars.toList a).foldl (· + ·) 0 +
        (s.graph.factors.toList.map (·.energy a)).foldl (· + ·) 0) := by
  have hvars : List.zipWith (fun n guess => n.score guess) s.vars.toList a =
      List.zipWith (fun var x => var.prior.entry x) s.graph.vars.toList a := by
    apply List.ext_getElem
    · simp [h.size_vars]
    · intro v h₁ h₂
      have hv : v < s.graph.vars.size := by
        rw [List.length_zipWith, Array.length_toList] at h₂
        omega
      obtain ⟨m, var, -, hm, -, hvar, hload, -⟩ := h.exists_variable (hi (.var v) hv)
      have hne := ha v var hvar
      have hget : a.getD v 0 = a[v] := by simp [hl, hv]
      rw [hget] at hne
      have hscore := m.score_load var hne
      rw [← hload] at hscore
      obtain ⟨hm₁, rfl⟩ := Array.getElem?_eq_some_iff.1 hm
      obtain ⟨hv₁, rfl⟩ := Array.getElem?_eq_some_iff.1 hvar
      simpa using hscore
  have hfactors : s.addFactorScores a 0 0 s.factors.toList =
      .ok ((s.graph.factors.toList.map (·.energy a)).foldl (· + ·) 0) :=
    h.assembled.addFactorScores_eq (Node.local_tracks s.settings) rfl
  simp only [score, hg, hvars, hfactors]

end WellFormed

end Solver

namespace Graph.WellFormed

variable {K : Type} [Field K] [LinearOrder K] {g : Graph (Extended K)} (h : g.WellFormed)
  {store : EdgeStore (Extended K)}

include h

theorem proper_belief (hm : store.Proper) (v : Nat) : Message.Proper (Prior.belief (g.priorOf v)
    ((g.incident (.var v)).map (store.heard (.var v)))) :=
  Message.proper_foldl_plus (Node.Tracks.proper_heard hm).1 (h.proper_priorOf v)

/-- In exact energies the belief in a value is its prior plus all that is heard of it. -/
theorem valueAt_belief_eq_sum (hs : store.Fits g) (v x : Nat) :
    Message.valueAt (Prior.belief (g.priorOf v) ((g.incident (.var v)).map
      (store.heard (.var v)))) x = (g.priorOf v).valueAt x +
        (((g.incident (.var v)).map (store.heard (.var v))).map (·.valueAt x)).sum := by
  apply Message.valueAt_foldl_plus
  intro m hm
  obtain ⟨e, he, rfl⟩ := List.mem_map.1 hm
  have hlt := h.lt_of_mem_incident he
  rw [h.length_priorOf, ← h.varOf_of_mem_incident he, ← edgeSize_eq_sizeAt hlt]
  exact (hs.states e (hs.size ▸ hlt)).incoming .variable

theorem valueAt_belief (hs : store.Fits g) (v : Nat) (b : Nat → Nat) :
    Message.valueAt (Prior.belief (g.priorOf v) ((g.incident (.var v)).map
      (store.heard (.var v)))) (b v) = g.cost (.var v) b +
        ∑ e ∈ (g.incident (.var v)).toFinset, g.inflow store (.var v) b e := by
  rw [h.valueAt_belief_eq_sum hs, cost, List.map_map, List.sum_toFinset _ (h.nodup_incident _)]
  congr 2
  refine List.map_congr_left fun e he => ?_
  rw [inflow, h.varOf_of_mem_incident he]
  rfl

end Graph.WellFormed

/-- A guess is a value of the variable, if there is any. -/
theorem Solver.WellFormed.guess_lt {K : Type} [Field K] [LinearOrder K] {s : Solver (Extended K)}
    (h : s.WellFormed) (hm : s.store.Proper) {v x : Nat} (hg : s.guess v = .ok x)
    (hpos : 0 < s.graph.sizeAt v) : x < s.graph.sizeAt v := by
  obtain ⟨var, hv, hguess⟩ := h.guess_eq (initialized_of_guess hg)
  obtain rfl := Except.ok.inj (hguess.symm.trans hg)
  cases hf : var.fixed with
  | some i =>
    have hlt := (h.graph.valid_variable var (Array.mem_of_getElem? hv)).fixed i hf
    simpa [Graph.sizeAt, hv] using hlt
  | none =>
    have hlen : (Prior.belief (s.graph.priorOf v)
        ((s.graph.incident (.var v)).map (s.store.heard (.var v)))).length = s.graph.sizeAt v := by
      rw [Prior.length_belief, h.graph.length_priorOf]
    rw [← hlen] at hpos ⊢
    obtain ⟨y, hy, hlt, -⟩ := (h.graph.proper_belief hm v).argmin_spec hpos
    rw [hy]
    exact hlt

end MinSum
