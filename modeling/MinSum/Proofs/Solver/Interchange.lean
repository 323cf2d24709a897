import Mathlib.Algebra.Order.Ring.Rat
import MinSum.Proofs.Node.Interchange
import MinSum.Proofs.Solver.Admissible
import MinSum.Proofs.Solver.Forget
import MinSum.Proofs.Solver.Unbarred

/-! Two solvers of graphs that differ in equalities only, which are custom factors in the first and
tables in the second. In exact energies no run tells them apart, but for the beliefs of these
factors. -/
namespace MinSum

open Scratch

variable {K : Type} [Field K] [LinearOrder K]

/-- A custom factor that the action adds makes admissible messages from admissible ones. -/
def Action.Admissible : Action (Extended K) → Prop
  | .addCustom custom _ => custom.Admissible
  | _ => True

namespace Graph.Admissible

variable {g g' : Graph (Extended K)} (h : g.Admissible)

include h

theorem congr (hf : g'.factors = g.factors) : g'.Admissible := by
  intro factor hmem
  exact h factor (hf ▸ hmem)

theorem push {factor : Graph.Factor (Extended K)} (hf : g'.factors = g.factors.push factor)
    (hc : ∀ c, factor.potential = .custom c → c.Admissible) : g'.Admissible := by
  intro factor' hmem
  rcases Array.mem_push.1 (hf ▸ hmem) with hmem | rfl
  · exact h factor' hmem
  · exact hc

theorem after [Extended.Exponential K] (hg : g.WellFormed) {a : Action (Extended K)}
    (ha : a.Admissible) : (g.after a).Admissible := by
  cases a with
  | setInput v input =>
    exact orSame_keeps h fun _ hr => h.congr (changesInput_of_setInput hg hr).factors_eq
  | setInputProbabilities v p =>
    refine orSame_keeps h fun _ hr => ?_
    exact h.congr (changesInput_of_setInputProbabilities hg hr).factors_eq
  | fixValue v fixed =>
    exact orSame_keeps h fun _ hr => h.congr (changesInput_of_fixValue hg hr).factors_eq
  | addVariable name domain =>
    exact orSame_grown_keeps h fun _ _ hr => h.congr (hg.sameAt_addVariable hr).2.2.1
  | addTable table built operands =>
    refine orSame_grown_keeps h fun _ _ hr => ?_
    obtain ⟨-, -, -, shared, tables, rfl, he⟩ := Graph.addTable_eq_ok hr
    refine h.push (congrArg (·.2.factors) he) ?_
    intro c hc
    contradiction
  | addCustom custom operands =>
    refine orSame_grown_keeps h fun _ _ hr => ?_
    obtain ⟨-, -, -, he⟩ := Graph.addCustom_eq_ok hr
    refine h.push (congrArg (·.2.factors) he) ?_
    rintro c ⟨rfl⟩
    exact ha
  | _ => exact h

end Graph.Admissible

theorem Graph.Mirrors.addEquality {g g' k k' : Graph (Extended K)}
    (h : g.Mirrors Potential.Interchangeable g') {operands : List Nat}
    {arity size f f' : Nat} {t : Table (Extended K)} (ht : Table.equality arity size = .ok t)
    (hk : g.addCustom .equality operands = .ok (f, k))
    (hk' : g'.addTable t operands = .ok (f', k')) :
    f' = f ∧ k.Mirrors Potential.Interchangeable k' := by
  obtain ⟨-, -, -, he⟩ := Graph.addCustom_eq_ok hk
  obtain ⟨-, -, -, shared, tables, rfl, he'⟩ := Graph.addTable_eq_ok hk'
  have htables : g.Mirrors Potential.Interchangeable { g' with tables } :=
    ⟨h.vars, h.edges, h.domains, h.factors⟩
  obtain ⟨hf, hm⟩ := htables.attach (.equality ht) operands
  obtain ⟨rfl, rfl⟩ := Prod.mk.inj he
  obtain ⟨rfl, rfl⟩ := Prod.mk.inj he'
  exact ⟨hf, hm⟩

namespace Solver

def Replaced (s t : Solver (Extended K)) (f : Nat) : Prop :=
  ∃ a b table, s.graph.factors[f]? = some a ∧ t.graph.factors[f]? = some b ∧
    a.potential = .custom .equality ∧ b.potential = .table table

structure Interchanged (s t : Solver (Extended K)) : Prop where
  mirrors : s.Mirrors Graph.Potential.Interchangeable t
  wellFormed : s.WellFormed
  wellFormed' : t.WellFormed
  admissible : s.graph.Admissible
  proper : s.store.Proper
  unbarred : s.FactorsUnbarred

namespace Interchanged

variable {s t : Solver (Extended K)} (h : s.Interchanged t)

include h

theorem scratch {s' t' : Solver (Extended K)} (hs : s.SameButScratch s')
    (ht : t.SameButScratch t') : s'.Interchanged t' where
  mirrors := h.mirrors.scratch hs ht
  wellFormed := hs.wellFormed h.wellFormed
  wellFormed' := ht.wellFormed h.wellFormed'
  admissible := hs.graph.symm ▸ h.admissible
  proper := hs.store.symm ▸ h.proper
  unbarred := h.unbarred.congr hs.factors

theorem twins [IsStrictOrderedRing K] :
    Twins Graph.Potential.Interchangeable EdgeStore.Proper s t where
  mirrors := h.mirrors
  holds := h.wellFormed.holds_proper h.proper
  keeps := h.wellFormed.keeps_proper h.admissible
  wellFormed := h.wellFormed'
  echoes id n n' hn hn' hi store hs hm := by
    have hnn := h.mirrors.node hn hn'
    have hf := (h.wellFormed'.tracks id n' hn').fits h.wellFormed'.graph (hnn.binding_eq ▸ hi)
    exact hnn.echoes (h.wellFormed.tracks id n hn) hi h.wellFormed.graph hs hm
      (hnn.binding_eq ▸ hf)

/-- The sizes of the ports of a factor suit its potential, also that of the second solver. -/
theorem suits {f : Nat} {m' : FactorNode (Extended K)} {factor : Graph.Factor (Extended K)}
    (hm' : t.factors[f]? = some m') (hf : s.graph.factors[f]? = some factor) :
    m'.potential.Suits ((Graph.neighborsOf factor.links).map s.graph.sizeAt) := by
  obtain ⟨rfl, factor', hf', hp⟩ := h.wellFormed'.exists_factor hm'
  have hs := (h.wellFormed'.graph.valid_factor factor' (Array.mem_of_getElem? hf')).suits
  rw [hp, (h.mirrors.graph.factors.rel _ _ _ hf hf').1] at hs
  rwa [funext h.mirrors.graph.sizeAt] at hs

theorem score : t.score = s.score := by
  refine h.mirrors.score fun guesses hg f m m' factor hm hm' hf => ?_
  refine (h.mirrors.factors.rel f m m' hm hm').score_eq (h.suits hm' hf) ?_
  rw [restrict, List.forall₂_map_left_iff, List.forall₂_map_right_iff, List.forall₂_same]
  intro v hv hpos
  have hlt : v < s.vars.size := h.wellFormed.size_vars ▸
    h.wellFormed.graph.lt_of_mem_neighborsOf (Array.mem_of_getElem? hf) hv
  exact h.wellFormed.guess_lt h.proper (guesses_eq_ok hg hlt) hpos

theorem factorScore {f : Nat} {factor : Graph.Factor (Extended K)} {indices : List Nat}
    (hf : s.graph.factors[f]? = some factor)
    (hi : List.Forall₂ (fun i v => i < s.graph.sizeAt v) indices
      (Graph.neighborsOf factor.links)) : t.factorScore f indices = s.factorScore f indices := by
  simp only [Solver.factorScore, factorNodeAt]
  rcases h.mirrors.factors.getElem? f with ⟨hm, hm'⟩ | ⟨m, m', hm, hm', hmm⟩
  · simp only [hm, hm']
  · have hsizes : List.Forall₂ (fun i size => 0 < size → i < size) indices
        ((Graph.neighborsOf factor.links).map s.graph.sizeAt) := by
      rw [List.forall₂_map_right_iff]
      refine List.Forall₂.imp ?_ hi
      exact fun _ _ hlt _ => hlt
    simp only [hm, hm', hmm.score_eq (h.suits hm' hf) hsizes]

theorem factorBelief {f : Nat} (hr : ¬ s.Replaced t f) : t.factorBelief f = s.factorBelief f := by
  refine h.mirrors.factorBelief fun m m' hm hm' => ?_
  obtain ⟨potential, rfl, hp⟩ := h.mirrors.factors.rel f m m' hm hm'
  obtain ⟨-, a, ha, hpa⟩ := h.wellFormed.exists_factor hm
  obtain ⟨-, b, hb, hpb⟩ := h.wellFormed'.exists_factor hm'
  generalize hq : m.potential = p at hp hpa
  cases hp with
  | same hsame => exact hq ▸ hsame
  | equality => exact absurd ⟨a, b, _, ha, hb, hpa, hpb⟩ hr

theorem factorBelief_replaced {f : Nat} (hr : s.Replaced t f) :
    s.factorBelief f = .error (.noFactorBelief (.factor f)) ∧
      ∀ e, t.factorBelief f = .error e → e = .notInitialized (.factor f) := by
  obtain ⟨a, b, table, ha, hb, hpa, hpb⟩ := hr
  exact ⟨h.unbarred.factorBelief_custom h.wellFormed ha hpa,
    fun e => (h.unbarred.of_mirrors h.mirrors).factorBelief_table h.wellFormed' hb hpb⟩

end Interchanged

variable [Extended.Exponential K]

/-- All that can be told of the two solvers is the same, but for the beliefs of factors that are
equalities in the first and tables in the second. -/
structure Alike (s t : Solver (Extended K)) : Prop where
  reply : ∀ a, t.reply a = s.reply a
  readings : t.readings = s.readings
  settings : t.settings = s.settings
  graph : s.graph.Mirrors Graph.Potential.Interchangeable t.graph
  factorScore : ∀ (f : Nat) factor indices, s.graph.factors[f]? = some factor →
    List.Forall₂ (fun i v => i < s.graph.sizeAt v) indices (Graph.neighborsOf factor.links) →
      t.factorScore f indices = s.factorScore f indices
  factorBelief : ∀ f, ¬ s.Replaced t f → t.factorBelief f = s.factorBelief f
  factorBelief_replaced : ∀ f, s.Replaced t f →
    s.factorBelief f = .error (.noFactorBelief (.factor f)) ∧
      ∀ e, t.factorBelief f = .error e → e = .notInitialized (.factor f)

namespace Interchanged

variable [IsStrictOrderedRing K] {s t u v : Solver (Extended K)} (h : s.Interchanged t)

include h

theorem alike : s.Alike t where
  reply a := (h.twins.perform (fun _ _ => .same) a).1
  readings := h.mirrors.readings h.score
  settings := h.mirrors.settings
  graph := h.mirrors.graph
  factorScore _ _ _ hf hi := h.factorScore hf hi
  factorBelief _ hr := h.factorBelief hr
  factorBelief_replaced _ hr := h.factorBelief_replaced hr

theorem perform {a : Action (Extended K)} (ha : a.Admissible) :
    (s.perform a).Interchanged (t.perform a) where
  mirrors := (h.twins.perform (fun _ _ => .same) a).2
  wellFormed := h.wellFormed.perform a
  wellFormed' := h.wellFormed'.perform a
  admissible := s.graph_perform a ▸ h.admissible.after h.wellFormed.graph ha
  proper := (h.wellFormed.carries_perform a).proper h.admissible h.proper
  unbarred := h.wellFormed.factorsUnbarred_perform h.unbarred a

theorem runsTo {actions : List (Action (Extended K))} (ha : ∀ a ∈ actions, a.Admissible)
    (hu : s.RunsTo actions u) (hv : t.RunsTo actions v) : u.Interchanged v := by
  -- Both runs take the same actions, so they end together.
  induction hu generalizing t with
  | nil hsu =>
    cases hv with
    | nil htv => exact h.scratch hsu htv
  | cons hss a hu ih =>
    cases hv with
    | cons htt _ hv =>
      obtain ⟨ha, hrest⟩ := List.forall_mem_cons.1 ha
      exact ih ((h.scratch hss htt).perform ha) hrest hv

end Interchanged

/-- In exact energies an equality is its table. Solvers of two graphs that differ in nothing else
cannot be told apart by any run, but for the beliefs of these factors. -/
theorem ofGraph_interchangeable [IsStrictOrderedRing K] {g g' : Graph (Extended K)}
    (hg : g.Reachable) (hg' : g'.Reachable)
    (h : g.Mirrors Graph.Potential.Interchangeable g') (hadm : g.Admissible)
    (settings : Settings (Extended K)) :
    Agree (fun s t => ∀ actions, (∀ a ∈ actions, a.Admissible) → ∀ u v,
        s.RunsTo actions u → t.RunsTo actions v → u.Alike v)
      (Solver.ofGraph g settings) (Solver.ofGraph g' settings) := by
  rcases agree_ofGraph h settings with ⟨e, hs, ht⟩ | ⟨s, t, hs, ht, hm⟩
  · exact .inl ⟨e, hs, ht⟩
  refine .inr ⟨s, t, hs, ht, fun actions ha u v hu hv => ?_⟩
  obtain ⟨rfl, -, hw, -⟩ := ofGraph_eq_ok hg.wellFormed hs
  obtain ⟨-, -, hw', -⟩ := ofGraph_eq_ok hg'.wellFormed ht
  have hst : s.Interchanged t := {
    mirrors := hm
    wellFormed := hw
    wellFormed' := hw'
    admissible := hadm
    proper := proper_ofGraph hs
    unbarred := (Reachable.ofGraph hg hs).factorsUnbarred }
  exact (hst.runsTo ha hu hv).alike

private instance exponentialOfTied : Extended.Exponential ℚ := ⟨id, id⟩

private def bits : Graph (Extended ℚ) :=
  [.addVariable "x" .bit, .addVariable "y" .bit].foldl Graph.after {}

private def tying : Table (Extended ℚ) :=
  .assemble (List.replicate 2 2) (Table.agreeingRows 2 2).toArray

private theorem equality_tying : Table.equality 2 2 = .ok tying :=
  Table.equality_eq_ok Nat.two_pos Nat.two_pos

private def tied : Graph (Extended ℚ) := bits.after (.addCustom .equality [0, 1])

private def tabled : Graph (Extended ℚ) :=
  bits.after (.addTable tying ⟨_, _, equality_tying⟩ [0, 1])

theorem ofGraph_interchangeable_tied :
    tied.Mirrors Graph.Potential.Interchangeable tabled ∧
    ∃ s t, Solver.ofGraph tied .standard = .ok s ∧ Solver.ofGraph tabled .standard = .ok t ∧
      let actions := [.initializeAll, .setInput 0 (some [.finite 2, Energy.top]),
        .setDamping (.factor 0) (.finite (1 / 2)), .iterateParallel 2, .updatePort (.factor 0) 1]
      (actions.foldl Solver.perform s).Alike (actions.foldl Solver.perform t) := by
  have hbits : bits.Reachable :=
    (Graph.Reachable.empty.after (.addVariable "x" .bit)).after (.addVariable "y" .bit)
  have htied : bits.addCustom .equality [0, 1] = .ok (0, tied) := by with_unfolding_all rfl
  have htabled : bits.addTable tying [0, 1] = .ok (0, tabled) := by with_unfolding_all rfl
  have hsame : bits.Mirrors Graph.Potential.Interchangeable bits :=
    .refl (fun p => .same (.refl p)) bits
  obtain ⟨-, hm⟩ := hsame.addEquality equality_tying htied htabled
  have hlist : tied.factors.toList.map (·.potential) = [.custom .equality] := by
    with_unfolding_all rfl
  have hexact : tied.Exact := by
    apply Graph.forall_potential hlist (P := Graph.Potential.Exact)
    simp [Graph.Potential.Exact]
  have hreach : tied.Reachable := hbits.after _
  have hdamping : checkDamping (Settings.standard (E := Extended ℚ)).damping = .ok () := by
    with_unfolding_all rfl
  obtain ⟨s, hs, -⟩ := exists_ofGraph hreach.wellFormed hdamping
  rcases ofGraph_interchangeable hreach (hbits.after _) hm hexact.admissible .standard with
    ⟨e, he, -⟩ | ⟨s', t, hs', ht, hall⟩
  · rw [hs] at he
    contradiction
  · refine ⟨hm, s', t, hs', ht, hall _ ?_ _ _ (s'.runsTo_foldl _) (t.runsTo_foldl _)⟩
    simp [Action.Admissible]

end Solver

end MinSum
