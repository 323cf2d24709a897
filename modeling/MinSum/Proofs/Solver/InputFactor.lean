import MinSum.Proofs.Graph.InputFactor
import MinSum.Proofs.Message.Shift
import MinSum.Proofs.Solver.Relabeled

/-! An input does what a table of one port does. The factor sends the input, shifted to minimum
zero, so what the variable computes with either differs by a constant, which normalization takes
away. -/
namespace MinSum

variable {K : Type} [Field K] [LinearOrder K] {g g' : Graph (Extended K)} {v : Nat}
  {input : Message (Extended K)} {a a' b b' : EdgeStore (Extended K)}

namespace Graph

theorem Carried.map_heard (hc : g.Carried id a a') (hg : g.WellFormed) (node : NodeId) :
    (g.incident node).map (a'.heard node) = (g.incident node).map (a.heard node) := by
  apply List.map_congr_left
  intro e he
  have hstate : a'.stateOf e = a.stateOf e := hc e (hg.lt_of_mem_incident he)
  rw [EdgeStore.heard, EdgeStore.heard, hstate]

theorem Carried.map_said (hc : g.Carried id a a') (hg : g.WellFormed) (node : NodeId) :
    (g.incident node).map (a'.said node) = (g.incident node).map (a.said node) := by
  apply List.map_congr_left
  intro e he
  have hstate : a'.stateOf e = a.stateOf e := hc e (hg.lt_of_mem_incident he)
  rw [EdgeStore.said, EdgeStore.said, hstate]

namespace MovesInput

variable (h : g.MovesInput g' v input) (hg : g.WellFormed) (hc : g.Carried id a a')

include h

theorem ruleAt_eq {id : NodeId} (hid : g.HasNode id) (hne : id ≠ .var v) :
    g'.ruleAt id = g.ruleAt id := by
  cases id with
  | var w =>
    have hw : w ≠ v := fun heq => hne (congrArg NodeId.var heq)
    rw [ruleAt, ruleAt, h.priorOf_of_ne hw]
  | factor f => rw [ruleAt, ruleAt, h.getElem?_factors hid]

include hg hc

theorem rawAt_eq {id : NodeId} (hid : g.HasNode id) (hne : id ≠ .var v) :
    g'.rawAt a' id = g.rawAt a id := by
  rw [rawAt, rawAt, h.ruleAt_eq hid hne, h.incident_eq hid hne, hc.map_heard hg, hc.map_said hg]

/-- The variable hears the same on the old edges, and something on the new one. -/
theorem map_heard_eq : (g'.incident (.var v)).map (a'.heard (.var v)) =
    (g.incident (.var v)).map (a.heard (.var v)) ++ [a'.heard (.var v) g.edges.size] := by
  rw [h.incident_self, List.map_append, hc.map_heard hg]
  rfl

omit hc in
/-- With what the new factor says the variable has the same energies, up to a constant. -/
theorem exists_add_sum_eq : ∃ k : K, ∀ x < input.length, ∀ heard : List (Message (Extended K)),
    (g'.priorOf v).valueAt x +
        ((heard ++ [(Message.normalize input).1]).map (Message.valueAt · x)).sum =
      (g.priorOf v).valueAt x + (heard.map (Message.valueAt · x)).sum + k := by
  obtain ⟨k, hk⟩ := (h.proper_input hg).exists_valueAt_normalize
  refine ⟨k, fun x hx heard => ?_⟩
  rw [List.map_append, List.sum_append, List.map_singleton, List.sum_singleton, hk,
    h.priorOf_self, h.priorOf_self_right hg, Message.valueAt_uniform hx, zero_add, ← add_assoc,
    add_comm (input.valueAt x)]

end MovesInput

end Graph

namespace Solver

section

variable {s t : Solver (Extended K)} {settings : Settings (Extended K)} {n : Nat}
  (h : g.MovesInput g' v input) (hs : s.Running g settings n) (ht : t.Running g' settings n)
  (hx : g.Admissible)

include h hs ht hx

/-- What a node computes for an old edge is the same up to a constant, once the variable hears the
shifted input on the new one. -/
theorem Agrees.exists_shift (ha : s.Agrees t id a a') {id : NodeId} {p e : Nat}
    {raw raw' : Message (Extended K)} (hp : (g.incident id)[p]? = some e)
    (hraw : (g.rawAt a id)[p]? = some raw) (hraw' : (g'.rawAt a' id)[p]? = some raw')
    (hheard : id = .var v → a'.heard (.var v) g.edges.size = (Message.normalize input).1) :
    ∃ k, raw' = raw.shift k := by
  obtain rfl := hs.graph
  obtain rfl := ht.graph
  have hg := hs.wellFormed.graph
  have hid := Graph.WellFormed.hasNode_of_mem_incident (List.mem_of_getElem? hp)
  by_cases hne : id = .var v
  · subst hne
    have hlt := hg.lt_of_mem_incident (List.mem_of_getElem? hp)
    have hp' := h.getElem?_incident hp
    have hlen := hs.wellFormed.length_rawAt hs.ready ha.fits hp hraw
    have hlen' := ht.wellFormed.length_rawAt ht.ready ha.fits' hp' hraw'
    have hsend : Prior.Sends _ _ p raw :=
      hs.wellFormed.sends_rawAt hs.ready ha.fits ha.proper hx hp hraw
    have hsend' : Prior.Sends _ _ p raw' :=
      ht.wellFormed.sends_rawAt ht.ready ha.fits' ha.proper' (h.admissible hx) hp' hraw'
    obtain ⟨k, hk⟩ := h.exists_add_sum_eq hg
    refine ⟨k, hsend.proper.eq_shift hsend'.proper ?_ fun x hxlt => ?_⟩
    · rw [hlen, hlen', h.edgeSize_eq hlt]
    · have hsize : x < input.length := by
        rw [h.length_input hg, ← hg.varOf_of_mem_incident (List.mem_of_getElem? hp),
          ← Graph.edgeSize_eq_sizeAt hlt, ← hlen]
        exact hxlt
      have hport : p < ((s.graph.incident (.var v)).map (a.heard (.var v))).length := by
        rw [List.length_map]
        exact (List.getElem?_eq_some_iff.1 hp).1
      rw [hsend.valueAt, hsend'.valueAt, h.map_heard_eq hg ha.carried, hheard rfl,
        List.eraseIdx_append_of_lt_length hport, hk x hsize]
  · refine ⟨0, ?_⟩
    rw [h.rawAt_eq hg ha.carried hid hne, hraw] at hraw'
    rw [Message.shift_zero, Option.some.inj hraw']

variable (hd : settings.damping = 0)

include hd

/-- In a phase the old nodes say the same on the old edges. -/
theorem Agrees.spoken_input [IsStrictOrderedRing K] (ha : s.Agrees t id a a') {side : Side}
    (hab : s.Spoken side a b) (hab' : t.Spoken side a' b') (hheard : side = .variable →
      a'.heard (.var v) g.edges.size = (Message.normalize input).1) : s.Agrees t id b b' := by
  obtain rfl := hs.graph
  obtain rfl := ht.graph
  have hg := hs.wellFormed.graph
  have hg' := ht.wellFormed.graph
  apply ha.next id hs.wellFormed ht.wellFormed hs.ready ht.ready hx (h.admissible hx)
    (fun _ => rfl) _ hab hab'
  · intro id p p' e raw raw' hside hp hp' hraw hraw'
    have hproper : raw.Proper :=
      (hs.wellFormed.sends_rawAt hs.ready ha.fits ha.proper hx hp hraw).proper
    -- The edge has the same place among the edges of the node in both graphs.
    obtain rfl : p = p' := by
      have hold := h.getElem?_incident hp
      exact (List.getElem?_inj (List.getElem?_eq_some_iff.1 hold).1 (hg'.nodup_incident id)).1
        (hold.trans hp'.symm)
    obtain ⟨k, rfl⟩ := ha.exists_shift h hs ht hx hp hraw hraw' (by
      rintro rfl
      exact hheard hside.symm)
    rw [Update.settled_of_zero ((hs.dampingAt_eq hp).trans hd),
      Update.settled_of_zero ((ht.dampingAt_eq hp').trans hd), hproper.normalize_shift]
  · intro id e he
    obtain ⟨p, hp⟩ := List.mem_iff_getElem?.1 he
    exact List.mem_of_getElem? (h.getElem?_incident hp)

/-- The new factor says the input, shifted to minimum zero. -/
theorem Agrees.heard_input (ha : s.Agrees t id a a') (hab' : t.Spoken .factor a' b') :
    b'.heard (.var v) g.edges.size = (Message.normalize input).1 := by
  obtain rfl := hs.graph
  obtain rfl := ht.graph
  have hg := hs.wellFormed.graph
  have hg' := ht.wellFormed.graph
  obtain ⟨table, hfactor, hsizes, henergy⟩ := h.exists_factor
  have hp : (t.graph.incident (.factor s.graph.factors.size))[0]? = some s.graph.edges.size := by
    rw [h.incident_new]
    rfl
  obtain ⟨raw, hraw, hlen⟩ := ht.wellFormed.exists_rawAt ht.ready ha.fits' hp
  have hsend := ht.wellFormed.sends_rawAt ht.ready ha.fits' ha.proper' (h.admissible hx) hp hraw
  have hrule : t.graph.ruleAt (.factor s.graph.factors.size) = .table table.content := by
    rw [Graph.ruleAt, hfactor]
    rfl
  rw [hrule, h.incident_new, List.map_singleton] at hsend
  have hsuits := (hg'.valid_factor _ (Array.mem_of_getElem? hfactor)).suits
  have hmem : s.graph.edges.size ∈ t.graph.incident (.var v) := by
    rw [h.incident_self]
    exact List.mem_append_right _ List.mem_cons_self
  have hsize : t.graph.edgeSize s.graph.edges.size = input.length := by
    rw [Graph.edgeSize_eq_sizeAt (hg'.lt_of_mem_incident hmem), hg'.varOf_of_mem_incident hmem,
      h.sizeAt_eq, h.length_input hg]
  have hinput : raw = input := Table.Sends.eq_of_unary hsuits.1.sound hsizes henergy hsend
    (h.proper_input hg) (hlen.trans hsize)
  have hsaid := hab'.own (.factor s.graph.factors.size) rfl 0 _ raw hp hraw
  rw [Update.settled_of_zero ((ht.dampingAt_eq hp).trans hd), hinput] at hsaid
  exact hsaid

end

/-- The second solver reads as the first does, beliefs up to a constant. -/
structure ReadsAs (s t : Solver (Extended K)) : Prop where
  messages : ∀ e < s.graph.edges.size, t.store.stateOf e = s.store.stateOf e
  belief : ∀ w < s.graph.vars.size, ∃ m k, s.belief w = .ok m ∧ t.belief w = .ok (m.shift k)
  guesses : ∃ l, s.guesses = .ok l ∧ t.guesses = .ok l
  score : ∃ x, s.score = .ok x ∧ t.score = .ok x

section

variable {s t : Solver (Extended K)} (h : s.graph.MovesInput t.graph v input) (hs : s.WellFormed)
  (ht : t.WellFormed)

include h hs ht

open scoped Extended in
theorem score_input {l : List Nat} (hl : s.guesses = .ok l) (hl' : t.guesses = .ok l)
    (hlen : l.length = s.graph.vars.size) : t.score = s.score := by
  obtain ⟨var, hv, hf, hi, hv'⟩ := h.self
  obtain ⟨table, hfactor, -, henergy⟩ := h.exists_factor
  have hlt : v ∈ Finset.range s.graph.vars.size :=
    Finset.mem_range.2 (Array.getElem?_eq_some_iff.1 hv).1
  have hinput : s.graph.inputAt v (l.getD v 0) = input.entry (l.getD v 0) := by
    simp only [Graph.inputAt, hv, Option.map_some, Option.getD_some, Graph.Variable.inputEnergy, hf,
      hi]
  have hnone : t.graph.inputAt v (l.getD v 0) = 0 := by
    simp only [Graph.inputAt, hv', Option.map_some, Option.getD_some, Graph.Variable.inputEnergy,
      hf]
  have hlast : t.graph.energyAt s.graph.factors.size l = input.entry (l.getD v 0) := by
    simp only [Graph.energyAt, hfactor, Option.map_some, Option.getD_some, Graph.Factor.energy,
      Graph.Potential.energy, ← henergy]
    rfl
  have hinputs : ∀ w ∈ Finset.range s.graph.vars.size, s.graph.inputAt w (l.getD w 0) =
      t.graph.inputAt w (l.getD w 0) + if w = v then input.entry (l.getD v 0) else 0 := by
    intro w _
    by_cases hw : w = v
    · rw [if_pos hw, hw, hinput, hnone, zero_add]
    · rw [if_neg hw, add_zero, Graph.inputAt, Graph.inputAt, h.others w hw]
  have hfactors : ∀ f ∈ Finset.range s.graph.factors.size,
      t.graph.energyAt f l = s.graph.energyAt f l := by
    intro f hmem
    rw [Graph.energyAt, Graph.energyAt, h.getElem?_factors (Finset.mem_range.1 hmem)]
  rw [hs.anchored.score_eq_sum hl hlen, ht.anchored.score_eq_sum hl' (hlen.trans h.size_vars.symm),
    h.size_vars, h.size_factors, Finset.sum_range_succ, hlast, Finset.sum_congr rfl hfactors,
    Finset.sum_congr rfl hinputs, Finset.sum_add_distrib, Finset.sum_ite_eq', if_pos hlt]
  congr 1
  rw [add_assoc, add_comm (input.entry _)]

variable (ha : s.Agrees t id s.store t.store)
  (hheard : t.store.heard (.var v) s.graph.edges.size = (Message.normalize input).1)

include ha hheard

theorem Agrees.exists_belief_shift {w : Nat} (hw : w < s.graph.vars.size) : ∃ k,
    Prior.belief (t.graph.priorOf w) ((t.graph.incident (.var w)).map (t.store.heard (.var w))) =
      Message.shift (Prior.belief (s.graph.priorOf w)
        ((s.graph.incident (.var w)).map (s.store.heard (.var w)))) k := by
  have hg := hs.graph
  by_cases hne : w = v
  · subst hne
    obtain ⟨k, hk⟩ := h.exists_add_sum_eq hg
    refine ⟨k, (hg.proper_belief ha.proper w).eq_shift (ht.graph.proper_belief ha.proper' w) ?_
      fun x hx => ?_⟩
    · rw [Prior.length_belief, Prior.length_belief, hg.length_priorOf, ht.graph.length_priorOf,
        h.sizeAt_eq]
    · rw [Prior.length_belief, h.priorOf_self] at hx
      rw [hg.valueAt_belief_eq_sum ha.fits, ht.graph.valueAt_belief_eq_sum ha.fits',
        h.map_heard_eq hg ha.carried, hheard, hk x hx]
  · have hid : s.graph.HasNode (.var w) := hw
    have hother : NodeId.var w ≠ .var v := fun heq => hne (NodeId.var.inj heq)
    refine ⟨0, ?_⟩
    rw [h.priorOf_of_ne hne, h.incident_eq hid hother, ha.carried.map_heard hg,
      Message.shift_zero]

theorem Agrees.guess_input [IsStrictOrderedRing K] (hrs : s.Ready) (hrt : t.Ready) {w : Nat}
    (hw : w < s.graph.vars.size) : t.guess w = s.guess w := by
  obtain ⟨k, hk⟩ := ha.exists_belief_shift h hs ht hheard hw
  obtain ⟨var, hvar, hguess⟩ := hs.guess_eq (hrs (.var w) hw)
  have hid : s.graph.HasNode (.var w) := hw
  obtain ⟨var', hvar', hguess'⟩ := ht.guess_eq (hrt (.var w) (h.hasNode hid))
  have hfixed : var'.fixed = var.fixed := by
    by_cases hne : w = v
    · obtain ⟨old, hv, -, -, hv'⟩ := h.self
      rw [← hne] at hv hv'
      obtain rfl := Option.some.inj (hv.symm.trans hvar)
      obtain rfl := Option.some.inj (hv'.symm.trans hvar')
      rfl
    · rw [h.others w hne, hvar] at hvar'
      rw [Option.some.inj hvar']
  rw [hguess, hguess', hk, hfixed, (hs.graph.proper_belief ha.proper w).argmin_shift]

end

variable [IsStrictOrderedRing K] {s t : Solver (Extended K)} {settings : Settings (Extended K)}
  {n : Nat}

/-- After a sweep the new factor has been heard, and the solvers read the same. -/
theorem Running.readsAs (h : g.MovesInput g' v input) (hs : s.Running g settings n)
    (ht : t.Running g' settings n) (hx : g.Admissible) (hd : settings.damping = 0) (hn : 0 < n) :
    s.ReadsAs t := by
  have hquiet : s.Agrees t id g.quiet g'.quiet := by
    apply hs.agrees_quiet ht
    intro e he
    exact ⟨h.size_edges ▸ Nat.lt_succ_of_lt he, h.edgeSize_eq he⟩
  let Heard (a a' : EdgeStore (Extended K)) : Prop := s.Agrees t id a a' ∧
    a'.heard (.var v) g.edges.size = (Message.normalize input).1
  have hfactors : ∀ {a b a' b'}, s.Agrees t id a a' → s.Spoken .factor a b →
      t.Spoken .factor a' b' → Heard b b' := by
    intro a b a' b' ha hab hab'
    exact ⟨ha.spoken_input h hs ht hx hd hab hab' nofun, ha.heard_input h hs ht hx hd hab'⟩
  have hvars : ∀ {a b a' b'}, Heard a a' → s.Spoken .variable a b → t.Spoken .variable a' b' →
      Heard b b' := by
    intro a b a' b' ha hab hab'
    refine ⟨ha.1.spoken_input h hs ht hx hd hab hab' fun _ => ha.2, ?_⟩
    have hmem : g.edges.size ∈ t.graph.incident (.factor g.factors.size) := by
      rw [ht.graph, h.incident_new]
      exact List.mem_cons_self
    exact (hab'.other (.factor g.factors.size) _ hmem nofun).trans ha.2
  obtain ⟨hagrees, hheard⟩ :=
    (hs.swept.simulate hfactors hvars And.left ht.swept hquiet).2 hn
  obtain rfl := hs.graph
  obtain rfl := ht.graph
  have hguess : ∀ w < s.graph.vars.size, t.guess w = s.guess w := fun w hw =>
    hagrees.guess_input h hs.wellFormed ht.wellFormed hheard hs.ready ht.ready hw
  obtain ⟨l, hl, hlen⟩ := hs.wellFormed.exists_guesses hs.ready
  have hsize : t.vars.size = s.vars.size := by
    rw [ht.wellFormed.size_vars, hs.wellFormed.size_vars, h.size_vars]
  have hl' : t.guesses = .ok l := by
    apply guesses_eq
    · rw [hlen, hsize, hs.wellFormed.size_vars]
    · intro w hw
      rw [hguess w (by rwa [← hs.wellFormed.size_vars, ← hsize])]
      exact guesses_eq_ok hl (hsize ▸ hw)
  have hsum := hs.wellFormed.anchored.score_eq_sum hl hlen
  constructor
  · exact hagrees.carried
  · intro w hw
    obtain ⟨k, hk⟩ := hagrees.exists_belief_shift h hs.wellFormed ht.wellFormed hheard hw
    have hid : s.graph.HasNode (.var w) := hw
    refine ⟨_, k, hs.wellFormed.belief_eq (hs.ready (.var w) hid), ?_⟩
    rw [ht.wellFormed.belief_eq (ht.ready (.var w) (h.hasNode hid)), hk]
  · exact ⟨l, hl, hl'⟩
  · exact ⟨_, hsum, (score_input h hs.wellFormed ht.wellFormed hl hl' hlen).trans hsum⟩

/-- A factor of its own may stand for the input of a variable: the table with a row for each value.
Without damping the solvers of both graphs read the same after every sweep. -/
theorem Started.exists_readsAs [Extended.Exponential K] (hg : g.Reachable) (hx : g.Admissible)
    {var : Graph.Variable (Extended K)} (hv : g.vars[v]? = some var) (hf : var.fixed = none)
    (hi : var.input = some input) (hd : settings.damping = 0) :
    ∃ table g₁ f g₂, Table.ofRows [var.size] (Table.unaryRows input) = .ok table ∧
      g.setInput v none = .ok g₁ ∧ g₁.addTable table [v] = .ok (f, g₂) ∧
      ∀ n, 0 < n → ∃ s t, Started g settings n s ∧ Started g₂ settings n t ∧ s.graph = g ∧
        t.graph = g₂ ∧ s.ReadsAs t := by
  obtain ⟨table, g₁, f, g₂, htable, hset, hadd, hg₂, h⟩ := hg.exists_movesInput hv hf hi
  have hc : checkDamping settings.damping = .ok () := by
    rw [hd]
    exact if_pos Extended.unit_zero
  refine ⟨table, g₁, f, g₂, htable, hset, hadd, fun n hn => ?_⟩
  obtain ⟨s, hs⟩ := exists_started hg.wellFormed hc n
  obtain ⟨t, ht⟩ := exists_started hg₂.wellFormed hc n
  have hrs := hs.running hg.wellFormed
  have hrt := ht.running hg₂.wellFormed
  exact ⟨s, t, hs, ht, hrs.graph, hrt.graph, hrs.readsAs h hrt hx hd hn⟩

private def sign : Domain := ⟨.enumerated, #[.int (-1), .int 0, .int 1], by decide⟩

private def crossing : Table (Extended ℚ) :=
  Table.assemble [3, 3] #[⟨[0, 0], 1⟩, ⟨[0, 2], .finite 3⟩, ⟨[2, 2], 0⟩]

private theorem built_crossing : crossing.Built :=
  ⟨[3, 3], [⟨[0, 0], 1⟩, ⟨[0, 2], .finite 3⟩, ⟨[2, 2], 0⟩], by decide +kernel⟩

private instance exponentialOfRing : Extended.Exponential ℚ := ⟨id, id⟩

private def ring : Graph (Extended ℚ) :=
  [.addVariable "x" sign, .addVariable "y" sign,
    .addTable crossing built_crossing [0, 1], .addCustom .equality [1, 0],
    .setInput 1 (some [.finite (1 / 2), Energy.top, .finite (-2)])].foldl Graph.after
      Solver.empty.graph

theorem Started.exists_readsAs_ring :
    ∃ table g₁ f g₂,
      Table.ofRows [3] [⟨[0], .finite (1 / 2)⟩, ⟨[1], Energy.top⟩, ⟨[2], .finite (-2)⟩] =
        .ok table ∧
      ring.setInput 1 none = .ok g₁ ∧ g₁.addTable table [1] = .ok (f, g₂) ∧
      ∀ n, 0 < n → ∃ s t, Started ring .standard n s ∧ Started g₂ .standard n t ∧
        s.graph = ring ∧ t.graph = g₂ ∧ s.ReadsAs t := by
  have hreach : ring.Reachable := Graph.Reachable.empty.foldl_after _
  have hlist : ring.factors.toList.map (·.potential) =
      [.table ⟨0, crossing⟩, .custom .equality] := by
    with_unfolding_all rfl
  have hexact : ring.Exact := by
    apply Graph.forall_potential hlist (P := Graph.Potential.Exact)
    simp [Graph.Potential.Exact]
  have hsize : ring.vars[1]?.map (·.size) = some 3 := by decide +kernel
  have hfixed : ring.vars[1]?.map (·.fixed) = some none := by decide +kernel
  have hinput : ring.vars[1]?.map (·.input) =
      some (some [.finite (1 / 2), Energy.top, .finite (-2)]) := by decide +kernel
  obtain ⟨var, hv, hs⟩ := Option.map_eq_some_iff.1 hsize
  simp only [hv, Option.map_some, Option.some.injEq] at hfixed hinput
  rw [← hs]
  exact exists_readsAs hreach hexact.admissible hv hfixed hinput rfl

end Solver

end MinSum
