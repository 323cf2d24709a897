import MinSum.Proofs.Graph.Relabeled
import MinSum.Proofs.Solver.Balance
import MinSum.Proofs.Solver.Started

/-! The order in which a graph was built never matters. Solvers of two graphs that differ in the
numbers of their nodes and in the order of ports send the same messages along corresponding edges,
and believe, guess and score the same. -/
namespace MinSum

namespace Solver

section

variable {E : Type} [Energy E]

/-- The factor believes `x` of the row that agrees with the assignment. -/
def BelievesRow (s : Solver E) (f : Nat) (b : Nat → Nat) (x : E) : Prop :=
  ∃ (factor : Graph.Factor E) (t : Shared (Table E)) (energies : List E) (r : Nat) (row : Row E),
    s.graph.factors[f]? = some factor ∧ factor.potential = .table t ∧
      s.factorBelief f = .ok energies ∧ t.content.rows[r]? = some row ∧
      row.indices = (Graph.neighborsOf factor.links).map b ∧ energies[r]? = some x

/-- The second solver is in the state of the first, under other numbers. -/
structure Relabels (s t : Solver E) (σ φ : Nat → Nat) : Prop where
  edge : ∀ (e : Nat) edge, s.graph.edges[e]? = some edge →
    ∃ e' : Nat, t.graph.edges[e']? = some (edge.relabel σ φ)
  messages : ∀ (e e' : Nat) edge, s.graph.edges[e]? = some edge →
    t.graph.edges[e']? = some (edge.relabel σ φ) → t.store.stateOf e' = s.store.stateOf e
  belief : ∀ v < s.graph.vars.size, ∃ m, s.belief v = .ok m ∧ t.belief (σ v) = .ok m
  factorBelief : ∀ f < s.graph.factors.size, ∀ b x,
    t.BelievesRow (φ f) b x ↔ s.BelievesRow f (b ∘ σ) x
  guesses : ∃ a a', s.guesses = .ok a ∧ t.guesses = .ok a' ∧ a.length = s.graph.vars.size ∧
    a'.length = t.graph.vars.size ∧ ∀ v < s.graph.vars.size, a'.getD (σ v) 0 = a.getD v 0
  score : ∃ x, s.score = .ok x ∧ t.score = .ok x

/-- Once all nodes are initialized there are guesses. -/
theorem WellFormed.exists_guesses {s : Solver E} (h : s.WellFormed) (hr : s.Ready) :
    ∃ a, s.guesses = .ok a ∧ a.length = s.graph.vars.size := by
  have hguess : ∀ v, ∃ x, v < s.vars.size → s.guess v = .ok x := by
    intro v
    by_cases hv : v < s.vars.size
    · have hid : s.graph.HasNode (.var v) := by
        rw [Graph.HasNode, ← h.size_vars]
        exact hv
      obtain ⟨_, -, hx⟩ := h.guess_eq (hr _ hid)
      exact ⟨_, fun _ => hx⟩
    · exact ⟨0, fun hv' => absurd hv' hv⟩
  choose x hx using hguess
  refine ⟨(List.range s.vars.size).map x, ?_, ?_⟩
  · exact guessAll_eq fun v hv => hx v (List.mem_range.1 hv)
  · rw [List.length_map, List.length_range, h.size_vars]

/-- What a table factor believes of its rows. -/
theorem WellFormed.believesRow_iff {s : Solver E} (h : s.WellFormed) (hr : s.Ready) {f : Nat}
    {factor : Graph.Factor E} (hf : s.graph.factors[f]? = some factor) {t : Shared (Table E)}
    (ht : factor.potential = .table t) {b : Nat → Nat} {x : E} :
    s.BelievesRow f b x ↔ ∃ row ∈ t.content.rows,
      row.indices = (s.graph.incident (.factor f)).map (fun e => b (s.graph.varOf e)) ∧
      (Table.received ((s.graph.incident (.factor f)).map (s.store.heard (.factor f)))
        row.indices).foldl (· + ·) row.energy = x := by
  have hlt : s.graph.HasNode (.factor f) := (Array.getElem?_eq_some_iff.1 hf).1
  have hbelief := h.anchored.factorBelief_eq (hr _ hlt) (misfit?_eq_none h.graph h.store _) hf ht
  have hneighbors : (Graph.neighborsOf factor.links).map b =
      (s.graph.incident (.factor f)).map fun e => b (s.graph.varOf e) := by
    rw [← Graph.linksAt_factor hf, h.graph.neighborsOf_eq, List.map_map]
    rfl
  constructor
  · rintro ⟨factor', t', energies, r, row, hf', ht', henergies, hrow, hindices, hx⟩
    obtain rfl := Option.some.inj (hf.symm.trans hf')
    obtain rfl := Graph.Potential.table.inj (ht.symm.trans ht')
    obtain rfl := Except.ok.inj (hbelief.symm.trans henergies)
    rw [Table.belief, List.getElem?_map, Array.getElem?_toList, hrow] at hx
    exact ⟨row, Array.mem_of_getElem? hrow, hindices.trans hneighbors, Option.some.inj hx⟩
  · rintro ⟨row, hrow, hindices, rfl⟩
    obtain ⟨r, hr⟩ := Array.mem_iff_getElem?.1 hrow
    refine ⟨factor, t, _, r, row, hf, ht, hbelief, hr, hindices.trans hneighbors.symm, ?_⟩
    rw [Table.belief, List.getElem?_map, Array.getElem?_toList, hr]
    rfl

end

variable {K : Type} [Field K] [LinearOrder K]

/-- The messages of two solvers agree along corresponding edges. -/
structure Agrees (s t : Solver (Extended K)) (ε : Nat → Nat) (a a' : EdgeStore (Extended K)) :
    Prop where
  fits : a.Fits s.graph
  fits' : a'.Fits t.graph
  proper : a.Proper
  proper' : a'.Proper
  carried : s.graph.Carried ε a a'

/-- In a phase the nodes of one side speak. When each settles what its counterpart does, the
messages still agree after the phase: the others keep silent. -/
theorem Agrees.next [IsStrictOrderedRing K] {s t : Solver (Extended K)} {ε : Nat → Nat}
    (ν : NodeId → NodeId) {a a' b b' : EdgeStore (Extended K)} {side : Side}
    (ha : s.Agrees t ε a a') (hs : s.WellFormed) (ht : t.WellFormed) (hrs : s.Ready)
    (hrt : t.Ready) (hx : s.graph.Admissible) (hx' : t.graph.Admissible)
    (hside : ∀ id, (ν id).side = id.side)
    (hmem : ∀ id e, e ∈ s.graph.incident id → ε e ∈ t.graph.incident (ν id))
    (hab : s.Spoken side a b) (hab' : t.Spoken side a' b')
    (hsettled : ∀ {id p p' e raw raw'}, id.side = side → (s.graph.incident id)[p]? = some e →
      (t.graph.incident (ν id))[p']? = some (ε e) → (s.graph.rawAt a id)[p]? = some raw →
      (t.graph.rawAt a' (ν id))[p']? = some raw' →
      Update.settled (t.dampings (ν id)) p' raw' (a'.said (ν id) (ε e)) =
        Update.settled (s.dampings id) p raw (a.said id e)) : s.Agrees t ε b b' := by
  refine ⟨hab.fits, hab'.fits, hs.proper_spoken hrs ha.fits ha.proper hx hab,
    ht.proper_spoken hrt ha.fits' ha.proper' hx' hab', ?_⟩
  intro e he
  apply hs.graph.state_ext he
  intro id hid
  have hid' := hmem id e hid
  have hsaid : b'.said (ν id) (ε e) = b.said id e := by
    by_cases hspeaks : id.side = side
    · obtain ⟨p, hp⟩ := List.mem_iff_getElem?.1 hid
      obtain ⟨p', hp'⟩ := List.mem_iff_getElem?.1 hid'
      obtain ⟨raw, hraw, -⟩ := hs.exists_rawAt hrs ha.fits hp
      obtain ⟨raw', hraw', -⟩ := ht.exists_rawAt hrt ha.fits' hp'
      rw [hab.own id hspeaks p e raw hp hraw,
        hab'.own (ν id) ((hside id).trans hspeaks) p' (ε e) raw' hp' hraw',
        hsettled hspeaks hp hp' hraw hraw']
    · have hsilent : (ν id).side ≠ side := by
        rw [hside]
        exact hspeaks
      rw [hab.other id e hid hspeaks, hab'.other (ν id) (ε e) hid' hsilent, EdgeStore.said,
        EdgeStore.said, hside, ha.carried e he]
  rwa [EdgeStore.said, EdgeStore.said, hside] at hsaid

section

variable {s t : Solver (Extended K)} {g g' : Graph (Extended K)}
  {settings settings' : Settings (Extended K)} {n n' : Nat} {σ φ ε : Nat → Nat}
  (h : g.Renumbers g' σ φ ε) (hs : s.Running g settings n) (ht : t.Running g' settings' n')
  {a a' b b' : EdgeStore (Extended K)} (ha : s.Agrees t ε a a')

include h hs ht ha

/-- Nodes compute the same message for corresponding edges. -/
theorem Agrees.rawAt_eq {id : NodeId} {p p' e : Nat} {raw raw' : Message (Extended K)}
    (hp : (g.incident id)[p]? = some e)
    (hp' : (g'.incident (id.relabel σ φ))[p']? = some (ε e))
    (hraw : (g.rawAt a id)[p]? = some raw)
    (hraw' : (g'.rawAt a' (id.relabel σ φ))[p']? = some raw') : raw' = raw := by
  obtain rfl := hs.graph
  obtain rfl := ht.graph
  have hg := hs.wellFormed.graph
  have hg' := ht.wellFormed.graph
  have he := List.mem_of_getElem? hp
  have hlt := hg.lt_of_mem_incident he
  have hsays := hs.wellFormed.says_rawAt hs.ready ha.fits ha.proper h.tabular.exact hp hraw
  have hsays' := ht.wellFormed.says_rawAt ht.ready ha.fits' ha.proper' h.tabular_right.exact hp'
    hraw'
  have hlen := hs.wellFormed.length_rawAt hs.ready ha.fits hp hraw
  have hlen' := ht.wellFormed.length_rawAt ht.ready ha.fits' hp' hraw'
  have hmoved := h.says_relabel hg hg' ha.carried he hsays
  exact hsays'.unique hmoved hlen' (hlen.trans (h.edgeSize_eq hg hlt).symm)

variable [IsStrictOrderedRing K]

theorem Agrees.spoken (hd : settings'.damping = settings.damping) {side : Side}
    (hab : s.Spoken side a b) (hab' : t.Spoken side a' b') : s.Agrees t ε b b' := by
  obtain rfl := hs.graph
  obtain rfl := ht.graph
  have hg := hs.wellFormed.graph
  have hg' := ht.wellFormed.graph
  apply ha.next (NodeId.relabel σ φ) hs.wellFormed ht.wellFormed hs.ready ht.ready
    h.tabular.exact.admissible h.tabular_right.exact.admissible (NodeId.side_relabel σ φ) _ hab
    hab'
  · intro id p p' e raw raw' _ hp hp' hraw hraw'
    have hlt := hg.lt_of_mem_incident (List.mem_of_getElem? hp)
    rw [Update.settled_eq_damp, Update.settled_eq_damp, hs.dampingAt_eq hp, ht.dampingAt_eq hp',
      ha.rawAt_eq h hs ht hp hp' hraw hraw', hd, EdgeStore.said, EdgeStore.said,
      NodeId.side_relabel, ha.carried e hlt]
  · intro id e he
    have hid := Graph.WellFormed.hasNode_of_mem_incident he
    exact (h.mem_incident_iff hg hg' hid (hg.lt_of_mem_incident he)).2 he

end

/-- In exact energies the belief in a row is told by its value. -/
theorem WellFormed.believesRow_iff_value {s : Solver (Extended K)} (h : s.WellFormed)
    (hr : s.Ready) (hm : s.store.Proper) {f : Nat} {factor : Graph.Factor (Extended K)}
    (hf : s.graph.factors[f]? = some factor) {t : Shared (Table (Extended K))}
    (ht : factor.potential = .table t) {b : Nat → Nat} {x : Extended K} :
    s.BelievesRow f b x ↔ (∃ y, (⟨(s.graph.incident (.factor f)).map
      (fun e => b (s.graph.varOf e)), y⟩ : Row (Extended K)) ∈ t.content.rows) ∧ x.Proper ∧
        x.value = s.graph.cost (.factor f) b +
          ∑ e ∈ (s.graph.incident (.factor f)).toFinset,
            s.graph.inflow s.store (.factor f) b e := by
  have hsuits := (h.graph.valid_factor factor (Array.mem_of_getElem? hf)).suits
  rw [ht] at hsuits
  have hbelief : ∀ row ∈ t.content.rows,
      ((Table.received ((s.graph.incident (.factor f)).map (s.store.heard (.factor f)))
        row.indices).foldl (· + ·) row.energy).Proper := by
    intro row hrow
    have hheard : ∀ m ∈ (s.graph.incident (.factor f)).map (s.store.heard (.factor f)),
        m.Proper := (Node.Tracks.proper_heard hm).1
    exact Extended.proper_foldl_add (Table.proper_received hheard _)
      (hsuits.1.sound.fits row hrow).proper
  rw [h.believesRow_iff hr hf ht]
  constructor
  · rintro ⟨row, hrow, hindices, rfl⟩
    refine ⟨⟨row.energy, ?_⟩, hbelief row hrow, h.graph.value_rowBelief s.store hf ht hrow hindices⟩
    rw [← hindices]
    exact hrow
  · rintro ⟨⟨y, hrow⟩, hx, hvalue⟩
    have hval := h.graph.value_rowBelief s.store hf ht hrow (b := b) rfl
    exact ⟨_, hrow, rfl, (hbelief _ hrow).ext hx (hval.trans hvalue.symm)⟩

section

variable {s t : Solver (Extended K)} {σ φ ε : Nat → Nat}
  (h : s.graph.Renumbers t.graph σ φ ε) (hs : s.WellFormed) (ht : t.WellFormed) (hrs : s.Ready)
  (hrt : t.Ready) (ha : s.Agrees t ε s.store t.store)

include h hs ht ha

theorem Agrees.belief_eq {v : Nat} (hv : v < s.graph.vars.size) :
    Prior.belief (t.graph.priorOf (σ v))
      ((t.graph.incident (.var (σ v))).map (t.store.heard (.var (σ v)))) =
    Prior.belief (s.graph.priorOf v)
      ((s.graph.incident (.var v)).map (s.store.heard (.var v))) := by
  apply (ht.graph.proper_belief ha.proper' (σ v)).ext (hs.graph.proper_belief ha.proper v)
  · rw [Prior.length_belief, Prior.length_belief, h.priorOf_eq hv]
  · intro x _
    have hid : s.graph.HasNode (.var v) := hv
    have hvalue := hs.graph.valueAt_belief ha.fits v fun _ => x
    have hvalue' := ht.graph.valueAt_belief ha.fits' (σ v) fun _ => x
    have hcost := h.cost_eq hs.graph ht.graph hid fun _ => x
    have hsum := h.sum_inflow_eq hs.graph ht.graph ha.carried hid fun _ => x
    rw [hvalue, hvalue']
    exact congrArg₂ (· + ·) hcost hsum

include hrs hrt

theorem Agrees.guess_eq {v : Nat} (hv : v < s.graph.vars.size) : t.guess (σ v) = s.guess v := by
  obtain ⟨var, hvar, hguess⟩ := hs.guess_eq (hrs (.var v) hv)
  obtain ⟨var', hvar', hguess'⟩ := ht.guess_eq (hrt (.var (σ v)) (h.vars.mapsTo hv))
  rw [hguess, hguess', ha.belief_eq h hs ht hv, (h.alike v var var' hvar hvar').fixed]

theorem Agrees.believesRow_iff {f : Nat} (hf : f < s.graph.factors.size) (b : Nat → Nat)
    (x : Extended K) : t.BelievesRow (φ f) b x ↔ s.BelievesRow f (b ∘ σ) x := by
  have hid : s.graph.HasNode (.factor f) := hf
  obtain ⟨factor, factor', order, table, table', hfactor, hfactor', hpot, hpot', hsound, -, hperm,
    hlen, hmap⟩ := h.exists_order hs.graph ht.graph hf
  have hcost := h.cost_eq hs.graph ht.graph hid b
  have hsum := h.sum_inflow_eq hs.graph ht.graph ha.carried hid b
  rw [NodeId.relabel] at hcost hsum
  rw [hs.believesRow_iff_value hrs ha.proper hfactor hpot,
    ht.believesRow_iff_value hrt ha.proper' hfactor' hpot', hcost, hsum,
    Graph.map_incident_eq hperm hlen hmap b]
  apply and_congr_left'
  apply exists_congr
  intro y
  apply hperm.mem_rows_iff hsound
  rw [List.length_map, hlen]

end

section

variable {s t : Solver (Extended K)} {σ φ : Nat → Nat}
  (h : s.graph.Relabels t.graph σ φ) (hs : s.WellFormed) (ht : t.WellFormed) {l l' : List Nat}
  (hv : ∀ v < s.graph.vars.size, l'.getD (σ v) 0 = l.getD v 0)

include h hs ht hv

/-- A factor gives an assignment the energy that it gives to it under the other numbers. -/
theorem energyAt_relabel {f : Nat} (hf : f < s.graph.factors.size) :
    t.graph.energyAt (φ f) l' = s.graph.energyAt f l := by
  obtain ⟨factor, factor', order, table, table', hfactor, hfactor', hpot, hpot', hsound, hsound',
    hperm, hlen, hmap⟩ := h.exists_order hs.graph ht.graph hf
  have hvalues : restrict l (Graph.neighborsOf factor.links) =
      (s.graph.incident (.factor f)).map fun e => l.getD (s.graph.varOf e) 0 := by
    rw [restrict, ← Graph.linksAt_factor hfactor, hs.graph.neighborsOf_eq, List.map_map]
    rfl
  have hvalues' : restrict l' (Graph.neighborsOf factor'.links) =
      reorder order (restrict l (Graph.neighborsOf factor.links)) := by
    have hmoved := Graph.map_incident_eq hperm hlen hmap (l'.getD · 0)
    rw [restrict, ← Graph.linksAt_factor hfactor', ht.graph.neighborsOf_eq, List.map_map, hvalues]
    refine hmoved.trans (congrArg (reorder order) (List.map_congr_left fun e he => ?_))
    exact hv _ (hs.graph.varOf_lt (hs.graph.lt_of_mem_incident he))
  simp only [Graph.energyAt, hfactor, hfactor', Option.map_some, Option.getD_some,
    Graph.Factor.energy, hpot, hpot', Graph.Potential.energy, hvalues']
  apply hperm.energyOf_eq hsound hsound'
  rw [hvalues, List.length_map, hlen]

open scoped Extended in
theorem score_relabel (hl : s.guesses = .ok l) (hl' : t.guesses = .ok l')
    (hlen : l.length = s.graph.vars.size) (hlen' : l'.length = t.graph.vars.size) :
    t.score = s.score := by
  rw [hs.anchored.score_eq_sum hl hlen, ht.anchored.score_eq_sum hl' hlen',
    sum_range_of_bijOn h.vars, sum_range_of_bijOn h.factors]
  congr 2
  · apply Finset.sum_congr rfl
    intro v hmem
    have hlt := Finset.mem_range.1 hmem
    obtain ⟨var, var', hvar, hvar', halike⟩ := h.exists_alike hlt
    simp only [Graph.inputAt, hvar, hvar', hv v hlt, Option.map_some, Graph.Variable.inputEnergy,
      halike.fixed, halike.input]
  · apply Finset.sum_congr rfl
    intro f hmem
    exact energyAt_relabel h hs ht hv (Finset.mem_range.1 hmem)

end

section

variable [IsStrictOrderedRing K] {g g' : Graph (Extended K)}
  {settings settings' : Settings (Extended K)} {σ φ : Nat → Nat} {n : Nat}
  {s t : Solver (Extended K)}

omit [IsStrictOrderedRing K] in
theorem Running.agrees_quiet {ε : Nat → Nat} (hs : s.Running g settings n)
    (ht : t.Running g' settings' n)
    (hε : ∀ e < g.edges.size, ε e < g'.edges.size ∧ g'.edgeSize (ε e) = g.edgeSize e) :
    s.Agrees t ε g.quiet g'.quiet := by
  refine ⟨hs.graph ▸ g.fits_quiet, ht.graph ▸ g'.fits_quiet, g.proper_quiet, g'.proper_quiet, ?_⟩
  rw [hs.graph]
  intro e he
  obtain ⟨hlt, hsize⟩ := hε e he
  rw [Graph.stateOf_quiet he, Graph.stateOf_quiet hlt, hsize]

theorem Running.relabels (h : g.Relabels g' σ φ) (hd : settings'.damping = settings.damping)
    (hs : s.Running g settings n) (ht : t.Running g' settings' n) : s.Relabels t σ φ := by
  have hg : g.WellFormed := hs.graph ▸ hs.wellFormed.graph
  have hg' : g'.WellFormed := ht.graph ▸ ht.wellFormed.graph
  obtain ⟨ε, hε⟩ := h.exists_renumbers hg hg'
  have hstep : ∀ {side a b a' b'}, s.Agrees t ε a a' → s.Spoken side a b → t.Spoken side a' b' →
      s.Agrees t ε b b' := fun ha hab hab' => ha.spoken hε hs ht hd hab hab'
  have hquiet := hs.agrees_quiet ht fun e he => ⟨hε.edges.mapsTo he, hε.edgeSize_eq hg he⟩
  have hagrees : s.Agrees t ε s.store t.store :=
    (hs.swept.simulate hstep hstep id ht.swept hquiet).1
  obtain rfl := hs.graph
  obtain rfl := ht.graph
  obtain ⟨l, hl, hlen⟩ := hs.wellFormed.exists_guesses hs.ready
  obtain ⟨l', hl', hlen'⟩ := ht.wellFormed.exists_guesses ht.ready
  have hguess : ∀ v < s.graph.vars.size, l'.getD (σ v) 0 = l.getD v 0 := by
    intro v hv
    have hmoved := hagrees.guess_eq hε hs.wellFormed ht.wellFormed hs.ready ht.ready hv
    rw [guesses_eq_ok hl (hs.wellFormed.size_vars ▸ hv),
      guesses_eq_ok hl' (ht.wellFormed.size_vars ▸ h.vars.mapsTo hv)] at hmoved
    exact Except.ok.inj hmoved
  have hscore := score_relabel h hs.wellFormed ht.wellFormed hguess hl hl' hlen hlen'
  have hsum := hs.wellFormed.anchored.score_eq_sum hl hlen
  constructor
  · intro e edge he
    obtain ⟨hlt, hv, hf⟩ := Graph.getElem?_edges_iff.1 he
    refine ⟨ε e, Graph.getElem?_edges_iff.2 ⟨hε.edges.mapsTo hlt, ?_, ?_⟩⟩
    · rw [hε.varOf_eq e hlt, hv]
      rfl
    · rw [hε.factorOf_eq e hlt, hf]
      rfl
  · intro e e' edge he he'
    obtain ⟨hlt, hv, hf⟩ := Graph.getElem?_edges_iff.1 he
    obtain ⟨hlt', hv', hf'⟩ := Graph.getElem?_edges_iff.1 he'
    obtain rfl : e' = ε e := by
      apply hg'.eq_of_ends_eq hlt' (hε.edges.mapsTo hlt)
      · rw [hv', hε.varOf_eq e hlt, hv]
        rfl
      · rw [hf', hε.factorOf_eq e hlt, hf]
        rfl
    exact hagrees.carried e hlt
  · intro v hv
    refine ⟨_, hs.wellFormed.belief_eq (hs.ready (.var v) hv), ?_⟩
    rw [ht.wellFormed.belief_eq (ht.ready (.var (σ v)) (h.vars.mapsTo hv)),
      hagrees.belief_eq hε hs.wellFormed ht.wellFormed hv]
  · intro f hf b x
    exact hagrees.believesRow_iff hε hs.wellFormed ht.wellFormed hs.ready ht.ready hf b x
  · exact ⟨l, l', hl, hl', hlen, hlen', hguess⟩
  · exact ⟨_, hsum, hscore.trans hsum⟩

/-- The order of insertion never matters. Take two graphs of tables with the same nodes under other
numbers, each factor with its variables in any order and its table with the columns in that order.
After the same number of sweeps from the start, with the same damping, corresponding edges carry
the same messages, and beliefs, guesses and the score are the same. -/
theorem Started.exists_relabels [Extended.Exponential K] (hg : g.Reachable) (hg' : g'.Reachable)
    (h : g.Relabels g' σ φ) (hc : checkDamping settings.damping = .ok ())
    (hd : settings'.damping = settings.damping) (n : Nat) :
    ∃ s t, Started g settings n s ∧ Started g' settings' n t ∧ s.graph = g ∧ t.graph = g' ∧
      s.Relabels t σ φ := by
  obtain ⟨s, hs⟩ := exists_started hg.wellFormed hc n
  obtain ⟨t, ht⟩ := exists_started hg'.wellFormed (hd ▸ hc) n
  have hrs := hs.running hg.wellFormed
  have hrt := ht.running hg'.wellFormed
  exact ⟨s, t, hs, ht, hrs.graph, hrt.graph, hrs.relabels h hd hrt⟩

end

private def trit : Domain := ⟨.enumerated, #[.int 0, .int 1, .int 2], by decide⟩

private def pairing : Table (Extended ℚ) :=
  Table.assemble [2, 3] #[⟨[0, 0], 1⟩, ⟨[0, 2], .finite 3⟩, ⟨[1, 1], 0⟩]

private def pairingBack : Table (Extended ℚ) :=
  Table.assemble [3, 2] #[⟨[1, 1], 0⟩, ⟨[0, 0], 1⟩, ⟨[2, 0], .finite 3⟩]

private def leaning : Table (Extended ℚ) := Table.assemble [2] #[⟨[0], .finite 2⟩, ⟨[1], 1⟩]

private theorem built_pairing : pairing.Built :=
  ⟨[2, 3], [⟨[0, 0], 1⟩, ⟨[0, 2], .finite 3⟩, ⟨[1, 1], 0⟩], by decide +kernel⟩

private theorem built_pairingBack : pairingBack.Built :=
  ⟨[3, 2], [⟨[1, 1], 0⟩, ⟨[0, 0], 1⟩, ⟨[2, 0], .finite 3⟩], by decide +kernel⟩

private theorem built_leaning : leaning.Built :=
  ⟨[2], [⟨[0], .finite 2⟩, ⟨[1], 1⟩], by decide +kernel⟩

private instance exponentialOfForward : Extended.Exponential ℚ := ⟨id, id⟩

/-- A bit and a variable of three values with an input, in a table of both and one of the bit. -/
private def forward : Graph (Extended ℚ) :=
  [.addVariable "x" .bit, .addVariable "y" trit, .addTable pairing built_pairing [0, 1],
    .addTable leaning built_leaning [0],
    .setInput 1 (some [1, Energy.top, .finite (1 / 2)])].foldl Graph.after Solver.empty.graph

private def backward : Graph (Extended ℚ) :=
  [.addVariable "y" trit, .addVariable "x" .bit, .addTable leaning built_leaning [1],
    .setInput 0 (some [1, Energy.top, .finite (1 / 2)]),
    .addTable pairingBack built_pairingBack [0, 1]].foldl Graph.after Solver.empty.graph

private theorem relabels_backward : forward.Relabels backward (1 - ·) (1 - ·) := by
  have hswap : Set.BijOn (1 - ·) (Set.Iio 2) (Set.Iio 2) := by
    have hmaps : Set.MapsTo (1 - ·) (Set.Iio 2) (Set.Iio 2) := by
      intro i _
      exact Nat.lt_succ_of_le (Nat.sub_le 1 i)
    have hback : Set.LeftInvOn (1 - ·) (1 - ·) (Set.Iio 2) := by
      intro i hi
      have hle : i ≤ 1 := Nat.le_of_lt_succ hi
      exact Nat.sub_sub_self hle
    exact Set.InvOn.bijOn ⟨hback, hback⟩ hmaps hmaps
  have halike : ∀ v < 2, forward.vars[v]?.map (·.size) = backward.vars[1 - v]?.map (·.size) ∧
      forward.vars[v]?.map (·.input) = backward.vars[1 - v]?.map (·.input) ∧
      forward.vars[v]?.map (·.fixed) = backward.vars[1 - v]?.map (·.fixed) := by
    decide +kernel
  have hlist : forward.factors.toList =
      [⟨.table ⟨0, pairing⟩, [⟨0, 0⟩, ⟨1, 1⟩]⟩, ⟨.table ⟨1, leaning⟩, [⟨0, 2⟩]⟩] := by
    with_unfolding_all rfl
  have hlist' : backward.factors.toList =
      [⟨.table ⟨0, leaning⟩, [⟨1, 0⟩]⟩, ⟨.table ⟨1, pairingBack⟩, [⟨0, 1⟩, ⟨1, 2⟩]⟩] := by
    with_unfolding_all rfl
  have hvars : forward.vars.size = 2 := by decide +kernel
  have hvars' : backward.vars.size = 2 := by decide +kernel
  have hfactors : forward.factors.size = 2 := congrArg List.length hlist
  have hfactors' : backward.factors.size = 2 := congrArg List.length hlist'
  constructor
  · rw [hvars, hvars']
    exact hswap
  · rw [hfactors, hfactors']
    exact hswap
  · intro v var var' hvar hvar'
    have heq := halike v (hvars ▸ (Array.getElem?_eq_some_iff.1 hvar).1)
    simp only [hvar, hvar', Option.map_some, Option.some.injEq] at heq
    exact ⟨heq.1.symm, heq.2.1.symm, heq.2.2.symm⟩
  · intro f factor factor' hfactor hfactor'
    rw [← Array.getElem?_toList, hlist] at hfactor
    rw [← Array.getElem?_toList, hlist'] at hfactor'
    have hlt : f < 2 := (List.getElem?_eq_some_iff.1 hfactor).1
    obtain rfl | rfl : f = 0 ∨ f = 1 := by omega
    · obtain rfl := Option.some.inj hfactor
      obtain rfl := Option.some.inj hfactor'
      exact ⟨[1, 0], _, _, rfl, rfl, ⟨by decide, by decide +kernel⟩, rfl⟩
    · obtain rfl := Option.some.inj hfactor
      obtain rfl := Option.some.inj hfactor'
      exact ⟨[0], _, _, rfl, rfl, ⟨by decide, by decide +kernel⟩, rfl⟩

theorem Started.exists_relabels_backward : forward.Relabels backward (1 - ·) (1 - ·) ∧
    ∃ s t, Started forward .standard 5 s ∧ Started backward .standard 5 t ∧ s.graph = forward ∧
      t.graph = backward ∧ s.Relabels t (1 - ·) (1 - ·) := by
  have hforward : forward.Reachable := Graph.Reachable.empty.foldl_after _
  have hbackward : backward.Reachable := Graph.Reachable.empty.foldl_after _
  exact ⟨relabels_backward, exists_relabels hforward hbackward relabels_backward
    (by with_unfolding_all rfl) rfl 5⟩

end Solver

end MinSum
