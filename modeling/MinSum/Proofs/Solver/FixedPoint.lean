import Mathlib.Tactic.LinearCombination
import Mathlib.Tactic.Ring
import MinSum.Proofs.Solver.InForce
import MinSum.Proofs.Solver.Spoken

/-! Fixed points of the sweep. Damping mixes a new message with the one that it replaces, so where
both agree the mixture is no other message, and a mixture with finite old energies is the old
message only there. -/
namespace MinSum

namespace Extended

variable {K : Type} [Field K] [LinearOrder K]

variable {x : Extended K} {d : K}

theorem Proper.mix_self [IsStrictOrderedRing K] (hx : x.Proper) (h₀ : 0 < d) (h₁ : d < 1) :
    finite (1 - d) * x + finite d * x = x := by
  have hpos : 0 < 1 - d := by linarith
  rcases proper_iff.1 hx with rfl | ⟨k, rfl⟩
  · have hkeep : finite (1 - d) * (Energy.top : Extended K) = Energy.top := if_pos hpos
    have hold : finite d * (Energy.top : Extended K) = Energy.top := if_pos h₀
    rw [hkeep, hold]
    rfl
  · have hmix : finite (1 - d) * finite k + finite d * finite k =
        finite ((1 - d) * k + d * k) := rfl
    rw [hmix]
    congr 1
    ring

theorem Proper.eq_of_mix_eq [IsStrictOrderedRing K] (hx : x.Proper) {k : K} (h₁ : d < 1)
    (he : finite (1 - d) * x + finite d * finite k = finite k) : x = finite k := by
  have hpos : 0 < 1 - d := by linarith
  rcases proper_iff.1 hx with rfl | ⟨j, rfl⟩
  · have hkeep : finite (1 - d) * (Energy.top : Extended K) = Energy.top := if_pos hpos
    rw [hkeep] at he
    contradiction
  · have hmix : finite (1 - d) * finite j + finite d * finite k =
        finite ((1 - d) * j + d * k) := rfl
    rw [hmix, Extended.finite.injEq] at he
    have hzero : (1 - d) * (j - k) = 0 := by linear_combination he
    rcases mul_eq_zero.1 hzero with h | h
    · exact absurd h hpos.ne'
    · rw [sub_eq_zero.1 h]

end Extended

namespace Message

variable {K : Type} [Field K] [LinearOrder K]

variable [IsStrictOrderedRing K] {m old : Message (Extended K)} {d : K}

/-- Damping against the same message changes nothing. -/
theorem Proper.damp_self (hm : m.Proper) (h₀ : 0 ≤ d) (h₁ : d < 1) :
    m.damp m (.finite d) = m := by
  rcases h₀.lt_or_eq with h₀ | rfl
  · rw [damp_eq_overlay m m h₀ h₁]
    apply List.ext_getElem?
    intro x
    rw [getElem?_overlay]
    cases hx : m[x]? with
    | none => rfl
    | some a =>
      simp only [Option.map_some, Option.getD_some]
      rw [(hm a (List.mem_of_getElem? hx)).mix_self h₀ h₁]
  · exact damp_zero m m

/-- If damping leaves a finite message as it was, the new message was no other. -/
theorem Proper.eq_of_damp_eq (hm : m.Proper) (ho : old.Finite) (hl : old.length = m.length)
    (h₀ : 0 ≤ d) (h₁ : d < 1) (he : m.damp old (.finite d) = old) : m = old := by
  rcases h₀.lt_or_eq with h₀ | rfl
  · rw [damp_eq_overlay m old h₀ h₁] at he
    apply List.ext_getElem hl.symm
    intro x hx hx'
    have hget := congrArg (·[x]?) he
    simp only [getElem?_overlay, List.getElem?_eq_getElem hx, List.getElem?_eq_getElem hx',
      Option.map_some, Option.getD_some, Option.some.injEq] at hget
    obtain ⟨k, hk⟩ := ho _ (List.getElem_mem hx')
    rw [hk] at hget ⊢
    exact (hm _ (List.getElem_mem hx)).eq_of_mix_eq h₁ hget
  · rwa [← Extended.zero_eq, damp_zero] at he

end Message

theorem checkDamping_finite {K : Type} [Field K] [LinearOrder K] {k : K} (h₀ : 0 ≤ k)
    (h₁ : k ≤ 1) : checkDamping (Extended.finite k) = .ok () := if_pos ⟨h₀, h₁⟩

namespace Solver

section

variable {E : Type} [Energy E] {s t : Solver E}

/-- A sweep succeeds and changes no message. -/
structure AtRest (s : Solver E) : Prop where
  isOk : (s.iterate 1).1 = .ok ()
  store_eq : (s.iterate 1).2.store = s.store

/-- What every node settles is what it said before. -/
def Settled (s : Solver E) : Prop :=
  ∀ id ∈ s.factorIds ++ s.variableIds,
    Update.settledAll (s.dampings id) (s.graph.rawAt s.store id)
      ((s.graph.incident id).map (s.store.said id)) = (s.graph.incident id).map (s.store.said id)

variable [Energy.LawfulZero E] (h : s.WellFormed) (hr : s.Ready)

include h hr

omit [Energy.LawfulZero E] in
theorem WellFormed.settled_iff_ports : s.Settled ↔
    ∀ id (p e : Nat) raw, (s.graph.incident id)[p]? = some e →
      (s.graph.rawAt s.store id)[p]? = some raw →
      Update.settled (s.dampings id) p raw (s.store.said id e) = s.store.said id e := by
  constructor
  · intro hs id p e raw hp hraw
    have hid := Graph.WellFormed.hasNode_of_mem_incident (List.mem_of_getElem? hp)
    have hport := congrArg (·[p]?) (hs id (h.mem_ids.2 hid))
    simp only [Update.getElem?_settledAll, hraw, List.getElem?_map, hp, Option.map_some] at hport
    exact Option.some.inj hport
  · intro hs id _
    apply List.ext_getElem?
    intro p
    rw [Update.getElem?_settledAll, List.getElem?_map]
    cases hp : (s.graph.incident id)[p]? with
    | none => simp
    | some e =>
      obtain ⟨raw, hraw, -⟩ := h.exists_rawAt hr h.store hp
      simp only [hraw, Option.map_some]
      rw [hs id p e raw hp hraw]

omit [Energy.LawfulZero E] in
/-- Where all is settled a phase changes nothing. -/
theorem WellFormed.spoken_of_settled (hs : s.Settled) {side : Side} {store : EdgeStore E}
    (hp : s.Spoken side s.store store) : store = s.store := by
  rw [h.settled_iff_ports hr] at hs
  apply hp.fits.ext_said h.graph h.store
  intro id e he
  by_cases hside : id.side = side
  · obtain ⟨p, hpe⟩ := List.mem_iff_getElem?.1 he
    obtain ⟨raw, hraw, -⟩ := h.exists_rawAt hr h.store hpe
    rw [hp.own id hside p e raw hpe hraw]
    exact hs id p e raw hpe hraw
  · exact hp.other id e he hside

/-- A sweep changes nothing just if each node has settled. -/
theorem WellFormed.atRest_iff : s.AtRest ↔ s.Settled := by
  obtain ⟨s', hok, -, -, hswept⟩ := h.swept_iterate hr 1
  obtain ⟨heard, hf, hv⟩ : ∃ heard, s.Spoken .factor s.store heard ∧
      s.Spoken .variable heard s'.store := by
    cases hswept with
    | succ hf hv hrest =>
      cases hrest
      exact ⟨_, hf, hv⟩
  have hiff : s.AtRest ↔ s'.store = s.store := by
    constructor
    · intro hrest
      have := hrest.store_eq
      rwa [hok] at this
    · intro hstore
      exact ⟨congrArg Prod.fst hok, by rw [hok]; exact hstore⟩
  rw [hiff]
  constructor
  · intro hstore
    rw [hstore] at hv
    -- What the factors say is not touched again, so they had said it before.
    have hheard : heard = s.store := by
      apply hf.fits.ext_said h.graph h.store
      intro id e he
      cases id with
      | var v => exact hf.other _ e he (by simp [NodeId.side])
      | factor f => exact (hv.other _ e he (by simp [NodeId.side])).symm
    rw [hheard] at hf hv
    rw [h.settled_iff_ports hr]
    intro id p e raw hp hraw
    cases id with
    | var v => exact (hv.own _ rfl p e raw hp hraw).symm
    | factor f => exact (hf.own _ rfl p e raw hp hraw).symm
  · intro hs
    obtain rfl := h.spoken_of_settled hr hs hf
    exact h.spoken_of_settled hr hs hv

end

section

variable {E : Type} [Energy E] {s : Solver E} (h : s.WellFormed) (hr : s.Ready) {id : NodeId}
  {port : Nat} (hp : port < (s.graph.incident id).length)

include h hr hp

theorem WellFormed.damping_eq_dampingAt :
    s.damping id port = .ok (Update.dampingAt (s.dampings id) port) := by
  obtain ⟨n, hn, hi⟩ := hr id (Graph.WellFormed.hasNode_of_mem_incident (List.getElem_mem hp))
  rw [← (h.tracks id n hn).edges_eq hi] at hp
  rw [damping_eq hn hi hp, dampings_eq hn]

/-- The coefficients in force are those that the node has chosen. -/
theorem WellFormed.unsigned_dampingAt :
    Energy.unsigned (Update.dampingAt (s.dampings id) port) =
      Energy.unsigned ((s.choiceOf id).coefficient (s.graph.incident id).length
        s.settings.damping port) := by
  obtain ⟨n, hn, hi⟩ := hr id (Graph.WellFormed.hasNode_of_mem_incident (List.getElem_mem hp))
  have ht := h.tracks id n hn
  have hforce := (ht.bound hi).damping
  rw [ht.id_eq] at hforce
  rw [dampings_eq hn, hforce, choiceOf_eq hn]
  exact n.binding.choice.unsigned_dampingAt_inForce s.settings.damping hp

end

section

variable {E : Type} [LogEnergy E] {s t : Solver E} {c : NodeId → Nat → E}

def withMessages (s : Solver E) (messages : EdgeStore E) : Solver E :=
  { s with store := messages }

def withCoefficients (s : Solver E) (c : NodeId → Nat → E) : Solver E :=
  (s.variableIds ++ s.factorIds).foldl (fun s id =>
    (s.setPortDamping id ((List.range (s.graph.incident id).length).map (c id))).2) s

structure Chosen (s t : Solver E) (c : NodeId → Nat → E) (ids : List NodeId) : Prop where
  wellFormed : t.WellFormed
  graph : t.graph = s.graph
  store : t.store = s.store
  ready : t.Ready
  choiceOf : ∀ id ∈ ids, (t.choiceOf id).portDamping =
    some ((List.range (s.graph.incident id).length).map (c id))

theorem checkAll_eq_ok {ds : List E} (h : ∀ d ∈ ds, checkDamping d = .ok ()) :
    DampingChoice.checkAll ds = .ok () := by
  induction ds with
  | nil => rfl
  | cons d ds ih =>
    rw [List.forall_mem_cons] at h
    rw [DampingChoice.checkAll, h.1]
    exact ih h.2

variable (hc : ∀ id port, checkDamping (c id port) = .ok ())

include hc

theorem Chosen.setPortDamping {ids : List NodeId} (h : s.Chosen t c ids) {id : NodeId}
    (hid : s.graph.HasNode id) : s.Chosen (t.setPortDamping id
      ((List.range (t.graph.incident id).length).map (c id))).2 c (ids ++ [id]) := by
  have hid' : t.graph.HasNode id := h.graph ▸ hid
  obtain ⟨n, hn, -⟩ := h.ready id hid'
  have hold : (t.choiceOf id).check = .ok () := by
    rw [choiceOf_eq hn]
    exact (h.wellFormed.tracks id n hn).choice
  have hcheck : (⟨(t.choiceOf id).damping,
      some ((List.range (t.graph.incident id).length).map (c id))⟩ : DampingChoice E).check =
      .ok () := by
    apply DampingChoice.checkAll_append.2
    refine ⟨(DampingChoice.checkAll_append.1 hold).1, checkAll_eq_ok fun d hd => ?_⟩
    obtain ⟨port, -, rfl⟩ := List.mem_map.1 hd
    exact hc id port
  have hre := h.wellFormed.rechosen_setPortDamping hid' rfl hcheck
  obtain ⟨hg, hst⟩ := t.frame_modifyChoice id fun choice =>
    { choice with portDamping := some ((List.range (t.graph.incident id).length).map (c id)) }
  obtain ⟨-, hkeep⟩ := h.wellFormed.modifyChoice_keeps id fun choice =>
    { choice with portDamping := some ((List.range (t.graph.incident id).length).map (c id)) }
  refine ⟨hre.wellFormed, hre.graph.trans h.graph, hst.trans h.store, ?_, ?_⟩
  · intro id' hid'
    exact hkeep id' (h.ready id' (hre.graph ▸ hid'))
  · intro id' hmem
    by_cases heq : id' = id
    · subst heq
      have hself := congrArg DampingChoice.portDamping hre.choiceOf_self
      rw [← h.graph]
      exact hself
    · have hmem : id' ∈ ids := by simpa [heq] using hmem
      have hother := congrArg DampingChoice.portDamping (hre.choiceOf_ne id' heq)
      exact hother.trans (h.choiceOf id' hmem)

/-- All nodes can choose, one after another. -/
theorem WellFormed.chosen_withCoefficients (h : s.WellFormed) (hr : s.Ready) :
    s.Chosen (s.withCoefficients c) c (s.variableIds ++ s.factorIds) := by
  have hids : ∀ id ∈ s.variableIds ++ s.factorIds, s.graph.HasNode id := by
    intro id hid
    rw [List.mem_append, or_comm, ← List.mem_append] at hid
    exact h.mem_ids.1 hid
  unfold withCoefficients
  revert hids
  generalize s.variableIds ++ s.factorIds = ids
  intro hids
  induction ids using List.reverseRecOn with
  | nil => exact ⟨h, rfl, rfl, hr, by simp⟩
  | append_singleton ids id ih =>
    rw [List.foldl_append]
    have hbefore := ih fun id' hid' => hids id' (List.mem_append_left _ hid')
    exact hbefore.setPortDamping hc (hids id (by simp))

end

variable {K : Type} [Field K] [LinearOrder K]
  {s t : Solver (Extended K)} {messages : EdgeStore (Extended K)} {c : NodeId → Nat → K}

/-- The messages in the store, and the coefficient in force on each port. -/
structure Damps (t : Solver (Extended K)) (messages : EdgeStore (Extended K))
    (c : NodeId → Nat → K) : Prop where
  store : t.store = messages
  damping : ∀ id port, port < (t.graph.incident id).length →
    t.damping id port = .ok (.finite (c id port))

theorem Chosen.damps [Extended.Exponential K] {ids : List NodeId}
    (h : s.Chosen t (fun id port => .finite (c id port)) ids)
    (hids : ∀ id, s.graph.HasNode id → id ∈ ids) : t.Damps s.store c where
  store := h.store
  damping id port hport := by
    have hmem : (t.graph.incident id)[port] ∈ t.graph.incident id := List.getElem_mem hport
    have hid := Graph.WellFormed.hasNode_of_mem_incident hmem
    have hchoice := h.choiceOf id (hids id (h.graph ▸ hid))
    have hcoefficient : (t.choiceOf id).coefficient (t.graph.incident id).length
        t.settings.damping port = .finite (c id port) := by
      unfold DampingChoice.coefficient
      rw [hchoice, Option.getD_some, ← h.graph]
      split
      · rename_i hnil
        have hlen := congrArg List.length hnil
        simp only [List.length_map, List.length_range, List.length_nil] at hlen
        omega
      · rename_i d ds hcons
        rw [← hcons]
        simp [hport]
    have hunsigned := h.wellFormed.unsigned_dampingAt h.ready hport
    rw [Extended.unsigned_eq, Extended.unsigned_eq, hcoefficient] at hunsigned
    rw [h.wellFormed.damping_eq_dampingAt h.ready hport, hunsigned]

theorem Damps.dampingAt_eq (h : t.Damps messages c) (hw : t.WellFormed) (hr : t.Ready)
    {id : NodeId} {p e : Nat} (hp : (t.graph.incident id)[p]? = some e) :
    Update.dampingAt (t.dampings id) p = .finite (c id p) := by
  have hlt := (List.getElem?_eq_some_iff.1 hp).1
  have hget := h.damping id p hlt
  rw [hw.damping_eq_dampingAt hr hlt] at hget
  exact Except.ok.inj hget

/-- Rest without the nodes: no raw message, normalized and damped, differs from the old one. -/
theorem Damps.settled_iff (h : t.Damps messages c) (hw : t.WellFormed) (hr : t.Ready) :
    t.Settled ↔ ∀ id (p e : Nat) raw, (t.graph.incident id)[p]? = some e →
      (t.graph.rawAt messages id)[p]? = some raw →
      (Message.normalize raw).1.damp (messages.said id e) (.finite (c id p)) =
        messages.said id e := by
  rw [hw.settled_iff_ports hr, h.store]
  refine forall₄_congr fun id p e raw => forall₂_congr fun hp _ => ?_
  rw [Update.settled_eq_damp, h.dampingAt_eq hw hr hp]

section

variable [IsStrictOrderedRing K] {u : Solver (Extended K)} (ht : t.WellFormed) (hrt : t.Ready)
  (hu : u.WellFormed) (hru : u.Ready) (hg : u.graph = t.graph) (hd : t.Damps messages c)
  (hz : u.Damps messages fun _ _ => 0) (hp : messages.Proper) (hx : t.graph.Admissible)
  (hc : ∀ id port, 0 ≤ c id port ∧ c id port < 1)

include ht hrt hu hru hg hd hz hp hc

omit hx in
/-- Where the new message is the old one, so is any mixture of the two. -/
theorem Damps.settled_of_undamped (hs : u.Settled) : t.Settled := by
  rw [hz.settled_iff hu hru, hg] at hs
  rw [hd.settled_iff ht hrt]
  intro id p e raw hpe hraw
  have hnew := hs id p e raw hpe hraw
  rw [← Extended.zero_eq, Message.damp_zero] at hnew
  rw [hnew]
  exact (hp.said id e).damp_self (hc id p).1 (hc id p).2

include hx

/-- A mixture with an old message of finite energies tells the new one. -/
theorem Damps.undamped_of_settled (hm : ∀ id e, (messages.said id e).Finite) (hs : t.Settled) :
    u.Settled := by
  have hfits : messages.Fits t.graph := hd.store ▸ ht.store
  rw [hd.settled_iff ht hrt] at hs
  rw [hz.settled_iff hu hru, hg]
  intro id p e raw hpe hraw
  have hmix := hs id p e raw hpe hraw
  have hproper := (ht.sends_rawAt hrt hfits hp hx hpe hraw).proper
  have hlen := ht.length_rawAt hrt hfits hpe hraw
  have hlt : e < messages.size :=
    hfits.size ▸ ht.graph.lt_of_mem_incident (List.mem_of_getElem? hpe)
  have hold : (messages.said id e).length = (Message.normalize raw).1.length := by
    rw [Message.length_normalize, hlen]
    exact (hfits.states e hlt).outgoing _
  rw [← Extended.zero_eq, Message.damp_zero]
  exact hproper.normalize.eq_of_damp_eq (hm id e) hold (hc id p).1 (hc id p).2 hmix

end

variable [IsStrictOrderedRing K] [Extended.Exponential K]

/-- Damping does not move the fixed points. Whatever the messages are, if a sweep without damping
leaves them as they are, so does a sweep with any coefficients below one, which come into force as
chosen. If all messages are finite, a sweep with damping leaves no others as they are. -/
theorem Reachable.atRest_withCoefficients (h : s.Reachable) (hx : s.graph.Exact) (hr : s.Ready)
    (hf : messages.Fits s.graph) (hp : messages.Proper)
    (hc : ∀ id port, 0 ≤ c id port ∧ c id port < 1) :
    let damped := (s.withMessages messages).withCoefficients fun id port => .finite (c id port)
    let undamped := (s.withMessages messages).withCoefficients fun _ _ => .finite 0
    damped.Damps messages c ∧ (undamped.Damps messages fun _ _ => 0) ∧
      (undamped.AtRest → damped.AtRest) ∧
      (messages.Finite → damped.AtRest → undamped.AtRest) := by
  have hw := h.wellFormed
  have hsame : s.SameNodes (s.withMessages messages) := ⟨rfl, rfl, rfl, rfl⟩
  have hstart := hsame.wellFormed hw hf
  have hready := hsame.ready hr
  have hids : ∀ id, (s.withMessages messages).graph.HasNode id →
      id ∈ (s.withMessages messages).variableIds ++ (s.withMessages messages).factorIds := by
    intro id hid
    rw [List.mem_append, or_comm, ← List.mem_append]
    exact hstart.mem_ids.2 hid
  have hdamped := hstart.chosen_withCoefficients (c := fun id port => .finite (c id port))
    (fun id port => checkDamping_finite (hc id port).1 (hc id port).2.le) hready
  have hundamped := hstart.chosen_withCoefficients (c := fun _ _ => .finite (0 : K))
    (fun _ _ => checkDamping_finite le_rfl zero_le_one) hready
  have hd := hdamped.damps hids
  have hz := hundamped.damps (c := fun _ _ => (0 : K)) hids
  have hgraph := hundamped.graph.trans hdamped.graph.symm
  refine ⟨hd, hz, ?_, ?_⟩
  · intro hrest
    rw [hundamped.wellFormed.atRest_iff hundamped.ready] at hrest
    rw [hdamped.wellFormed.atRest_iff hdamped.ready]
    exact hd.settled_of_undamped hdamped.wellFormed hdamped.ready hundamped.wellFormed
      hundamped.ready hgraph hz hp hc hrest
  · intro hm hrest
    rw [hdamped.wellFormed.atRest_iff hdamped.ready] at hrest
    rw [hundamped.wellFormed.atRest_iff hundamped.ready]
    have hadmissible : (Solver.graph _).Admissible := hdamped.graph ▸ hx.admissible
    exact hd.undamped_of_settled hdamped.wellFormed hdamped.ready hundamped.wellFormed
      hundamped.ready hgraph hz hp hadmissible hc (fun id e => hm e id.side) hrest

private def grounding : Table (Extended ℚ) := Table.assemble [2] #[⟨[0], 0⟩]

private theorem built_grounding : grounding.Built := ⟨[2], [⟨[0], 0⟩], by decide +kernel⟩

private instance exponentialOfGrounded : Extended.Exponential ℚ := ⟨id, id⟩

private def grounded : Solver (Extended ℚ) :=
  [.addVariable "x" .bit, .addVariable "y" .bit, .addTable grounding built_grounding [0],
    .addCustom .equality [0, 1], .setDamping (.var 0) (.finite (1 / 4)), .initializeAll,
    .setToVariable 2 [.finite 3, 1], .iterateParallel 3].foldl Solver.perform .empty

/-- Half a message of the variables stays and a third of those of the factors. -/
private def shares (id : NodeId) (_ : Nat) : ℚ :=
  match id with
  | .var _ => 1 / 2
  | .factor _ => 1 / 3

/-- After some sweeps all is at rest, with values that are ruled out. -/
theorem Reachable.atRest_withCoefficients_grounded : grounded.Reachable ∧ grounded.Ready ∧
    ((grounded.withMessages grounded.store).withCoefficients fun _ _ => .finite 0).AtRest ∧
    ((grounded.withMessages grounded.store).withCoefficients
      fun id port => .finite (shares id port)).AtRest := by
  have hreach : grounded.Reachable :=
    (Reachable.empty (by with_unfolding_all rfl)).foldl_perform _
  have hlist : grounded.graph.factors.toList.map (·.potential) =
      [.table ⟨0, grounding⟩, .custom .equality] := by
    with_unfolding_all rfl
  have hexact : grounded.graph.Exact := by
    apply Graph.forall_potential hlist (P := Graph.Potential.Exact)
    simp [Graph.Potential.Exact]
  have hw := hreach.wellFormed
  have hready : grounded.Ready := ready_of_forall hw.size_vars hw.size_factors
    (by decide +kernel) (by decide +kernel)
  have hshares : ∀ id port, 0 ≤ shares id port ∧ shares id port < 1 := by
    intro id port
    cases id <;> norm_num [shares]
  obtain ⟨-, -, hrest, -⟩ := hreach.atRest_withCoefficients hexact hready hw.store
    (hreach.proper hexact.admissible) hshares
  have hstart : (grounded.withMessages grounded.store).WellFormed := hw
  have hchosen := hstart.chosen_withCoefficients (c := fun _ _ => .finite 0)
    (fun _ _ => by decide +kernel) hready
  have hsettled : ((grounded.withMessages grounded.store).withCoefficients
      fun _ _ => .finite 0).Settled := by
    unfold Settled
    decide +kernel
  have hundamped := (hchosen.wellFormed.atRest_iff hchosen.ready).2 hsettled
  exact ⟨hreach, hready, hundamped, hrest hundamped⟩

end Solver

end MinSum
