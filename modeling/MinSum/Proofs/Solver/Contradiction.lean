import Mathlib.Algebra.Order.Ring.Rat
import MinSum.Proofs.Solver.Admissible
import MinSum.Proofs.Solver.Readout

/-! Contradictions that updates report. The verdict on a port is that of its message before
damping, so it is right for what the port is left with, unless damping rules out the last possible
values or brings possible ones back. -/
namespace MinSum

open Scratch

variable {K : Type} [Field K] [LinearOrder K]

namespace Message

/-- No value is possible. -/
def Hopeless {E : Type} [Energy E] (m : Message E) : Prop := ∀ x ∈ m, x = Energy.top

instance {E : Type} [Energy E] (m : Message E) : Decidable m.Hopeless :=
  inferInstanceAs (Decidable (∀ x ∈ m, x = Energy.top))

theorem Proper.hopeless_iff {m : Message (Extended K)} (h : m.Proper) :
    m.Hopeless ↔ ∀ x, m.valueAt x = ⊤ := by
  constructor
  · intro hm x
    rw [valueAt_eq]
    cases hx : m[x]? with
    | none => rfl
    | some y =>
      rw [hm y (List.mem_of_getElem? hx)]
      rfl
  · intro hm y hy
    obtain ⟨x, hx⟩ := List.mem_iff_getElem?.1 hy
    have := hm x
    rw [valueAt_eq, hx] at this
    exact (h y hy).eq_top_iff.2 this

/-- Damping by `d` makes the verdict on a raw message wrong for the mixture with the old one:
the old message stays and differs, or neither of two messages is left with a common value. -/
def Misjudged (raw old : Message (Extended K)) (d : Extended K) : Prop :=
  (d = 1 ∧ ¬ (raw.Hopeless ↔ old.Hopeless)) ∨
    (0 < d ∧ d < 1 ∧ ¬ raw.Hopeless ∧ ∀ x, raw.entry x = Energy.top ∨ old.entry x = Energy.top)

/-- A port is listed as contradictory or not, and left with a new message in place of an old
one, after the raw message was normalized and damped by `d`. -/
structure Told (listed : Prop) (raw old new : Message (Extended K)) (d : Extended K) : Prop where
  new_eq : new = (normalize raw).1.damp old d
  listed_iff : listed ↔ raw.Hopeless
  right_iff : (listed ↔ new.Hopeless) ↔ ¬ raw.Misjudged old d

section

variable [IsStrictOrderedRing K] {raw old : Message (Extended K)} (hr : raw.Proper)
  (ho : old.Proper) (hl : old.length = raw.length)

include hr ho hl

theorem right_iff_not_misjudged {d : Extended K} (hd : 0 ≤ d ∧ d ≤ 1) :
    (raw.Hopeless ↔ ((normalize raw).1.damp old d).Hopeless) ↔ ¬ raw.Misjudged old d := by
  obtain ⟨c, hc⟩ := hr.exists_valueAt_normalize
  have hnormal : ∀ x, (normalize raw).1.valueAt x = ⊤ ↔ raw.valueAt x = ⊤ := by
    intro x
    rw [hc x, WithTop.add_eq_top]
    simp
  obtain ⟨k, rfl, h₀, h₁⟩ := Extended.exists_of_unit hd
  have hone : (Extended.finite k = (1 : Extended K)) ↔ k = 1 := by
    rw [Extended.one_eq, Extended.finite.injEq]
  have hpos : (0 : Extended K) < .finite k ↔ 0 < k := Iff.rfl
  have hlt : Extended.finite k < (1 : Extended K) ↔ k < 1 := Iff.rfl
  rcases h₀.lt_or_eq with h₀ | rfl
  · rcases h₁.lt_or_eq with h₁ | rfl
    · -- Strictly between: a value stays possible if it is so in both messages.
      have hln : old.length = (normalize raw).1.length := by rw [length_normalize, hl]
      obtain ⟨hp, hv⟩ := damp_between hr.normalize ho hln h₀ h₁
      have hnew : ((normalize raw).1.damp old (.finite k)).Hopeless ↔
          ∀ x, raw.entry x = Energy.top ∨ old.entry x = Energy.top := by
        rw [hp.hopeless_iff]
        refine forall_congr' fun x => ?_
        rw [hv x, hnormal x, (hr.entry x).eq_top_iff, (ho.entry x).eq_top_iff]
        rfl
      have hmono : raw.Hopeless → ∀ x, raw.entry x = Energy.top ∨ old.entry x = Energy.top :=
        fun h x => .inl ((hr.entry x).eq_top_iff.2 (hr.hopeless_iff.1 h x))
      rw [hnew, Misjudged, hone, hpos, hlt]
      simp only [h₁.ne, h₀, h₁, false_and, false_or, true_and]
      constructor
      · intro h hm
        exact hm.1 (h.2 hm.2)
      · intro h
        refine ⟨hmono, fun htop => ?_⟩
        by_contra hn
        exact h ⟨hn, htop⟩
    · -- At full damping the old message stays.
      have hirrefl : ¬ Extended.finite (1 : K) < 1 := lt_irrefl (1 : K)
      rw [show Extended.finite (1 : K) = 1 from rfl] at hirrefl ⊢
      rw [damp_one, Misjudged]
      simp only [true_and, hirrefl, false_and, and_false, or_false, Decidable.not_not]
  · -- Without damping the raw message is only shifted.
    have hne : ¬ (0 : Extended K) = 1 := by
      rw [Extended.zero_eq, Extended.one_eq, Extended.finite.injEq]
      exact zero_ne_one
    have hirrefl : ¬ (0 : Extended K) < 0 := lt_irrefl (0 : K)
    rw [← Extended.zero_eq, damp_zero, hr.normalize.hopeless_iff, hr.hopeless_iff, Misjudged]
    simp only [hnormal, hne, hirrefl, false_and, or_false, not_false_eq_true]

end

end Message

namespace Solver

variable [IsStrictOrderedRing K] {s : Solver (Extended K)}

theorem WellFormed.told (h : s.WellFormed) (hs : s.store.Proper) {id : NodeId}
    {n : Node (Extended K)} (hn : s.nodeAt id = .ok n) (hi : n.binding.initialized = true)
    {p e : Nat} (hp : n.binding.edges[p]? = some e) {raw : Message (Extended K)}
    (hr : raw.Proper) (hl : raw.length = s.graph.edgeSize e) (L : Prop)
    (hv : L ↔ (Message.normalize raw).2 = .contradiction) :
    Message.Told L raw (s.store.said id e)
      (Update.settled n.binding.damping p raw (s.store.said id e))
      (Update.dampingAt n.binding.damping p) := by
  have ht := h.tracks id n hn
  have he := ht.lt_size hi h.graph h.store e (List.mem_of_getElem? hp)
  have hlen : (s.store.said id e).length = raw.length :=
    ((h.store.states e he).outgoing _).trans hl.symm
  have hlisted : L ↔ raw.Hopeless := by
    rw [hv, hr.normalize_snd_iff, hr.hopeless_iff]
  refine ⟨Update.settled_eq_damp _ _ _ _, hlisted, ?_⟩
  rw [hlisted, Update.settled_eq_damp]
  exact Message.right_iff_not_misjudged hr (hs.said id e) hlen
    ((ht.unitDamping hi h.damping).dampingAt p)

variable [Extended.Exponential K]

/-- An update lists the ports whose messages leave no value possible before damping, each with a
warning. It is wrong about the messages that it stores exactly where damping misleads it. -/
theorem Reachable.contradictions_iff (h : s.Reachable) (ha : s.graph.Admissible) {id : NodeId}
    {n : Node (Extended K)} (hn : s.nodeAt id = .ok n) :
    (∀ ports, (s.update id).1 = .ok ports →
      (s.update id).2.warnings = s.warnings ++ ports.map (Contradiction.mk id) ∧ ports.Nodup ∧
      (∀ port ∈ ports, port < (s.graph.incident id).length) ∧
      ∀ (port e : Nat) d, (s.graph.incident id)[port]? = some e → s.damping id port = .ok d →
        ∃ raw, (n.raw ((s.graph.incident id).map s.store.stateOf))[port]? = some raw ∧
          Message.Told (port ∈ ports) raw (s.store.said id e)
            ((s.update id).2.store.said id e) d) ∧
    ∀ port ports, (s.updatePort id port).1 = .ok ports →
      (s.updatePort id port).2.warnings = s.warnings ++ ports.map (Contradiction.mk id) ∧
      (ports = [] ∨ ports = [port]) ∧
      ∀ (e : Nat) d, (s.graph.incident id)[port]? = some e → s.damping id port = .ok d →
        Message.Told (port ∈ ports)
          (n.rawPort ((s.graph.incident id).map s.store.stateOf) port) (s.store.said id e)
          ((s.updatePort id port).2.store.said id e) d := by
  have hw := h.wellFormed
  have hproper := h.proper ha
  have ht := hw.tracks id n hn
  have hdamping : ∀ {port d}, n.binding.initialized = true → port < n.binding.edges.length →
      s.damping id port = .ok d → d = Update.dampingAt n.binding.damping port := by
    intro port d hi hlt hd
    exact Except.ok.inj (hd.symm.trans (damping_eq hn hi hlt))
  constructor
  · intro ports hports
    obtain ⟨n', hn', hi⟩ := hw.update_isOk_iff.1 ⟨ports, hports⟩
    obtain rfl : n = n' := Except.ok.inj (hn.symm.trans hn')
    obtain ⟨pool, hu⟩ := hw.update_eq hn hi
    have hedges := ht.edges_eq hi
    rw [hu] at hports ⊢
    obtain rfl := Except.ok.inj hports
    refine ⟨rfl, (Update.pairwise_contradictory _ _).imp Nat.ne_of_lt, ?_, ?_⟩
    · intro port hport
      rw [← hedges]
      exact Node.lt_of_mem_reported hport
    · intro port e d hp hd
      rw [← hedges] at hp ⊢
      obtain ⟨raw, hraw, hlen, hsend⟩ := ht.sends_raw hi hw.graph hw.store hproper ha hp
      refine ⟨raw, hraw, ?_⟩
      rw [hdamping hi (List.getElem?_eq_some_iff.1 hp).1 hd]
      have htold := hw.told hproper hn hi hp hsend.proper hlen
        (port ∈ n.reported s.store) ?_
      · rw [← ht.said_deliver hi hw.graph hw.store hp hraw] at htold
        exact htold
      · rw [Node.reported, Update.mem_contradictory]
        simp only [hraw, Option.some.injEq, exists_eq_left']
  · intro port ports hports
    obtain ⟨⟨n', hn', hi⟩, hlt⟩ := hw.updatePort_isOk_iff.1 ⟨ports, hports⟩
    obtain rfl : n = n' := Except.ok.inj (hn.symm.trans hn')
    have hedges := ht.edges_eq hi
    rw [← hedges] at hlt
    obtain ⟨pool, hu⟩ := hw.updatePort_eq hn hi hlt
    rw [hu] at hports ⊢
    obtain rfl := Except.ok.inj hports
    refine ⟨rfl, n.reportedPort_eq_nil_or port s.store, fun e d hp hd => ?_⟩
    rw [← hedges] at hp ⊢
    obtain ⟨hlen, hsend⟩ := ht.sends_rawPort hi hw.graph hw.store hproper ha hp
    rw [hdamping hi hlt hd]
    have htold := hw.told hproper hn hi hp hsend.proper hlen
      (port ∈ n.reportedPort port s.store) (Node.mem_reportedPort.trans (and_iff_right rfl))
    rw [← ht.said_deliverPort hi hw.graph hw.store hp] at htold
    exact htold

private def barren : Table (Extended ℚ) := Table.assemble [2] #[]

private def zeroOnly : Table (Extended ℚ) := Table.assemble [2] #[⟨[0], 0⟩]

private theorem built_barren : barren.Built := ⟨[2], [], by decide +kernel⟩

private theorem built_zeroOnly : zeroOnly.Built := ⟨[2], [⟨[0], 0⟩], by decide +kernel⟩

private instance : Extended.Exponential ℚ := ⟨id, id⟩

/-- Two factors at one variable. The first is fully damped, the second half and half after it had
sent that one is possible. -/
private def damped : Solver (Extended ℚ) :=
  [.addVariable "x" .bit, .addTable barren built_barren [0], .addTable zeroOnly built_zeroOnly [0],
    .setDamping (.factor 0) 1, .setDamping (.factor 1) (.finite (1 / 2)), .initializeAll,
    .setToVariable 1 [Energy.top, 0]].foldl Solver.perform .empty

private theorem reachable_damped : damped.Reachable :=
  (Reachable.empty (by with_unfolding_all rfl)).foldl_perform _

private theorem admissible_damped : damped.graph.Admissible := by
  have hlist : damped.graph.factors.toList.map (·.potential) =
      [.table ⟨0, barren⟩, .table ⟨1, zeroOnly⟩] := by
    with_unfolding_all rfl
  apply Graph.forall_potential hlist (P := fun p => ∀ c, p = .custom c → c.Admissible)
  simp

theorem Reachable.contradictions_iff_damped : damped.Reachable ∧
    (∃ raw, Message.Told (0 ∈ ([] : List Nat)) raw (damped.store.said (.factor 1) 1)
      ((damped.update (.factor 1)).2.store.said (.factor 1) 1) (.finite (1 / 2))) ∧
    ∃ n, damped.nodeAt (.factor 1) = .ok n ∧
      Message.Told (0 ∈ ([] : List Nat))
        (n.rawPort ((damped.graph.incident (.factor 1)).map damped.store.stateOf) 0)
        (damped.store.said (.factor 1) 1)
        ((damped.updatePort (.factor 1) 0).2.store.said (.factor 1) 1) (.finite (1 / 2)) := by
  obtain ⟨n, hn⟩ : ∃ n, damped.nodeAt (.factor 1) = .ok n := ⟨_, by with_unfolding_all rfl⟩
  have he : (damped.graph.incident (.factor 1))[0]? = some 1 := by decide +kernel
  have hd : damped.damping (.factor 1) 0 = .ok (.finite (1 / 2)) := by decide +kernel
  have hu : (damped.update (.factor 1)).1 = .ok [] := by decide +kernel
  have hp : (damped.updatePort (.factor 1) 0).1 = .ok [] := by decide +kernel
  obtain ⟨hall, hone⟩ := Reachable.contradictions_iff reachable_damped admissible_damped hn
  obtain ⟨-, -, -, htold⟩ := hall [] hu
  obtain ⟨raw, -, h⟩ := htold 0 1 _ he hd
  obtain ⟨-, -, hport⟩ := hone 0 [] hp
  exact ⟨reachable_damped, ⟨raw, h⟩, n, hn, hport 1 _ he hd⟩

/-- A listed port can be left with possible values, and a port without any not be listed, whether
it is updated alone or with its siblings. -/
theorem contradictions_misreported : damped.Reachable ∧
    ((damped.update (.factor 0)).1 = .ok [0] ∧
      ¬ ((damped.update (.factor 0)).2.store.said (.factor 0) 0).Hopeless) ∧
    ((damped.update (.factor 1)).1 = .ok [] ∧
      ((damped.update (.factor 1)).2.store.said (.factor 1) 1).Hopeless) ∧
    ((damped.update (.factor 0)).2.updatePort (.factor 1) 0).1 = .ok [] ∧
      (((damped.update (.factor 0)).2.updatePort (.factor 1) 0).2.store.said
        (.factor 1) 1).Hopeless := by
  refine ⟨reachable_damped, ⟨?_, ?_⟩, ⟨?_, ?_⟩, ?_, ?_⟩
  all_goals decide +kernel

end Solver

end MinSum
