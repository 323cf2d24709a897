import Mathlib.Algebra.Order.Ring.Rat
import MinSum.Proofs.Message.NormalForm
import MinSum.Proofs.Prior
import MinSum.Proofs.Table.Message

/-! Updates of all ports at once against updates of single ports. In exact energies a table and a
variable leave the same messages and report the same contradictions either way: a sum that is formed
once and gives back one term for each port is the sum that is formed for the port alone. -/
namespace MinSum

open Scratch

namespace Update

variable {E : Type} [Energy E]

/-- On every port the update does what an update of that port alone does with the old message.
Contradictory ports are reported in order, each once. -/
structure Portwise (u : Update E) (previous : List (Message E))
    (alone : Nat → Message E → PortUpdate E) : Prop where
  outputs : u.outputs = previous.mapIdx fun port old => (alone port old).output
  mem_contradictions : ∀ port, port ∈ u.contradictions ↔
    ∃ old, previous[port]? = some old ∧ (alone port old).verdict = .contradiction
  ascending : u.contradictions.Pairwise (· < ·)

/-- Ports are settled one by one, so it is enough that the raw messages agree. -/
theorem portwise_of_raw [Energy.LawfulZero E] {u : Update E} {damping : Option (List E)}
    {raw previous : List (Message E)} (ho : u.outputs = settledAll damping raw previous)
    (hc : u.contradictions = contradictory 0 raw) (hl : raw.length = previous.length)
    {rawPort : Nat → Message E → Message E}
    (hraw : ∀ port old, previous[port]? = some old → raw[port]? = some (rawPort port old))
    (pools : Nat → Pool E) : u.Portwise previous fun port old =>
      onePort (rawPort port old) old (dampingAt damping port) (pools port) where
  outputs := by
    apply List.ext_getElem?
    intro port
    rw [ho, getElem?_settledAll, List.getElem?_mapIdx]
    cases hold : previous[port]? with
    | none => cases raw[port]? <;> rfl
    | some old => simp only [hraw port old hold, settled_eq_damp, onePort_eq_damp, Option.map_some]
  mem_contradictions port := by
    rw [hc, mem_contradictory]
    constructor
    · rintro ⟨m, hm, hv⟩
      have hlt : port < previous.length := hl ▸ (List.getElem?_eq_some_iff.1 hm).1
      have hold := List.getElem?_eq_getElem hlt
      obtain rfl := Option.some.inj ((hraw port _ hold).symm.trans hm)
      exact ⟨_, hold, (onePort_verdict _ _ _ _).trans hv⟩
    · rintro ⟨old, hold, hv⟩
      exact ⟨_, hraw port old hold, (onePort_verdict _ _ _ _).symm.trans hv⟩
  ascending := hc ▸ pairwise_contradictory 0 raw

end Update

variable {K : Type} [Field K] [LinearOrder K]

namespace Table

/-- One pass over the rows gives the messages that separate passes give. -/
theorem Sound.getElem?_messages {t : Table (Extended K)} (h : t.Sound)
    {inputs : List (Message (Extended K))} (hm : ∀ m ∈ inputs, m.Proper)
    (hl : inputs.length = t.sizes.length) {port size : Nat} (hp : t.sizes[port]? = some size) :
    (t.messages inputs t.sizes)[port]? = some (t.message inputs port size) := by
  obtain ⟨m, hget, hsend⟩ := h.sends_messages hm hp hl
  have hlm : m.length = size := by
    have hlengths := congrArg (·[port]?) (t.lengths_messages inputs t.sizes)
    simpa [hget, hp] using hlengths
  have hlength : (t.message inputs port size).length = size := by simp [message]
  rw [hget, hsend.unique (h.sends_message hm hp) (hlm.trans hlength.symm)]

/-- Whatever the pools hold, the single pass leaves on every port what the update of that port
leaves, and reports what it reports. -/
theorem Built.update_portwise {t : Table (Extended K)} (ht : t.Built)
    {inputs previous : List (Message (Extended K))} (hm : ∀ m ∈ inputs, m.Proper)
    (hl : inputs.map List.length = t.sizes) (hlp : previous.map List.length = t.sizes)
    (damping : Option (List (Extended K))) (pool : Pool (Extended K))
    (pools : Nat → Pool (Extended K)) :
    (t.update inputs previous damping pool).Portwise previous fun port old =>
      t.updatePort inputs port old (Update.dampingAt damping port) (pools port) := by
  have hlen : inputs.length = t.sizes.length := by rw [← hl, List.length_map]
  have hlengths := t.lengths_messages inputs (previous.map List.length)
  obtain ⟨ho, hc⟩ := t.update_eq inputs previous damping pool
  refine Update.portwise_of_raw ho hc (by simpa using congrArg List.length hlengths) ?_ pools
  intro port old hold
  have hsize : t.sizes[port]? = some old.length := by
    rw [← hlp, List.getElem?_map, hold]
    rfl
  rw [hlp]
  exact ht.sound.getElem?_messages hm hlen hsize

private def threeWay : Table (Extended ℚ) :=
  assemble [2, 3, 2] #[⟨[0, 0, 0], 1⟩, ⟨[0, 1, 1], .finite (-2)⟩, ⟨[1, 1, 0], 0⟩,
    ⟨[1, 2, 1], .finite 3⟩]

private theorem built_threeWay : threeWay.Built :=
  ⟨[2, 3, 2], [⟨[1, 0, 0], Energy.top⟩, ⟨[0, 0, 0], 1⟩, ⟨[0, 1, 1], .finite (-2)⟩,
    ⟨[1, 1, 0], 0⟩, ⟨[0, 0, 0], 1⟩, ⟨[1, 2, 1], .finite 3⟩], by decide +kernel⟩

private def partlyBlocked : List (Message (Extended ℚ)) :=
  [[0, Energy.top], [Energy.top, .finite (1 / 2), Energy.top], [.finite 5, Energy.top]]

private def before : List (Message (Extended ℚ)) :=
  [[0, Energy.top], [1, 0, .finite (3 / 2)], [Energy.top, 0]]

/-- The coefficients lie between, at no and at full damping. -/
private def unevenly : Option (List (Extended ℚ)) := some [.finite (1 / 2), 0, 1]

private def usedPool : Pool (Extended ℚ) := ⟨1, [⟨9, [1, 1, 1]⟩], 1⟩

theorem Built.update_portwise_blocked : threeWay.Built ∧ (∀ m ∈ partlyBlocked, m.Proper) ∧
    partlyBlocked.map List.length = threeWay.sizes ∧ before.map List.length = threeWay.sizes ∧
    (threeWay.update partlyBlocked before unevenly usedPool).Portwise before fun port old =>
      threeWay.updatePort partlyBlocked port old (Update.dampingAt unevenly port) ⟨0, [], 0⟩ :=
  ⟨built_threeWay, by decide +kernel, rfl, rfl,
    built_threeWay.update_portwise (by decide +kernel) rfl rfl _ _ fun _ => ⟨0, [], 0⟩⟩

end Table

namespace Prior

/-- The prior of a value plus what the ports other than `port` receive for it. -/
def sumWithout (prior : Message (Extended K)) (incoming : List (Message (Extended K)))
    (port x : Nat) : WithTop K :=
  prior.valueAt x +
    ∑ q ∈ (Finset.range incoming.length).erase port, (incoming.getD q []).valueAt x

variable {prior : Message (Extended K)} {incoming previous : List (Message (Extended K))}

theorem Sends.valueAt_eq_sumWithout {port : Nat} {m : Message (Extended K)}
    (h : Sends prior incoming port m) (x : Nat) :
    m.valueAt x = sumWithout prior incoming port x := by
  rw [h.valueAt, sum_map_eraseIdx incoming [], sumWithout]

section

variable (hp : prior.Proper) (hm : ∀ m ∈ incoming, m.Proper)
  (hl : ∀ m ∈ incoming, m.length = prior.length) (hlen : incoming.length = previous.length)
  (hlp : ∀ m ∈ previous, m.length = prior.length)

include hp hm hl hlen hlp

/-- Taking the own message of a port out of the sum of all gives what the others add up to. -/
theorem getElem?_raw {port : Nat} (hport : port < previous.length) :
    (raw prior incoming previous)[port]? = some (belief prior (incoming.eraseIdx port)) := by
  have hlengths := lengths_raw prior hlen
  have hraw : port < (raw prior incoming previous).length := by
    have := congrArg List.length hlengths
    simp only [List.length_map] at this
    omega
  have hget := List.getElem?_eq_getElem hraw
  have hlm : (raw prior incoming previous)[port].length = prior.length := by
    have hp := congrArg (·[port]?) hlengths
    simp only [List.getElem?_map, hget, List.getElem?_eq_getElem hport, Option.map_some,
      Option.some.injEq] at hp
    rw [hp, hlp _ (List.getElem_mem hport)]
  rw [hget, (sends_raw hp hm hl hlp hget).unique (sends_belief hp hm hl port)
    (hlm.trans (length_belief prior _).symm)]

/-- Whatever accumulators and pools hold, the shared sum leaves on every port what the update of
that port leaves: the normal form of the prior plus everything received elsewhere, damped. -/
theorem update_portwise_sum {accumulators : List (LeaveOneOut (Extended K))}
    (ha : accumulators.length = prior.length) (damping : Option (List (Extended K)))
    (pool : Pool (Extended K)) (pools : Nat → Pool (Extended K)) :
    let alone := fun port old =>
      updatePort prior incoming port old (Update.dampingAt damping port) (pools port)
    (update prior incoming previous damping pool accumulators).Portwise previous alone ∧
      ∀ (port : Nat) old, previous[port]? = some old → ∃ sum,
        Message.NormalForm (sumWithout prior incoming port) prior.length sum
          (alone port old).verdict ∧
        (alone port old).output = sum.damp old (Update.dampingAt damping port) := by
  obtain ⟨ho, hc⟩ := update_eq prior hlen ha damping pool
  constructor
  · refine Update.portwise_of_raw ho hc ?_ ?_ pools
    · simpa using congrArg List.length (lengths_raw prior hlen)
    · intro port old hold
      exact getElem?_raw hp hm hl hlen hlp (List.getElem?_eq_some_iff.1 hold).1
  · intro port old hold
    have hsend := sends_belief hp hm hl port
    refine ⟨_, ?_, Update.onePort_eq_damp _ _ _ _⟩
    simp only [updatePort, Update.onePort_verdict]
    exact hsend.proper.normalForm (length_belief prior _) fun x _ =>
      hsend.valueAt_eq_sumWithout x

end

/-- The prior of a variable that is fixed to its first value. -/
private def clamped : Message (Extended ℚ) := [0, Energy.top, Energy.top]

private def heard : List (Message (Extended ℚ)) :=
  [[Energy.top, 1, 0], [.finite (1 / 2), Energy.top, 1], [.finite (1 / 3), 0, Energy.top]]

private def sent : List (Message (Extended ℚ)) :=
  [[1, 0, 0], [1, Energy.top, 0], [Energy.top, 0, .finite 4]]

private def unevenly : Option (List (Extended ℚ)) := some [.finite (1 / 2), 0, 1]

private def leftOver : List (LeaveOneOut (Extended ℚ)) := [⟨1, 3⟩, ⟨0, 0⟩, ⟨.finite 5, 7⟩]

theorem update_portwise_sum_clamped : clamped.Proper ∧ (∀ m ∈ heard, m.Proper) ∧
    (∀ m ∈ heard, m.length = clamped.length) ∧ heard.length = sent.length ∧
    (∀ m ∈ sent, m.length = clamped.length) ∧ leftOver.length = clamped.length ∧
    (update clamped heard sent unevenly ⟨1, [⟨9, [1, 1, 1]⟩], 1⟩ leftOver).Portwise sent
      (fun port old => updatePort clamped heard port old (Update.dampingAt unevenly port)
        ⟨0, [], 0⟩) ∧
    ∃ sum, Message.NormalForm (sumWithout clamped heard 0) clamped.length sum
        (updatePort clamped heard 0 [1, 0, 0] (.finite (1 / 2)) ⟨0, [], 0⟩).verdict ∧
      (updatePort clamped heard 0 [1, 0, 0] (.finite (1 / 2)) ⟨0, [], 0⟩).output =
        sum.damp [1, 0, 0] (.finite (1 / 2)) := by
  have hp : clamped.Proper := by decide +kernel
  have hm : ∀ m ∈ heard, m.Proper := by decide +kernel
  have hl : ∀ m ∈ heard, m.length = clamped.length := by decide
  have hlen : heard.length = sent.length := rfl
  have hlp : ∀ m ∈ sent, m.length = clamped.length := by decide
  have ha : leftOver.length = clamped.length := rfl
  have h := update_portwise_sum hp hm hl hlen hlp ha unevenly ⟨1, [⟨9, [1, 1, 1]⟩], 1⟩
    fun _ => ⟨0, [], 0⟩
  exact ⟨hp, hm, hl, hlen, hlp, ha, h.1, h.2 0 [1, 0, 0] rfl⟩

end Prior

end MinSum
