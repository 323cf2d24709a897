import Mathlib.Algebra.Order.Ring.Rat
import MinSum.Proofs.Table.Indexed
import MinSum.Proofs.Update.Settles

/-! Beliefs against messages. On every port an update without damping sends what is left of the
belief without the message that is received there. A belief adds up all ports plainly, and a table
keeps it row by row, so there the least row with a value counts. -/
namespace MinSum

open Scratch

variable {K : Type} [Field K] [LinearOrder K]

/-- The belief is the raw message on a port plus what the port receives. -/
theorem Prior.valueAt_belief {prior received : Message (Extended K)}
    {incoming : List (Message (Extended K))} (hl : ∀ m ∈ incoming, m.length = prior.length)
    {port : Nat} (hr : incoming[port]? = some received) (x : Nat) :
    (belief prior incoming).valueAt x =
      received.valueAt x + (belief prior (incoming.eraseIdx port)).valueAt x := by
  have hterm : (incoming.map (·.valueAt x))[port]? = some (received.valueAt x) := by
    rw [List.getElem?_map, hr, Option.map_some]
  rw [belief, belief, Message.valueAt_foldl_plus hl,
    Message.valueAt_foldl_plus fun m h => hl m (List.mem_of_mem_eraseIdx h),
    ← add_sum_eraseIdx hterm, List.eraseIdx_map, add_left_comm]

namespace Table

variable {t : Table (Extended K)} {inputs : List (Message (Extended K))}

theorem Sound.proper_belief (h : t.Sound) (hm : ∀ m ∈ inputs, m.Proper) :
    Message.Proper (t.belief inputs) := by
  intro x hx
  obtain ⟨r, hr, rfl⟩ := List.mem_map.1 hx
  exact Extended.proper_foldl_add (proper_received hm r.indices)
    (h.fits r (Array.mem_toList_iff.1 hr)).proper

variable (h : t.Sound) {port : Nat} {received : Message (Extended K)}
  (hr : inputs[port]? = some received)

include h hr

/-- The belief of a row is its cost without a port plus what the port receives. -/
theorem Sound.valueAt_belief {k : Nat} {r : Row (Extended K)} (hk : t.rows[k]? = some r) {x : Nat}
    (hx : r.indices[port]? = some x) : Message.valueAt (t.belief inputs) k =
      received.valueAt x + t.restCost inputs port r.indices := by
  have hentry : (t.belief inputs)[k]? =
      some ((Table.received inputs r.indices).foldl (· + ·) r.energy) := by
    rw [belief, List.getElem?_map, Array.getElem?_toList, hk]
    rfl
  have hterm : ((Table.received inputs r.indices).map Extended.value)[port]? =
      some (received.valueAt x) := by
    rw [List.getElem?_map, Table.received, List.getElem?_zipWith, hx, hr]
    rfl
  rw [Message.valueAt_eq, hentry, Option.map_some, Option.getD_some, Extended.value_foldl_add,
    ← add_sum_eraseIdx hterm, List.eraseIdx_map, add_left_comm, restCost,
    h.energyOf_of_mem (Array.mem_of_getElem? hk)]

/-- The least belief of a row with a value is the raw message plus what the port receives. -/
theorem Sound.inf_belief [IsStrictOrderedRing K] {m : Message (Extended K)}
    (hs : t.Sends inputs port m) (x : Nat) :
    (t.rowsAt port x).toFinset.inf (Message.valueAt (t.belief inputs)) =
      received.valueAt x + m.valueAt x := by
  have hrow : ∀ k ∈ (t.rowsAt port x).toFinset, ∃ r : Row (Extended K), r.indices[port]? = some x ∧
      Message.valueAt (t.belief inputs) k =
        received.valueAt x + t.restCost inputs port r.indices := by
    intro k hk
    obtain ⟨r, hget, hx⟩ := h.mem_rowsAt.1 (List.mem_toFinset.1 hk)
    exact ⟨r, hx, h.valueAt_belief hr hget hx⟩
  cases hv : received.valueAt x with
  | top =>
    rw [WithTop.top_add, Finset.inf_eq_top_iff]
    intro k hk
    obtain ⟨r, -, hbelief⟩ := hrow k hk
    rw [hbelief, hv, WithTop.top_add]
  | coe c =>
    rw [hv] at hrow
    symm
    apply IsMinOver.eq_inf
    have hmoved : IsMinOver (fun a : List Nat => a[port]? = some x)
        (fun a => t.restCost inputs port a + (c : WithTop K)) (m.valueAt x + (c : WithTop K)) :=
      (hs.isMinOver x).shift c (fun _ _ => le_refl _) fun a ha _ => ⟨a, ha, rfl⟩
    rw [add_comm]
    apply hmoved.transfer
    · intro k hk _
      obtain ⟨r, hx, hbelief⟩ := hrow k hk
      exact ⟨r.indices, hx, by rw [hbelief, add_comm]⟩
    · intro a ha hne
      obtain ⟨r, hmem, rfl⟩ := exists_of_restCost_ne_top (WithTop.add_ne_top.1 hne).1
      obtain ⟨k, hk⟩ := Array.mem_iff_getElem?.1 hmem
      refine ⟨k, List.mem_toFinset.2 (h.mem_rowsAt.2 ⟨r, hk, ha⟩), ?_⟩
      rw [h.valueAt_belief hr hk ha, hv, add_comm]

end Table

namespace Update

/-- What the port is sent completes what it receives: both make up the belief, apart from the
constant `c`. The port is reported just if nothing is possible there. -/
structure Completes (u : Update (Extended K)) (port : Nat) (received sent : Message (Extended K))
    (c : K) (belief : Nat → WithTop K) : Prop where
  output : u.outputs[port]? = some sent
  proper : sent.Proper
  belief_eq : ∀ x, belief x = received.valueAt x + sent.valueAt x + c
  belief_eq_top_iff : ∀ x, belief x = ⊤ ↔ received.valueAt x = ⊤ ∨ sent.valueAt x = ⊤
  mem_contradictions : port ∈ u.contradictions ↔ ∀ x, sent.valueAt x = ⊤
  belief_of_contradiction : port ∈ u.contradictions → ∀ x, belief x = ⊤

/-- Normalization takes a constant out of the raw message. -/
theorem Settles.completes {sizes : List Nat}
    {raw : Nat → Message (Extended K) → Message (Extended K)}
    {all : List (Message (Extended K)) → Option (List (Extended K)) → Pool (Extended K) →
      Update (Extended K)}
    {one : Nat → Message (Extended K) → Extended K → Pool (Extended K) → PortUpdate (Extended K)}
    (h : Settles sizes raw all one) {previous : List (Message (Extended K))}
    (hp : previous.map List.length = sizes) {damping : Option (List (Extended K))} {port : Nat}
    (hd : dampingAt damping port = 0) {old received : Message (Extended K)}
    (hold : previous[port]? = some old) (hraw : (raw port old).Proper) {belief : Nat → WithTop K}
    (hb : ∀ x, belief x = received.valueAt x + (raw port old).valueAt x)
    (pool : Pool (Extended K)) :
    ∃ sent c, Completes (all previous damping pool) port received sent c belief := by
  obtain ⟨c, hc⟩ := hraw.exists_valueAt_normalize
  have hget : (previous.mapIdx raw)[port]? = some (raw port old) := by
    rw [List.getElem?_mapIdx, hold, Option.map_some]
  have hmem : port ∈ (all previous damping pool).contradictions ↔
      ∀ x, (Message.normalize (raw port old)).1.valueAt x = ⊤ := by
    simp only [h.contradictions _ _ _ hp, mem_contradictory, hget, Option.some.injEq,
      exists_eq_left', hraw.normalize_snd_iff, hc, WithTop.add_eq_top, WithTop.coe_ne_top, or_false]
  have heq : ∀ x, belief x = received.valueAt x +
      (Message.normalize (raw port old)).1.valueAt x + (-c : K) := by
    intro x
    rw [hb, hc, add_assoc, add_assoc, ← WithTop.coe_add, add_neg_cancel, WithTop.coe_zero, add_zero]
  refine ⟨_, -c, ?_, hraw.normalize, heq, fun x => ?_, hmem, fun hcontra x => ?_⟩
  · rw [h.outputs _ _ _ hp, getElem?_settledAll, hget, hold]
    exact congrArg some (settled_of_zero hd _ _)
  · rw [heq, WithTop.add_eq_top, WithTop.add_eq_top, or_iff_left WithTop.coe_ne_top]
  · rw [heq, hmem.1 hcontra x, WithTop.add_top, WithTop.top_add]

/-- Without damping a belief is on every port what is received plus what is sent, up to a constant:
the belief of a variable at each of its values, and the least belief of the rows of a table that hold
a value. Both sides are infinite together. -/
theorem belief_eq_received_add_sent [IsStrictOrderedRing K] {inputs : List (Message (Extended K))}
    (hm : ∀ m ∈ inputs, m.Proper) {previous : List (Message (Extended K))}
    (hp : previous.map List.length = inputs.map List.length)
    {damping : Option (List (Extended K))} {port : Nat} (hd : dampingAt damping port = 0)
    {received : Message (Extended K)} (hr : inputs[port]? = some received)
    (pool : Pool (Extended K)) :
    (∀ (prior : Message (Extended K)) (accumulators : List (LeaveOneOut (Extended K))),
      prior.Proper → (∀ m ∈ inputs, m.length = prior.length) →
      accumulators.length = prior.length →
        (Prior.belief prior inputs).Proper ∧ ∃ sent c,
          Completes (Prior.update prior inputs previous damping pool accumulators) port received
            sent c (Prior.belief prior inputs).valueAt) ∧
    ∀ t : Table (Extended K), t.Built → inputs.map List.length = t.sizes →
      Message.Proper (t.belief inputs) ∧ ∃ sent c,
        Completes (t.update inputs previous damping pool) port received sent c fun x =>
          (t.rowsAt port x).toFinset.inf (Message.valueAt (t.belief inputs)) := by
  have hlen : previous.length = inputs.length := by simpa using congrArg List.length hp
  have hport : port < previous.length := hlen ▸ (List.getElem?_eq_some_iff.1 hr).1
  have hold := List.getElem?_eq_getElem hport
  constructor
  · intro prior accumulators hprior hl ha
    refine ⟨Message.proper_foldl_plus hm hprior, ?_⟩
    apply (Prior.settles hprior hm hl ha).completes hp hd hold
    · exact (Prior.sends_belief hprior hm hl port).proper
    · exact Prior.valueAt_belief hl hr
  · intro t ht hs
    have hl : inputs.length = t.sizes.length := by rw [← hs, List.length_map]
    have hsize : t.sizes[port]? = some previous[port].length := by
      rw [← hs, ← hp, List.getElem?_map, hold, Option.map_some]
    have hsend := ht.sound.sends_message hm hsize
    refine ⟨ht.sound.proper_belief hm, ?_⟩
    apply (ht.sound.settles hm hl).completes (hp.trans hs) hd hold
    · exact hsend.proper
    · exact ht.sound.inf_belief hr hsend

private def twoPorts : List (Message (Extended ℚ)) :=
  [[0, Energy.top, .finite 2], [Energy.top, .finite (1 / 2), Energy.top]]

private def replaced : List (Message (Extended ℚ)) := [[1, 1, 1], [0, Energy.top, 0]]

private def opposed : Message (Extended ℚ) := [1, Energy.top, 0]

/-- The second value of the first port and the third of the second port have no row. -/
private def holed : Table (Extended ℚ) :=
  Table.assemble [3, 3] #[⟨[0, 0], 1⟩, ⟨[0, 1], .finite (-2)⟩, ⟨[2, 1], .finite (1 / 2)⟩]

private theorem built_holed : holed.Built :=
  ⟨[3, 3], [⟨[0, 0], 1⟩, ⟨[0, 1], .finite (-2)⟩, ⟨[1, 2], Energy.top⟩, ⟨[2, 1], .finite (1 / 2)⟩],
    by decide +kernel⟩

theorem belief_eq_received_add_sent_opposed : (∀ m ∈ twoPorts, m.Proper) ∧
    replaced.map List.length = twoPorts.map List.length ∧ opposed.Proper ∧
    (∀ m ∈ twoPorts, m.length = opposed.length) ∧
    (∃ sent c, Completes (Prior.update opposed twoPorts replaced none ⟨0, [], 0⟩
      [⟨1, 0⟩, ⟨0, 2⟩, ⟨0, 0⟩]) 0 [0, Energy.top, .finite 2] sent c
      (Prior.belief opposed twoPorts).valueAt) ∧
    0 ∈ (Prior.update opposed twoPorts replaced none ⟨0, [], 0⟩
      [⟨1, 0⟩, ⟨0, 2⟩, ⟨0, 0⟩]).contradictions ∧
    holed.Built ∧ twoPorts.map List.length = holed.sizes ∧
    (∃ sent c, Completes (holed.update twoPorts replaced none ⟨0, [], 0⟩) 0
      [0, Energy.top, .finite 2] sent c fun x =>
        (holed.rowsAt 0 x).toFinset.inf (Message.valueAt (holed.belief twoPorts))) ∧
    (holed.rowsAt 0 0).toFinset.inf (Message.valueAt (holed.belief twoPorts)) =
      ((-3 / 2 : ℚ) : WithTop ℚ) := by
  have hm : ∀ m ∈ twoPorts, m.Proper := by decide +kernel
  have hp : opposed.Proper := by decide +kernel
  have hl : ∀ m ∈ twoPorts, m.length = opposed.length := by decide
  obtain ⟨hprior, htable⟩ := belief_eq_received_add_sent hm
    (rfl : replaced.map List.length = twoPorts.map List.length)
    (rfl : dampingAt none 0 = (0 : Extended ℚ)) (rfl : twoPorts[0]? = some _) ⟨0, [], 0⟩
  exact ⟨hm, rfl, hp, hl, (hprior opposed _ hp hl rfl).2, by decide +kernel, built_holed, rfl,
    (htable holed built_holed rfl).2, by decide +kernel⟩

end Update

end MinSum
