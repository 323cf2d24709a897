import Mathlib.Algebra.Order.Ring.Rat
import MinSum.Proofs.Table.Shift
import MinSum.Proofs.Update.Settles

/-! Updates do not see constants. Numbers added to whole messages, to a prior or to all rows of a
table move each raw message by a constant, which normalization takes back out before any damping.
Only beliefs keep them. -/
namespace MinSum

open Scratch

variable {K : Type} [Field K] [LinearOrder K]

namespace Prior

variable {prior : Message (Extended K)} {incoming : List (Message (Extended K))} (k : K)
  (c : Nat → K)

theorem Sends.shift {port : Nat} {m : Message (Extended K)} (h : Sends prior incoming port m) :
    Sends (prior.shift k) (Message.shiftEach c incoming) port
      (m.shift (k + ∑ p ∈ (Finset.range incoming.length).erase port, c p)) := by
  refine ⟨h.proper.shift _, fun x => ?_⟩
  rw [Message.valueAt_shift, h.valueAt, Message.valueAt_shift, ← List.eraseIdx_map,
    ← List.eraseIdx_map, Message.map_valueAt_shiftEach, sum_eraseIdx_mapIdx_add, List.length_map,
    WithTop.coe_add, WithTop.coe_sum, add_add_add_comm]

theorem length_shiftEach (hl : ∀ m ∈ incoming, m.length = prior.length) :
    ∀ m ∈ Message.shiftEach c incoming, m.length = (prior.shift k).length := by
  rw [Message.length_shift]
  exact length_eq_of_map_eq hl (Message.lengths_shiftEach c incoming)

variable (hp : prior.Proper) (hm : ∀ m ∈ incoming, m.Proper)
  (hl : ∀ m ∈ incoming, m.length = prior.length)

include hp hm hl

theorem belief_eraseIdx_shift (port : Nat) :
    belief (prior.shift k) ((Message.shiftEach c incoming).eraseIdx port) =
      (belief prior (incoming.eraseIdx port)).shift
        (k + ∑ p ∈ (Finset.range incoming.length).erase port, c p) := by
  have hsend := sends_belief (hp.shift k) (Message.proper_shiftEach hm c)
    (length_shiftEach k c hl) port
  apply hsend.unique ((sends_belief hp hm hl port).shift k c)
  rw [length_belief, Message.length_shift, Message.length_shift, length_belief]

theorem belief_shift : belief (prior.shift k) (Message.shiftEach c incoming) =
    (belief prior incoming).shift (k + ∑ p ∈ Finset.range incoming.length, c p) := by
  have h := belief_eraseIdx_shift k c hp hm hl incoming.length
  rwa [List.eraseIdx_of_length_le (by simp [Message.shiftEach]), List.eraseIdx_of_length_le le_rfl,
    Finset.erase_eq_of_notMem (by simp)] at h

end Prior

variable [IsStrictOrderedRing K] {inputs : List (Message (Extended K))}

theorem Table.Built.sameResults_raise {t : Table (Extended K)} (ht : t.Built)
    (hm : ∀ m ∈ inputs, m.Proper) (hl : inputs.length = t.sizes.length) (k : K) (c : Nat → K) :
    Update.SameResults t.sizes (t.update inputs) ((t.raise k).update (Message.shiftEach c inputs))
      (t.updatePort inputs) ((t.raise k).updatePort (Message.shiftEach c inputs)) := by
  have hl' : (Message.shiftEach c inputs).length = (t.raise k).sizes.length := by
    rw [Message.shiftEach, List.length_mapIdx, hl, Table.raise]
  apply (ht.sound.settles hm hl).sameResults
    ((ht.raise k).sound.settles (Message.proper_shiftEach hm c) hl')
  intro port old hsize
  rw [ht.message_raise k c hl hm hsize]
  exact (ht.sound.sends_message hm hsize).proper.normalize_shift_eq _

theorem Prior.sameResults_shift {prior : Message (Extended K)} (hp : prior.Proper)
    (hm : ∀ m ∈ inputs, m.Proper) (hl : ∀ m ∈ inputs, m.length = prior.length) (k : K)
    (c : Nat → K) {accumulators accumulators' : List (LeaveOneOut (Extended K))}
    (ha : accumulators.length = prior.length) (ha' : accumulators'.length = prior.length) :
    Update.SameResults (inputs.map List.length)
      (fun previous damping pool => update prior inputs previous damping pool accumulators)
      (fun previous damping pool => update (prior.shift k) (Message.shiftEach c inputs) previous
        damping pool accumulators')
      (updatePort prior inputs) (updatePort (prior.shift k) (Message.shiftEach c inputs)) := by
  have h' := settles (hp.shift k) (Message.proper_shiftEach hm c) (length_shiftEach k c hl)
    (ha'.trans (prior.length_shift k).symm)
  rw [Message.lengths_shiftEach c inputs] at h'
  apply (settles hp hm hl ha).sameResults h'
  intro port old _
  rw [belief_eraseIdx_shift k c hp hm hl]
  exact (sends_belief hp hm hl port).proper.normalize_shift_eq _

theorem CustomFactor.sameResults_shift {size : Nat} (hm : ∀ m ∈ inputs, m.Proper)
    (hl : ∀ m ∈ inputs, m.length = size) (c : Nat → K) :
    Update.SameResults (inputs.map List.length) (equality.update inputs)
      (equality.update (Message.shiftEach c inputs)) (equality.updatePort inputs)
      (equality.updatePort (Message.shiftEach c inputs)) := by
  have hlengths := Message.lengths_shiftEach c inputs
  have hm' := Message.proper_shiftEach hm c
  have hl' := length_eq_of_map_eq hl hlengths
  have h' := settles_equality hm' hl'
  rw [hlengths] at h'
  apply (settles_equality hm hl).sameResults h'
  intro port old hsize
  have hold : old.length = size := by
    rw [List.getElem?_map, Option.map_eq_some_iff] at hsize
    obtain ⟨m, hmem, heq⟩ := hsize
    rw [← heq, hl m (List.mem_of_getElem? hmem)]
  -- The uniform prior of an equality is not moved.
  have hsend := Equality.sends_computePort hm hl hold port
  have hmoved := hsend.shift 0 c
  rw [Message.shift_zero] at hmoved
  have hsend' := Equality.sends_computePort hm' hl' hold port
  rw [hsend'.unique hmoved (by
    rw [Equality.length_computePort, Message.length_shift, Equality.length_computePort])]
  exact hsend.proper.normalize_shift_eq _

namespace Update

/-- Numbers added to the messages that are received, to each its own, and to the prior of a variable
or to all rows of a table, change no message that is sent and no report of a contradiction: not in
updates of all ports and not in those of one port, whatever the old messages, the damping and the
scratch memory. Each entry of the belief moves by the sum of all the numbers. -/
theorem shift_invariance (hm : ∀ m ∈ inputs, m.Proper) (k : K) (c : Nat → K) :
    let moved := Message.shiftEach c inputs
    let total := k + ∑ p ∈ Finset.range inputs.length, c p
    (∀ sizes rows t, Table.ofRows sizes rows = .ok t → inputs.map List.length = sizes →
      Table.ofRows sizes (rows.map (Row.raise k)) = .ok (t.raise k) ∧
      (t.raise k).belief moved = Message.shift (t.belief inputs) total ∧
      SameResults sizes (t.update inputs) ((t.raise k).update moved) (t.updatePort inputs)
        ((t.raise k).updatePort moved)) ∧
    (∀ prior : Message (Extended K), prior.Proper → (∀ m ∈ inputs, m.length = prior.length) →
      Prior.belief (prior.shift k) moved = (Prior.belief prior inputs).shift total ∧
      ∀ accumulators accumulators' : List (LeaveOneOut (Extended K)),
        accumulators.length = prior.length → accumulators'.length = prior.length →
        SameResults (inputs.map List.length)
          (fun previous damping pool =>
            Prior.update prior inputs previous damping pool accumulators)
          (fun previous damping pool =>
            Prior.update (prior.shift k) moved previous damping pool accumulators')
          (Prior.updatePort prior inputs) (Prior.updatePort (prior.shift k) moved)) ∧
    ∀ size : Nat, (∀ m ∈ inputs, m.length = size) →
      SameResults (inputs.map List.length) (CustomFactor.equality.update inputs)
        (CustomFactor.equality.update moved) (CustomFactor.equality.updatePort inputs)
        (CustomFactor.equality.updatePort moved) := by
  refine ⟨fun sizes rows t h hs => ?_, fun prior hp hl => ⟨?_, fun _ _ ha ha' => ?_⟩,
    fun size hl => ?_⟩
  · have ht : t.Built := ⟨sizes, rows, h⟩
    obtain ⟨-, -, -, heq⟩ := Table.ofRows_eq_ok_iff.1 h
    have hsizes : t.sizes = sizes := by rw [heq, Table.assemble]
    have hl : inputs.length = t.sizes.length := by rw [hsizes, ← hs, List.length_map]
    refine ⟨Table.ofRows_raise h k, ht.belief_raise k c hl hm, ?_⟩
    rw [← hsizes]
    exact ht.sameResults_raise hm hl k c
  · exact Prior.belief_shift k c hp hm hl
  · exact Prior.sameResults_shift hp hm hl k c ha ha'
  · exact CustomFactor.sameResults_shift hm hl c

private def felt : List (Message (Extended ℚ)) :=
  [[.finite 2, Energy.top], [.finite (1 / 2), .finite 3]]

private def offsets : Nat → ℚ := fun p => if p = 0 then 5 else -1 / 3

private def slopedRows : List (Row (Extended ℚ)) :=
  [⟨[0, 0], 1⟩, ⟨[0, 1], .finite (-2)⟩, ⟨[1, 1], Energy.top⟩, ⟨[1, 0], .finite (1 / 2)⟩]

private def sloped : Table (Extended ℚ) :=
  Table.assemble [2, 2] #[⟨[0, 0], 1⟩, ⟨[0, 1], .finite (-2)⟩, ⟨[1, 0], .finite (1 / 2)⟩]

private def leaning : Message (Extended ℚ) := [Energy.top, .finite (-1)]

theorem shift_invariance_sloped : (∀ m ∈ felt, m.Proper) ∧
    Message.shiftEach offsets felt =
      [[.finite 7, Energy.top], [.finite (1 / 6), .finite (8 / 3)]] ∧
    Table.ofRows [2, 2] slopedRows = .ok sloped ∧ felt.map List.length = [2, 2] ∧
    leaning.Proper ∧ (∀ m ∈ felt, m.length = leaning.length) ∧
    (sloped.raise 4).belief (Message.shiftEach offsets felt) =
      Message.shift (sloped.belief felt) (4 + ∑ p ∈ Finset.range 2, offsets p) ∧
    SameResults [2, 2] (sloped.update felt)
      ((sloped.raise 4).update (Message.shiftEach offsets felt)) (sloped.updatePort felt)
      ((sloped.raise 4).updatePort (Message.shiftEach offsets felt)) ∧
    SameResults [2, 2]
      (fun previous damping pool =>
        Prior.update leaning felt previous damping pool [⟨1, 2⟩, ⟨0, 0⟩])
      (fun previous damping pool => Prior.update (leaning.shift 4) (Message.shiftEach offsets felt)
        previous damping pool [⟨0, 0⟩, ⟨.finite 3, 0⟩])
      (Prior.updatePort leaning felt)
      (Prior.updatePort (leaning.shift 4) (Message.shiftEach offsets felt)) ∧
    SameResults [2, 2] (CustomFactor.equality.update felt)
      (CustomFactor.equality.update (Message.shiftEach offsets felt))
      (CustomFactor.equality.updatePort felt)
      (CustomFactor.equality.updatePort (Message.shiftEach offsets felt)) := by
  have hm : ∀ m ∈ felt, m.Proper := by decide +kernel
  have hrows : Table.ofRows [2, 2] slopedRows = .ok sloped := by decide +kernel
  have hp : leaning.Proper := by decide +kernel
  have hl : ∀ m ∈ felt, m.length = leaning.length := by decide
  obtain ⟨htable, hprior, hequality⟩ := shift_invariance hm 4 offsets
  obtain ⟨-, hbelief, hsame⟩ := htable [2, 2] slopedRows sloped hrows rfl
  exact ⟨hm, by decide +kernel, hrows, rfl, hp, hl, hbelief, hsame,
    (hprior leaning hp hl).2 _ _ rfl rfl, hequality 2 hl⟩

end Update

end MinSum
