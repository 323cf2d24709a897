import Mathlib.Algebra.Order.Ring.Rat
import MinSum.Proofs.Message.NormalForm
import MinSum.Proofs.Node.Rule
import MinSum.Proofs.Table.Message

/-! Marginals of a table. An update of a port walks over the rows, and leaves the normal form of
what a minimum over the whole joint space gives: for each value the least energy of an assignment
with it, plus what the other ports receive. -/
namespace MinSum.Table

open Scratch

variable {K : Type} [Field K] [LinearOrder K]

/-- The least over all joint assignments that hold `x` at `port`: the energy of the assignment, plus
what every other port receives for its index. -/
def marginal (t : Table (Extended K)) (inputs : List (Message (Extended K))) (port x : Nat) :
    WithTop K :=
  ((tuples t.sizes).toFinset.filter fun a => a[port]? = some x).inf fun a =>
    (t.energyOf a).value +
      ∑ p ∈ (Finset.range t.portCount).erase port, (inputs.getD p []).valueAt (a.getD p 0)

variable {t : Table (Extended K)} {inputs : List (Message (Extended K))} {port : Nat}

theorem restCost_eq_sum (hi : inputs.length = t.portCount) {a : List Nat}
    (ha : a.length = t.portCount) : t.restCost inputs port a = (t.energyOf a).value +
      ∑ p ∈ (Finset.range t.portCount).erase port, (inputs.getD p []).valueAt (a.getD p 0) := by
  have hlen : (received inputs a).length = t.portCount := by
    rw [received, List.length_zipWith, ha, hi, min_self]
  rw [restCost, sum_map_eraseIdx (received inputs a) 0, hlen]
  congr 1
  apply Finset.sum_congr rfl
  intro p hmem
  have hlt : p < t.portCount := Finset.mem_range.1 (Finset.mem_of_mem_erase hmem)
  have hpa : p < a.length := ha ▸ hlt
  have hpi : p < inputs.length := hi ▸ hlt
  simp [received, Message.valueAt, hpa, hpi]

/-- Assignments that are no rows do not count, so the least is found among the rows. -/
theorem Sends.valueAt_eq_marginal (ht : t.Sound) (hi : inputs.length = t.portCount)
    {m : Message (Extended K)} (h : t.Sends inputs port m) (x : Nat) :
    m.valueAt x = t.marginal inputs port x := by
  have hlen : ∀ a ∈ tuples t.sizes, a.length = t.portCount := fun a ha =>
    (mem_tuples.1 ha).length_eq
  apply IsMinOver.eq_inf
  apply (h.isMinOver x).transfer
  · intro a ha _
    obtain ⟨hmem, hx⟩ := Finset.mem_filter.1 ha
    exact ⟨a, hx, (restCost_eq_sum hi (hlen a (List.mem_toFinset.1 hmem))).le⟩
  · intro a hx hne
    obtain ⟨r, hr, rfl⟩ := exists_of_restCost_ne_top hne
    have hmem := (ht.fits r hr).mem_tuples
    exact ⟨r.indices, Finset.mem_filter.2 ⟨List.mem_toFinset.2 hmem, hx⟩,
      (restCost_eq_sum hi (hlen _ hmem)).symm⟩

/-- A value without a row is impossible. -/
theorem marginal_eq_top {x : Nat} (hx : ∀ r ∈ t.rows, r.indices[port]? ≠ some x) :
    t.marginal inputs port x = ⊤ := by
  apply (Finset.inf_eq_top_iff _ _).2
  intro a ha
  have htop : t.energyOf a = Energy.top := by
    by_contra hne
    obtain ⟨r, hr, rfl⟩ := exists_of_energyOf_ne_top hne
    exact hx r hr (Finset.mem_filter.1 ha).2
  rw [htop, Extended.value_top, WithTop.top_add]

section

variable (hm : ∀ m ∈ inputs, m.Proper) (hl : inputs.map List.length = t.sizes) {size : Nat}
  (hp : t.sizes[port]? = some size) {previous : Message (Extended K)}
  (hlp : previous.length = size)

include hm hl hp hlp

theorem Sound.normalForm_updatePort (ht : t.Sound) (pool : Pool (Extended K)) :
    Message.NormalForm (t.marginal inputs port) size
      (t.updatePort inputs port previous 0 pool).output
      (t.updatePort inputs port previous 0 pool).verdict := by
  have hi : inputs.length = t.portCount := by rw [portCount, ← hl, List.length_map]
  have hsend := ht.sends_message hm hp
  rw [updatePort, Update.onePort_eq_damp, Update.onePort_verdict, Message.damp_zero, hlp]
  exact hsend.proper.normalForm (by simp [message]) fun x _ =>
    hsend.valueAt_eq_marginal ht hi x

/-- Without damping an update of a port leaves its marginals less the least of them, and its verdict
tells whether one of them is a number. Values that occur in no row are impossible. -/
theorem Built.updatePort_eq_marginal (ht : t.Built) (pool : Pool (Extended K)) :
    let u := t.updatePort inputs port previous 0 pool
    (u.verdict = .contradiction ∧ u.output = Message.impossible size ↔
        ∀ x < size, t.marginal inputs port x = ⊤) ∧
      ((∃ x < size, t.marginal inputs port x ≠ ⊤) → u.verdict = .possible ∧
        u.output.length = size ∧ u.output.Proper ∧
        ∃ low : K, (Finset.range size).inf (t.marginal inputs port) = low ∧
          ∀ x < size, u.output.valueAt x = t.marginal inputs port x + (-low : K)) ∧
      ∀ x < size, (∀ r ∈ t.rows, r.indices[port]? ≠ some x) → u.output[x]? = some Energy.top := by
  have hform := ht.sound.normalForm_updatePort hm hl hp hlp pool
  refine ⟨⟨fun h => hform.contradiction_iff.1 h.1, fun htop => ?_⟩, ?_, ?_⟩
  · have hv := hform.contradiction_iff.2 htop
    exact ⟨hv, hform.impossible hv⟩
  · rintro ⟨x, hx, hne⟩
    have hv := hform.possible_of_ne_top hx hne
    exact ⟨hv, hform.length, hform.proper, hform.shifted hv⟩
  · intro x hx hrow
    exact hform.getElem?_of_eq_top hx (marginal_eq_top hrow)

end

/-- Two ports of three values. One value of the first port has no row. -/
private def gapped : Table (Extended ℚ) :=
  assemble [3, 3] #[⟨[0, 0], 1⟩, ⟨[0, 1], .finite (-2)⟩, ⟨[2, 1], .finite (1 / 2)⟩,
    ⟨[2, 2], .finite 4⟩]

private theorem built_gapped : gapped.Built :=
  ⟨[3, 3], [⟨[0, 0], 1⟩, ⟨[0, 1], .finite (-2)⟩, ⟨[1, 2], Energy.top⟩, ⟨[2, 1], .finite (1 / 2)⟩,
    ⟨[2, 2], .finite 4⟩], by decide +kernel⟩

private def offered : List (Message (Extended ℚ)) :=
  [[0, 1, Energy.top], [Energy.top, .finite (1 / 2), .finite 3]]

theorem Built.updatePort_eq_marginal_gapped : gapped.Built ∧ (∀ m ∈ offered, m.Proper) ∧
    offered.map List.length = gapped.sizes ∧ gapped.sizes[0]? = some 3 ∧
    gapped.marginal offered 0 0 ≠ ⊤ ∧
    (gapped.updatePort offered 0 [1, 1, 1] 0 ⟨0, [], 0⟩).verdict = .possible ∧
    ∃ low : ℚ, (Finset.range 3).inf (gapped.marginal offered 0) = low ∧
      ∀ x < 3, (gapped.updatePort offered 0 [1, 1, 1] 0 ⟨0, [], 0⟩).output.valueAt x =
        gapped.marginal offered 0 x + (-low : ℚ) := by
  have hm : ∀ m ∈ offered, m.Proper := by decide +kernel
  have hne : gapped.marginal offered 0 0 ≠ ⊤ := by decide +kernel
  obtain ⟨-, hpossible, -⟩ := built_gapped.updatePort_eq_marginal hm rfl
    (rfl : gapped.sizes[0]? = some 3) (rfl : [1, 1, (1 : Extended ℚ)].length = 3) ⟨0, [], 0⟩
  obtain ⟨hv, -, -, hlow⟩ := hpossible ⟨0, by decide, hne⟩
  exact ⟨built_gapped, hm, rfl, rfl, hne, hv, hlow⟩

end MinSum.Table
