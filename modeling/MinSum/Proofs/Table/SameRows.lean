import Mathlib.Algebra.Order.Ring.Rat
import MinSum.Proofs.Table.Denotes
import MinSum.Proofs.Table.Indexed
import MinSum.Proofs.Table.Message

/-! Tables that hold the same rows. The order in which rows are given, and how often each is given,
matters neither to the construction of a table nor to what is computed from it: an energy is looked
up by its assignment, and a message is a least over rows, whichever of them comes first. -/
namespace MinSum

open Scratch

variable {E : Type}

namespace Table

structure SameRows (t t' : Table E) : Prop where
  sizes : t'.sizes = t.sizes
  mem_iff : ∀ r, r ∈ t'.rows ↔ r ∈ t.rows

section

variable [Energy E]

namespace SameRows

variable {t t' : Table E} (h : t.SameRows t') (ht : t.Sound) (ht' : t'.Sound)

include h ht ht'

theorem energyOf_eq : t'.energyOf = t.energyOf := by
  funext a
  by_cases hrow : ∃ r ∈ t.rows, r.indices = a
  · obtain ⟨r, hr, rfl⟩ := hrow
    rw [ht.energyOf_of_mem hr, ht'.energyOf_of_mem ((h.mem_iff r).2 hr)]
  · have htop : ∀ u : Table E, (∀ r, r ∈ u.rows → r ∈ t.rows) → u.energyOf a = Energy.top := by
      intro u hu
      by_contra hne
      obtain ⟨r, hr, hindices⟩ := exists_of_energyOf_ne_top hne
      exact hrow ⟨r, hu r hr, hindices⟩
    rw [htop t fun _ => id, htop t' fun r => (h.mem_iff r).1]

theorem mem_rowsHolding_iff {port v : Nat} {r : Row E} :
    r ∈ t'.rowsHolding port v ↔ r ∈ t.rowsHolding port v := by
  rw [ht.mem_rowsHolding, ht'.mem_rowsHolding, h.mem_iff]

end SameRows

variable [Energy.LawfulSign E] {sizes : List Nat} {rows rows' : List (Row E)}

/-- Lists of the same rows, zeros taken without sign, make tables of the same rows. -/
theorem exists_sameRows (hrows : ∀ r, r ∈ rows'.map Row.unsigned ↔ r ∈ rows.map Row.unsigned)
    {t : Table E} (h : ofRows sizes rows = .ok t) :
    ∃ t', ofRows sizes rows' = .ok t' ∧ t.SameRows t' := by
  obtain ⟨hne, hz, hc, rfl⟩ := ofRows_eq_ok_iff.1 h
  have hc' : Consistent sizes rows' := hc.of_unsigned fun r hr =>
    (hrows _).1 (List.mem_map_of_mem hr)
  refine ⟨_, ofRows_of_consistent hne hz hc', rfl, fun r => ?_⟩
  simp only [assemble, List.mem_toArray, mem_listed_iff, hrows r]

end

variable {K : Type} [Field K] [LinearOrder K]

/-- A least depends on which rows there are, and not on their order. -/
theorem least_congr {α : Type} {cost : α → Extended K} {rows rows' : List α}
    (hr : ∀ a ∈ rows, (cost a).Proper) (hrows : ∀ a, a ∈ rows' ↔ a ∈ rows) :
    least cost rows' = least cost rows := by
  have hr' : ∀ a ∈ rows', (cost a).Proper := fun a ha => hr a ((hrows a).1 ha)
  have hmin := least_isMinOver hr'
  rw [show (· ∈ rows') = (· ∈ rows) from funext fun a => propext (hrows a)] at hmin
  exact (proper_least hr').ext (proper_least hr) (hmin.unique (least_isMinOver hr))

namespace SameRows

variable {t t' : Table (Extended K)} (h : t.SameRows t') (ht : t.Sound) (ht' : t'.Sound)
  {inputs : List (Message (Extended K))} (hm : ∀ m ∈ inputs, m.Proper)

include h ht ht' hm

theorem message_eq (port size : Nat) : t'.message inputs port size = t.message inputs port size := by
  apply List.map_congr_left
  intro v _
  apply least_congr
  · intro r hr
    exact ht.proper_costWithout hm (ht.mem_rowsHolding.1 hr).1 port
  · exact fun r => h.mem_rowsHolding_iff ht ht'

theorem messages_eq (sizes : List Nat) : t'.messages inputs sizes = t.messages inputs sizes := by
  have hentry : ∀ port v : Nat,
      least (·.costWithout port)
          (((t'.rowsHolding port v).map (summed inputs)).filter fun s => !s.sum.isBlocked) =
        least (·.costWithout port)
          (((t.rowsHolding port v).map (summed inputs)).filter fun s => !s.sum.isBlocked) := by
    intro port v
    apply least_congr
    · intro s hs
      obtain ⟨r, hr, rfl⟩ := List.mem_map.1 (List.mem_filter.1 hs).1
      exact ht.proper_costWithout_summed hm (ht.mem_rowsHolding.1 hr).1 port
    · intro s
      simp only [List.mem_filter, List.mem_map, h.mem_rowsHolding_iff ht ht']
  simp only [messages, filterMap_summed, hentry]

end SameRows

/-- Lists with the same rows, in any order and however often repeated, are both accepted or both
rejected, for energies of any kind, zeros of either sign being the same. The tables give assignments
the same energies. In exact energies they also compute the same: updates of all ports and of one port
leave the same messages and report the same contradictions, whatever the old messages and the
damping. -/
theorem ofRows_regardless_of_order (sizes : List Nat) :
    (∀ {E : Type} [Energy E] [Energy.LawfulSign E] {rows rows' : List (Row E)},
      (∀ r, r ∈ rows'.map Row.unsigned ↔ r ∈ rows.map Row.unsigned) →
        (∀ t, ofRows sizes rows = .ok t →
          ∃ t', ofRows sizes rows' = .ok t' ∧ t'.energyOf = t.energyOf) ∧
        ∀ e, ofRows sizes rows = .error e → ∃ e', ofRows sizes rows' = .error e') ∧
    ∀ {rows rows' : List (Row (Extended K))}, (∀ r, r ∈ rows' ↔ r ∈ rows) →
      ∀ t, ofRows sizes rows = .ok t → ∃ t', ofRows sizes rows' = .ok t' ∧
        ∀ inputs : List (Message (Extended K)), (∀ m ∈ inputs, m.Proper) →
          (∀ previous damping pool,
            t'.update inputs previous damping pool = t.update inputs previous damping pool) ∧
          ∀ port previous d pool,
            t'.updatePort inputs port previous d pool = t.updatePort inputs port previous d pool := by
  constructor
  · intro E _ _ rows rows' hrows
    constructor
    · intro t h
      obtain ⟨t', h', hsame⟩ := exists_sameRows hrows h
      exact ⟨t', h', hsame.energyOf_eq (Built.sound ⟨_, _, h⟩) (Built.sound ⟨_, _, h'⟩)⟩
    · intro e h
      cases h' : ofRows sizes rows' with
      | error e' => exact ⟨e', rfl⟩
      | ok t' =>
        obtain ⟨t, h'', -⟩ := exists_sameRows (fun r => (hrows r).symm) h'
        rw [h] at h''
        contradiction
  · intro rows rows' hrows t h
    have hunsigned : ∀ r, r ∈ rows'.map Row.unsigned ↔ r ∈ rows.map Row.unsigned := by
      simp only [List.mem_map, hrows, implies_true]
    obtain ⟨t', h', hsame⟩ := exists_sameRows hunsigned h
    have ht : t.Sound := Built.sound ⟨_, _, h⟩
    have ht' : t'.Sound := Built.sound ⟨_, _, h'⟩
    refine ⟨t', h', fun inputs hm => ⟨fun previous damping pool => ?_, fun port previous d pool => ?_⟩⟩
    · simp only [update, hsame.messages_eq ht ht' hm]
    · simp only [updatePort, hsame.message_eq ht ht' hm]

private def straight : List (Row Float) := [⟨[0, 1], -0.0⟩, ⟨[1, 1], Energy.top⟩, ⟨[1, 0], 2.5⟩]

/-- The rows of `straight` backward, the zero given twice and with the other sign. -/
private def backward : List (Row Float) :=
  [⟨[1, 0], 2.5⟩, ⟨[0, 1], 0.0⟩, ⟨[1, 1], Energy.top⟩, ⟨[0, 1], 0.0⟩]

private def disputed : List (Row Float) := [⟨[0, 0], 1.0⟩, ⟨[1, 1], 0.0⟩, ⟨[0, 0], Energy.top⟩]

private def competing : List (Row (Extended ℚ)) :=
  [⟨[0, 0], 1⟩, ⟨[1, 0], .finite (-2)⟩, ⟨[1, 1], .finite (1 / 2)⟩, ⟨[0, 1], Energy.top⟩]

private def competingLate : List (Row (Extended ℚ)) :=
  [⟨[1, 1], .finite (1 / 2)⟩, ⟨[0, 1], Energy.top⟩, ⟨[1, 0], .finite (-2)⟩, ⟨[0, 0], 1⟩,
    ⟨[1, 1], .finite (1 / 2)⟩]

private def offers : List (Message (Extended ℚ)) := [[0, Energy.top], [.finite 3, .finite (1 / 2)]]

theorem ofRows_regardless_of_order_backward :
    (∀ r, r ∈ backward.map Row.unsigned ↔ r ∈ straight.map Row.unsigned) ∧
    (∃ t t', ofRows [2, 2] straight = .ok t ∧ ofRows [2, 2] backward = .ok t' ∧
      t'.energyOf = t.energyOf) ∧
    (∃ e e', ofRows [2, 2] disputed = .error e ∧ ofRows [2, 2] disputed.reverse = .error e') ∧
    (∀ r, r ∈ competingLate ↔ r ∈ competing) ∧ (∀ m ∈ offers, m.Proper) ∧
    ∃ t t', ofRows [2, 2] competing = .ok t ∧ ofRows [2, 2] competingLate = .ok t' ∧
      t'.update offers [[1, 0], [0, 0]] (some [0, .finite (1 / 3)]) ⟨0, [], 0⟩ =
        t.update offers [[1, 0], [0, 0]] (some [0, .finite (1 / 3)]) ⟨0, [], 0⟩ := by
  have hbackward : ∀ r, r ∈ backward.map Row.unsigned ↔ r ∈ straight.map Row.unsigned := by
    have hs : ∀ r ∈ backward.map Row.unsigned, r ∈ straight.map Row.unsigned := by decide +kernel
    have hs' : ∀ r ∈ straight.map Row.unsigned, r ∈ backward.map Row.unsigned := by decide +kernel
    exact fun r => ⟨hs r, hs' r⟩
  have hlate : ∀ r, r ∈ competingLate ↔ r ∈ competing := by
    have hs : ∀ r ∈ competingLate, r ∈ competing := by decide +kernel
    have hs' : ∀ r ∈ competing, r ∈ competingLate := by decide +kernel
    exact fun r => ⟨hs r, hs' r⟩
  have hm : ∀ m ∈ offers, m.Proper := by decide +kernel
  have hreverse : ∀ r, r ∈ disputed.reverse.map Row.unsigned ↔ r ∈ disputed.map Row.unsigned :=
    fun r => (disputed.reverse_perm.map Row.unsigned).mem_iff
  have hstraight : ofRows [2, 2] straight = .ok (assemble [2, 2] #[⟨[0, 1], 0⟩, ⟨[1, 0], 2.5⟩]) := by
    decide +kernel
  have hdisputed : ofRows [2, 2] disputed = .error (.ambiguous [0, 0] 1.0 Energy.top) := by
    decide +kernel
  have hcompeting : ofRows [2, 2] competing = .ok (assemble [2, 2]
      #[⟨[0, 0], 1⟩, ⟨[1, 0], .finite (-2)⟩, ⟨[1, 1], .finite (1 / 2)⟩]) := by decide +kernel
  obtain ⟨hany, hexact⟩ := ofRows_regardless_of_order (K := ℚ) [2, 2]
  obtain ⟨t, ht, henergy⟩ := (hany hbackward).1 _ hstraight
  obtain ⟨e, he⟩ := (hany hreverse).2 _ hdisputed
  obtain ⟨u, hu, hsame⟩ := hexact hlate _ hcompeting
  exact ⟨hbackward, ⟨_, t, hstraight, ht, henergy⟩, ⟨_, e, hdisputed, he⟩, hlate, hm,
    _, u, hcompeting, hu, (hsame offers hm).1 _ _ _⟩

end Table

end MinSum
