import Mathlib.Algebra.BigOperators.WithTop
import MinSum.Proofs.Message.Shift
import MinSum.Proofs.Table.Message

/-! Tables whose energies are all moved by one number, between ports whose messages are moved by
numbers of their own. What a port is sent moves by the sum of the numbers on the other ports and on
the table, and a belief moves by the sum of all. -/
namespace MinSum

variable {K : Type} [Field K] [LinearOrder K]

def Row.raise (k : K) (r : Row (Extended K)) : Row (Extended K) := ⟨r.indices, r.energy + .finite k⟩

theorem Row.raise_inj {k : K} {r r' : Row (Extended K)} (h : r.raise k = r'.raise k) : r = r' := by
  obtain ⟨indices, energy⟩ := r
  obtain ⟨indices', energy'⟩ := r'
  obtain ⟨hi, he⟩ := Row.mk.inj h
  exact congrArg₂ Row.mk hi (Extended.add_finite_inj.1 he)

/-- Raised rows are merged and left out like the rows themselves. -/
theorem listed_map_raise (k : K) (rows : List (Row (Extended K))) :
    listed (rows.map (Row.raise k)) = (listed rows).map (Row.raise k) := by
  have hfilter : (rows.map (Row.raise k)).filter (·.energy ≠ Energy.top) =
      (rows.filter (·.energy ≠ Energy.top)).map (Row.raise k) := by
    simp [List.filter_map, Function.comp_def, Row.raise, Extended.add_finite_eq_top_iff]
  rw [listed, listed, Row.map_unsigned, Row.map_unsigned, hfilter,
    ← distinct_map fun _ _ => Row.raise_inj, List.map_nil]

theorem Consistent.raise {sizes : List Nat} {rows : List (Row (Extended K))}
    (h : Consistent sizes rows) (k : K) : Consistent sizes (rows.map (Row.raise k)) := by
  refine ⟨fun r hr => ?_, fun r hr => ?_, fun r hr r' hr' heq => ?_⟩
  · obtain ⟨q, hq, rfl⟩ := List.mem_map.1 hr
    exact h.inRange q hq
  · obtain ⟨q, hq, rfl⟩ := List.mem_map.1 hr
    exact Extended.Proper.add (h.admissible q hq) (Extended.proper_finite k)
  · obtain ⟨q, hq, rfl⟩ := List.mem_map.1 hr
    obtain ⟨q', hq', rfl⟩ := List.mem_map.1 hr'
    have hsame := h.functional q hq q' hq' heq
    rw [Row.unsigned_eq, Row.unsigned_eq] at hsame
    rw [hsame]

namespace Table

def raise (t : Table (Extended K)) (k : K) : Table (Extended K) :=
  { t with rows := t.rows.map (Row.raise k) }

theorem mem_raise {t : Table (Extended K)} {k : K} {r : Row (Extended K)} :
    r ∈ (t.raise k).rows ↔ ∃ q ∈ t.rows, q.raise k = r := Array.mem_map

theorem ofRows_raise {sizes : List Nat} {rows : List (Row (Extended K))} {t : Table (Extended K)}
    (h : ofRows sizes rows = .ok t) (k : K) :
    ofRows sizes (rows.map (Row.raise k)) = .ok (t.raise k) := by
  obtain ⟨hne, hz, hc, rfl⟩ := ofRows_eq_ok_iff.1 h
  have hcolumn : ∀ port, column ((listed rows).map (Row.raise k)).toArray port =
      column (listed rows).toArray port := by
    intro port
    simp [column, Row.raise]
  rw [ofRows_of_consistent hne hz (hc.raise k), listed_map_raise]
  simp [assemble, raise, hcolumn]

theorem Built.raise {t : Table (Extended K)} (h : t.Built) (k : K) : (t.raise k).Built := by
  obtain ⟨sizes, rows, h⟩ := h
  exact ⟨sizes, rows.map (Row.raise k), ofRows_raise h k⟩

theorem map_value_received_shiftEach (c : Nat → K) (inputs : List (Message (Extended K)))
    (a : List Nat) : (received (Message.shiftEach c inputs) a).map Extended.value =
      ((received inputs a).map Extended.value).mapIdx fun p y => y + (c p : WithTop K) := by
  apply List.ext_getElem
  · simp [received, Message.shiftEach]
  · intro p h₁ h₂
    simp only [received, Message.shiftEach, List.getElem_map, List.getElem_zipWith,
      List.getElem_mapIdx]
    exact Message.valueAt_shift _ (c p) _

section

variable {t : Table (Extended K)} (ht : t.Built) (k : K)

include ht

theorem Built.energyOf_raise (a : List Nat) :
    (t.raise k).energyOf a = t.energyOf a + .finite k := by
  by_cases hrow : ∃ r ∈ t.rows, r.indices = a
  · obtain ⟨r, hr, rfl⟩ := hrow
    rw [ht.sound.energyOf_of_mem hr]
    exact (ht.raise k).sound.energyOf_of_mem (mem_raise.2 ⟨r, hr, rfl⟩)
  · have htop : t.energyOf a = Energy.top :=
      by_contra fun hne => hrow (exists_of_energyOf_ne_top hne)
    have htop' : (t.raise k).energyOf a = Energy.top := by
      by_contra hne
      obtain ⟨r', hr', hindices⟩ := exists_of_energyOf_ne_top hne
      obtain ⟨r, hr, rfl⟩ := mem_raise.1 hr'
      exact hrow ⟨r, hr, hindices⟩
    rw [htop, htop']
    rfl

variable {inputs : List (Message (Extended K))} (c : Nat → K)
  (hl : inputs.length = t.sizes.length)

include hl

theorem Built.restCost_raise (port : Nat) (a : List Nat) :
    (t.raise k).restCost (Message.shiftEach c inputs) port a = t.restCost inputs port a +
      ((k + ∑ p ∈ (Finset.range inputs.length).erase port, c p : K) : WithTop K) := by
  rw [restCost, restCost, ht.energyOf_raise k, Extended.value_add, Extended.value_finite]
  by_cases hrow : ∃ r ∈ t.rows, r.indices = a
  · obtain ⟨r, hr, rfl⟩ := hrow
    rw [← List.eraseIdx_map, ← List.eraseIdx_map, map_value_received_shiftEach,
      sum_eraseIdx_mapIdx_add, List.length_map, ht.sound.length_received hl hr, WithTop.coe_add,
      WithTop.coe_sum, add_add_add_comm]
  · have htop : t.energyOf a = Energy.top :=
      by_contra fun hne => hrow (exists_of_energyOf_ne_top hne)
    simp [htop]

variable [IsStrictOrderedRing K]

theorem Built.sends_raise {port : Nat} {m : Message (Extended K)} (h : t.Sends inputs port m) :
    (t.raise k).Sends (Message.shiftEach c inputs) port
      (m.shift (k + ∑ p ∈ (Finset.range inputs.length).erase port, c p)) := by
  refine ⟨h.proper.shift _, fun v => ?_⟩
  rw [Message.valueAt_shift]
  apply (h.isMinOver v).shift
  · intro a _
    exact (ht.restCost_raise k c hl port a).ge
  · intro a ha _
    exact ⟨a, ha, ht.restCost_raise k c hl port a⟩

variable (hm : ∀ m ∈ inputs, m.Proper)

include hm

theorem Built.message_raise {port size : Nat} (hp : t.sizes[port]? = some size) :
    (t.raise k).message (Message.shiftEach c inputs) port size =
      (t.message inputs port size).shift
        (k + ∑ p ∈ (Finset.range inputs.length).erase port, c p) := by
  have hsend := ht.sends_raise k c hl (ht.sound.sends_message hm hp)
  have hsend' := (ht.raise k).sound.sends_message (Message.proper_shiftEach hm c) hp
  apply hsend'.unique hsend
  simp [message, Message.length_shift]

omit [IsStrictOrderedRing K] in
theorem Built.belief_raise : (t.raise k).belief (Message.shiftEach c inputs) =
    Message.shift (t.belief inputs) (k + ∑ p ∈ Finset.range inputs.length, c p) := by
  simp only [belief, Table.raise, Message.shift, Array.toList_map, List.map_map]
  apply List.map_congr_left
  intro r hr
  have hr := Array.mem_toList_iff.1 hr
  have hfits := ht.sound.fits r hr
  have hproper := Extended.proper_foldl_add (proper_received hm r.indices) hfits.proper
  have hproper' := Extended.proper_foldl_add
    (proper_received (Message.proper_shiftEach hm c) r.indices)
    (hfits.proper.add (Extended.proper_finite k))
  apply hproper'.ext (hproper.add (Extended.proper_finite _))
  rw [Extended.value_foldl_add, map_value_received_shiftEach, sum_mapIdx_add,
    List.length_map, ht.sound.length_received hl hr, Extended.value_add, Extended.value_add,
    Extended.value_foldl_add, Extended.value_finite, Extended.value_finite, WithTop.coe_add,
    WithTop.coe_sum, add_add_add_comm]

end

end Table

end MinSum
