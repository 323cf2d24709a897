import Mathlib.Data.List.GetD
import MinSum.Proofs.Table.Sound

/-! Tables with their columns in another order. The rows are those of the table, each with its
indices in that order, and may be listed in any order themselves. Assignments in the new order
have the old energies. -/
namespace MinSum

def reorder (order l : List Nat) : List Nat := order.map (l.getD · 0)

section

variable {order l l' : List Nat}

theorem reorder_map (ho : order.Perm (List.range l.length)) (f : Nat → Nat) :
    reorder order (l.map f) = (reorder order l).map f := by
  rw [reorder, reorder, List.map_map]
  apply List.map_congr_left
  intro i hi
  have hlt : i < l.length := List.mem_range.1 (ho.mem_iff.1 hi)
  simp [hlt]

theorem mem_reorder (ho : order.Perm (List.range l.length)) {x : Nat} :
    x ∈ reorder order l ↔ x ∈ l := by
  rw [reorder, List.mem_map, List.mem_iff_getElem]
  constructor
  · rintro ⟨i, hi, rfl⟩
    have hlt : i < l.length := List.mem_range.1 (ho.mem_iff.1 hi)
    exact ⟨i, hlt, (List.getD_eq_getElem _ _ hlt).symm⟩
  · rintro ⟨i, hlt, rfl⟩
    exact ⟨i, ho.mem_iff.2 (List.mem_range.2 hlt), List.getD_eq_getElem _ _ hlt⟩

theorem reorder_inj (ho : order.Perm (List.range l.length)) (hl : l'.length = l.length) :
    reorder order l' = reorder order l ↔ l' = l := by
  constructor
  · intro h
    apply List.ext_getElem hl
    intro i hi hi'
    have hmem : i ∈ order := ho.mem_iff.2 (List.mem_range.2 hi')
    have hget := List.map_inj_left.1 h i hmem
    rwa [List.getD_eq_getElem _ _ hi, List.getD_eq_getElem _ _ hi'] at hget
  · rintro rfl
    rfl

end

namespace Table

variable {E : Type}

structure Permutes (t : Table E) (order : List Nat) (t' : Table E) : Prop where
  perm : order.Perm (List.range t.sizes.length)
  rows : t'.rows.toList.Perm (t.rows.toList.map fun r => ⟨reorder order r.indices, r.energy⟩)

variable [Energy E] {order : List Nat} {t t' : Table E}

/-- The rows are the same in either order. -/
theorem Permutes.mem_rows_iff (h : t.Permutes order t') (ht : t.Sound) {l : List Nat}
    (hl : l.length = t.sizes.length) {x : E} :
    (⟨reorder order l, x⟩ : Row E) ∈ t'.rows ↔ (⟨l, x⟩ : Row E) ∈ t.rows := by
  have ho : order.Perm (List.range l.length) := hl ▸ h.perm
  rw [← Array.mem_toList_iff, h.rows.mem_iff, List.mem_map]
  constructor
  · rintro ⟨⟨indices, y⟩, hr, heq⟩
    have hr := Array.mem_toList_iff.1 hr
    have hlen : indices.length = l.length := (ht.fits _ hr).length.trans hl.symm
    obtain rfl := (reorder_inj ho hlen).1 (congrArg Row.indices heq)
    obtain rfl : y = x := congrArg Row.energy heq
    exact hr
  · intro hr
    exact ⟨_, Array.mem_toList_iff.2 hr, rfl⟩

theorem Permutes.energyOf_eq (h : t.Permutes order t') (ht : t.Sound) (ht' : t'.Sound)
    {l : List Nat} (hl : l.length = t.sizes.length) :
    t'.energyOf (reorder order l) = t.energyOf l := by
  by_cases hrow : ∃ x, (⟨l, x⟩ : Row E) ∈ t.rows
  · obtain ⟨x, hr⟩ := hrow
    have hr' := (h.mem_rows_iff ht hl).2 hr
    exact (ht'.energyOf_of_mem hr').trans (ht.energyOf_of_mem hr).symm
  · have htop : t.energyOf l = Energy.top := by
      by_contra hne
      obtain ⟨r, hr, rfl⟩ := exists_of_energyOf_ne_top hne
      exact hrow ⟨r.energy, hr⟩
    rw [htop]
    by_contra hne
    obtain ⟨r, hr, hindices⟩ := exists_of_energyOf_ne_top hne
    obtain ⟨indices, x⟩ := r
    obtain rfl : indices = reorder order l := hindices
    exact hrow ⟨x, (h.mem_rows_iff ht hl).1 hr⟩

end Table

end MinSum
