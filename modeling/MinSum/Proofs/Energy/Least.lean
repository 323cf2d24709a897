import Mathlib.Data.Finset.Lattice.Fold
import MinSum.Proofs.Energy.Exact
import MinSum.Table.Update

/-! The least of some energies, told by what it bounds and where it is attained. The choices it
ranges over need not be listed. -/
namespace MinSum

/-- `m` is the least cost of a choice that satisfies `p`, the greatest element if none of them
has another cost. -/
structure IsMinOver {K α : Type} [LinearOrder K] (p : α → Prop) (cost : α → WithTop K)
    (m : WithTop K) : Prop where
  le : ∀ a, p a → m ≤ cost a
  attained : m ≠ ⊤ → ∃ a, p a ∧ cost a = m

namespace IsMinOver

variable {K α β : Type} [LinearOrder K] {p : α → Prop} {cost : α → WithTop K} {m m' : WithTop K}

theorem unique (h : IsMinOver p cost m) (h' : IsMinOver p cost m') : m = m' := by
  have hle : ∀ {m m' : WithTop K}, IsMinOver p cost m → IsMinOver p cost m' → m ≤ m' := by
    intro m m' h h'
    by_cases ht : m' = ⊤
    · rw [ht]
      exact le_top
    · obtain ⟨a, ha, rfl⟩ := h'.attained ht
      exact h.le a ha
  exact le_antisymm (hle h h') (hle h' h)

theorem eq_inf {s : Finset α} (h : IsMinOver (· ∈ s) cost m) : m = s.inf cost := by
  apply le_antisymm
  · exact Finset.le_inf h.le
  · by_cases hm : m = ⊤
    · rw [hm]
      exact le_top
    · obtain ⟨a, ha, rfl⟩ := h.attained hm
      exact Finset.inf_le ha

/-- The choices may be replaced by others, as long as each cost is still bounded and met. -/
theorem transfer {q : β → Prop} {cost' : β → WithTop K} (h : IsMinOver p cost m)
    (hle : ∀ b, q b → cost' b ≠ ⊤ → ∃ a, p a ∧ cost a ≤ cost' b)
    (hmeet : ∀ a, p a → cost a ≠ ⊤ → ∃ b, q b ∧ cost' b = cost a) : IsMinOver q cost' m where
  le b hb := by
    by_cases ht : cost' b = ⊤
    · rw [ht]
      exact le_top
    · obtain ⟨a, ha, hab⟩ := hle b hb ht
      exact (h.le a ha).trans hab
  attained hm := by
    obtain ⟨a, ha, rfl⟩ := h.attained hm
    exact hmeet a ha hm

/-- If the costs move by a number, so does the least of them. -/
theorem shift [Field K] [IsStrictOrderedRing K] {cost' : α → WithTop K} (h : IsMinOver p cost m)
    (k : K) (hle : ∀ a, p a → cost a + k ≤ cost' a)
    (hmeet : ∀ a, p a → cost a ≠ ⊤ → ∃ a', p a' ∧ cost' a' = cost a + k) :
    IsMinOver p cost' (m + k) where
  le a ha := (add_le_add_left (h.le a ha) (k : WithTop K)).trans (hle a ha)
  attained hm := by
    have hne : m ≠ ⊤ := (WithTop.add_ne_top.1 hm).1
    obtain ⟨a, ha, rfl⟩ := h.attained hne
    exact hmeet a ha hne

end IsMinOver

namespace Table

variable {K α : Type} [Field K] [LinearOrder K]

theorem foldl_least_spec {cost : α → Extended K} {rows : List α}
    (hr : ∀ r ∈ rows, (cost r).Proper) {low : Extended K} (hl : low.Proper) :
    let m := rows.foldl (fun low r => if cost r < low then cost r else low) low
    m.Proper ∧ m.value ≤ low.value ∧ (∀ r ∈ rows, m.value ≤ (cost r).value) ∧
      (m = low ∨ ∃ r ∈ rows, m = cost r) := by
  induction rows generalizing low with
  | nil => exact ⟨hl, le_refl _, by simp, .inl rfl⟩
  | cons r rows ih =>
    have hrow : (cost r).Proper := hr r (by simp)
    have hrest : ∀ r ∈ rows, (cost r).Proper := fun x hx => hr x (by simp [hx])
    rw [List.foldl_cons]
    by_cases hlt : cost r < low
    · obtain ⟨hp, hle, hall, hmet⟩ := ih hrest hrow
      rw [if_pos hlt]
      have hv : (cost r).value < low.value := (hrow.lt_iff hl).1 hlt
      refine ⟨hp, hle.trans hv.le, ?_, .inr ?_⟩
      · intro x hx
        rcases List.mem_cons.1 hx with rfl | hx
        · exact hle
        · exact hall x hx
      · rcases hmet with hmet | ⟨x, hx, hmet⟩
        · exact ⟨r, by simp, hmet⟩
        · exact ⟨x, by simp [hx], hmet⟩
    · obtain ⟨hp, hle, hall, hmet⟩ := ih hrest hl
      rw [if_neg hlt]
      have hv : low.value ≤ (cost r).value := not_lt.1 fun h => hlt ((hrow.lt_iff hl).2 h)
      refine ⟨hp, hle, ?_, ?_⟩
      · intro x hx
        rcases List.mem_cons.1 hx with rfl | hx
        · exact hle.trans hv
        · exact hall x hx
      · rcases hmet with hmet | ⟨x, hx, hmet⟩
        · exact .inl hmet
        · exact .inr ⟨x, by simp [hx], hmet⟩

theorem proper_least {cost : α → Extended K} {rows : List α}
    (hr : ∀ r ∈ rows, (cost r).Proper) : (least cost rows).Proper :=
  (foldl_least_spec hr Extended.proper_top).1

theorem least_isMinOver {cost : α → Extended K} {rows : List α}
    (hr : ∀ r ∈ rows, (cost r).Proper) :
    IsMinOver (· ∈ rows) (fun r => (cost r).value) (least cost rows).value := by
  obtain ⟨-, -, hle, hmet⟩ := foldl_least_spec hr Extended.proper_top
  refine ⟨hle, fun hm => ?_⟩
  rcases hmet with hmet | ⟨r, hmem, hmet⟩
  · exact absurd (congrArg Extended.value hmet) hm
  · exact ⟨r, hmem, congrArg Extended.value hmet.symm⟩

end Table

end MinSum
