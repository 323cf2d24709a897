import Mathlib.Algebra.BigOperators.Group.Finset.Basic
import Mathlib.Algebra.BigOperators.Group.Multiset.Basic
import Mathlib.Data.Multiset.Basic
import Mathlib.Data.Multiset.Count
import MinSum.Proofs.Message

/-! Sums of exact energies, taken as multisets of terms: any term comes out again exactly, also
an infinite one. -/
namespace MinSum

theorem coe_eq_cons_eraseIdx {α : Type} {l : List α} {p : Nat} {x : α} (h : l[p]? = some x) :
    (l : Multiset α) = x ::ₘ (l.eraseIdx p : Multiset α) := by
  obtain ⟨hp, rfl⟩ := List.getElem?_eq_some_iff.1 h
  exact Multiset.coe_eq_coe.2 (List.getElem_cons_eraseIdx_perm hp).symm

theorem add_sum_eraseIdx {M : Type} [AddCommMonoid M] {l : List M} {p : Nat} {x : M}
    (h : l[p]? = some x) : x + (l.eraseIdx p).sum = l.sum := by
  obtain ⟨hp, rfl⟩ := List.getElem?_eq_some_iff.1 h
  exact List.CommMonoid.add_sum_eraseIdx hp

theorem sum_eraseIdx {M : Type} [AddCommMonoid M] {l : List Nat} (hd : l.Nodup) {p e : Nat}
    (hp : l[p]? = some e) (f : Nat → M) :
    ((l.eraseIdx p).map f).sum = ∑ x ∈ l.toFinset.erase e, f x := by
  obtain ⟨hlt, rfl⟩ := List.getElem?_eq_some_iff.1 hp
  rw [← List.sum_toFinset f (hd.sublist (List.eraseIdx_sublist l p))]
  refine Finset.sum_congr ?_ fun _ _ => rfl
  ext x
  rw [List.mem_toFinset, Finset.mem_erase, List.mem_toFinset, ← hd.erase_getElem p hlt,
    hd.mem_erase_iff]

theorem sum_map_eraseIdx {α M : Type} [AddCommMonoid M] (l : List α) (d : α) (p : Nat)
    (f : α → M) :
    ((l.eraseIdx p).map f).sum = ∑ i ∈ (Finset.range l.length).erase p, f (l.getD i d) := by
  have hl : l = (List.range l.length).map (l.getD · d) := by
    apply List.ext_getElem
    · simp
    · intro i h₁ h₂
      simp [h₁]
  have hset : (List.range l.length).toFinset = Finset.range l.length := by
    ext i
    simp
  conv_lhs => rw [hl]
  rw [List.eraseIdx_map, List.map_map]
  rcases Nat.lt_or_ge p l.length with hp | hp
  · have hrange : (List.range l.length)[p]? = some p := by simp [hp]
    rw [sum_eraseIdx List.nodup_range hrange, hset]
    rfl
  · rw [List.eraseIdx_of_length_le (by simpa using hp),
      Finset.erase_eq_of_notMem (by simpa using hp), ← hset,
      List.sum_toFinset _ List.nodup_range]
    rfl

/-- If every term is moved, such a sum moves by what its own terms move. -/
theorem sum_eraseIdx_mapIdx_add {M : Type} [AddCommMonoid M] (l : List M) (c : Nat → M) (p : Nat) :
    ((l.mapIdx fun i x => x + c i).eraseIdx p).sum =
      (l.eraseIdx p).sum + ∑ i ∈ (Finset.range l.length).erase p, c i := by
  have hsum : ∀ l : List M,
      (l.eraseIdx p).sum = ∑ i ∈ (Finset.range l.length).erase p, l.getD i 0 := by
    intro l
    simpa using sum_map_eraseIdx l 0 p id
  rw [hsum, hsum, List.length_mapIdx, ← Finset.sum_add_distrib]
  apply Finset.sum_congr rfl
  intro i hi
  have hlt : i < l.length := Finset.mem_range.1 (Finset.mem_of_mem_erase hi)
  simp [hlt]

theorem sum_mapIdx_add {M : Type} [AddCommMonoid M] (l : List M) (c : Nat → M) :
    (l.mapIdx fun i x => x + c i).sum = l.sum + ∑ i ∈ Finset.range l.length, c i := by
  have h := sum_eraseIdx_mapIdx_add l c l.length
  rwa [List.eraseIdx_of_length_le (by simp), List.eraseIdx_of_length_le le_rfl,
    Finset.erase_eq_of_notMem (by simp)] at h

namespace LeaveOneOut

variable {K : Type} [Field K] [LinearOrder K]

structure Sums (s : LeaveOneOut (Extended K)) (terms : Multiset (WithTop K)) : Prop where
  infinite : s.infinite = terms.count ⊤
  finite : s.finite = .finite (terms.map (WithTop.untopD 0)).sum

omit [LinearOrder K] in
theorem sum_eq_ite [DecidableEq (WithTop K)] (terms : Multiset (WithTop K)) :
    terms.sum =
      if terms.count ⊤ = 0 then (((terms.map (WithTop.untopD 0)).sum : K) : WithTop K) else ⊤ := by
  induction terms using Multiset.induction with
  | empty => simp
  | cons x terms ih =>
    rw [Multiset.sum_cons, ih]
    cases x with
    | top => simp
    | coe k =>
      rw [Multiset.count_cons_of_ne WithTop.top_ne_coe]
      split
      · simp
      · simp

namespace Sums

variable {s : LeaveOneOut (Extended K)} {terms : Multiset (WithTop K)} {x : Extended K}

theorem empty : (LeaveOneOut.empty : LeaveOneOut (Extended K)).Sums 0 := ⟨rfl, rfl⟩

theorem add (h : s.Sums terms) (hx : x.Proper) : (s.add x).Sums (x.value ::ₘ terms) := by
  obtain ⟨hi, hf⟩ := h
  rcases Extended.proper_iff.1 hx with rfl | ⟨k, rfl⟩
  · constructor
    · simp [LeaveOneOut.add, hi]
    · simp [LeaveOneOut.add, hf]
  · have hne : ¬ (Extended.finite k = (Energy.top : Extended K)) := by simp [Extended.top_eq]
    constructor
    · rw [LeaveOneOut.add, if_neg hne, Extended.value_finite,
        Multiset.count_cons_of_ne WithTop.top_ne_coe]
      exact hi
    · rw [LeaveOneOut.add, if_neg hne]
      simp only [hf, Extended.value_finite, Multiset.map_cons, WithTop.untopD_coe,
        Multiset.sum_cons]
      rw [add_comm k]
      rfl

theorem of (hx : x.Proper) : (LeaveOneOut.of x).Sums {x.value} := empty.add hx

theorem cons_zero (h : s.Sums terms) : s.Sums (0 ::ₘ terms) := by
  obtain ⟨hi, hf⟩ := h
  constructor
  · rw [hi, Multiset.count_cons_of_ne WithTop.top_ne_zero]
  · rw [hf, Multiset.map_cons, Multiset.sum_cons, WithTop.untopD_zero, zero_add]

/-- Every term can be taken out again. -/
theorem without (h : s.Sums (x.value ::ₘ terms)) (hx : x.Proper) :
    (s.without x).Proper ∧ (s.without x).value = terms.sum := by
  obtain ⟨hi, hf⟩ := h
  rw [sum_eq_ite]
  rcases Extended.proper_iff.1 hx with rfl | ⟨k, rfl⟩
  · simp only [Extended.value_top, Multiset.count_cons_self, Multiset.map_cons,
      WithTop.untopD_top, Multiset.sum_cons, zero_add] at hi hf
    rw [LeaveOneOut.without, if_pos rfl, hi, hf]
    by_cases hc : terms.count ⊤ = 0
    · rw [if_pos hc, if_neg (by omega)]
      exact ⟨Extended.proper_finite _, rfl⟩
    · rw [if_neg hc, if_pos (by omega)]
      exact ⟨Extended.proper_top, rfl⟩
  · have hne : ¬ (Extended.finite k = (Energy.top : Extended K)) := by simp [Extended.top_eq]
    simp only [Extended.value_finite, Multiset.count_cons_of_ne WithTop.top_ne_coe,
      Multiset.map_cons, WithTop.untopD_coe, Multiset.sum_cons] at hi hf
    rw [LeaveOneOut.without, if_neg hne, hi, hf]
    by_cases hc : terms.count ⊤ = 0
    · rw [if_pos hc, if_neg (by omega)]
      refine ⟨(Extended.proper_finite _).sub_finite k, ?_⟩
      rw [Extended.value_sub_finite, Extended.value_finite, ← WithTop.coe_add,
        add_neg_cancel_comm]
    · rw [if_neg hc, if_pos (by omega)]
      exact ⟨Extended.proper_top, rfl⟩

/-- Whatever is taken out, what remains is admissible. -/
theorem proper_without (h : s.Sums terms) (hx : x.Proper) : (s.without x).Proper := by
  rw [LeaveOneOut.without, h.finite]
  rcases Extended.proper_iff.1 hx with rfl | ⟨k, rfl⟩
  · rw [if_pos rfl]
    split
    · exact Extended.proper_top
    · exact Extended.proper_finite _
  · rw [if_neg (by simp [Extended.top_eq])]
    split
    · exact Extended.proper_top
    · exact (Extended.proper_finite _).sub_finite k

theorem foldl_add {xs : List (Extended K)} (h : s.Sums terms) (hx : ∀ x ∈ xs, x.Proper) :
    (xs.foldl LeaveOneOut.add s).Sums (terms + (xs.map Extended.value : List (WithTop K))) := by
  induction xs generalizing s terms with
  | nil => simpa using h
  | cons x xs ih =>
    have := ih (h.add (hx x (by simp))) fun y hy => hx y (by simp [hy])
    rw [List.foldl_cons, List.map_cons, ← Multiset.cons_coe, Multiset.add_cons,
      ← Multiset.cons_add]
    exact this

end Sums

end LeaveOneOut

end MinSum
