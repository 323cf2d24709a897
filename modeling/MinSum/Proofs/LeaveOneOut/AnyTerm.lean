import Mathlib.Algebra.Order.Ring.Rat
import MinSum.Proofs.LeaveOneOut

/-! Leave-one-out sums of exact numbers. In whatever order terms were added, the total is their sum,
and each of them comes out again and leaves the sum of the others, however many of them are
infinite. -/
namespace MinSum

/-- Of a value that is there twice some is left, whichever single element is taken out. -/
theorem one_lt_count_iff {α : Type} [DecidableEq α] {l : List α} {a : α} (hne : l ≠ []) :
    1 < l.count a ↔ ∀ x ∈ l, a ∈ l.erase x := by
  constructor
  · intro h x _
    rw [← List.count_pos_iff, List.count_erase]
    split <;> omega
  · intro h
    by_cases ha : a ∈ l
    · have hleft := List.count_pos_iff.2 (h a ha)
      rw [List.count_erase_self] at hleft
      omega
    · obtain ⟨x, hx⟩ := List.exists_mem_of_ne_nil l hne
      exact absurd (List.mem_of_mem_erase (h x hx)) ha

namespace LeaveOneOut

variable {K : Type} [Field K] [LinearOrder K]

namespace Sums

variable {s s' : LeaveOneOut (Extended K)} {terms : Multiset (WithTop K)}

/-- The terms tell the sum. -/
theorem unique (h : s.Sums terms) (h' : s'.Sums terms) : s = s' := by
  obtain ⟨finite, infinite⟩ := s
  obtain ⟨finite', infinite'⟩ := s'
  obtain rfl : infinite = infinite' := h.infinite.trans h'.infinite.symm
  obtain rfl : finite = finite' := h.finite.trans h'.finite.symm
  rfl

theorem total (h : s.Sums terms) : s.total.Proper ∧ s.total.value = terms.sum := by
  rw [sum_eq_ite, LeaveOneOut.total, h.infinite, h.finite]
  by_cases hc : terms.count ⊤ = 0
  · rw [if_pos hc, if_neg (by omega)]
    exact ⟨Extended.proper_finite _, rfl⟩
  · rw [if_neg hc, if_pos (by omega)]
    exact ⟨Extended.proper_top, rfl⟩

end Sums

def ofTerms (terms : List (WithTop K)) : LeaveOneOut (Extended K) :=
  (terms.map Extended.ofValue).foldl add empty

theorem sums_ofTerms (terms : List (WithTop K)) :
    (ofTerms terms).Sums (terms : Multiset (WithTop K)) := by
  have hproper : ∀ x ∈ terms.map (Extended.ofValue (K := K)), x.Proper := by
    intro x hx
    obtain ⟨y, -, rfl⟩ := List.mem_map.1 hx
    exact Extended.proper_ofValue y
  simpa [ofTerms, Function.comp_def] using Sums.empty.foldl_add hproper

/-- The order in which terms are added does not matter. -/
theorem ofTerms_perm {terms terms' : List (WithTop K)} (h : terms.Perm terms') :
    ofTerms terms = ofTerms terms' := by
  have hsums := sums_ofTerms terms
  rw [Multiset.coe_eq_coe.2 h] at hsums
  exact hsums.unique (sums_ofTerms terms')

theorem sum_eq_top_iff {terms : List (WithTop K)} : terms.sum = ⊤ ↔ ⊤ ∈ terms := by
  rw [← Multiset.sum_coe, sum_eq_ite, Multiset.coe_count, ← List.count_pos_iff]
  split
  · simp_all
  · simp only [true_iff]
    omega

theorem total_ofTerms (terms : List (WithTop K)) :
    (ofTerms terms).total = .ofValue terms.sum := by
  obtain ⟨hproper, hvalue⟩ := (sums_ofTerms terms).total
  rw [← hproper.ofValue_value, hvalue, Multiset.sum_coe]

theorem without_ofTerms {terms : List (WithTop K)} {x : WithTop K} (hx : x ∈ terms) :
    (ofTerms terms).without (.ofValue x) = .ofValue (terms.erase x).sum := by
  have hsums : (ofTerms terms).Sums
      ((Extended.ofValue x).value ::ₘ (terms.erase x : Multiset (WithTop K))) := by
    rw [Extended.value_ofValue, Multiset.cons_coe,
      ← Multiset.coe_eq_coe.2 (List.perm_cons_erase hx)]
    exact sums_ofTerms terms
  obtain ⟨hproper, hvalue⟩ := hsums.without (Extended.proper_ofValue x)
  rw [← hproper.ofValue_value, hvalue, Multiset.sum_coe]

theorem isBlocked_ofTerms_iff {terms : List (WithTop K)} (hne : terms ≠ []) :
    (ofTerms terms).isBlocked = true ↔
      ∀ x ∈ terms, (ofTerms terms).without (.ofValue x) = Energy.top := by
  have hcount : (ofTerms terms).isBlocked = true ↔ 1 < terms.count ⊤ := by
    rw [isBlocked, decide_eq_true_iff, (sums_ofTerms terms).infinite, Multiset.coe_count]
  rw [hcount, one_lt_count_iff hne]
  refine forall₂_congr fun x hx => ?_
  rw [without_ofTerms hx, Extended.ofValue_eq_top_iff, sum_eq_top_iff]

/-- The sum tells the total of the terms and what is left of it without any one of them. Its count
of infinite terms fits into 32 bits if there are fewer than `2 ^ 32` of them. -/
structure Separates (s : LeaveOneOut (Extended K)) (terms : List (WithTop K)) : Prop where
  infinite_eq : s.infinite = terms.count ⊤
  total_eq : s.total = .ofValue terms.sum
  total_eq_top_iff : s.total = Energy.top ↔ ⊤ ∈ terms
  without_eq : ∀ x ∈ terms, s.without (.ofValue x) = .ofValue (terms.erase x).sum
  without_eq_top_iff : ∀ x ∈ terms, s.without (.ofValue x) = Energy.top ↔ ⊤ ∈ terms.erase x
  isNaN_without : ∀ x ∈ terms, Energy.isNaN (s.without (.ofValue x)) = false
  isBlocked_iff : terms ≠ [] →
    (s.isBlocked = true ↔ ∀ x ∈ terms, s.without (.ofValue x) = Energy.top)

theorem separates_ofTerms (terms : List (WithTop K)) : (ofTerms terms).Separates terms where
  infinite_eq := (sums_ofTerms terms).infinite.trans (Multiset.coe_count ⊤ terms)
  total_eq := total_ofTerms terms
  total_eq_top_iff := by rw [total_ofTerms, Extended.ofValue_eq_top_iff, sum_eq_top_iff]
  without_eq _ hx := without_ofTerms hx
  without_eq_top_iff x hx := by
    rw [without_ofTerms hx, Extended.ofValue_eq_top_iff, sum_eq_top_iff]
  isNaN_without x hx := by
    rw [without_ofTerms hx]
    exact Extended.isNaN_ofValue _
  isBlocked_iff hne := isBlocked_ofTerms_iff hne

/-- Whatever terms are added to an empty sum, or to one that starts with a term, the total is their
sum, any one of them is taken out exactly, and the sum is blocked just if it stays infinite
whichever is taken out. The order of the terms does not matter. -/
theorem takes_any_term_out :
    (∀ terms : List (WithTop K), (ofTerms terms).Separates terms) ∧
    (∀ (base : WithTop K) (terms : List (WithTop K)),
      ((terms.map Extended.ofValue).foldl add (of (.ofValue base))).Separates (base :: terms)) ∧
    (∀ terms terms' : List (WithTop K), terms.Perm terms' → ofTerms terms = ofTerms terms') ∧
    ∀ (base base' : WithTop K) (terms terms' : List (WithTop K)),
      (base :: terms).Perm (base' :: terms') →
        (terms.map Extended.ofValue).foldl add (of (.ofValue base)) =
          (terms'.map Extended.ofValue).foldl add (of (.ofValue base')) :=
  ⟨separates_ofTerms, fun base terms => separates_ofTerms (base :: terms),
    fun _ _ => ofTerms_perm, fun _ _ _ _ => ofTerms_perm⟩

private def mixed : List (WithTop ℚ) := [1, ⊤, ((-1 / 2 : ℚ) : WithTop ℚ), 1]

theorem takes_any_term_out_mixed :
    (ofTerms mixed).total = Energy.top ∧ (ofTerms mixed).without Energy.top = .finite (3 / 2) ∧
    (ofTerms mixed).without (.finite 1) = Energy.top ∧ (ofTerms mixed).isBlocked = false ∧
    (((mixed.map Extended.ofValue).foldl add (of Energy.top)).isBlocked = true) ∧
    ofTerms mixed.reverse = ofTerms mixed := by
  obtain ⟨hterms, hbase, hperm, -⟩ := takes_any_term_out (K := ℚ)
  have h := hterms mixed
  have htop : (⊤ : WithTop ℚ) ∈ mixed := by decide
  have hone : (1 : WithTop ℚ) ∈ mixed := by decide
  have hrest : mixed.erase ⊤ = [1, ((-1 / 2 : ℚ) : WithTop ℚ), 1] := by decide +kernel
  have hwithout : (ofTerms mixed).without Energy.top = .finite (3 / 2) := by
    refine (h.without_eq ⊤ htop).trans ?_
    rw [hrest]
    decide +kernel
  refine ⟨h.total_eq_top_iff.2 htop, hwithout, (h.without_eq_top_iff 1 hone).2 (by decide), ?_, ?_,
    hperm _ _ mixed.reverse_perm⟩
  · rw [Bool.eq_false_iff]
    intro hblocked
    have hall := (h.isBlocked_iff (by decide)).1 hblocked ⊤ htop
    exact absurd (hall.symm.trans hwithout) (by decide)
  · refine ((hbase ⊤ mixed).isBlocked_iff (by decide)).2 fun x hx => ?_
    exact ((hbase ⊤ mixed).without_eq_top_iff x hx).2 (by revert x; decide)

end LeaveOneOut

end MinSum
