import MinSum.Proofs.Message

/-! Normal forms told from given energies. Normalization leaves each energy less the least one, and
its verdict tells whether there is a least number at all. -/
namespace MinSum.Message

variable {K : Type} [Field K] [LinearOrder K]

/-- What normalization makes of the energies `raw` of the values below `size`. -/
structure NormalForm (raw : Nat → WithTop K) (size : Nat) (m : Message (Extended K))
    (verdict : Verdict) : Prop where
  length : m.length = size
  proper : m.Proper
  contradiction_iff : verdict = .contradiction ↔ ∀ x < size, raw x = ⊤
  impossible : verdict = .contradiction → m = impossible size
  shifted : verdict = .possible → ∃ low : K, (Finset.range size).inf raw = low ∧
    ∀ x < size, m.valueAt x = raw x + (-low : K)

namespace NormalForm

variable {raw : Nat → WithTop K} {size : Nat} {m : Message (Extended K)} {verdict : Verdict}
  (h : NormalForm raw size m verdict)

include h

theorem possible_of_ne_top {x : Nat} (hx : x < size) (hne : raw x ≠ ⊤) :
    verdict = .possible := by
  cases hv : verdict with
  | possible => rfl
  | contradiction => exact absurd (h.contradiction_iff.1 hv x hx) hne

/-- Under either verdict an impossible value stays so. -/
theorem getElem?_of_eq_top {x : Nat} (hx : x < size) (htop : raw x = ⊤) :
    m[x]? = some Energy.top := by
  cases hv : verdict with
  | contradiction =>
    rw [h.impossible hv, Message.impossible, List.getElem?_replicate_of_lt hx]
  | possible =>
    obtain ⟨low, -, hshift⟩ := h.shifted hv
    have hget := List.getElem?_eq_getElem (h.length ▸ hx : x < m.length)
    have hvalue := hshift x hx
    rw [htop, WithTop.top_add, valueAt_eq, hget] at hvalue
    rw [hget, (h.proper _ (List.getElem_mem _)).eq_top_iff.2 hvalue]

end NormalForm

theorem eq_impossible {m : Message (Extended K)} (hm : m.Proper) (h : ∀ x, m.valueAt x = ⊤) :
    m = impossible m.length := by
  apply List.eq_replicate_iff.2 ⟨rfl, fun y hy => ?_⟩
  obtain ⟨x, hx⟩ := List.mem_iff_getElem?.1 hy
  have htop := h x
  rw [valueAt_eq, hx] at htop
  exact (hm y hy).eq_top_iff.2 htop

section

variable {raw : Nat → WithTop K} {size : Nat} {m : Message (Extended K)} (hm : m.Proper)
  (hl : m.length = size) (hv : ∀ x < size, m.valueAt x = raw x)

include hl hv

theorem forall_valueAt_eq_top_iff : (∀ x, m.valueAt x = ⊤) ↔ ∀ x < size, raw x = ⊤ := by
  constructor
  · intro h x hx
    rw [← hv x hx, h]
  · intro h x
    rcases Nat.lt_or_ge x size with hx | hx
    · rw [hv x hx, h x hx]
    · exact valueAt_of_le (hl.trans_le hx)

include hm

theorem lowest_eq_inf : (lowest m).value = (Finset.range size).inf raw := by
  apply IsMinOver.eq_inf
  apply (isMinOver_lowest_valueAt hm).transfer
  · intro x hx _
    exact ⟨x, trivial, (hv x (Finset.mem_range.1 hx)).le⟩
  · intro x _ hne
    have hx : x < size := by
      by_contra hx
      exact hne (valueAt_of_le (hl.trans_le (Nat.le_of_not_lt hx)))
    exact ⟨x, Finset.mem_range.2 hx, (hv x hx).symm⟩

/-- A message of these energies is brought to this form. -/
theorem Proper.normalForm :
    NormalForm raw size (Message.normalize m).1 (Message.normalize m).2 where
  length := (length_normalize m).trans hl
  proper := hm.normalize
  contradiction_iff := hm.normalize_snd_iff.trans (forall_valueAt_eq_top_iff hl hv)
  impossible hc := by
    have htop := hm.normalize_snd_iff.1 hc
    rcases normalize_cases hm with ⟨he, -⟩ | ⟨low, -, hp, -, -⟩
    · rw [he, ← hl]
      exact eq_impossible hm htop
    · rw [hp] at hc
      contradiction
  shifted hp := by
    rcases normalize_cases hm with ⟨he, -⟩ | ⟨low, hlow, -, -, hshift⟩
    · rw [he] at hp
      contradiction
    · refine ⟨low, ?_, fun x hx => ?_⟩
      · rw [← lowest_eq_inf hm hl hv, hlow, Extended.value_finite]
      · rw [hshift, hv x hx]

end

end MinSum.Message
