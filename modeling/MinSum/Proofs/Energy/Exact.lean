import Mathlib.Algebra.Order.Field.Basic
import Mathlib.Algebra.Order.Monoid.WithTop
import MinSum.Proofs.Energy.Zero

/-! Exact energies as numbers with a greatest element. The admissible ones are just these, and
their sums, differences and comparisons are the usual ones. -/
namespace MinSum.Extended

variable {K : Type}

/-- The number that an energy stands for; what is not a number counts as impossible. -/
def value : Extended K → WithTop K
  | finite x => x
  | _ => ⊤

@[simp] theorem value_finite (x : K) : value (finite x) = x := rfl

theorem value_eq_coe {x : Extended K} {k : K} : x.value = k ↔ x = finite k := by
  cases x <;> simp [value]

def ofValue (x : WithTop K) : Extended K := WithTop.recTopCoe top finite x

@[simp] theorem value_ofValue (x : WithTop K) : (ofValue x).value = x := by
  cases x <;> rfl

variable [Field K] [LinearOrder K]

theorem top_eq : (Energy.top : Extended K) = top := rfl

theorem bot_eq : (Energy.bot : Extended K) = bot := rfl

@[simp] theorem value_top : value (Energy.top : Extended K) = ⊤ := rfl

@[simp] theorem value_zero : value (0 : Extended K) = 0 := rfl

theorem zero_eq : (0 : Extended K) = finite 0 := rfl

theorem one_eq : (1 : Extended K) = finite 1 := rfl

theorem isZero_iff {x : Extended K} : Energy.isZero x = true ↔ x = 0 := by
  change isZero x = true ↔ x = finite 0
  cases x <;> simp [isZero]

theorem unsigned_eq (x : Extended K) : Energy.unsigned x = x := by
  unfold Energy.unsigned
  split
  · rename_i hz
    exact (isZero_iff.1 hz).symm
  · rfl

/-- Sums carry over to values without a condition. -/
theorem value_add (x y : Extended K) : (x + y).value = x.value + y.value := by
  change (Extended.add x y).value = _
  cases x <;> cases y <;> simp [Extended.add, value]

theorem value_sub_finite (x : Extended K) (k : K) :
    (x - finite k).value = x.value + (-k : K) := by
  change (Extended.sub x (finite k)).value = _
  cases x with
  | finite y =>
    simp only [Extended.sub, value, sub_eq_add_neg]
    rfl
  | top => rfl
  | bot => rfl
  | nan => rfl

/-- Sums with one number are told apart by the other terms. -/
theorem add_finite_inj {x y : Extended K} {k : K} : x + finite k = y + finite k ↔ x = y := by
  change Extended.add x (finite k) = Extended.add y (finite k) ↔ x = y
  cases x <;> cases y <;> simp [Extended.add]

theorem add_finite_eq_top_iff {x : Extended K} {k : K} :
    x + finite k = Energy.top ↔ x = Energy.top := by
  change Extended.add x (finite k) = top ↔ x = top
  cases x <;> simp [Extended.add]

def Proper (x : Extended K) : Prop := Energy.isAdmissible x = true

instance (x : Extended K) : Decidable x.Proper :=
  inferInstanceAs (Decidable (Energy.isAdmissible x = true))

theorem proper_iff {x : Extended K} : x.Proper ↔ x = Energy.top ∨ ∃ k, x = finite k := by
  change (!isNaN x && decide (x ≠ Energy.bot)) = true ↔ _
  rw [bot_eq, top_eq]
  cases x <;> simp [isNaN]

theorem proper_finite (k : K) : (finite k).Proper := rfl

theorem proper_top : (Energy.top : Extended K).Proper := rfl

theorem proper_zero : (0 : Extended K).Proper := rfl

theorem proper_ofValue (x : WithTop K) : (ofValue x).Proper := by
  cases x <;> rfl

theorem isNaN_ofValue (x : WithTop K) : Energy.isNaN (ofValue x) = false := by
  cases x <;> rfl

theorem ofValue_eq_top_iff {x : WithTop K} : ofValue x = Energy.top ↔ x = ⊤ := by
  cases x <;> simp [ofValue, top_eq]

namespace Proper

variable {x y : Extended K}

theorem eq_top_iff (hx : x.Proper) : x = Energy.top ↔ x.value = ⊤ := by
  rcases proper_iff.1 hx with rfl | ⟨k, rfl⟩
  · simp
  · simp [top_eq]

theorem ext (hx : x.Proper) (hy : y.Proper) (h : x.value = y.value) : x = y := by
  rcases proper_iff.1 hx with rfl | ⟨k, rfl⟩
  · exact ((hy.eq_top_iff).2 (h.symm.trans value_top)).symm
  · exact (value_eq_coe.1 h.symm).symm

theorem ofValue_value (hx : x.Proper) : ofValue x.value = x :=
  (proper_ofValue x.value).ext hx (value_ofValue x.value)

theorem add (hx : x.Proper) (hy : y.Proper) : (x + y).Proper := by
  rcases proper_iff.1 hx with rfl | ⟨a, rfl⟩ <;> rcases proper_iff.1 hy with rfl | ⟨b, rfl⟩ <;> rfl

theorem sub_finite (hx : x.Proper) (k : K) : (x - finite k).Proper := by
  rcases proper_iff.1 hx with rfl | ⟨a, rfl⟩ <;> rfl

theorem mul_finite {d : K} (hd : 0 < d) (hx : x.Proper) :
    (finite d * x).Proper ∧ ((finite d * x).value = ⊤ ↔ x.value = ⊤) := by
  rcases proper_iff.1 hx with rfl | ⟨k, rfl⟩
  · have he : finite d * (Energy.top : Extended K) = Energy.top := if_pos hd
    rw [he]
    exact ⟨proper_top, Iff.rfl⟩
  · have he : finite d * finite k = finite (d * k) := rfl
    rw [he]
    exact ⟨proper_finite _, iff_of_false WithTop.coe_ne_top WithTop.coe_ne_top⟩

theorem lt_iff (hx : x.Proper) (hy : y.Proper) : x < y ↔ x.value < y.value := by
  change Extended.lt x y ↔ _
  rcases proper_iff.1 hx with rfl | ⟨a, rfl⟩ <;> rcases proper_iff.1 hy with rfl | ⟨b, rfl⟩
  · exact ⟨False.elim, fun h => absurd h (lt_irrefl _)⟩
  · exact ⟨False.elim, fun h => absurd h not_top_lt⟩
  · exact ⟨fun _ => WithTop.coe_lt_top a, fun _ => trivial⟩
  · exact WithTop.coe_lt_coe.symm

end Proper

theorem exists_of_unit {d : Extended K} (hd : 0 ≤ d ∧ d ≤ 1) :
    ∃ k : K, d = finite k ∧ 0 ≤ k ∧ k ≤ 1 := by
  obtain ⟨h₀, h₁⟩ := hd
  change Extended.le (finite 0) d at h₀
  change Extended.le d (finite 1) at h₁
  cases d with
  | finite k => exact ⟨k, rfl, h₀, h₁⟩
  | top => exact h₁.elim
  | bot => exact h₀.elim
  | nan => exact h₀.elim

theorem unit_zero [IsStrictOrderedRing K] : (0 : Extended K) ≤ 0 ∧ (0 : Extended K) ≤ 1 :=
  ⟨le_refl (0 : K), (zero_le_one : (0 : K) ≤ 1)⟩

/-- On admissible energies the total order is the usual one. -/
theorem precedes_iff {x y : Extended K} (hx : x.Proper) (hy : y.Proper) :
    Energy.precedes x y = true ↔ x.value < y.value := by
  rw [← hx.lt_iff hy]
  change precedes x y = true ↔ Extended.lt x y
  rcases proper_iff.1 hx with rfl | ⟨a, rfl⟩ <;> rcases proper_iff.1 hy with rfl | ⟨b, rfl⟩ <;>
    simp [precedes, top_eq]

end MinSum.Extended
