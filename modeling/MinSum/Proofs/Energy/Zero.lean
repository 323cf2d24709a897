import Mathlib.Algebra.NeZero
import MinSum.Energy.Double
import MinSum.Energy.Extended

/-! Zero counts as zero: the only law that updates need to leave undamped messages alone. One does
not, so that full damping keeps the old ones. Nor does the greatest energy, so that an energy that
loses the sign of a zero stays possible or impossible. Zeros of both signs are admissible, so that it
stays valid or invalid, too. -/
namespace MinSum.Energy

class LawfulZero (E : Type) [Energy E] : Prop where
  isZero_zero : isZero (0 : E) = true

export LawfulZero (isZero_zero)

attribute [simp] isZero_zero

instance : LawfulZero Float := ⟨by decide⟩

instance {K : Type} [Zero K] [One K] [Add K] [Sub K] [Mul K] [LT K] [LE K] [DecidableEq K]
    [DecidableLT K] [DecidableLE K] : LawfulZero (Extended K) :=
  ⟨decide_eq_true rfl⟩

class LawfulUnit (E : Type) [Energy E] : Prop extends LawfulZero E where
  isZero_one : isZero (1 : E) = false

export LawfulUnit (isZero_one)

instance : LawfulUnit Float := ⟨by decide⟩

instance {K : Type} [Zero K] [One K] [Add K] [Sub K] [Mul K] [LT K] [LE K] [DecidableEq K]
    [DecidableLT K] [DecidableLE K] [NeZero (1 : K)] : LawfulUnit (Extended K) :=
  ⟨decide_eq_false one_ne_zero⟩

class LawfulTop (E : Type) [Energy E] : Prop extends LawfulZero E where
  isFinite_zero : isFinite (0 : E) = true
  isAdmissible_top : isAdmissible (top : E) = true
  isZero_top : isZero (top : E) = false

export LawfulTop (isFinite_zero isAdmissible_top isZero_top)

attribute [simp] isFinite_zero isAdmissible_top isZero_top

instance : LawfulTop Float := ⟨by decide, by decide, by decide⟩

instance {K : Type} [Zero K] [One K] [Add K] [Sub K] [Mul K] [LT K] [LE K] [DecidableEq K]
    [DecidableLT K] [DecidableLE K] : LawfulTop (Extended K) :=
  ⟨rfl, rfl, rfl⟩

class LawfulSign (E : Type) [Energy E] : Prop extends LawfulTop E where
  isAdmissible_of_isZero : ∀ x : E, isZero x = true → isAdmissible x = true

export LawfulSign (isAdmissible_of_isZero)

instance {K : Type} [Zero K] [One K] [Add K] [Sub K] [Mul K] [LT K] [LE K] [DecidableEq K]
    [DecidableLT K] [DecidableLE K] : LawfulSign (Extended K) where
  isAdmissible_of_isZero x h := by
    cases x with
    | finite k => rfl
    | _ => contradiction

variable {E : Type} [Energy E] {x y : E}

theorem isAdmissible_iff : isAdmissible x = true ↔ isNaN x = false ∧ x ≠ bot := by
  simp [isAdmissible]

theorem isFinite_iff : isFinite x = true ↔ isAdmissible x = true ∧ x ≠ top := by
  simp [isFinite]

theorem isNaN_of_beq_zero {x : Float} (h : (x == 0.0) = true) : x.isNaN = false := by
  change x.toModel.unpack.beq (0.0 : Float).toModel.unpack = true at h
  change x.toModel.unpack.isNaN = false
  cases hx : x.toModel.unpack with
  | notANumber =>
    rw [hx] at h
    contradiction
  | _ => rfl

instance : LawfulSign Float where
  isAdmissible_of_isZero x h := by
    refine isAdmissible_iff.2 ⟨isNaN_of_beq_zero h, ?_⟩
    rintro rfl
    exact absurd h (by decide)

theorem unsigned_of_isZero (h : isZero x = true) : unsigned x = 0 := if_pos h

theorem unsigned_of_not_isZero (h : isZero x = false) : unsigned x = x := if_neg (by simp [h])

theorem eq_zero_of_isZero_unsigned (h : isZero (unsigned x) = true) : unsigned x = 0 := by
  cases hx : isZero x with
  | true => exact unsigned_of_isZero hx
  | false =>
    rw [unsigned_of_not_isZero hx, hx] at h
    contradiction

@[simp] theorem unsigned_unsigned (x : E) : unsigned (unsigned x) = unsigned x := by
  cases h : isZero (unsigned x) with
  | true => rw [unsigned_of_isZero h, eq_zero_of_isZero_unsigned h]
  | false => exact unsigned_of_not_isZero h

variable [LawfulTop E]

theorem zero_ne_top : (0 : E) ≠ top := (isFinite_iff.1 isFinite_zero).2

@[simp] theorem unsigned_top : unsigned (top : E) = top := unsigned_of_not_isZero isZero_top

theorem unsigned_eq_top_iff : unsigned x = top ↔ x = top := by
  cases h : isZero x with
  | true =>
    rw [unsigned_of_isZero h]
    refine iff_of_false zero_ne_top ?_
    rintro rfl
    simp at h
  | false => rw [unsigned_of_not_isZero h]

theorem isAdmissible_unsigned (h : isAdmissible x = true) : isAdmissible (unsigned x) = true := by
  cases hz : isZero x with
  | true =>
    rw [unsigned_of_isZero hz]
    exact (isFinite_iff.1 isFinite_zero).1
  | false => rwa [unsigned_of_not_isZero hz]

omit [LawfulTop E] in
theorem isAdmissible_of_unsigned [LawfulSign E] (h : isAdmissible (unsigned x) = true) :
    isAdmissible x = true := by
  cases hz : isZero x with
  | true => exact isAdmissible_of_isZero x hz
  | false => rwa [unsigned_of_not_isZero hz] at h

end MinSum.Energy
