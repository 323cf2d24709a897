import Mathlib.Analysis.SpecialFunctions.Log.Basic
import MinSum.Energy.Extended

/-! Exact energies over the real numbers, with the exponential function and the logarithm. -/
namespace MinSum.Extended

noncomputable instance : Exponential ℝ where
  exp
    | finite x => finite (Real.exp x)
    | top => top
    | bot => finite 0
    | nan => nan
  log
    | finite x => if 0 < x then finite (Real.log x) else if x = 0 then bot else nan
    | top => top
    | bot | nan => nan

theorem isFinite_iff {x : Extended ℝ} : Energy.isFinite x = true ↔ ∃ k, x = finite k := by
  cases x <;> simp [Energy.isFinite, Energy.isAdmissible, Energy.isNaN, isNaN, Energy.top, Energy.bot]

/-- Weights above zero have numbers as energies. -/
theorem isFinite_neg_log {w : Extended ℝ} (hw : Energy.isFinite w = true) (hn : ¬w < 0)
    (hz : Energy.isZero w = false) : Energy.isFinite (-LogEnergy.log w) = true := by
  obtain ⟨x, rfl⟩ := isFinite_iff.1 hw
  have hx : ¬x < 0 := hn
  have hne : x ≠ 0 := of_decide_eq_false hz
  have hpos : 0 < x := lt_of_le_of_ne (not_lt.1 hx) hne.symm
  have hlog : LogEnergy.log (finite x) = finite (Real.log x) := if_pos hpos
  rw [hlog]
  exact isFinite_iff.2 ⟨-Real.log x, rfl⟩

end MinSum.Extended
