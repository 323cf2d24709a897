import MinSum.Message
import MinSum.Proofs.Energy.Real
import MinSum.Proofs.Message.Shift

/-! Energies and probabilities as views of each other, with the exponential function and the
logarithm of the real numbers. The probability of a value is the likelihood of its energy, divided
by the sum of all likelihoods; the least energy, which is subtracted first, cancels. -/
namespace MinSum

/-- The unnormalized probability of an energy. -/
noncomputable def likelihood (v : WithTop ℝ) : ℝ := v.recTopCoe 0 fun k => Real.exp (-k)

@[simp] theorem likelihood_top : likelihood ⊤ = 0 := rfl

@[simp] theorem likelihood_coe (k : ℝ) : likelihood k = Real.exp (-k) := rfl

/-- Lower energies are more likely. -/
theorem likelihood_strictAnti : StrictAnti likelihood := by
  intro v w hlt
  obtain ⟨a, rfl⟩ := WithTop.ne_top_iff_exists.1 hlt.ne_top
  induction w using WithTop.recTopCoe with
  | top => exact Real.exp_pos _
  | coe b => exact Real.exp_lt_exp.2 (neg_lt_neg (WithTop.coe_lt_coe.1 hlt))

theorem likelihood_nonneg (v : WithTop ℝ) : 0 ≤ likelihood v :=
  likelihood_strictAnti.antitone le_top

theorem likelihood_eq_zero_iff {v : WithTop ℝ} : likelihood v = 0 ↔ v = ⊤ :=
  likelihood_strictAnti.injective.eq_iff' likelihood_top

theorem likelihood_add_coe (v : WithTop ℝ) (c : ℝ) :
    likelihood (v + c) = likelihood v * Real.exp (-c) := by
  induction v using WithTop.recTopCoe with
  | top => rw [WithTop.top_add, likelihood_top, zero_mul]
  | coe k => rw [← WithTop.coe_add, likelihood_coe, likelihood_coe, neg_add, Real.exp_add]

namespace Extended

/-- The exponential function is taken relative to some number. -/
theorem exp_neg_sub {x : Extended ℝ} (hx : x.Proper) (c : ℝ) :
    LogEnergy.exp (-(x - finite c)) = finite (likelihood x.value * Real.exp c) := by
  rcases proper_iff.1 hx with rfl | ⟨k, rfl⟩
  · rw [value_top, likelihood_top, zero_mul]
    rfl
  · change finite (Real.exp (-(k - c))) = finite (Real.exp (-k) * Real.exp c)
    rw [← Real.exp_add, neg_sub, sub_eq_neg_add]

theorem foldl_add_finite (l : List ℝ) (a : ℝ) :
    (l.map finite).foldl (· + ·) (finite a) = finite (a + l.sum) := by
  induction l generalizing a with
  | nil => simp
  | cons k l ih =>
    rw [List.map_cons, List.foldl_cons, List.sum_cons, ← add_assoc]
    exact ih (a + k)

theorem one_div_finite {s : ℝ} (hs : s ≠ 0) : (1 : Extended ℝ) / finite s = finite (1 / s) :=
  if_neg hs

def IsWeight (x : Extended ℝ) : Prop := ∃ k : ℝ, 0 ≤ k ∧ x = finite k

end Extended

namespace Message

open Extended

variable {m : Message (Extended ℝ)}

noncomputable def partition (m : Message (Extended ℝ)) : ℝ :=
  (m.map fun x => likelihood x.value).sum

theorem partition_nonneg (m : Message (Extended ℝ)) : 0 ≤ m.partition := by
  apply List.sum_nonneg
  intro k hk
  obtain ⟨x, -, rfl⟩ := List.mem_map.1 hk
  exact likelihood_nonneg x.value

theorem likelihood_le_partition {x : Extended ℝ} (hx : x ∈ m) :
    likelihood x.value ≤ m.partition := by
  apply List.single_le_sum
  · intro k hk
    obtain ⟨y, -, rfl⟩ := List.mem_map.1 hk
    exact likelihood_nonneg y.value
  · exact List.mem_map_of_mem hx

theorem partition_pos {x : Extended ℝ} (hx : x ∈ m) (hne : x.value ≠ ⊤) : 0 < m.partition := by
  have hpos : 0 < likelihood x.value :=
    (likelihood_nonneg _).lt_of_ne' (mt likelihood_eq_zero_iff.1 hne)
  exact hpos.trans_le (likelihood_le_partition hx)

theorem partition_shift (m : Message (Extended ℝ)) (c : ℝ) :
    (m.shift c).partition = m.partition * Real.exp (-c) := by
  rw [partition, partition, ← List.sum_map_mul_right, Message.shift, List.map_map]
  congr 1
  apply List.map_congr_left
  intro x _
  rw [Function.comp_apply, value_add, value_finite, likelihood_add_coe]

/-- The probabilities of the values. If no value is possible, the sum of all likelihoods is zero,
and so are all of these. -/
noncomputable def distribution (m : Message (Extended ℝ)) : List ℝ :=
  m.map fun x => likelihood x.value / m.partition

theorem toProbabilities_eq (hm : m.Proper) :
    m.toProbabilities = m.distribution.map .finite := by
  have hmin := isMinOver_lowest hm
  rw [distribution, List.map_map]
  unfold toProbabilities
  rcases proper_iff.1 (proper_lowest hm) with ht | ⟨low, hlow⟩
  · simp only [if_pos ht]
    apply List.map_congr_left
    intro x hx
    have htop : x.value = ⊤ := by
      have hle := hmin.le x hx
      rwa [ht, value_top, top_le_iff] at hle
    rw [Function.comp_apply, htop, likelihood_top, zero_div]
    rfl
  · obtain ⟨y, hy, hvalue⟩ := hmin.attained (by simp [hlow])
    have hpartition : m.partition ≠ 0 := by
      refine (partition_pos hy ?_).ne'
      rw [hvalue, hlow]
      exact WithTop.coe_ne_top
    have hne : ¬lowest m = Energy.top := by simp [hlow, top_eq]
    have hweights : (m.map fun x => LogEnergy.exp (-(x - lowest m))) =
        (m.map fun x => likelihood x.value * Real.exp low).map .finite := by
      rw [List.map_map]
      apply List.map_congr_left
      intro x hx
      rw [hlow]
      exact exp_neg_sub (hm x hx) low
    have hsum : (m.map fun x => likelihood x.value * Real.exp low).sum =
        m.partition * Real.exp low := List.sum_map_mul_right ..
    simp only [if_neg hne, hweights]
    rw [zero_eq, foldl_add_finite, hsum, zero_add,
      one_div_finite (mul_ne_zero hpartition (Real.exp_ne_zero low)), List.map_map, List.map_map]
    apply List.map_congr_left
    intro x _
    change finite _ = finite _
    congr 1
    field_simp

theorem length_distribution (m : Message (Extended ℝ)) : m.distribution.length = m.length :=
  List.length_map _

theorem getD_distribution (m : Message (Extended ℝ)) (x : Nat) :
    m.distribution.getD x 0 = likelihood (m.valueAt x) / m.partition := by
  rw [valueAt_eq, distribution, List.getD_eq_getElem?_getD, List.getElem?_map]
  cases m[x]? with
  | none => exact (zero_div _).symm
  | some y => rfl

/-- What the probabilities `p` tell of the energies of a message. -/
structure Distributes (m : Message (Extended ℝ)) (p : List ℝ) : Prop where
  length_eq : p.length = m.length
  nonneg : ∀ x ∈ p, 0 ≤ x
  eq_zero_iff : ∀ x, p.getD x 0 = 0 ↔ m.valueAt x = ⊤
  sum_eq_one : (∃ k : ℝ, .finite k ∈ m) → p.sum = 1
  eq_zeros : (∀ x ∈ m, x = Energy.top) → p = List.replicate m.length 0
  reverses : ∀ x y, m.valueAt x < m.valueAt y → p.getD y 0 < p.getD x 0
  /-- The first largest probability is that of the first least energy. -/
  first_largest : (∃ k : ℝ, .finite k ∈ m) → ∃ x, m.argmin? = some x ∧ x < p.length ∧
    (∀ y, p.getD y 0 ≤ p.getD x 0) ∧ ∀ y < x, p.getD y 0 < p.getD x 0

theorem distributes_distribution (hm : m.Proper) : Distributes m m.distribution where
  length_eq := m.length_distribution
  nonneg x hx := by
    obtain ⟨y, -, rfl⟩ := List.mem_map.1 hx
    exact div_nonneg (likelihood_nonneg _) m.partition_nonneg
  eq_zero_iff x := by
    rw [getD_distribution, div_eq_zero_iff, likelihood_eq_zero_iff, or_iff_left_iff_imp]
    -- If the likelihoods sum up to zero, then each of them is zero.
    intro hzero
    by_contra hne
    obtain ⟨y, hy, hvalue⟩ := exists_of_valueAt_ne_top hne
    exact (partition_pos hy (hvalue ▸ hne)).ne' hzero
  sum_eq_one h := by
    obtain ⟨k, hk⟩ := h
    have hpos := partition_pos hk WithTop.coe_ne_top
    simp only [distribution, div_eq_mul_inv, List.sum_map_mul_right]
    exact mul_inv_cancel₀ hpos.ne'
  eq_zeros h := by
    apply List.eq_replicate_iff.2 ⟨m.length_distribution, fun p hp => ?_⟩
    obtain ⟨x, hx, rfl⟩ := List.mem_map.1 hp
    rw [h x hx, value_top, likelihood_top, zero_div]
  reverses x y hlt := by
    obtain ⟨z, hz, hvalue⟩ := exists_of_valueAt_ne_top hlt.ne_top
    rw [getD_distribution, getD_distribution]
    exact div_lt_div_of_pos_right (likelihood_strictAnti hlt)
      (partition_pos hz (hvalue ▸ hlt.ne_top))
  first_largest h := by
    obtain ⟨k, hk⟩ := h
    have hpos := partition_pos hk WithTop.coe_ne_top
    obtain ⟨x, hx, hlt, hle, hfirst⟩ := hm.argmin_spec (List.length_pos_of_mem hk)
    refine ⟨x, hx, m.length_distribution ▸ hlt, fun y => ?_, fun y hy => ?_⟩
    · rw [getD_distribution, getD_distribution]
      exact div_le_div_of_nonneg_right (likelihood_strictAnti.antitone (hle y)) hpos.le
    · rw [getD_distribution, getD_distribution]
      exact div_lt_div_of_pos_right (likelihood_strictAnti (hfirst y hy)) hpos

/-- Constants cancel. -/
theorem distribution_shift (m : Message (Extended ℝ)) (c : ℝ) :
    (m.shift c).distribution = m.distribution := by
  rw [distribution, distribution, partition_shift, Message.shift, List.map_map]
  apply List.map_congr_left
  intro x _
  rw [Function.comp_apply, value_add, value_finite, likelihood_add_coe]
  exact mul_div_mul_right _ _ (Real.exp_ne_zero (-c))

theorem energyOfProbability?_of_not_isWeight {x : Extended ℝ} (hx : ¬x.IsWeight) :
    energyOfProbability? x = none := by
  apply if_pos
  rw [Bool.or_eq_true, Bool.not_eq_true', decide_eq_true_eq]
  by_cases hf : Energy.isFinite x = true
  · obtain ⟨k, rfl⟩ := isFinite_iff.1 hf
    exact .inr (lt_of_not_ge fun hk : 0 ≤ k => hx ⟨k, hk, rfl⟩)
  · exact .inl (Bool.eq_false_iff.2 hf)

theorem energyOfProbability?_finite {k : ℝ} (hk : 0 ≤ k) :
    energyOfProbability? (finite k) = some (if k = 0 then top else finite (-Real.log k)) := by
  have hweight : (!Energy.isFinite (finite k) || decide (finite k < 0)) = false := by
    rw [Bool.or_eq_false_iff, Bool.not_eq_false', decide_eq_false_iff_not]
    exact ⟨isFinite_iff.2 ⟨k, rfl⟩, not_lt.2 hk⟩
  rw [energyOfProbability?, hweight, if_neg Bool.false_ne_true]
  by_cases h0 : k = 0
  · rw [if_pos h0, if_pos (isZero_iff.2 (congrArg finite h0))]
    rfl
  · have hlog : LogEnergy.log (finite k) = finite (Real.log k) :=
      if_pos (hk.lt_of_ne' h0)
    have hz : ¬Energy.isZero (finite k) = true := fun hz => h0 (finite.inj (isZero_iff.1 hz))
    rw [if_neg h0, if_neg hz, hlog]
    rfl

theorem exists_energyOfProbability? {k : ℝ} (hk : 0 ≤ k) : ∃ x : Extended ℝ,
    energyOfProbability? (finite k) = some x ∧ x.Proper ∧ likelihood x.value = k := by
  refine ⟨_, energyOfProbability?_finite hk, ?_⟩
  split
  · rename_i h0
    exact ⟨proper_top, h0.symm⟩
  · rename_i h0
    refine ⟨proper_finite _, ?_⟩
    rw [value_finite, likelihood_coe, neg_neg, Real.exp_log (hk.lt_of_ne' h0)]

/-- The energy of a likelihood is the energy that it came from. -/
theorem energyOfProbability?_likelihood {x : Extended ℝ} (hx : x.Proper) {c : ℝ} (hc : 0 < c) :
    energyOfProbability? (finite (likelihood x.value / c)) = some (x + finite (Real.log c)) := by
  rw [energyOfProbability?_finite (div_nonneg (likelihood_nonneg _) hc.le)]
  rcases proper_iff.1 hx with rfl | ⟨k, rfl⟩
  · rw [value_top, likelihood_top, zero_div, if_pos rfl]
    rfl
  · have hpos : 0 < Real.exp (-k) := Real.exp_pos _
    rw [value_finite, likelihood_coe, if_neg (div_pos hpos hc).ne',
      Real.log_div hpos.ne' hc.ne', Real.log_exp, neg_sub, sub_neg_eq_add, add_comm]
    rfl

theorem ofProbabilities_of_weights {p : List ℝ} (hp : ∀ k ∈ p, 0 ≤ k) :
    ∃ m : Message (Extended ℝ), ofProbabilities (p.map finite) = .ok m ∧ m.Proper ∧
      m.map (fun x => likelihood x.value) = p := by
  induction p with
  | nil => exact ⟨[], rfl, by simp [Proper], rfl⟩
  | cons k p ih =>
    obtain ⟨hk, hrest⟩ := List.forall_mem_cons.1 hp
    obtain ⟨m, hm, hproper, hlike⟩ := ih hrest
    obtain ⟨x, hx, hxp, hxl⟩ := exists_energyOfProbability? hk
    refine ⟨x :: m, ?_, List.forall_mem_cons.2 ⟨hxp, hproper⟩, ?_⟩
    · rw [List.map_cons, ofProbabilities, hx, hm]
    · rw [List.map_cons, hxl, hlike]

theorem ofProbabilities_of_bad {front : List (Extended ℝ)} (hf : ∀ x ∈ front, x.IsWeight)
    {bad : Extended ℝ} (hb : ¬bad.IsWeight) (back : List (Extended ℝ)) :
    ofProbabilities (front ++ bad :: back) = .error bad := by
  induction front with
  | nil => rw [List.nil_append, ofProbabilities, energyOfProbability?_of_not_isWeight hb]
  | cons x front ih =>
    obtain ⟨⟨k, hk, rfl⟩, hrest⟩ := List.forall_mem_cons.1 hf
    rw [List.cons_append, ofProbabilities, energyOfProbability?_finite hk, ih hrest]

theorem exists_map_finite {p : List (Extended ℝ)} (hp : ∀ x ∈ p, x.IsWeight) :
    ∃ l : List ℝ, (∀ k ∈ l, 0 ≤ k) ∧ p = l.map finite := by
  induction p with
  | nil => exact ⟨[], by simp, rfl⟩
  | cons x p ih =>
    obtain ⟨⟨k, hk, rfl⟩, hrest⟩ := List.forall_mem_cons.1 hp
    obtain ⟨l, hl, rfl⟩ := ih hrest
    exact ⟨k :: l, List.forall_mem_cons.2 ⟨hk, hl⟩, rfl⟩

theorem exists_first_bad {p : List (Extended ℝ)} (hp : ¬∀ x ∈ p, x.IsWeight) :
    ∃ front bad back, p = front ++ bad :: back ∧ (∀ x ∈ front, x.IsWeight) ∧ ¬bad.IsWeight := by
  induction p with
  | nil => simp at hp
  | cons x p ih =>
    by_cases hx : x.IsWeight
    · obtain ⟨front, bad, back, rfl, hf, hb⟩ := ih fun h => hp (List.forall_mem_cons.2 ⟨hx, h⟩)
      exact ⟨x :: front, bad, back, rfl, List.forall_mem_cons.2 ⟨hx, hf⟩, hb⟩
    · exact ⟨[], x, p, rfl, by simp, hx⟩

theorem exists_ofProbabilities_eq_ok_iff {p : List (Extended ℝ)} :
    (∃ m, ofProbabilities p = .ok m) ↔ ∀ x ∈ p, x.IsWeight := by
  constructor
  · rintro ⟨m, hm⟩
    by_contra hp
    obtain ⟨front, bad, back, rfl, hf, hb⟩ := exists_first_bad hp
    rw [ofProbabilities_of_bad hf hb] at hm
    contradiction
  · intro hp
    obtain ⟨l, hl, rfl⟩ := exists_map_finite hp
    obtain ⟨m, hm, -⟩ := ofProbabilities_of_weights hl
    exact ⟨m, hm⟩

theorem ofProbabilities_eq_error_iff {p : List (Extended ℝ)} {bad : Extended ℝ} :
    ofProbabilities p = .error bad ↔ ∃ front back, p = front ++ bad :: back ∧
      (∀ x ∈ front, x.IsWeight) ∧ ¬bad.IsWeight := by
  constructor
  · intro h
    have hp : ¬∀ x ∈ p, x.IsWeight := by
      intro hp
      obtain ⟨m, hm⟩ := exists_ofProbabilities_eq_ok_iff.2 hp
      rw [hm] at h
      contradiction
    obtain ⟨front, bad', back, rfl, hf, hb⟩ := exists_first_bad hp
    rw [ofProbabilities_of_bad hf hb] at h
    obtain rfl := Except.error.inj h
    exact ⟨front, back, rfl, hf, hb⟩
  · rintro ⟨front, back, rfl, hf, hb⟩
    exact ofProbabilities_of_bad hf hb back

/-- Weights come back divided by their sum. -/
theorem toProbabilities_ofProbabilities {p : List ℝ} (hp : ∀ k ∈ p, 0 ≤ k) :
    ∃ m : Message (Extended ℝ), ofProbabilities (p.map finite) = .ok m ∧
      m.toProbabilities =
        (if 0 < p.sum then p.map (· / p.sum) else p.map fun _ => 0).map finite := by
  obtain ⟨m, hm, hproper, hlike⟩ := ofProbabilities_of_weights hp
  refine ⟨m, hm, ?_⟩
  have hsum : m.partition = p.sum := congrArg List.sum hlike
  have hdist : m.distribution = p.map (· / p.sum) := by
    rw [distribution, hsum, ← hlike, List.map_map]
    rfl
  rw [toProbabilities_eq hproper, hdist]
  split
  · rfl
  · rename_i hpos
    have hzero : p.sum = 0 := le_antisymm (not_lt.1 hpos) (List.sum_nonneg hp)
    simp only [hzero, div_zero]

/-- Energies come back with one constant added to all of them. -/
theorem ofProbabilities_toProbabilities (hm : m.Proper) {k : ℝ} (hk : finite k ∈ m) :
    ofProbabilities m.toProbabilities = .ok (m.shift (Real.log m.partition)) := by
  have hpos : 0 < m.partition := partition_pos hk WithTop.coe_ne_top
  rw [toProbabilities_eq hm, distribution, List.map_map, Message.shift]
  generalize m.partition = c at hpos
  clear hk
  induction m with
  | nil => rfl
  | cons x m ih =>
    obtain ⟨hx, hrest⟩ := List.forall_mem_cons.1 hm
    rw [List.map_cons, ofProbabilities, Function.comp_apply,
      energyOfProbability?_likelihood hx hpos, ih hrest, List.map_cons]

/-- Weights and energies are views of each other: what is lost on the way are the sum of the
weights, and a constant in the energies. -/
theorem probabilities_inverse :
    (∀ p : List (Extended ℝ), ((∃ m, ofProbabilities p = .ok m) ↔ ∀ x ∈ p, x.IsWeight) ∧
      ∀ bad, ofProbabilities p = .error bad ↔ ∃ front back, p = front ++ bad :: back ∧
        (∀ x ∈ front, x.IsWeight) ∧ ¬bad.IsWeight) ∧
    (∀ p : List ℝ, (∀ k ∈ p, 0 ≤ k) → ∃ m : Message (Extended ℝ),
      ofProbabilities (p.map finite) = .ok m ∧ m.toProbabilities =
        (if 0 < p.sum then p.map (· / p.sum) else p.map fun _ => 0).map finite) ∧
    ∀ m : Message (Extended ℝ), m.Proper →
      (∃ p : List ℝ, m.toProbabilities = p.map finite ∧ Distributes m p) ∧
      (∀ c, (m.shift c).toProbabilities = m.toProbabilities) ∧
      ((∃ k, finite k ∈ m) → ∃ c, ofProbabilities m.toProbabilities = .ok (m.shift c)) := by
  refine ⟨fun p => ⟨exists_ofProbabilities_eq_ok_iff, fun bad => ofProbabilities_eq_error_iff⟩,
    fun p hp => toProbabilities_ofProbabilities hp, fun m hm => ⟨?_, fun c => ?_, ?_⟩⟩
  · exact ⟨_, toProbabilities_eq hm, distributes_distribution hm⟩
  · rw [toProbabilities_eq (hm.shift c), distribution_shift, toProbabilities_eq hm]
  · rintro ⟨k, hk⟩
    exact ⟨_, ofProbabilities_toProbabilities hm hk⟩

private noncomputable def likely : Message (Extended ℝ) :=
  [finite 1, Energy.top, finite (-2), finite (-2)]

theorem probabilities_inverse_tied :
    (∀ k ∈ [1 / 2, 0, 3 / 2], (0 : ℝ) ≤ k) ∧
    (∃ m : Message (Extended ℝ), ofProbabilities ([1 / 2, 0, 3 / 2].map finite) = .ok m ∧
      m.toProbabilities = [1 / 4, 0, 3 / 4].map finite) ∧
    likely.Proper ∧ finite (-2) ∈ likely ∧
    (∃ p : List ℝ, likely.toProbabilities = p.map finite ∧ p.sum = 1 ∧ p.getD 1 0 = 0 ∧
      p.getD 0 0 < p.getD 2 0) ∧
    (likely.shift 5).toProbabilities = likely.toProbabilities ∧
    ∃ c, ofProbabilities likely.toProbabilities = .ok (likely.shift c) := by
  have hweights : ∀ k ∈ [1 / 2, 0, 3 / 2], (0 : ℝ) ≤ k := by norm_num
  have hproper : likely.Proper := by simp [likely, Message.Proper, proper_finite, proper_top]
  have hmem : finite (-2) ∈ likely := by simp [likely]
  obtain ⟨-, hthere, hback⟩ := probabilities_inverse
  obtain ⟨m, hm, hprobabilities⟩ := hthere _ hweights
  obtain ⟨⟨p, hp, hd⟩, hshift, hinverse⟩ := hback likely hproper
  refine ⟨hweights, ⟨m, hm, ?_⟩, hproper, hmem, ⟨p, hp, hd.sum_eq_one ⟨_, hmem⟩,
    (hd.eq_zero_iff 1).2 rfl, hd.reverses 2 0 ?_⟩, hshift 5, hinverse ⟨_, hmem⟩⟩
  · rw [hprobabilities]
    norm_num
  · exact WithTop.coe_lt_coe.2 (by norm_num)

end Message

end MinSum
