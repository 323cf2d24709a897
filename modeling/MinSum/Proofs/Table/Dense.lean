import MinSum.Proofs.Energy.Exact
import MinSum.Proofs.Energy.Real
import MinSum.Proofs.Table.Denotes
import MinSum.Proofs.Table.RowMajor

/-! Tables made from dense arrays. They list the finite entries in row-major order, and an array of
weights makes the table that the array of their energies makes. -/
namespace MinSum

section

variable {E : Type}

def Dense.rows (a : Dense E) : List (Row E) := a.indexed.map fun p => ⟨p.1, p.2⟩

theorem Dense.mem_rows {a : Dense E} {r : Row E} : r ∈ a.rows ↔ a.Holds r.indices r.energy := by
  rw [← mem_indexed, rows, List.mem_map]
  constructor
  · rintro ⟨p, hp, rfl⟩
    exact hp
  · exact fun h => ⟨(r.indices, r.energy), h, rfl⟩

theorem Dense.pairwise_rows (a : Dense E) :
    a.rows.Pairwise fun r r' => offset a.shape r.indices < offset a.shape r'.indices :=
  List.pairwise_map.2 a.pairwise_indexed

variable [Energy E] {a : Dense E}

/-- An array gives every assignment one energy. -/
theorem Dense.consistent_rows_iff :
    Consistent a.shape a.rows ↔ ∀ x ∈ a.entries, Energy.isAdmissible x = true := by
  constructor
  · intro h x hx
    obtain ⟨indices, hx⟩ := exists_holds_of_mem hx
    exact h.admissible ⟨indices, x⟩ (mem_rows.2 hx)
  · refine fun h => ⟨fun r hr => (mem_rows.1 hr).inRange, fun r hr => ?_, fun q hq r hr heq => ?_⟩
    · exact h _ (List.mem_of_getElem? (mem_rows.1 hr).entry)
    · have henergy : q.energy = r.energy := (heq ▸ mem_rows.1 hq).unique (mem_rows.1 hr)
      rw [Row.unsigned, Row.unsigned, heq, henergy]

theorem Dense.listed_rows (a : Dense E) :
    listed a.rows = (a.rows.filter (·.energy ≠ Energy.top)).map Row.unsigned :=
  listed_of_nodup (List.pairwise_map.2 (a.pairwise_rows.imp fun hlt heq => (heq ▸ hlt).false))

end

namespace Table

section

variable {E : Type} [Energy E] {a : Dense E} {t : Table E}

/-- The table holds the finite entries of the array in row-major order, and no other assignment has
an energy. -/
structure Tabulates (t : Table E) (a : Dense E) : Prop where
  sizes_eq : t.sizes = a.shape
  inside : ∀ indices, List.Forall₂ (· < ·) indices a.shape →
    ∃ x, a.Holds indices x ∧ t.energyOf indices = Energy.unsigned x
  outside : ∀ indices, ¬List.Forall₂ (· < ·) indices a.shape → t.energyOf indices = Energy.top
  mem_rows : ∀ r, r ∈ t.rows ↔
    ∃ x, a.Holds r.indices x ∧ x ≠ Energy.top ∧ r.energy = Energy.unsigned x
  rowMajor : t.rows.toList.Pairwise fun r r' =>
    offset a.shape r.indices < offset a.shape r'.indices

/-- The sizes are checked twice. -/
theorem ofEnergies_eq_ofRows (a : Dense E) : ofEnergies a = ofRows a.shape a.rows := by
  rw [ofEnergies]
  split
  · rename_i e hs
    rw [ofRows, hs]
  · rfl

theorem exists_ofEnergies_eq_ok_iff : (∃ t, ofEnergies a = .ok t) ↔ a.shape ≠ [] ∧ 0 ∉ a.shape ∧
    ∀ x ∈ a.entries, Energy.isAdmissible x = true := by
  rw [ofEnergies_eq_ofRows, exists_eq_ok_iff, Dense.consistent_rows_iff]

variable [Energy.LawfulTop E]

theorem tabulates_of_eq_ok (h : ofEnergies a = .ok t) : t.Tabulates a := by
  rw [ofEnergies_eq_ofRows] at h
  have hd := denotes_of_eq_ok h
  have hrows : t.rows.toList = (a.rows.filter (·.energy ≠ Energy.top)).map Row.unsigned :=
    hd.rows_eq.trans a.listed_rows
  refine ⟨hd.sizes_eq, fun indices hi => ?_, fun indices hi => ?_, fun r => ?_, ?_⟩
  · obtain ⟨x, hx⟩ := Dense.exists_holds hi
    exact ⟨x, hx, hd.energyOf_eq ⟨indices, x⟩ (Dense.mem_rows.2 hx)⟩
  · refine hd.energyOf_eq_top indices fun r hr heq => hi ?_
    exact heq ▸ (Dense.mem_rows.1 hr).inRange
  · rw [← Array.mem_toList_iff, hrows, List.mem_map]
    constructor
    · rintro ⟨q, hq, rfl⟩
      obtain ⟨hq, htop⟩ := List.mem_filter.1 hq
      exact ⟨q.energy, Dense.mem_rows.1 hq, by simpa using htop, rfl⟩
    · rintro ⟨x, hx, htop, he⟩
      refine ⟨⟨r.indices, x⟩, List.mem_filter.2 ⟨Dense.mem_rows.2 hx, by simpa using htop⟩, ?_⟩
      exact congrArg (Row.mk r.indices) he.symm
  · rw [hrows]
    exact List.pairwise_map.2 (a.pairwise_rows.sublist List.filter_sublist)

end

section

variable {E : Type} [LogEnergy E] {a : Dense E}

def BadWeight (w : E) : Prop := Energy.isFinite w = false ∨ w < 0

/-- The energy of a weight; zeros of either sign are impossible. -/
def energyOfWeight (w : E) : E := if Energy.isZero w then Energy.top else -LogEnergy.log w

/-- Of the bad weights the first in row-major order is reported. -/
inductive WeightFault (a : Dense E) : TableError E → Prop where
  | invalidWeight {indices : List Nat} {w : E} (holds : a.Holds indices w) (bad : BadWeight w)
      (first : ∀ indices' w', a.Holds indices' w' → BadWeight w' →
        offset a.shape indices ≤ offset a.shape indices') :
      WeightFault a (.invalidWeight indices w)

theorem badWeight_iff {w : E} :
    BadWeight w ↔ (!Energy.isFinite w || decide (w < 0)) = true := by
  simp [BadWeight]

/-- Good weights are rows unless they are zero. -/
theorem rowsOfWeights_of_good {l : List (List Nat × E)} (h : ∀ p ∈ l, ¬BadWeight p.2) :
    rowsOfWeights l =
      .ok ((l.filter (!Energy.isZero ·.2)).map fun p => ⟨p.1, -LogEnergy.log p.2⟩) := by
  induction l with
  | nil => rfl
  | cons p l ih =>
    obtain ⟨indices, w⟩ := p
    have hw : ¬BadWeight w := h _ List.mem_cons_self
    rw [rowsOfWeights, if_neg (mt badWeight_iff.2 hw), ih fun q hq => h q (List.mem_cons_of_mem _ hq)]
    cases hz : Energy.isZero w <;> simp [hz]

theorem rowsOfWeights_of_bad {before after : List (List Nat × E)} {indices : List Nat} {w : E}
    (h : ∀ p ∈ before, ¬BadWeight p.2) (hw : BadWeight w) :
    rowsOfWeights (before ++ (indices, w) :: after) = .error (.invalidWeight indices w) := by
  induction before with
  | nil => rw [List.nil_append, rowsOfWeights, if_pos (badWeight_iff.1 hw)]
  | cons p before ih =>
    have hp : ¬BadWeight p.2 := h p List.mem_cons_self
    rw [List.cons_append, rowsOfWeights, if_neg (mt badWeight_iff.2 hp),
      ih fun q hq => h q (List.mem_cons_of_mem p hq)]

theorem ofWeights_of_sizeFault {e : TableError E} (h : SizeFault a.shape e) :
    ofWeights a = .error e := by
  rw [ofWeights, checkSizes_eq_error_iff.2 h]

/-- Of all bad weights one is the first. -/
theorem exists_weightFault (h : ∃ w ∈ a.entries, BadWeight w) :
    ∃ e : TableError E, WeightFault a e := by
  obtain ⟨w₀, hw₀, hbad₀⟩ := h
  obtain ⟨indices₀, hholds₀⟩ := Dense.exists_holds_of_mem hw₀
  cases hf : a.indexed.find? fun p => !Energy.isFinite p.2 || decide (p.2 < 0) with
  | none =>
    have hgood := List.find?_eq_none.1 hf _ (Dense.mem_indexed.2 hholds₀)
    exact absurd (badWeight_iff.1 hbad₀) hgood
  | some p =>
    obtain ⟨indices, w⟩ := p
    obtain ⟨hbad, before, after, hsplit, hgood⟩ := List.find?_eq_some_iff_append.1 hf
    have hpairwise := a.pairwise_indexed
    rw [hsplit, List.pairwise_append] at hpairwise
    have hlater := (List.pairwise_cons.1 hpairwise.2.1).1
    have hmem : (indices, w) ∈ a.indexed := hsplit ▸ by simp
    refine ⟨_, .invalidWeight (Dense.mem_indexed.1 hmem) (badWeight_iff.2 hbad) ?_⟩
    intro indices' w' hholds hbad'
    have hmem' := Dense.mem_indexed.2 hholds
    rw [hsplit, List.mem_append, List.mem_cons] at hmem'
    rcases hmem' with hin | heq | hin
    · simpa [badWeight_iff.1 hbad'] using hgood _ hin
    · rw [(Prod.mk.inj heq).1]
    · exact (hlater _ hin).le

theorem ofWeights_of_weightFault (hne : a.shape ≠ []) (hz : 0 ∉ a.shape) {e : TableError E}
    (h : WeightFault a e) : ofWeights a = .error e := by
  obtain ⟨hholds, hbad, hfirst⟩ := h
  obtain ⟨before, after, hsplit⟩ := List.append_of_mem (Dense.mem_indexed.2 hholds)
  have hpairwise := a.pairwise_indexed
  rw [hsplit, List.pairwise_append] at hpairwise
  have hgood : ∀ p ∈ before, ¬BadWeight p.2 := by
    intro p hp hb
    have hmem : (p.1, p.2) ∈ a.indexed := hsplit ▸ List.mem_append_left _ hp
    have hle := hfirst p.1 p.2 (Dense.mem_indexed.1 hmem) hb
    exact absurd (hpairwise.2.2 p hp _ List.mem_cons_self) (Nat.not_lt.2 hle)
  simp only [ofWeights, checkSizes_eq_ok_iff.2 ⟨hne, hz⟩, hsplit, rowsOfWeights_of_bad hgood hbad]

variable [Energy.LawfulTop E]
  (hlog : ∀ w : E, Energy.isFinite w = true → ¬w < 0 → Energy.isZero w = false →
    Energy.isFinite (-LogEnergy.log w) = true)

include hlog

theorem energyOfWeight_of_good {w : E} (hw : ¬BadWeight w) :
    Energy.isAdmissible (energyOfWeight w) = true ∧
      (energyOfWeight w ≠ Energy.top ↔ Energy.isZero w = false) := by
  rw [BadWeight, not_or, Bool.not_eq_false] at hw
  rw [energyOfWeight]
  cases hz : Energy.isZero w with
  | true => simp
  | false => simpa [Energy.isFinite_iff] using hlog w hw.1 hw.2 hz

/-- The rows of positive weights are those of the possible energies. -/
theorem filter_rows_map (h : ∀ p ∈ a.indexed, ¬BadWeight p.2) :
    (a.map energyOfWeight).rows.filter (·.energy ≠ Energy.top) =
      (a.indexed.filter (!Energy.isZero ·.2)).map fun p => ⟨p.1, -LogEnergy.log p.2⟩ := by
  have hpossible : ∀ p ∈ a.indexed,
      decide (energyOfWeight p.2 ≠ Energy.top) = !Energy.isZero p.2 := by
    intro p hp
    have htop := (energyOfWeight_of_good hlog (h p hp)).2
    cases hz : Energy.isZero p.2 <;> simp [htop, hz]
  have hrows : (a.map energyOfWeight).rows =
      a.indexed.map fun p => ⟨p.1, energyOfWeight p.2⟩ := by
    rw [Dense.rows, Dense.indexed_map, List.map_map]
    rfl
  rw [hrows, List.filter_map]
  change (a.indexed.filter fun p => decide (energyOfWeight p.2 ≠ Energy.top)).map _ = _
  rw [List.filter_congr hpossible]
  refine List.map_congr_left fun p hp => ?_
  have hz : Energy.isZero p.2 = false := by simpa using (List.mem_filter.1 hp).2
  rw [energyOfWeight, hz]
  rfl

/-- Zero weights are left out early, impossible energies late. -/
theorem ofWeights_of_good (h : ∀ w ∈ a.entries, ¬BadWeight w) :
    ofWeights a = ofEnergies (a.map energyOfWeight) := by
  rcases sizeFault_or (E := E) a.shape with ⟨e, hs⟩ | hs
  · rw [ofWeights_of_sizeFault hs, ofEnergies_eq_ofRows]
    exact (ofRows_of_sizeFault hs).symm
  · have hgood : ∀ p ∈ a.indexed, ¬BadWeight p.2 := fun p hp =>
      h p.2 (List.mem_of_getElem? (Dense.mem_indexed.1 hp).entry)
    have hconsistent : Consistent a.shape (a.map energyOfWeight).rows := by
      refine (Dense.consistent_rows_iff (a := a.map energyOfWeight)).2 fun x hx => ?_
      obtain ⟨w, hw, rfl⟩ := List.mem_map.1 hx
      exact (energyOfWeight_of_good hlog (h w hw)).1
    simp only [ofWeights, checkSizes_eq_ok_iff.2 hs, rowsOfWeights_of_good hgood]
    calc ofRows a.shape ((a.indexed.filter (!Energy.isZero ·.2)).map _)
        = ofRows a.shape ((a.map energyOfWeight).rows.filter (·.energy ≠ Energy.top)) := by
          rw [filter_rows_map hlog hgood]
      _ = ofRows a.shape (a.map energyOfWeight).rows := ofRows_filter_ne_top hconsistent
      _ = ofEnergies (a.map energyOfWeight) := (ofEnergies_eq_ofRows (a.map energyOfWeight)).symm

theorem ofWeights_eq_error_iff {e : TableError E} : ofWeights a = .error e ↔
    SizeFault a.shape e ∨ a.shape ≠ [] ∧ 0 ∉ a.shape ∧ WeightFault a e := by
  constructor
  · intro h
    rcases sizeFault_or (E := E) a.shape with ⟨e', hs⟩ | ⟨hne, hz⟩
    · exact .inl (Except.error.inj ((ofWeights_of_sizeFault hs).symm.trans h) ▸ hs)
    · by_cases hbad : ∃ w ∈ a.entries, BadWeight w
      · obtain ⟨e', hf⟩ := exists_weightFault hbad
        have he := Except.error.inj ((ofWeights_of_weightFault hne hz hf).symm.trans h)
        exact .inr ⟨hne, hz, he ▸ hf⟩
      · have hgood : ∀ w ∈ a.entries, ¬BadWeight w := fun w hw hb => hbad ⟨w, hw, hb⟩
        have hok : ∃ t, ofEnergies (a.map energyOfWeight) = .ok t := by
          refine exists_ofEnergies_eq_ok_iff.2 ⟨hne, hz, fun x hx => ?_⟩
          obtain ⟨w, hw, rfl⟩ := List.mem_map.1 hx
          exact (energyOfWeight_of_good hlog (hgood w hw)).1
        obtain ⟨t, ht⟩ := hok
        rw [ofWeights_of_good hlog hgood, ht] at h
        contradiction
  · rintro (hs | ⟨hne, hz, hf⟩)
    · exact ofWeights_of_sizeFault hs
    · exact ofWeights_of_weightFault hne hz hf

end

/-- Dense arrays of energies make tables that tabulate them, if the shape has axes, none of them
empty, and no entry is invalid. Weights fail at the first bad one in row-major order, after the
shape, and otherwise make the table of their energies, if logarithms of positive numbers are
numbers. -/
theorem dense_constructions_agree {E : Type} [LogEnergy E] [Energy.LawfulTop E] :
    (∀ a : Dense E,
      ((∃ t, ofEnergies a = .ok t) ↔ a.shape ≠ [] ∧ 0 ∉ a.shape ∧
        ∀ x ∈ a.entries, Energy.isNaN x = false ∧ x ≠ Energy.bot) ∧
      ∀ t, ofEnergies a = .ok t → t.Tabulates a) ∧
    ((∀ w : E, Energy.isFinite w = true → ¬w < 0 → Energy.isZero w = false →
        Energy.isFinite (-LogEnergy.log w) = true) →
      ∀ a : Dense E,
        (∀ e, ofWeights a = .error e ↔
          SizeFault a.shape e ∨ a.shape ≠ [] ∧ 0 ∉ a.shape ∧ WeightFault a e) ∧
        ((∀ w ∈ a.entries, ¬BadWeight w) → ofWeights a = ofEnergies (a.map energyOfWeight))) := by
  refine ⟨fun a => ⟨?_, fun t => tabulates_of_eq_ok⟩, fun hlog a => ⟨fun e => ?_, ?_⟩⟩
  · simpa only [Energy.isAdmissible_iff] using exists_ofEnergies_eq_ok_iff (a := a)
  · exact ofWeights_eq_error_iff hlog
  · exact ofWeights_of_good hlog

private noncomputable def quarters : Dense (Extended ℝ) :=
  ⟨[2, 2], [.finite 1, .finite 0, .finite 0, .finite (1 / 4)], rfl⟩

private noncomputable def spoiled : Dense (Extended ℝ) :=
  ⟨[1, 3], [.finite 1, .finite (-1), .nan], rfl⟩

theorem dense_constructions_agree_quarters :
    (∀ w : Extended ℝ, Energy.isFinite w = true → ¬w < 0 → Energy.isZero w = false →
      Energy.isFinite (-LogEnergy.log w) = true) ∧
    (∃ t, ofWeights quarters = .ok t ∧ t.Tabulates (quarters.map energyOfWeight)) ∧
    ofWeights spoiled = .error (.invalidWeight [0, 1] (.finite (-1))) := by
  have hlog : ∀ w : Extended ℝ, Energy.isFinite w = true → ¬w < 0 → Energy.isZero w = false →
      Energy.isFinite (-LogEnergy.log w) = true := fun _ => Extended.isFinite_neg_log
  have hgood : ∀ x : ℝ, 0 ≤ x → ¬BadWeight (Extended.finite x) := by
    rintro x hx (hf | hn)
    · exact Bool.false_ne_true (hf.symm.trans (Extended.isFinite_iff.2 ⟨x, rfl⟩))
    · exact not_lt.2 hx hn
  have hquarters : ∀ w ∈ quarters.entries, ¬BadWeight w := by
    simpa [quarters] using ⟨hgood 1 zero_le_one, hgood 0 le_rfl, hgood 4⁻¹ (by norm_num)⟩
  obtain ⟨henergies, hweights⟩ := dense_constructions_agree (E := Extended ℝ)
  obtain ⟨hok, htabulates⟩ := henergies (quarters.map energyOfWeight)
  obtain ⟨-, hagree⟩ := hweights hlog quarters
  obtain ⟨hfail, -⟩ := hweights hlog spoiled
  refine ⟨hlog, ?_, (hfail _).2 (.inr ⟨by simp [spoiled], by simp [spoiled], ?_⟩)⟩
  · rw [hagree hquarters]
    obtain ⟨t, ht⟩ := hok.2 ⟨by simp [quarters, Dense.map], by simp [quarters, Dense.map], by
      intro x hx
      obtain ⟨w, hw, rfl⟩ := List.mem_map.1 hx
      exact Energy.isAdmissible_iff.1 (energyOfWeight_of_good hlog (hquarters w hw)).1⟩
    exact ⟨t, ht, htabulates t ht⟩
  · refine .invalidWeight ⟨.cons Nat.one_pos (.cons (by decide) .nil), rfl⟩
      (.inr (show (-1 : ℝ) < 0 by norm_num)) fun indices w hholds hbad => ?_
    -- Only one entry stands before it.
    by_contra hlt
    have hzero : offset spoiled.shape indices = 0 := Nat.lt_one_iff.1 (Nat.not_le.1 hlt)
    have hentry := hholds.entry
    rw [hzero] at hentry
    obtain rfl : Extended.finite 1 = w := Option.some.inj hentry
    exact hgood 1 zero_le_one hbad

end Table

end MinSum
