import MinSum.Proofs.Table.Sound

/-! What a table made from rows stands for: the partial function that the rows list. -/
namespace MinSum.Table

variable {E : Type} [Energy E] {sizes : List Nat} {rows : List (Row E)} {t : Table E}

/-- The table holds the assignments of finite energy, each at its first occurrence. It gives listed
assignments the energy that is listed, though a zero loses its sign, and no other any energy. -/
structure Denotes (t : Table E) (sizes : List Nat) (rows : List (Row E)) : Prop where
  sizes_eq : t.sizes = sizes
  rows_eq : t.rows.toList = listed rows
  nodup : (t.rows.toList.map (·.indices)).Nodup
  energyOf_eq : ∀ r ∈ rows, t.energyOf r.indices = Energy.unsigned r.energy
  energyOf_eq_top : ∀ indices, (∀ r ∈ rows, r.indices ≠ indices) → t.energyOf indices = Energy.top

variable [Energy.LawfulTop E]

theorem denotes_of_eq_ok (h : ofRows sizes rows = .ok t) : t.Denotes sizes rows := by
  have hs : t.Sound := Built.sound ⟨sizes, rows, h⟩
  obtain ⟨-, -, hc, rfl⟩ := ofRows_eq_ok_iff.1 h
  -- An assignment with an energy is that of some row.
  have hrow : ∀ indices, (assemble sizes (listed rows).toArray).energyOf indices ≠ Energy.top →
      ∃ q ∈ rows, q.indices = indices ∧ q.energy ≠ Energy.top := by
    intro indices hne
    obtain ⟨r, hr, rfl⟩ := exists_of_energyOf_ne_top hne
    obtain ⟨q, hq, htop, rfl⟩ := mem_listed.1 (List.mem_toArray.1 hr)
    exact ⟨q, hq, rfl, htop⟩
  refine ⟨rfl, rfl, hs.nodup, fun r hr => ?_, fun indices hnone => ?_⟩
  · by_cases htop : r.energy = Energy.top
    · rw [htop, Energy.unsigned_top]
      by_contra hne
      obtain ⟨q, hq, heq, hq'⟩ := hrow _ hne
      have henergy := congrArg Row.energy (hc.functional q hq r hr heq)
      rw [Row.unsigned, Row.unsigned, htop, Energy.unsigned_top] at henergy
      exact hq' (Energy.unsigned_eq_top_iff.1 henergy)
    · exact hs.energyOf_of_mem (List.mem_toArray.2 (mem_listed.2 ⟨r, hr, htop, rfl⟩))
  · by_contra hne
    obtain ⟨q, hq, heq, -⟩ := hrow indices hne
    exact hnone q hq heq

/-- Rows make a table just if the sizes are those of some ports and no row offends, and the table
denotes them. The error is the fault of the sizes or else that of the first row that offends. -/
theorem ofRows_denotes (sizes : List Nat) (rows : List (Row E)) :
    ((∃ e, ofRows sizes rows = .error e) ↔ sizes = [] ∨ 0 ∈ sizes ∨
      ∃ before r after, rows = before ++ r :: after ∧ r.Offends sizes before) ∧
    (∀ e, ofRows sizes rows = .error e ↔
      SizeFault sizes e ∨ sizes ≠ [] ∧ 0 ∉ sizes ∧ FirstFault sizes rows e) ∧
    ∀ t, ofRows sizes rows = .ok t → t.Denotes sizes rows := by
  refine ⟨?_, fun e => ofRows_eq_error_iff, fun t => denotes_of_eq_ok⟩
  have hfail : (∃ e, ofRows sizes rows = .error e) ↔ ¬∃ t, ofRows sizes rows = .ok t := by
    cases ofRows sizes rows <;> simp
  rw [hfail, exists_eq_ok_iff, consistent_iff, not_and_or, not_and_or, not_not, not_not]
  simp only [not_forall, not_not, exists_prop]

/-- A row with negative zero, the same with zero, and one that is impossible and repeated. -/
private def repeated : List (Row Float) :=
  [⟨[0, 1], -0.0⟩, ⟨[1, 1], Energy.top⟩, ⟨[0, 1], 0.0⟩, ⟨[1, 0], 2.5⟩, ⟨[1, 1], Energy.top⟩]

private def contradictory : List (Row Float) :=
  [⟨[0, 0], 1.0⟩, ⟨[1, 1], -0.0⟩, ⟨[0, 0], Energy.top⟩, ⟨[2, 0], 0.0⟩]

theorem ofRows_denotes_doubles :
    (∃ t, ofRows [2, 2] repeated = .ok t ∧ t.Denotes [2, 2] repeated ∧ t.rowCount = 2) ∧
    FirstFault [2, 2] contradictory (.ambiguous [0, 0] 1.0 Energy.top) := by
  have hok : ofRows [2, 2] repeated = .ok (assemble [2, 2] #[⟨[0, 1], 0⟩, ⟨[1, 0], 2.5⟩]) := by
    decide +kernel
  have herror : ofRows [2, 2] contradictory = .error (.ambiguous [0, 0] 1.0 Energy.top) := by
    decide +kernel
  obtain ⟨-, -, hdenotes⟩ := ofRows_denotes [2, 2] repeated
  obtain ⟨-, hfault, -⟩ := ofRows_denotes [2, 2] contradictory
  refine ⟨⟨_, hok, hdenotes _ hok, rfl⟩, ?_⟩
  rcases (hfault _).1 herror with hs | ⟨-, -, hf⟩
  · nomatch hs
  · exact hf

end MinSum.Table
