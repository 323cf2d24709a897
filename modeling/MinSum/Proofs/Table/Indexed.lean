import Mathlib.Data.List.Perm.Basic
import MinSum.Document.Stored
import MinSum.Proofs.Table.Sound

/-! What every table satisfies, whichever way it is made. Its rows are distinct assignments of finite
energy, and its index is redundant: for each port it sorts the rows by their value there. -/
namespace MinSum.Table

variable {E : Type}

theorem pairwise_zipIdx_filter {α : Type} (l : List α) (p : α × Nat → Bool) :
    ((l.zipIdx.filter p).map (·.2)).Pairwise (· < ·) := by
  have hall : (l.zipIdx.map (·.2)).Pairwise (· < ·) := by
    rw [List.zipIdx_map_snd]
    exact List.pairwise_lt_range'
  exact hall.sublist (List.filter_sublist.map _)

namespace Sound

variable [Energy E] {t : Table E} (h : t.Sound)

include h

theorem pairwise_rowsAt (port value : Nat) : (t.rowsAt port value).Pairwise (· < ·) := by
  rw [h.assembled]
  rcases Nat.lt_or_ge port t.sizes.length with hp | hp
  · rw [rowsAt_assemble (List.getElem?_eq_getElem hp)]
    split
    · exact pairwise_zipIdx_filter _ _
    · exact .nil
  · rw [rowsAt_assemble_of_le hp]
    exact .nil

/-- The values of a port share out the rows. -/
theorem perm_flatMap_rowsAt {port size : Nat} (hp : t.sizes[port]? = some size) :
    ((List.range size).flatMap (t.rowsAt port)).Perm (List.range t.rowCount) := by
  have hlt : port < t.sizes.length := (List.getElem?_eq_some_iff.1 hp).1
  have hnodup : ((List.range size).flatMap (t.rowsAt port)).Nodup := by
    refine List.nodup_flatMap.2 ⟨fun v _ => (h.pairwise_rowsAt port v).imp Nat.ne_of_lt, ?_⟩
    refine List.nodup_range.imp fun {v w} hne k hv hw => hne ?_
    obtain ⟨r, hr, hi⟩ := h.mem_rowsAt.1 hv
    obtain ⟨r', hr', hi'⟩ := h.mem_rowsAt.1 hw
    obtain rfl := Option.some.inj (hr.symm.trans hr')
    exact Option.some.inj (hi.symm.trans hi')
  refine (List.perm_ext_iff_of_nodup hnodup List.nodup_range).2 fun k => ?_
  rw [List.mem_flatMap, List.mem_range]
  constructor
  · rintro ⟨v, -, hk⟩
    obtain ⟨r, hr, -⟩ := h.mem_rowsAt.1 hk
    exact (Array.getElem?_eq_some_iff.1 hr).1
  · intro hk
    have hr : t.row? k = some t.rows[k] := Array.getElem?_eq_getElem hk
    have hfits := h.fits _ (Array.getElem_mem hk)
    have hi := List.getElem?_eq_getElem (hfits.length ▸ hlt)
    exact ⟨_, List.mem_range.2 (hfits.lt port _ size hi hp), h.mem_rowsAt.2 ⟨_, hr, hi⟩⟩

theorem rowsAt_eq_nil {port value : Nat}
    (hv : ∀ size, t.sizes[port]? = some size → size ≤ value) : t.rowsAt port value = [] := by
  refine List.eq_nil_iff_forall_not_mem.2 fun k hk => ?_
  obtain ⟨r, hr, hi⟩ := h.mem_rowsAt.1 hk
  have hfits := h.fits r (Array.mem_of_getElem? hr)
  have hp : port < t.sizes.length := hfits.length ▸ (List.getElem?_eq_some_iff.1 hi).1
  have hsize := List.getElem?_eq_getElem hp
  exact absurd (hfits.lt port value _ hi hsize) (Nat.not_lt.2 (hv _ hsize))

end Sound

/-- The energies of the rows are numbers, and a zero among them has no sign. -/
theorem Built.energy_of_mem [Energy E] [Energy.LawfulTop E] {t : Table E} (h : t.Built) {r : Row E}
    (hr : r ∈ t.rows) :
    Energy.isFinite r.energy = true ∧ (Energy.isZero r.energy = true → r.energy = 0) := by
  obtain ⟨sizes, rows, h⟩ := h
  obtain ⟨-, -, hc, rfl⟩ := ofRows_eq_ok_iff.1 h
  obtain ⟨q, hq, htop, rfl⟩ := mem_listed.1 (List.mem_toArray.1 hr)
  refine ⟨Energy.isFinite_iff.2 ⟨Energy.isAdmissible_unsigned (hc.admissible q hq), ?_⟩,
    Energy.eq_zero_of_isZero_unsigned⟩
  exact mt Energy.unsigned_eq_top_iff.1 htop

/-- The table is made from rows, from a dense array, or from a stored form. -/
inductive Constructed [LogEnergy E] (t : Table E) : Prop where
  | rows {sizes : List Nat} {rows : List (Row E)} (h : ofRows sizes rows = .ok t)
  | energies {a : Dense E} (h : ofEnergies a = .ok t)
  | weights {a : Dense E} (h : ofWeights a = .ok t)
  | stored {s : StoredTable E} (h : ofStored s = .ok t)

theorem Constructed.built [LogEnergy E] {t : Table E} (h : t.Constructed) : t.Built := by
  cases h with
  | rows h => exact ⟨_, _, h⟩
  | energies h => exact Built.ofEnergies h
  | weights h => exact Built.ofWeights h
  | stored h => exact ⟨_, _, h⟩

/-- The rows are distinct assignments in range, of finite energy and no negative zero. At every port
the index lists, for each value, the rows that hold it, and nothing out of range. -/
structure Indexed [Energy E] (t : Table E) : Prop where
  inRange : ∀ r ∈ t.rows, List.Forall₂ (· < ·) r.indices t.sizes
  nodup : (t.rows.toList.map (·.indices)).Nodup
  finite : ∀ r ∈ t.rows, Energy.isFinite r.energy = true
  unsigned : ∀ r ∈ t.rows, Energy.isZero r.energy = true → r.energy = 0
  increasing : ∀ port value, (t.rowsAt port value).Pairwise (· < ·)
  mem_rowsAt : ∀ port value k, k ∈ t.rowsAt port value ↔
    ∃ r, t.row? k = some r ∧ r.indices[port]? = some value
  partition : ∀ port size, t.sizes[port]? = some size →
    ((List.range size).flatMap (t.rowsAt port)).Perm (List.range t.rowCount)
  outside : ∀ port value, (∀ size, t.sizes[port]? = some size → size ≤ value) →
    t.rowsAt port value = []

variable [LogEnergy E] [Energy.LawfulTop E] {t : Table E}

theorem Constructed.indexed (h : t.Constructed) : t.Indexed where
  inRange r hr := mem_tuples.1 (h.built.sound.fits r hr).mem_tuples
  nodup := h.built.sound.nodup
  finite _ hr := (h.built.energy_of_mem hr).1
  unsigned _ hr := (h.built.energy_of_mem hr).2
  increasing := h.built.sound.pairwise_rowsAt
  mem_rowsAt _ _ _ := h.built.sound.mem_rowsAt
  partition _ _ := h.built.sound.perm_flatMap_rowsAt
  outside _ _ := h.built.sound.rowsAt_eq_nil

private def sparse : Dense Float := ⟨[2, 2], [-0.0, Energy.top, Energy.top, 1.5], rfl⟩

theorem Constructed.indexed_sparse : ∃ t, ofEnergies sparse = .ok t ∧ t.Constructed ∧ t.Indexed ∧
    t.rowsAt 1 1 = [1] := by
  have hok : ofEnergies sparse = .ok (assemble [2, 2] #[⟨[0, 0], 0⟩, ⟨[1, 1], 1.5⟩]) := by
    decide +kernel
  exact ⟨_, hok, .energies hok, Constructed.indexed (.energies hok), by decide +kernel⟩

end MinSum.Table
