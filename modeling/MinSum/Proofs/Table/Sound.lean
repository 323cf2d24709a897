import Mathlib.Data.List.Nodup
import Mathlib.Tactic.Common
import MinSum.Proofs.Table.Construct

/-! What holds of every table that the constructors make: its rows are distinct assignments in
range, and the index finds exactly the rows that hold a value at a port. -/
namespace MinSum

variable {E : Type}

/-- The row is an assignment of ports of the given sizes. -/
structure Row.Fits [Energy E] (sizes : List Nat) (r : Row E) : Prop where
  length : r.indices.length = sizes.length
  lt : ∀ p i size : Nat, r.indices[p]? = some i → sizes[p]? = some size → i < size
  energy : ∃ e, Energy.isAdmissible e = true ∧ r.energy = Energy.unsigned e

/-- The tuples of a shape have one index in range per axis. -/
theorem mem_tuples {shape a : List Nat} : a ∈ tuples shape ↔ List.Forall₂ (· < ·) a shape := by
  induction shape generalizing a with
  | nil => simp [tuples]
  | cons n shape ih =>
    simp only [tuples, List.mem_flatMap, List.mem_range, List.mem_map, ih,
      List.forall₂_cons_right_iff]
    constructor
    · rintro ⟨i, hi, rest, hr, rfl⟩
      exact ⟨i, rest, hi, hr, rfl⟩
    · rintro ⟨i, rest, hi, hr, rfl⟩
      exact ⟨i, hi, rest, hr, rfl⟩

theorem Row.Fits.mem_tuples [Energy E] {sizes : List Nat} {r : Row E} (h : r.Fits sizes) :
    r.indices ∈ tuples sizes := by
  rw [MinSum.mem_tuples, forall₂_lt_iff]
  exact ⟨h.length, h.lt⟩

namespace Table

private theorem foldl_modify_push (l : List (Nat × Nat)) (buckets : Array (Array Nat)) (v : Nat) :
    (l.foldl (fun buckets (value, row) => buckets.modify value (·.push row)) buckets)[v]? =
      buckets[v]?.map fun bucket => bucket ++ ((l.filter (·.1 = v)).map (·.2)).toArray := by
  induction l generalizing buckets with
  | nil => simp
  | cons x l ih =>
    rw [List.foldl_cons, ih, Array.getElem?_modify]
    by_cases hx : x.1 = v
    · subst hx
      cases buckets[x.1]? <;> simp
    · cases buckets[v]? <;> simp [hx]

/-- A bucket holds the positions of its value in order. -/
theorem getElem?_positions {size v : Nat} (hv : v < size) (column : List Nat) :
    (positions size column)[v]? =
      some ((column.zipIdx.filter (·.1 = v)).map (·.2)).toArray := by
  rw [positions, foldl_modify_push, Array.getElem?_replicate, if_pos hv]
  simp

theorem positions_of_le {size v : Nat} (hv : size ≤ v) (column : List Nat) :
    (positions size column)[v]? = none := by
  rw [positions, foldl_modify_push, Array.getElem?_replicate, if_neg (Nat.not_lt.2 hv)]
  rfl

theorem rowsAt_assemble {sizes : List Nat} {rows : Array (Row E)} {port size : Nat}
    (hp : sizes[port]? = some size) (v : Nat) : (assemble sizes rows).rowsAt port v =
      if v < size then ((column rows port).zipIdx.filter (·.1 = v)).map (·.2) else [] := by
  have hb : (assemble sizes rows).byPort[port]? = some (positions size (column rows port)) := by
    simp [assemble, hp]
  simp only [rowsAt, hb]
  by_cases hv : v < size
  · rw [getElem?_positions hv, if_pos hv]
    rfl
  · rw [positions_of_le (Nat.not_lt.1 hv), if_neg hv]
    rfl

theorem rowsAt_assemble_of_le {sizes : List Nat} {rows : Array (Row E)} {port : Nat}
    (hp : sizes.length ≤ port) (value : Nat) : (assemble sizes rows).rowsAt port value = [] := by
  have hb : (assemble sizes rows).byPort[port]? = none := by simp [assemble, hp]
  simp only [rowsAt, hb]

theorem exists_of_energyOf_ne_top [Energy E] {t : Table E} {indices : List Nat}
    (hne : t.energyOf indices ≠ Energy.top) :
    ∃ r ∈ t.rows, r.indices = indices := by
  cases indices with
  | nil => exact absurd rfl hne
  | cons i rest =>
    simp only [energyOf] at hne
    cases hf : (t.rowsHolding 0 i).find? (·.indices = i :: rest) with
    | none => simp [hf] at hne
    | some r =>
      have hm := List.mem_of_find?_eq_some hf
      rw [rowsHolding, List.mem_filterMap] at hm
      obtain ⟨k, -, hk⟩ := hm
      exact ⟨r, Array.mem_of_getElem? hk, by simpa using List.find?_some hf⟩

variable [Energy E]

/-- The table is made from rows. Dense arrays and stored tables are turned into rows first. -/
def Built (t : Table E) : Prop := ∃ sizes rows, ofRows sizes rows = .ok t

theorem Built.ofEnergies {a : Dense E} {t : Table E} (h : Table.ofEnergies a = .ok t) :
    t.Built := by
  unfold Table.ofEnergies at h
  split at h
  · contradiction
  · exact ⟨_, _, h⟩

theorem Built.ofWeights {E : Type} [LogEnergy E] {a : Dense E} {t : Table E}
    (h : Table.ofWeights a = .ok t) : t.Built := by
  unfold Table.ofWeights at h
  split at h
  · contradiction
  · split at h
    · contradiction
    · exact ⟨_, _, h⟩

/-- The rows are distinct possible assignments in range, and the index is theirs. -/
structure Sound (t : Table E) : Prop where
  assembled : t = assemble t.sizes t.rows
  nonempty : t.sizes ≠ []
  fits : ∀ r ∈ t.rows, r.Fits t.sizes
  nodup : (t.rows.toList.map (·.indices)).Nodup

theorem Built.sound {t : Table E} (h : t.Built) : t.Sound := by
  obtain ⟨sizes, rows, h⟩ := h
  obtain ⟨hne, hz, hc⟩ := exists_eq_ok_iff.1 ⟨t, h⟩
  obtain rfl := Except.ok.inj ((ofRows_eq_filter hne hz hc).symm.trans h)
  have hrow : ∀ r ∈ (distinct [] (rows.map Row.unsigned)).filter (·.energy ≠ Energy.top),
      ∃ q ∈ rows, q.unsigned = r := by
    simp +contextual
  refine ⟨rfl, hne, fun r hr => ?_, ?_⟩
  · obtain ⟨q, hq, rfl⟩ := hrow r (List.mem_toArray.1 hr)
    obtain ⟨hlength, hlt⟩ := forall₂_lt_iff.1 (hc.inRange q hq)
    exact ⟨hlength, hlt, q.energy, hc.admissible q hq, rfl⟩
  · refine ((nodup_distinct [] _).1.filter _).map_on fun r hr r' hr' heq => ?_
    obtain ⟨q, hq, rfl⟩ := hrow r hr
    obtain ⟨q', hq', rfl⟩ := hrow r' hr'
    exact hc.functional q hq q' hq' heq

namespace Sound

variable {t : Table E} (h : t.Sound)

include h

theorem mem_rowsAt {port value k : Nat} : k ∈ t.rowsAt port value ↔
    ∃ r, t.row? k = some r ∧ r.indices[port]? = some value := by
  have hfits : ∀ r, t.row? k = some r → r.Fits t.sizes := fun r hr =>
    h.fits r (Array.mem_of_getElem? hr)
  have hassembled : t.rowsAt port value = (assemble t.sizes t.rows).rowsAt port value :=
    congrArg (rowsAt · port value) h.assembled
  rcases Nat.lt_or_ge port t.sizes.length with hp | hp
  · have hsize := List.getElem?_eq_getElem hp
    have hcolumn : (column t.rows port)[k]? = some value ↔
        ∃ r, t.row? k = some r ∧ r.indices[port]? = some value := by
      simp only [column, row?, List.getElem?_map, Array.getElem?_toList, Option.map_eq_some_iff]
      refine exists_congr fun r => and_congr_right fun hr => ?_
      have hlt : port < r.indices.length := (hfits r hr).length ▸ hp
      simp [hlt]
    rw [hassembled, rowsAt_assemble hsize]
    by_cases hv : value < t.sizes[port]
    · rw [if_pos hv, ← hcolumn]
      simp [List.mem_zipIdx_iff_getElem?]
    · rw [if_neg hv]
      refine iff_of_false List.not_mem_nil ?_
      rintro ⟨r, hr, hi⟩
      exact hv ((hfits r hr).lt port value _ hi hsize)
  · rw [hassembled, rowsAt_assemble_of_le hp]
    refine iff_of_false List.not_mem_nil ?_
    rintro ⟨r, hr, hi⟩
    have hlt := (List.getElem?_eq_some_iff.1 hi).1
    rw [(hfits r hr).length] at hlt
    omega

theorem mem_rowsHolding {port v : Nat} {r : Row E} :
    r ∈ t.rowsHolding port v ↔ r ∈ t.rows ∧ r.indices[port]? = some v := by
  rw [rowsHolding, List.mem_filterMap]
  constructor
  · rintro ⟨k, hk, hr⟩
    obtain ⟨r', hr', hv⟩ := h.mem_rowsAt.1 hk
    obtain rfl : r' = r := Option.some.inj (hr'.symm.trans hr)
    exact ⟨Array.mem_of_getElem? hr, hv⟩
  · rintro ⟨hmem, hv⟩
    obtain ⟨k, hk⟩ := Array.mem_iff_getElem?.1 hmem
    exact ⟨k, h.mem_rowsAt.2 ⟨r, hk, hv⟩, hk⟩

/-- The energy of a row is found under its assignment. -/
theorem energyOf_of_mem {r : Row E} (hr : r ∈ t.rows) : t.energyOf r.indices = r.energy := by
  cases hi : r.indices with
  | nil =>
    have hlength := (h.fits r hr).length
    rw [hi, List.length_nil, eq_comm, List.length_eq_zero_iff] at hlength
    exact absurd hlength h.nonempty
  | cons i rest =>
    have hheld : r ∈ t.rowsHolding 0 i := h.mem_rowsHolding.2 ⟨hr, by rw [hi]; rfl⟩
    simp only [energyOf]
    cases hf : (t.rowsHolding 0 i).find? (·.indices = i :: rest) with
    | none => exact absurd hi (by simpa using List.find?_eq_none.1 hf r hheld)
    | some r' =>
      -- No other row has the assignment.
      have hr' := (h.mem_rowsHolding.1 (List.mem_of_find?_eq_some hf)).1
      have heq : r'.indices = i :: rest := by simpa using List.find?_some hf
      rw [List.inj_on_of_nodup_map h.nodup (Array.mem_toList_iff.2 hr')
        (Array.mem_toList_iff.2 hr) (heq.trans hi.symm)]

end Sound

end Table

end MinSum
