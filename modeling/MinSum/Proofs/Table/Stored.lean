import MinSum.Proofs.Document.Record
import MinSum.Proofs.Table.Indexed

/-! Tables in storage. Every table is read back from its stored form as it was, the index included,
and so it is from the document that holds the stored form. -/
namespace MinSum

namespace Table

variable {E : Type} [LogEnergy E] [Energy.LawfulTop E] {t : Table E}

/-- The rows of a table make this table again. -/
theorem Constructed.ofStored_toStored (h : t.Constructed) : ofStored t.toStored = .ok t := by
  obtain ⟨sizes, rows, h⟩ := h.built
  obtain ⟨hne, hz, hc, rfl⟩ := ofRows_eq_ok_iff.1 h
  refine (ofRows_of_consistent hne hz hc.listed).trans ?_
  rw [listed_listed]

end Table

/-- Sizes and indices fit in 64 bits, as they do in every document. -/
structure StoredTable.InWords {E : Type} (s : StoredTable E) : Prop where
  sizes : ∀ size ∈ s.sizes, size < 2 ^ 64
  indices : ∀ r ∈ s.rows, ∀ index ∈ r.indices, index < 2 ^ 64

namespace Document

def ofRow (r : Row Float) : Document := list [indexList r.indices, number r.energy]

/-- The document of a stored form, whether or not it makes a table. -/
def ofStoredTable (s : StoredTable Float) : Document :=
  fields [("domain_sizes", indexList s.sizes), ("rows", list (s.rows.map ofRow))]

theorem ofTable_eq (t : Table Float) : ofTable t = ofStoredTable t.toStored := rfl

theorem readList_indexList {l : List Nat} (h : ∀ n ∈ l, n < 2 ^ 64) :
    readList readIndex (indexList l) = .ok l :=
  readList_list_map fun n hn => readIndex_integer (h n hn)

theorem readRow_ofRow {r : Row Float} (h : ∀ index ∈ r.indices, index < 2 ^ 64) :
    readRow (ofRow r) = .ok r := by
  simp only [ofRow, readRow, readInTurn, part, List.zip_cons_cons, List.zip_nil_right,
    List.foldlM_cons, List.foldlM_nil, readList_indexList h]
  rfl

theorem readTable_eq (d : Document) : readTable d = (do
    let p ← TableParts.record.read {} d
    let sizes ← require "domain_sizes" p.sizes
    let rows ← require "rows" p.rows
    (Table.ofStored ⟨sizes, rows⟩).mapError .table) := by
  refine bind_congr fun p => bind_congr fun sizes => bind_congr fun rows => ?_
  dsimp only
  cases Table.ofStored ⟨sizes, rows⟩ <;> rfl

/-- What is read from the document is what the rows make. -/
theorem readTable_ofStoredTable {s : StoredTable Float} (h : s.InWords) :
    readTable (ofStoredTable s) = (Table.ofStored s).mapError .table := by
  have hsizes := readList_indexList h.sizes
  have hrows : readList readRow (list (s.rows.map ofRow)) = .ok s.rows :=
    readList_list_map fun r hr => readRow_ofRow (h.indices r hr)
  have hsorted : TableParts.record.parts.mergeSort (fun a b => a.1 ≤ b.1) =
      TableParts.record.parts :=
    List.mergeSort_of_pairwise (by simp [TableParts.record])
  have hread : TableParts.record.read {} (ofStoredTable s) = .ok ⟨some s.sizes, some s.rows⟩ := by
    rw [ofStoredTable, Record.read, readNamed, hsorted]
    simp [TableParts.record, part, hsizes, hrows, Except.map, bind, Except.bind, pure,
      Except.pure]
  rw [readTable_eq, hread]
  rfl

theorem readTable_constructed {d : Document} {t : Table Float} (h : readTable d = .ok t) :
    t.Constructed ∧ ∀ size ∈ t.sizes, size < 2 ^ 64 := by
  have hread : Yields (TableParts.record.read {} d) fun p =>
      ∀ sizes, p.sizes = some sizes → ∀ size ∈ sizes, size < 2 ^ 64 := by
    refine Record.yields_read (fun q hq p d hp => ?_) nofun d
    simp only [TableParts.record, List.mem_cons, List.not_mem_nil, or_false] at hq
    rcases hq with rfl | rfl
    · refine (yields_readList yields_readIndex d).map fun sizes hsizes => ?_
      rintro _ ⟨⟩
      exact hsizes
    · exact (Yields.any _).map fun _ _ => hp
  have hall : Yields (readTable d) fun t => t.Constructed ∧ ∀ size ∈ t.sizes, size < 2 ^ 64 := by
    rw [readTable_eq]
    refine hread.bind fun p hp => (yields_require hp).bind fun sizes hsizes => ?_
    refine (Yields.any _).bind fun rows _ => ?_
    cases hs : Table.ofStored ⟨sizes, rows⟩ with
    | error e => exact .error _
    | ok t =>
      obtain ⟨-, -, -, rfl⟩ := Table.ofRows_eq_ok_iff.1 hs
      exact .ok ⟨.stored hs, hsizes⟩
  exact hall t h

/-- A table whose sizes fit is read back from its document. -/
theorem readTable_ofTable {t : Table Float} (h : t.Constructed)
    (hw : ∀ size ∈ t.sizes, size < 2 ^ 64) : readTable (ofTable t) = .ok t := by
  have hindices : ∀ r ∈ t.toStored.rows, ∀ index ∈ r.indices, index < 2 ^ 64 := by
    intro r hr index hi
    obtain ⟨port, hp, rfl⟩ := List.getElem_of_mem hi
    have hrange := List.forall₂_iff_get.1 (h.indexed.inRange r (Array.mem_toList_iff.1 hr))
    have hlt := hrange.2 port hp (hrange.1 ▸ hp)
    exact Nat.lt_trans hlt (hw _ (List.get_mem _ _))
  rw [ofTable_eq, readTable_ofStoredTable ⟨hw, hindices⟩, h.ofStored_toStored]
  rfl

end Document

open Document

/-- Whichever way a table is made, reading back what is written gives an equal table, so all that is
computed from the two is the same. A stored form is read just if its rows make a table, and
whatever is read, from any document, is written and read again without a change. -/
theorem Table.stored_roundtrip :
    (∀ t : Table Float, t.Constructed → ofStored t.toStored = .ok t ∧
      ((∀ size ∈ t.sizes, size < 2 ^ 64) → readTable (ofTable t) = .ok t)) ∧
    (∀ s : StoredTable Float, s.InWords →
      readTable (ofStoredTable s) = (ofRows s.sizes s.rows).mapError .table) ∧
    (∀ (s : StoredTable Float) t, ofStored s = .ok t →
      ∃ t', ofStored t.toStored = .ok t' ∧ t' = t ∧ t'.toStored = t.toStored) ∧
    ∀ d t, readTable d = .ok t → t.Constructed ∧
      ∃ t', readTable (ofTable t) = .ok t' ∧ t' = t ∧ ofTable t' = ofTable t := by
  refine ⟨fun t h => ⟨h.ofStored_toStored, readTable_ofTable h⟩,
    fun s hs => readTable_ofStoredTable hs, fun s t h => ?_, fun d t h => ?_⟩
  · exact ⟨t, (Constructed.stored h).ofStored_toStored, rfl, rfl⟩
  · obtain ⟨hc, hw⟩ := readTable_constructed h
    exact ⟨hc, t, readTable_ofTable hc hw, rfl, rfl⟩

/-- A negative zero, an impossible row, a row said twice, and an energy. -/
private def unmerged : StoredTable Float :=
  ⟨[2, 2], [⟨[0, 1], -0.0⟩, ⟨[1, 1], Energy.top⟩, ⟨[0, 1], 0.0⟩, ⟨[1, 0], 2.5⟩]⟩

private def merged : Table Float := .assemble [2, 2] #[⟨[0, 1], 0⟩, ⟨[1, 0], 2.5⟩]

theorem Table.stored_roundtrip_merged :
    ofStored merged.toStored = .ok merged ∧ readTable (ofTable merged) = .ok merged ∧
    readTable (ofStoredTable unmerged) = .ok merged ∧ ∃ t', readTable (ofTable merged) = .ok t' ∧
      t' = merged ∧ ofTable t' = ofTable merged := by
  have hok : ofRows unmerged.sizes unmerged.rows = .ok merged := by decide +kernel
  obtain ⟨hmade, hread, -, hagain⟩ := Table.stored_roundtrip
  obtain ⟨hstored, hdocument⟩ := hmade merged (.rows hok)
  have hunmerged : readTable (ofStoredTable unmerged) = .ok merged := by
    rw [hread unmerged ⟨by decide, by decide⟩, hok]
    rfl
  exact ⟨hstored, hdocument (by decide), hunmerged, (hagain _ _ hunmerged).2⟩

end MinSum
