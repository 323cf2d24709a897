import MinSum.Proofs.Table.Consistent

/-! The construction of tables from rows. Consistent rows make the table that lists those of finite
energy. Otherwise the first row that offends is reported, by the first check that it fails. -/
namespace MinSum.Table

variable {E : Type}

theorem checkSizes_eq_ok_iff {sizes : List Nat} :
    checkSizes (E := E) sizes = .ok () ↔ sizes ≠ [] ∧ 0 ∉ sizes := by
  cases sizes with
  | nil => simp [checkSizes]
  | cons n sizes =>
    rw [checkSizes, if_neg (by simp)]
    cases hf : (n :: sizes).findIdx? (· = 0) with
    | none =>
      rw [List.findIdx?_eq_none_iff] at hf
      have hzero : 0 ∉ n :: sizes := fun hmem => by simpa using hf 0 hmem
      exact iff_of_true rfl ⟨List.cons_ne_nil n sizes, hzero⟩
    | some port =>
      obtain ⟨hp, hz, -⟩ := List.findIdx?_eq_some_iff_getElem.1 hf
      have hzero : 0 ∈ n :: sizes := List.mem_of_getElem (by simpa using hz)
      exact iff_of_false (by simp) fun h => h.2 hzero

theorem checkSizes_eq_error_iff {sizes : List Nat} {e : TableError E} :
    checkSizes sizes = .error e ↔ SizeFault sizes e := by
  constructor
  · intro h
    cases sizes with
    | nil =>
      obtain rfl := Except.error.inj h
      exact .noPorts
    | cons n sizes =>
      rw [checkSizes, if_neg (by simp)] at h
      split at h
      · rename_i port hf
        obtain rfl := Except.error.inj h
        obtain ⟨hp, hz, hfirst⟩ := List.findIdx?_eq_some_iff_getElem.1 hf
        have hempty : (n :: sizes)[port] = 0 := by simpa using hz
        refine .emptyDomain (hempty ▸ List.getElem?_eq_getElem hp) fun p hlt he => ?_
        obtain ⟨_, hzero⟩ := List.getElem?_eq_some_iff.1 he
        exact hfirst p hlt (by simpa using hzero)
      · contradiction
  · rintro (_ | ⟨hempty, hfirst⟩)
    · rfl
    · rename_i port
      obtain ⟨hp, hz⟩ := List.getElem?_eq_some_iff.1 hempty
      have hfind : sizes.findIdx? (· = 0) = some port := by
        refine List.findIdx?_eq_some_iff_getElem.2 ⟨hp, by simpa using hz, fun p hlt he => ?_⟩
        refine hfirst p hlt ?_
        have hzero : sizes[p] = 0 := by simpa using he
        exact hzero ▸ List.getElem?_eq_getElem (Nat.lt_trans hlt hp)
      have hne : sizes ≠ [] := List.ne_nil_of_length_pos (Nat.zero_lt_of_lt hp)
      rw [checkSizes, if_neg (by simpa using hne), hfind]

theorem sizeFault_or (sizes : List Nat) :
    (∃ e : TableError E, SizeFault sizes e) ∨ sizes ≠ [] ∧ 0 ∉ sizes := by
  cases hs : checkSizes (E := E) sizes with
  | error e => exact .inl ⟨e, checkSizes_eq_error_iff.1 hs⟩
  | ok _ => exact .inr (checkSizes_eq_ok_iff.1 hs)

theorem checkRange_of_forall₂ {row port : Nat} {indices sizes : List Nat}
    (h : List.Forall₂ (· < ·) indices sizes) :
    checkRange (E := E) row port indices sizes = .ok () := by
  induction h generalizing port with
  | nil => rfl
  | cons hlt _ ih => rw [checkRange, if_neg (Nat.not_le.2 hlt), ih]

theorem checkRange_of_outOfRangeAt {row start : Nat} {indices sizes : List Nat}
    {port index size : Nat} (h : OutOfRangeAt indices sizes port index size) :
    checkRange (E := E) row start indices sizes =
      .error (.indexOutOfRange row (start + port) index size) := by
  induction port generalizing start indices sizes with
  | zero =>
    obtain ⟨hi, hs, hle, -⟩ := h
    cases indices <;> cases sizes <;> simp at hi hs
    subst hi hs
    rw [checkRange, if_pos hle]
    rfl
  | succ port ih =>
    obtain ⟨hi, hs, hle, hbefore⟩ := h
    cases indices with
    | nil => simp at hi
    | cons i indices =>
      cases sizes with
      | nil => simp at hs
      | cons n sizes =>
        have hlt : i < n := hbefore 0 (Nat.succ_pos port) i n rfl rfl
        rw [checkRange, if_neg (Nat.not_le.2 hlt), ih ⟨by simpa using hi, by simpa using hs, hle,
          fun p hp j s hj hs => hbefore (p + 1) (by omega) j s (by simpa using hj)
            (by simpa using hs)⟩, Nat.add_right_comm, Nat.add_assoc]

variable [Energy E]

theorem checkRow_of_forall₂ {sizes : List Nat} {r : Row E}
    (h : List.Forall₂ (· < ·) r.indices sizes) (row : Nat) : checkRow sizes row r =
      if Energy.isAdmissible r.energy then .ok () else .error (.invalidEnergy row r.energy) := by
  rw [checkRow, if_neg (not_not.2 h.length_eq), checkRange_of_forall₂ h]

structure Collected.Holds (sizes : List Nat) (kept : Collected E) (rows : List (Row E)) : Prop where
  consistent : Consistent sizes rows
  rows_eq : kept.rows.toList = distinct [] (rows.map Row.unsigned)

namespace Collected.Holds

variable {sizes : List Nat} {kept : Collected E} {before : List (Row E)} {r : Row E}

theorem nil : Holds sizes ({} : Collected E) [] := ⟨⟨by simp, by simp, by simp⟩, rfl⟩

/-- An assignment is looked up among the rows. -/
theorem getElem?_energies (h : Holds sizes kept before) (indices : List Nat) :
    kept.energies[indices]? =
      (before.find? (·.indices = indices)).map (Energy.unsigned ·.energy) := by
  rw [kept.getElem?_energies, ← Array.find?_toList, h.rows_eq, find?_distinct (by simp),
    List.find?_map, Option.map_map]
  rfl

/-- A row with a fault is reported, whatever follows. -/
theorem collect_of_fault (h : Holds sizes kept before) {e : TableError E}
    (hr : r.Fault sizes before e) (rest : List (Row E)) :
    collect sizes before.length kept (r :: rest) = .error e := by
  rw [collect]
  cases hr with
  | arity hl => rw [checkRow, if_pos hl]
  | outOfRange hl hout =>
    rw [checkRow, if_neg (not_not.2 hl), checkRange_of_outOfRangeAt hout, Nat.zero_add]
  | energy hi hinvalid =>
    have ha : ¬Energy.isAdmissible r.energy = true := by
      rwa [Energy.isAdmissible_iff, not_and_or, Bool.not_eq_false, ne_eq, not_not]
    rw [checkRow_of_forall₂ hi, if_neg ha]
  | ambiguous hi ha hfirst hne =>
    rw [checkRow_of_forall₂ hi, if_pos ha]
    simp only [h.getElem?_energies, hfirst, Option.map_some, if_neg hne]

/-- A row without is kept if it is new, and the next one is looked at. -/
theorem collect_of_not_offends (h : Holds sizes kept before) (hr : ¬r.Offends sizes before) :
    ∃ kept', Holds sizes kept' (before ++ [r]) ∧ ∀ rest,
      collect sizes before.length kept (r :: rest) =
        collect sizes (before ++ [r]).length kept' rest := by
  obtain ⟨hi, ha, hf⟩ := Row.not_offends_iff.1 hr
  have hconsistent := h.consistent.concat hr
  have hmem : r.unsigned ∈ before.map Row.unsigned ↔ ∃ q ∈ before, q.indices = r.indices := by
    rw [List.mem_map]
    refine exists_congr fun q => and_congr_right fun hq => ⟨fun he => ?_, hf q hq⟩
    exact (Row.mk.inj he).1
  have hlen : (before ++ [r]).length = before.length + 1 := by simp
  have hrows : ∀ rows, rows = distinct [] ((before ++ [r]).map Row.unsigned) ↔
      rows = if ∃ q ∈ before, q.indices = r.indices then kept.rows.toList
        else kept.rows.toList ++ [r.unsigned] := by
    intro rows
    rw [List.map_append, List.map_singleton, distinct_concat, h.rows_eq]
    simp only [List.not_mem_nil, false_or, hmem]
  simp only [collect, checkRow_of_forall₂ hi, if_pos ha, h.getElem?_energies, hlen]
  cases hfind : before.find? (·.indices = r.indices) with
  | none =>
    have hnew : ¬∃ q ∈ before, q.indices = r.indices := by
      rintro ⟨q, hq, heq⟩
      simpa [heq] using List.find?_eq_none.1 hfind q hq
    refine ⟨kept.push r.unsigned, ⟨hconsistent, (hrows _).2 ?_⟩, fun rest => rfl⟩
    rw [if_neg hnew, push, Array.toList_push]
  | some first =>
    have hq := List.mem_of_find?_eq_some hfind
    have heq : first.indices = r.indices := by simpa using List.find?_some hfind
    have hsame : Energy.unsigned first.energy = Energy.unsigned r.energy :=
      congrArg Row.energy (hf first hq heq)
    refine ⟨kept, ⟨hconsistent, (hrows _).2 ?_⟩, fun rest => ?_⟩
    · rw [if_pos ⟨first, hq, heq⟩]
    · simp only [Option.map_some, if_pos hsame]

/-- Consistent rows are collected to their end. -/
theorem collect_append (h : Holds sizes kept before) (rows : List (Row E))
    (hc : Consistent sizes (before ++ rows)) :
    ∃ kept', Holds sizes kept' (before ++ rows) ∧ ∀ rest,
      collect sizes before.length kept (rows ++ rest) =
        collect sizes (before ++ rows).length kept' rest := by
  induction rows generalizing kept before with
  | nil => exact ⟨kept, by simpa using h, by simp⟩
  | cons r rows ih =>
    obtain ⟨kept', h', hstep⟩ :=
      h.collect_of_not_offends (consistent_iff.1 hc before r rows rfl)
    obtain ⟨kept'', h'', hrun⟩ := ih h' (by simpa using hc)
    refine ⟨kept'', by simpa using h'', fun rest => ?_⟩
    rw [List.cons_append, hstep, hrun]
    simp

end Collected.Holds

variable {sizes : List Nat} {rows : List (Row E)}

theorem ofRows_of_sizeFault {e : TableError E} (h : SizeFault sizes e) :
    ofRows sizes rows = .error e := by
  rw [ofRows, checkSizes_eq_error_iff.2 h]

section

variable (hne : sizes ≠ []) (hz : 0 ∉ sizes)

include hne hz

theorem ofRows_of_firstFault {e : TableError E} (h : FirstFault sizes rows e) :
    ofRows sizes rows = .error e := by
  obtain ⟨before, r, after, rfl, hbefore, hr⟩ := h
  obtain ⟨kept, hkept, hrun⟩ :=
    Collected.Holds.nil.collect_append before (consistent_iff.2 hbefore)
  have hcollect : collect sizes 0 {} (before ++ r :: after) = .error e :=
    (hrun _).trans (hkept.collect_of_fault hr after)
  simp only [ofRows, checkSizes_eq_ok_iff.2 ⟨hne, hz⟩, hcollect]

theorem ofRows_eq_filter (h : Consistent sizes rows) : ofRows sizes rows =
    .ok (assemble sizes
      ((distinct [] (rows.map Row.unsigned)).filter (·.energy ≠ Energy.top)).toArray) := by
  obtain ⟨kept, hkept, hrun⟩ := Collected.Holds.nil.collect_append rows h
  have hcollect : collect sizes 0 {} rows = .ok kept := by
    simpa [collect] using hrun []
  have hrows : kept.rows = (distinct [] (rows.map Row.unsigned)).toArray :=
    Array.toList_inj.1 hkept.rows_eq
  simp only [ofRows, checkSizes_eq_ok_iff.2 ⟨hne, hz⟩, hcollect, hrows, List.filter_toArray]

end

theorem ofRows_eq_error_iff {e : TableError E} : ofRows sizes rows = .error e ↔
    SizeFault sizes e ∨ sizes ≠ [] ∧ 0 ∉ sizes ∧ FirstFault sizes rows e := by
  constructor
  · intro h
    rcases sizeFault_or sizes with ⟨e', hs⟩ | ⟨hne, hz⟩
    · exact .inl (Except.error.inj ((ofRows_of_sizeFault hs).symm.trans h) ▸ hs)
    · by_cases hc : Consistent sizes rows
      · rw [ofRows_eq_filter hne hz hc] at h
        contradiction
      · obtain ⟨e', hf⟩ := exists_firstFault hc
        have he : e' = e := Except.error.inj ((ofRows_of_firstFault hne hz hf).symm.trans h)
        exact .inr ⟨hne, hz, he ▸ hf⟩
  · rintro (hs | ⟨hne, hz, hf⟩)
    · exact ofRows_of_sizeFault hs
    · exact ofRows_of_firstFault hne hz hf

theorem exists_eq_ok_iff :
    (∃ t, ofRows sizes rows = .ok t) ↔ sizes ≠ [] ∧ 0 ∉ sizes ∧ Consistent sizes rows := by
  constructor
  · rintro ⟨t, h⟩
    rcases sizeFault_or (E := E) sizes with ⟨e, hs⟩ | ⟨hne, hz⟩
    · rw [ofRows_of_sizeFault hs] at h
      contradiction
    · refine ⟨hne, hz, not_not.1 fun hc => ?_⟩
      obtain ⟨e, hf⟩ := exists_firstFault hc
      rw [ofRows_of_firstFault hne hz hf] at h
      contradiction
  · rintro ⟨hne, hz, hc⟩
    exact ⟨_, ofRows_eq_filter hne hz hc⟩

variable [Energy.LawfulTop E]

theorem ofRows_of_consistent (hne : sizes ≠ []) (hz : 0 ∉ sizes) (h : Consistent sizes rows) :
    ofRows sizes rows = .ok (assemble sizes (listed rows).toArray) := by
  have hfilter :
      (distinct [] (rows.map Row.unsigned)).filter (·.energy ≠ Energy.top) = listed rows := by
    rw [filter_distinct, listed, List.filter_map]
    congr 3
    funext r
    simp [Row.unsigned, Energy.unsigned_eq_top_iff]
  rw [ofRows_eq_filter hne hz h, hfilter]

theorem ofRows_eq_ok_iff {t : Table E} : ofRows sizes rows = .ok t ↔
    sizes ≠ [] ∧ 0 ∉ sizes ∧ Consistent sizes rows ∧
      t = assemble sizes (listed rows).toArray := by
  constructor
  · intro h
    obtain ⟨hne, hz, hc⟩ := exists_eq_ok_iff.1 ⟨t, h⟩
    exact ⟨hne, hz, hc, Except.ok.inj (h.symm.trans (ofRows_of_consistent hne hz hc))⟩
  · rintro ⟨hne, hz, hc, rfl⟩
    exact ofRows_of_consistent hne hz hc

/-- Impossible rows only matter as long as they contradict others. -/
theorem ofRows_filter_ne_top (h : Consistent sizes rows) :
    ofRows sizes (rows.filter (·.energy ≠ Energy.top)) = ofRows sizes rows := by
  rcases sizeFault_or (E := E) sizes with ⟨e, hs⟩ | ⟨hne, hz⟩
  · rw [ofRows_of_sizeFault hs, ofRows_of_sizeFault hs]
  · rw [ofRows_of_consistent hne hz h,
      ofRows_of_consistent hne hz (h.mono fun r hr => (List.mem_filter.1 hr).1), listed,
      List.filter_filter]
    simp [listed]

end MinSum.Table
