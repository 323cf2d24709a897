import Mathlib.Data.List.Forall2
import Mathlib.Data.List.Induction
import Mathlib.Data.List.Nodup
import MinSum.Distinct
import MinSum.Proofs.Energy.Zero
import MinSum.Table.Build

/-! Rows that a table can be made of: each of them is an assignment of the ports, and none gives an
assignment a second energy. Of rows that are not like this one is the first to offend, and it fails
some check first. -/
namespace MinSum

variable {E : Type}

theorem forall₂_lt_iff {indices sizes : List Nat} : List.Forall₂ (· < ·) indices sizes ↔
    indices.length = sizes.length ∧
      ∀ p i size : Nat, indices[p]? = some i → sizes[p]? = some size → i < size := by
  rw [List.forall₂_iff_get]
  refine and_congr_right fun _ => ⟨fun h p i size hi hs => ?_, fun h p hi hs => ?_⟩
  · obtain ⟨hip, rfl⟩ := List.getElem?_eq_some_iff.1 hi
    obtain ⟨hsp, rfl⟩ := List.getElem?_eq_some_iff.1 hs
    exact h p hip hsp
  · exact h p _ _ (List.getElem?_eq_getElem hi) (List.getElem?_eq_getElem hs)

structure OutOfRangeAt (indices sizes : List Nat) (port index size : Nat) : Prop where
  index_eq : indices[port]? = some index
  size_eq : sizes[port]? = some size
  le : size ≤ index
  before : ∀ p < port, ∀ i s : Nat, indices[p]? = some i → sizes[p]? = some s → i < s

theorem inRange_or_exists {indices sizes : List Nat} (hl : indices.length = sizes.length) :
    List.Forall₂ (· < ·) indices sizes ∨
      ∃ port index size, OutOfRangeAt indices sizes port index size := by
  induction indices generalizing sizes with
  | nil =>
    obtain rfl := List.length_eq_zero_iff.1 hl.symm
    exact .inl .nil
  | cons i indices ih =>
    cases sizes with
    | nil => simp at hl
    | cons n sizes =>
      rcases Nat.lt_or_ge i n with hlt | hle
      · rcases ih (by simpa using hl) with h | ⟨port, index, size, h⟩
        · exact .inl (.cons hlt h)
        · refine .inr ⟨port + 1, index, size, by simpa using h.index_eq, by simpa using h.size_eq,
            h.le, fun p hp j s hj hs => ?_⟩
          cases p with
          | zero =>
            obtain rfl : i = j := by simpa using hj
            obtain rfl : n = s := by simpa using hs
            exact hlt
          | succ p => exact h.before p (by omega) j s (by simpa using hj) (by simpa using hs)
      · exact .inr ⟨0, i, n, rfl, rfl, hle, fun p hp => absurd hp (Nat.not_lt_zero p)⟩

/-- What is wrong with sizes that no table has. -/
inductive SizeFault : List Nat → TableError E → Prop where
  | noPorts : SizeFault [] .noPorts
  | emptyDomain {sizes : List Nat} {port : Nat} (empty : sizes[port]? = some 0)
      (first : ∀ p < port, sizes[p]? ≠ some 0) : SizeFault sizes (.emptyDomain port)

variable [Energy E]

namespace Row

def unsigned (r : Row E) : Row E := ⟨r.indices, Energy.unsigned r.energy⟩

/-- The row cannot stand after the rows `before`. -/
def Offends (sizes : List Nat) (before : List (Row E)) (r : Row E) : Prop :=
  r.indices.length ≠ sizes.length ∨
  (∃ port index size : Nat,
    r.indices[port]? = some index ∧ sizes[port]? = some size ∧ size ≤ index) ∨
  (Energy.isNaN r.energy = true ∨ r.energy = Energy.bot) ∨
  ∃ q ∈ before, q.indices = r.indices ∧ Energy.unsigned q.energy ≠ Energy.unsigned r.energy

/-- What the first check says that a row after the rows `before` fails. -/
inductive Fault (sizes : List Nat) (before : List (Row E)) (r : Row E) : TableError E → Prop where
  | arity (length : r.indices.length ≠ sizes.length) :
      Fault sizes before r (.arity before.length sizes.length r.indices.length)
  | outOfRange {port index size : Nat} (length : r.indices.length = sizes.length)
      (lowest : OutOfRangeAt r.indices sizes port index size) :
      Fault sizes before r (.indexOutOfRange before.length port index size)
  | energy (inRange : List.Forall₂ (· < ·) r.indices sizes)
      (invalid : Energy.isNaN r.energy = true ∨ r.energy = Energy.bot) :
      Fault sizes before r (.invalidEnergy before.length r.energy)
  | ambiguous {first : Row E} (inRange : List.Forall₂ (· < ·) r.indices sizes)
      (admissible : Energy.isAdmissible r.energy = true)
      (earliest : before.find? (·.indices = r.indices) = some first)
      (ne : Energy.unsigned first.energy ≠ Energy.unsigned r.energy) :
      Fault sizes before r
        (.ambiguous r.indices (Energy.unsigned first.energy) (Energy.unsigned r.energy))

theorem not_offends_iff {sizes : List Nat} {before : List (Row E)} {r : Row E} :
    ¬r.Offends sizes before ↔ List.Forall₂ (· < ·) r.indices sizes ∧
      Energy.isAdmissible r.energy = true ∧
      ∀ q ∈ before, q.indices = r.indices → q.unsigned = r.unsigned := by
  simp only [Offends, forall₂_lt_iff, Energy.isAdmissible_iff, unsigned, mk.injEq]
  grind

end Row

/-- The rows are a partial function from assignments to energies: none of them offends. -/
structure Consistent (sizes : List Nat) (rows : List (Row E)) : Prop where
  inRange : ∀ r ∈ rows, List.Forall₂ (· < ·) r.indices sizes
  admissible : ∀ r ∈ rows, Energy.isAdmissible r.energy = true
  functional : ∀ q ∈ rows, ∀ r ∈ rows, q.indices = r.indices → q.unsigned = r.unsigned

/-- The first row that offends has this fault. -/
def FirstFault (sizes : List Nat) (rows : List (Row E)) (e : TableError E) : Prop :=
  ∃ before r after, rows = before ++ r :: after ∧
    (∀ b q a, before = b ++ q :: a → ¬q.Offends sizes b) ∧ r.Fault sizes before e

/-- The assignments of finite energy, each at its first occurrence. -/
def listed (rows : List (Row E)) : List (Row E) :=
  distinct [] ((rows.filter (·.energy ≠ Energy.top)).map Row.unsigned)

section

variable {sizes : List Nat} {before rows : List (Row E)} {r : Row E}

theorem mem_listed {r : Row E} :
    r ∈ listed rows ↔ ∃ q ∈ rows, q.energy ≠ Energy.top ∧ q.unsigned = r := by
  simp [listed, and_assoc]

theorem consistent_iff : Consistent sizes rows ↔
    ∀ before r after, rows = before ++ r :: after → ¬r.Offends sizes before := by
  constructor
  · rintro h before r after rfl
    refine Row.not_offends_iff.2 ⟨h.inRange r (by simp), h.admissible r (by simp), fun q hq => ?_⟩
    exact h.functional q (by simp [hq]) r (by simp)
  · intro h
    have hrow : ∀ r ∈ rows, List.Forall₂ (· < ·) r.indices sizes ∧
        Energy.isAdmissible r.energy = true := by
      intro r hr
      obtain ⟨before, after, heq⟩ := List.append_of_mem hr
      obtain ⟨hi, ha, -⟩ := Row.not_offends_iff.1 (h before r after heq)
      exact ⟨hi, ha⟩
    refine ⟨fun r hr => (hrow r hr).1, fun r hr => (hrow r hr).2, fun q hq r hr hi => ?_⟩
    -- Whichever of the two rows stands later agrees with the one before it.
    obtain ⟨before, after, rfl⟩ := List.append_of_mem hr
    rcases List.mem_append.1 hq with hq | hq
    · exact (Row.not_offends_iff.1 (h before r after rfl)).2.2 q hq hi
    · rcases List.mem_cons.1 hq with rfl | hq
      · rfl
      · obtain ⟨middle, rest, rfl⟩ := List.append_of_mem hq
        have hlater := Row.not_offends_iff.1 (h (before ++ r :: middle) q rest (by simp))
        exact (hlater.2.2 r (by simp) hi.symm).symm

theorem Consistent.concat (h : Consistent sizes before) (hr : ¬r.Offends sizes before) :
    Consistent sizes (before ++ [r]) := by
  obtain ⟨hi, ha, hf⟩ := Row.not_offends_iff.1 hr
  refine ⟨?_, ?_, ?_⟩
  · simpa [or_imp, forall_and, hi] using h.inRange
  · simpa [or_imp, forall_and, ha] using h.admissible
  · simp only [List.mem_append, List.mem_singleton]
    rintro q (hq | rfl) s (hs | rfl) heq
    · exact h.functional q hq s hs heq
    · exact hf q hq heq
    · exact (hf s hs heq.symm).symm
    · rfl

/-- Rows with distinct assignments contradict none. -/
theorem Consistent.of_nodup (hi : ∀ r ∈ rows, List.Forall₂ (· < ·) r.indices sizes)
    (ha : ∀ r ∈ rows, Energy.isAdmissible r.energy = true)
    (hd : (rows.map (·.indices)).Nodup) : Consistent sizes rows :=
  ⟨hi, ha, fun _ hq _ hr heq => congrArg Row.unsigned (List.inj_on_of_nodup_map hd hq hr heq)⟩

/-- Rows with distinct assignments are never merged. -/
theorem listed_of_nodup (hd : (rows.map (·.indices)).Nodup) :
    listed rows = (rows.filter (·.energy ≠ Energy.top)).map Row.unsigned := by
  apply distinct_eq_self
  apply List.Nodup.of_map Row.indices
  rw [List.map_map]
  exact hd.sublist (List.filter_sublist.map _)

/-- Rows can be left out, repeated and reordered. -/
theorem Consistent.mono {rows' : List (Row E)} (h : Consistent sizes rows)
    (hs : ∀ r ∈ rows', r ∈ rows) : Consistent sizes rows' where
  inRange r hr := h.inRange r (hs r hr)
  admissible r hr := h.admissible r (hs r hr)
  functional q hq r hr := h.functional q (hs q hq) r (hs r hr)

theorem exists_fault (h : Consistent sizes before) (hr : r.Offends sizes before) :
    ∃ e, r.Fault sizes before e := by
  by_cases hl : r.indices.length = sizes.length
  · rcases inRange_or_exists hl with hi | ⟨port, index, size, hout⟩
    · by_cases ha : Energy.isAdmissible r.energy = true
      · cases hfind : before.find? (·.indices = r.indices) with
        | none =>
          refine absurd hr (Row.not_offends_iff.2 ⟨hi, ha, fun q hq heq => ?_⟩)
          exact absurd heq (by simpa using List.find?_eq_none.1 hfind q hq)
        | some first =>
          refine ⟨_, .ambiguous hi ha hfind fun heq => hr.elim (absurd hl) fun hr => ?_⟩
          have hfirst : first.indices = r.indices := by simpa using List.find?_some hfind
          refine Row.not_offends_iff.2 ⟨hi, ha, fun q hq hqr => ?_⟩ (.inr hr)
          rw [h.functional q hq first (List.mem_of_find?_eq_some hfind) (hqr.trans hfirst.symm)]
          exact congrArg₂ Row.mk hfirst heq
      · refine ⟨_, .energy hi ?_⟩
        rwa [Energy.isAdmissible_iff, not_and_or, Bool.not_eq_false, ne_eq, not_not] at ha
    · exact ⟨_, .outOfRange hl hout⟩
  · exact ⟨_, .arity hl⟩

/-- Of several rows that offend one is the first. -/
theorem exists_firstFault (h : ¬Consistent sizes rows) : ∃ e, FirstFault sizes rows e := by
  induction rows using List.reverseRecOn with
  | nil => exact absurd ⟨by simp, by simp, by simp⟩ h
  | append_singleton before r ih =>
    by_cases hb : Consistent sizes before
    · have hr : r.Offends sizes before := not_not.1 fun hr => h (hb.concat hr)
      obtain ⟨e, he⟩ := exists_fault hb hr
      exact ⟨e, before, r, [], rfl, consistent_iff.1 hb, he⟩
    · obtain ⟨e, b, q, a, rfl, hc, he⟩ := ih hb
      exact ⟨e, b, q, a ++ [r], by simp, hc, he⟩

variable [Energy.LawfulTop E]

theorem Consistent.listed (h : Consistent sizes rows) : Consistent sizes (listed rows) := by
  refine ⟨fun r hr => ?_, fun r hr => ?_, fun r hr r' hr' heq => ?_⟩
  · obtain ⟨q, hq, -, rfl⟩ := mem_listed.1 hr
    exact h.inRange q hq
  · obtain ⟨q, hq, -, rfl⟩ := mem_listed.1 hr
    exact Energy.isAdmissible_unsigned (h.admissible q hq)
  · obtain ⟨q, hq, -, rfl⟩ := mem_listed.1 hr
    obtain ⟨q', hq', -, rfl⟩ := mem_listed.1 hr'
    rw [h.functional q hq q' hq' heq]

theorem mem_listed_iff {r : Row E} :
    r ∈ MinSum.listed rows ↔ r ∈ rows.map Row.unsigned ∧ r.energy ≠ Energy.top := by
  rw [mem_listed, List.mem_map]
  constructor
  · rintro ⟨q, hq, htop, rfl⟩
    exact ⟨⟨q, hq, rfl⟩, mt Energy.unsigned_eq_top_iff.1 htop⟩
  · rintro ⟨⟨q, hq, rfl⟩, htop⟩
    exact ⟨q, hq, mt Energy.unsigned_eq_top_iff.2 htop, rfl⟩

omit [Energy.LawfulTop E] in
theorem Consistent.of_unsigned [Energy.LawfulSign E] {rows' : List (Row E)}
    (h : Consistent sizes rows) (hs : ∀ r ∈ rows', r.unsigned ∈ rows.map Row.unsigned) :
    Consistent sizes rows' := by
  have hrow : ∀ r ∈ rows', ∃ q ∈ rows, q.unsigned = r.unsigned ∧ q.indices = r.indices := by
    intro r hr
    obtain ⟨q, hq, heq⟩ := List.mem_map.1 (hs r hr)
    exact ⟨q, hq, heq, (Row.mk.inj heq).1⟩
  refine ⟨fun r hr => ?_, fun r hr => ?_, fun r hr r' hr' heq => ?_⟩
  · obtain ⟨q, hq, -, hi⟩ := hrow r hr
    exact hi ▸ h.inRange q hq
  · obtain ⟨q, hq, heq, -⟩ := hrow r hr
    have ha := Energy.isAdmissible_unsigned (h.admissible q hq)
    exact Energy.isAdmissible_of_unsigned ((Row.mk.inj heq).2 ▸ ha)
  · obtain ⟨q, hq, hqr, hi⟩ := hrow r hr
    obtain ⟨q', hq', hqr', hi'⟩ := hrow r' hr'
    rw [← hqr, ← hqr', h.functional q hq q' hq' (by rw [hi, hi', heq])]

/-- What is listed is canonical: nothing of it is merged, left out or changed. -/
theorem listed_listed (rows : List (Row E)) : listed (listed rows) = listed rows := by
  have hfilter : (listed rows).filter (·.energy ≠ Energy.top) = listed rows := by
    refine List.filter_eq_self.2 fun r hr => ?_
    obtain ⟨q, -, htop, rfl⟩ := mem_listed.1 hr
    simpa [Row.unsigned, Energy.unsigned_eq_top_iff] using htop
  have hmap : (listed rows).map Row.unsigned = listed rows := by
    refine (List.map_congr_left fun r hr => ?_).trans (List.map_id _)
    obtain ⟨q, -, -, rfl⟩ := mem_listed.1 hr
    simp [Row.unsigned]
  rw [listed, hfilter, hmap]
  exact distinct_eq_self (nodup_distinct _ _).1

end

end MinSum
