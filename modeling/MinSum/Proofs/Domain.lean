import Mathlib.Algebra.Group.Nat.Defs
import MinSum.Domain

/-! Domains as numberings of their values. Each value has one index and each index below the size
one value, whichever way the domain was built. -/
namespace MinSum

/-- The highest power with coefficient one, in the binary encoding of a polynomial over GF(2). -/
def HasDegree (polynomial n : Nat) : Prop :=
  polynomial.testBit n = true ∧ ∀ k, n < k → polynomial.testBit k = false

theorem hasDegree_log2 {polynomial : Nat} (h : polynomial ≠ 0) :
    HasDegree polynomial polynomial.log2 := by
  refine ⟨Nat.testBit_log2 h, fun k hk => Nat.testBit_lt_two_pow ?_⟩
  exact Nat.lt_of_lt_of_le Nat.lt_log2_self (Nat.pow_le_pow_right Nat.two_pos hk)

theorem HasDegree.eq_log2 {polynomial n : Nat} (h : HasDegree polynomial n) :
    n = polynomial.log2 := by
  have hne : polynomial ≠ 0 := by
    rintro rfl
    simpa using h.1
  have hle : n ≤ polynomial.log2 := (Nat.le_log2 hne).2 (Nat.ge_two_pow_of_testBit h.1)
  refine Nat.le_antisymm hle (Nat.le_of_not_lt fun hlt => ?_)
  have hset := Nat.testBit_log2 hne
  rw [h.2 _ hlt] at hset
  contradiction

/-- The element repeats a previous one, and nothing before it does. -/
def RepeatsFirst (l : List Value) (v : Value) : Prop :=
  ∃ front back, l = front ++ v :: back ∧ front.Nodup ∧ v ∈ front

theorem firstRepeat?_nil_eq_some_iff {l : List Value} {v : Value} :
    firstRepeat? [] l = some v ↔ RepeatsFirst l v := by
  simp [firstRepeat?_eq_some_iff, RepeatsFirst]

theorem exists_repeatsFirst_iff {l : List Value} : (∃ v, RepeatsFirst l v) ↔ ¬ l.Nodup := by
  constructor
  · rintro ⟨v, front, back, rfl, -, hv⟩ hnodup
    exact (List.nodup_append.1 hnodup).2.2 v hv v List.mem_cons_self rfl
  · intro hl
    cases h : firstRepeat? [] l with
    | none => exact absurd (nodup_of_firstRepeat?_eq_none h).1 hl
    | some v => exact ⟨v, firstRepeat?_nil_eq_some_iff.1 h⟩

namespace Domain

theorem indexOf?_eq_some_iff {d : Domain} {v : Value} {i : Nat} :
    d.indexOf? v = some i ↔ d.value? i = some v := by
  rw [indexOf?, value?, Array.findIdx?_eq_some_iff_getElem, Array.getElem?_eq_some_iff]
  constructor
  · rintro ⟨hi, hv, -⟩
    exact ⟨hi, of_decide_eq_true hv⟩
  · rintro ⟨hi, rfl⟩
    refine ⟨hi, decide_eq_true rfl, fun j hj => ?_⟩
    have hne := List.pairwise_iff_getElem.1 d.nodup j i (by simp; omega) (by simpa) hj
    simpa using hne

/-- Indices below the size and values determine each other. -/
structure Numbered (d : Domain) : Prop where
  value_iff : ∀ i, (∃ v, d.value? i = some v) ↔ i < d.size
  indexOf_value : ∀ i v, d.value? i = some v → d.indexOf? v = some i
  value_indexOf : ∀ i v, d.indexOf? v = some i → d.value? i = some v

theorem numbered (d : Domain) : d.Numbered where
  value_iff i := by rw [value?, size, ← Option.isSome_iff_exists, isSome_getElem?, Array.size]
  indexOf_value _ _ := indexOf?_eq_some_iff.2
  value_indexOf _ _ := indexOf?_eq_some_iff.1

/-- The domain has the elements of the list, at their positions. -/
structure Lists (d : Domain) (kind : Kind) (l : List Value) : Prop where
  kind_eq : d.kind = kind
  size_eq : d.size = l.length
  value_eq : ∀ i, d.value? i = l[i]?

theorem lists_mk (kind : Kind) (l : List Value) (h : l.toArray.toList.Nodup) :
    Lists ⟨kind, l.toArray, h⟩ kind l :=
  ⟨rfl, List.size_toArray, fun _ => List.getElem?_toArray⟩

theorem ofValues_eq_duplicateValue_iff {l : List Value} {v : Value} :
    ofValues l = .error (.duplicateValue v) ↔ RepeatsFirst l v := by
  rw [← firstRepeat?_nil_eq_some_iff, ofValues]
  split
  · rename_i w h
    simp [h]
  · rename_i h
    split <;> simp [h]

theorem ofValues_nil : ofValues [] = .error .empty := rfl

theorem exists_ofValues_eq_ok {l : List Value} (hne : l ≠ []) (hl : l.Nodup) :
    ∃ d, ofValues l = .ok d ∧ d.Lists .enumerated l := by
  rw [ofValues]
  split
  · rename_i v h
    exact absurd hl (exists_repeatsFirst_iff.1 ⟨v, firstRepeat?_nil_eq_some_iff.1 h⟩)
  · rw [if_neg (by simpa using hne)]
    exact ⟨_, rfl, lists_mk _ l _⟩

theorem ofValues_eq_empty_iff {l : List Value} : ofValues l = .error .empty ↔ l = [] := by
  refine ⟨fun h => Decidable.byContradiction fun hne => ?_, fun h => h ▸ ofValues_nil⟩
  by_cases hl : l.Nodup
  · obtain ⟨d, hd, -⟩ := exists_ofValues_eq_ok hne hl
    rw [hd] at h
    contradiction
  · obtain ⟨v, hv⟩ := exists_repeatsFirst_iff.2 hl
    rw [ofValues_eq_duplicateValue_iff.2 hv] at h
    simp at h

theorem getElem?_consecutive_eq_some_iff {start : Int} {n k : Nat} {v : Value} :
    (consecutive start n)[k]? = some v ↔ k < n ∧ v = .int (start + k) := by
  simp [consecutive, List.getElem?_map, List.getElem?_eq_some_iff]
  grind

theorem Lists.indexOf?_consecutive {d : Domain} {kind : Kind} {start : Int} {n : Nat}
    (h : d.Lists kind (consecutive start n)) (v : Value) (k : Nat) :
    d.indexOf? v = some k ↔ k < n ∧ v = .int (start + k) := by
  rw [indexOf?_eq_some_iff, h.value_eq, getElem?_consecutive_eq_some_iff]

theorem exists_range_eq_ok {start stop : Int} (h : start < stop) : ∃ d, range start stop = .ok d ∧
    d.Lists .enumerated (consecutive start (stop - start).toNat) := by
  rw [range, if_neg (by omega)]
  exact ⟨_, rfl, lists_mk _ _ _⟩

theorem range_of_le {start stop : Int} (h : stop ≤ start) :
    range start stop = .error (.invalidRange start stop) := by
  rw [range, if_pos h]

/-- A constant term and a degree from 1 to 24. -/
def FieldPolynomial (polynomial : Nat) : Prop :=
  polynomial.testBit 0 = true ∧ ∃ n, HasDegree polynomial n ∧ 1 ≤ n ∧ n ≤ 24

theorem fieldPolynomial_iff {polynomial : Nat} : FieldPolynomial polynomial ↔
    ¬ (polynomial.log2 = 0 ∨ maxFieldDegree < polynomial.log2 ∨ polynomial % 2 = 0) := by
  rw [FieldPolynomial, Nat.testBit_zero, decide_eq_true_iff, maxFieldDegree]
  constructor
  · rintro ⟨hodd, n, hn, hpos, hle⟩
    rw [hn.eq_log2] at hpos hle
    omega
  · intro h
    refine ⟨by omega, polynomial.log2, hasDegree_log2 ?_, by omega, by omega⟩
    rintro rfl
    simp at h

theorem exists_finiteField_eq_ok {polynomial n : Nat} (h : FieldPolynomial polynomial)
    (hn : HasDegree polynomial n) : ∃ d, finiteField polynomial = .ok d ∧
      d.Lists (.finiteField polynomial) (consecutive 0 (2 ^ n)) := by
  rw [finiteField, if_neg (fieldPolynomial_iff.1 h), hn.eq_log2]
  exact ⟨_, rfl, lists_mk _ _ _⟩

theorem finiteField_of_not {polynomial : Nat} (h : ¬ FieldPolynomial polynomial) :
    finiteField polynomial = .error (.invalidPolynomial polynomial) := by
  rw [finiteField, if_pos (Decidable.not_not.1 (mt fieldPolynomial_iff.2 h))]

theorem exists_range_eq_ok_iff {start stop : Int} :
    (∃ d, range start stop = .ok d) ↔ start < stop := by
  constructor
  · rintro ⟨d, hd⟩
    refine Int.lt_of_not_ge fun hle => ?_
    rw [range_of_le hle] at hd
    contradiction
  · intro h
    obtain ⟨d, hd, -⟩ := exists_range_eq_ok h
    exact ⟨d, hd⟩

theorem exists_finiteField_eq_ok_iff {polynomial : Nat} :
    (∃ d, finiteField polynomial = .ok d) ↔ FieldPolynomial polynomial := by
  constructor
  · rintro ⟨d, hd⟩
    refine Classical.byContradiction fun h => ?_
    rw [finiteField_of_not h] at hd
    contradiction
  · intro h
    obtain ⟨n, hn, -⟩ := h.2
    obtain ⟨d, hd, -⟩ := exists_finiteField_eq_ok h hn
    exact ⟨d, hd⟩

theorem indexOf?_of_range {start stop : Int} {d : Domain} (h : range start stop = .ok d)
    (v : Value) (k : Nat) :
    d.indexOf? v = some k ↔ (k : Int) < stop - start ∧ v = .int (start + k) := by
  obtain ⟨d', hd', hlists⟩ := exists_range_eq_ok (exists_range_eq_ok_iff.1 ⟨d, h⟩)
  obtain rfl : d = d' := Except.ok.inj (h.symm.trans hd')
  rw [hlists.indexOf?_consecutive, Int.lt_toNat]

theorem lists_of_finiteField {polynomial n : Nat} {d : Domain} (h : finiteField polynomial = .ok d)
    (hn : HasDegree polynomial n) :
    d.Lists (.finiteField polynomial) (consecutive 0 (2 ^ n)) := by
  obtain ⟨d', hd', hlists⟩ :=
    exists_finiteField_eq_ok (exists_finiteField_eq_ok_iff.1 ⟨d, h⟩) hn
  obtain rfl : d = d' := Except.ok.inj (h.symm.trans hd')
  exact hlists

/-- A domain is built from each nonempty list without repetitions, each nonempty range and each
field polynomial, and from nothing else. It numbers the values it was built from densely. -/
theorem dense_numbering :
    (∀ l, (ofValues l = .error .empty ↔ l = []) ∧
      (∀ v, ofValues l = .error (.duplicateValue v) ↔ RepeatsFirst l v) ∧
      ((∃ v, RepeatsFirst l v) ↔ ¬ l.Nodup) ∧
      (l ≠ [] → l.Nodup → ∃ d, ofValues l = .ok d ∧ d.Lists .enumerated l)) ∧
    (∀ n s, Value.int n ≠ .text s) ∧
    (∀ d : Domain, d.Numbered) ∧
    bit.Lists .enumerated [.int 0, .int 1] ∧
    (∀ start stop, (∃ d, range start stop = .ok d) ↔ start < stop) ∧
    (∀ start stop d, range start stop = .ok d → ∀ v k,
      d.indexOf? v = some k ↔ (k : Int) < stop - start ∧ v = .int (start + k)) ∧
    (∀ polynomial, (∃ d, finiteField polynomial = .ok d) ↔ FieldPolynomial polynomial) ∧
    (∀ polynomial n d, finiteField polynomial = .ok d → HasDegree polynomial n →
      d.kind = .finiteField polynomial ∧ d.size = 2 ^ n ∧
      ∀ v k, d.indexOf? v = some k ↔ k < 2 ^ n ∧ v = .int k) := by
  refine ⟨fun l => ⟨ofValues_eq_empty_iff, fun v => ofValues_eq_duplicateValue_iff,
    exists_repeatsFirst_iff, exists_ofValues_eq_ok⟩, ?_, numbered, lists_mk _ [_, _] _,
    fun _ _ => exists_range_eq_ok_iff, fun _ _ _ => indexOf?_of_range,
    fun _ => exists_finiteField_eq_ok_iff, ?_⟩
  · intro n s h
    contradiction
  · intro polynomial n d hd hn
    have h := lists_of_finiteField hd hn
    refine ⟨h.kind_eq, by simp [h.size_eq, consecutive], fun v k => ?_⟩
    simpa using h.indexOf?_consecutive v k

theorem dense_numbering_small :
    ofValues [.int 1, .text "1", .int 1, .text "1"] = .error (.duplicateValue (.int 1)) ∧
    (∃ d, ofValues [.int 1, .text "1"] = .ok d ∧ d.value? 1 = some (.text "1")) ∧
    (∃ d, range (-1) 2 = .ok d ∧ d.indexOf? (.int 0) = some 1) ∧
    ∃ d, finiteField 0x11b = .ok d ∧ d.size = 256 ∧ d.indexOf? (.int 83) = some 83 := by
  obtain ⟨hvalues, -, -, -, hrange, hindex, hfield, hsize⟩ := dense_numbering
  have hdegree : HasDegree 0x11b 8 := hasDegree_log2 (by decide)
  refine ⟨?_, ?_, ?_, ?_⟩
  · exact ((hvalues _).2.1 _).2 ⟨[.int 1, .text "1"], [.text "1"], rfl, by decide, by decide⟩
  · obtain ⟨d, hd, hlists⟩ := (hvalues [.int 1, .text "1"]).2.2.2 (by decide) (by decide)
    exact ⟨d, hd, hlists.value_eq 1⟩
  · obtain ⟨d, hd⟩ := (hrange (-1) 2).2 (by decide)
    exact ⟨d, hd, (hindex _ _ d hd _ _).2 (by decide)⟩
  · obtain ⟨d, hd⟩ := (hfield 0x11b).2 ⟨by decide, 8, hdegree, by decide, by decide⟩
    obtain ⟨-, h256, hindex⟩ := hsize _ _ d hd hdegree
    exact ⟨d, hd, h256, (hindex _ _).2 (by decide)⟩

end Domain

end MinSum
