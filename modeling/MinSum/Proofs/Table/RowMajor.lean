import Mathlib.Data.List.Forall2
import MinSum.Proofs.Table.Sound

/-! Arrays in row-major order. The tuples of a shape are listed by their offset, so that the entry
of an array at a tuple stands at the offset of the tuple. -/
namespace MinSum

/-- The place of an index tuple in a shape whose last axis varies fastest. -/
def offset : (shape indices : List Nat) → Nat
  | _ :: shape, i :: indices => i * volume shape + offset shape indices
  | _, _ => 0

theorem range_mul (n m : Nat) :
    List.range (n * m) = (List.range n).flatMap fun i => (List.range m).map (i * m + ·) := by
  induction n with
  | zero => simp
  | succ n ih =>
    rw [Nat.succ_mul, List.range_add, ih, List.range_succ, List.flatMap_append]
    simp

/-- The tuples have the offsets from zero on, in this order. -/
theorem map_offset_tuples (shape : List Nat) :
    (tuples shape).map (offset shape) = List.range (volume shape) := by
  induction shape with
  | nil => rfl
  | cons n shape ih =>
    have hrow : ∀ i, ((tuples shape).map (i :: ·)).map (offset (n :: shape)) =
        (List.range (volume shape)).map (i * volume shape + ·) := by
      intro i
      rw [← ih, List.map_map, List.map_map]
      rfl
    simp only [tuples, List.map_flatMap, hrow, volume, range_mul]

theorem length_tuples (shape : List Nat) : (tuples shape).length = volume shape := by
  simpa using congrArg List.length (map_offset_tuples shape)

theorem getElem?_tuples_iff {shape indices : List Nat} {k : Nat} :
    (tuples shape)[k]? = some indices ↔
      List.Forall₂ (· < ·) indices shape ∧ offset shape indices = k := by
  have hoffset : ∀ (j : Nat) (l : List Nat), (tuples shape)[j]? = some l → offset shape l = j := by
    intro j l hj
    have hj' : j < volume shape := length_tuples shape ▸ (List.getElem?_eq_some_iff.1 hj).1
    have hmap := congrArg (·[j]?) (map_offset_tuples shape)
    simp only [List.getElem?_map, hj, Option.map_some, List.getElem?_range hj'] at hmap
    exact Option.some.inj hmap
  constructor
  · intro hk
    exact ⟨mem_tuples.1 (List.mem_of_getElem? hk), hoffset k indices hk⟩
  · rintro ⟨hi, rfl⟩
    obtain ⟨j, hj⟩ := List.mem_iff_getElem?.1 (mem_tuples.2 hi)
    rwa [hoffset j indices hj]

namespace Dense

variable {α β : Type} (a : Dense α)

def map (f : α → β) : Dense β where
  shape := a.shape
  entries := a.entries.map f
  length_entries := (List.length_map f).trans a.length_entries

structure Holds (indices : List Nat) (x : α) : Prop where
  inRange : List.Forall₂ (· < ·) indices a.shape
  entry : a.entries[offset a.shape indices]? = some x

variable {a} {indices : List Nat} {x y : α}

theorem Holds.unique (h : a.Holds indices x) (h' : a.Holds indices y) : x = y :=
  Option.some.inj (h.entry.symm.trans h'.entry)

theorem mem_indexed : (indices, x) ∈ a.indexed ↔ a.Holds indices x := by
  simp only [indexed, List.mem_iff_getElem?, List.getElem?_zip_eq_some, getElem?_tuples_iff]
  constructor
  · rintro ⟨k, ⟨hi, rfl⟩, hx⟩
    exact ⟨hi, hx⟩
  · rintro ⟨hi, hx⟩
    exact ⟨_, ⟨hi, rfl⟩, hx⟩

theorem map_fst_indexed : a.indexed.map Prod.fst = tuples a.shape :=
  List.map_fst_zip (Nat.le_of_eq ((length_tuples a.shape).trans a.length_entries.symm))

theorem map_snd_indexed : a.indexed.map Prod.snd = a.entries :=
  List.map_snd_zip (Nat.le_of_eq (a.length_entries.trans (length_tuples a.shape).symm))

theorem exists_holds (hi : List.Forall₂ (· < ·) indices a.shape) : ∃ x, a.Holds indices x := by
  have hmem : indices ∈ a.indexed.map Prod.fst := map_fst_indexed ▸ mem_tuples.2 hi
  obtain ⟨⟨_, x⟩, hx, rfl⟩ := List.mem_map.1 hmem
  exact ⟨x, mem_indexed.1 hx⟩

theorem exists_holds_of_mem (hx : x ∈ a.entries) : ∃ indices, a.Holds indices x := by
  rw [← map_snd_indexed] at hx
  obtain ⟨⟨indices, _⟩, hmem, rfl⟩ := List.mem_map.1 hx
  exact ⟨indices, mem_indexed.1 hmem⟩

theorem pairwise_indexed :
    a.indexed.Pairwise fun p q => offset a.shape p.1 < offset a.shape q.1 := by
  have hmap : a.indexed.map (fun p => offset a.shape p.1) = List.range (volume a.shape) := by
    rw [← map_offset_tuples, ← map_fst_indexed, List.map_map]
    rfl
  exact List.pairwise_map.1 (hmap ▸ List.pairwise_lt_range)

theorem indexed_map (f : α → β) :
    (a.map f).indexed = a.indexed.map fun p => (p.1, f p.2) := by
  rw [indexed, indexed, map, List.zip_map_right]
  rfl

end Dense

end MinSum
