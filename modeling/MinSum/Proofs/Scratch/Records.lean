import Mathlib.Data.List.Induction
import Mathlib.Data.Nat.Basic
import Mathlib.Order.Basic
import MinSum.Proofs.Scratch

/-! Buffers borrowed one at a time. A pool makes a new buffer only for a length that exceeds all
lengths before, and is left with one free buffer for each such length. -/
namespace MinSum

open Scratch

/-- The elements that are larger than all of `before` and all that precede them in the list. -/
def recordsAfter (before : List Nat) : List Nat → List Nat
  | [] => []
  | n :: rest =>
    if ∀ m ∈ before, m < n then n :: recordsAfter (before ++ [n]) rest
    else recordsAfter (before ++ [n]) rest

/-- The elements that are larger than all before them. -/
def records (l : List Nat) : List Nat := recordsAfter [] l

theorem recordsAfter_append (before l l' : List Nat) :
    recordsAfter before (l ++ l') = recordsAfter before l ++ recordsAfter (before ++ l) l' := by
  induction l generalizing before with
  | nil => simp [recordsAfter]
  | cons n l ih =>
    rw [List.cons_append, recordsAfter, recordsAfter, ih, List.append_assoc]
    split <;> rfl

theorem records_append (l l' : List Nat) :
    records (l ++ l') = records l ++ recordsAfter l l' := recordsAfter_append [] l l'

theorem records_concat (l : List Nat) (n : Nat) :
    records (l ++ [n]) = if ∀ m ∈ l, m < n then records l ++ [n] else records l := by
  rw [records_append, recordsAfter, recordsAfter]
  split
  · rfl
  · exact List.append_nil _

theorem recordsAfter_sublist (before l : List Nat) : (recordsAfter before l).Sublist l := by
  induction l generalizing before with
  | nil => exact List.Sublist.refl []
  | cons n l ih =>
    rw [recordsAfter]
    split
    · exact (ih _).cons_cons n
    · exact (ih _).cons n

theorem exists_record_ge {l : List Nat} {m : Nat} (h : m ∈ l) : ∃ r ∈ records l, m ≤ r := by
  induction l using List.reverseRecOn generalizing m with
  | nil => contradiction
  | append_singleton l n ih =>
    rw [records_concat]
    split
    · rename_i hn
      refine ⟨n, List.mem_append_right _ (List.mem_singleton_self n), ?_⟩
      rcases List.mem_append.1 h with h | h
      · exact (hn m h).le
      · exact (List.mem_singleton.1 h).le
    · rename_i hn
      rcases List.mem_append.1 h with h | h
      · exact ih h
      · obtain rfl := List.mem_singleton.1 h
        push Not at hn
        obtain ⟨larger, hlarger, hle⟩ := hn
        obtain ⟨r, hr, hle'⟩ := ih hlarger
        exact ⟨r, hr, hle.trans hle'⟩

/-- Elements that are no larger than earlier ones add no record. -/
theorem recordsAfter_eq_nil {before l : List Nat} (h : ∀ n ∈ l, ∃ m ∈ before, n ≤ m) :
    recordsAfter before l = [] := by
  induction l generalizing before with
  | nil => rfl
  | cons n l ih =>
    obtain ⟨⟨m, hm, hle⟩, hrest⟩ := List.forall_mem_cons.1 h
    rw [recordsAfter, if_neg fun hall => Nat.not_lt.2 hle (hall m hm)]
    apply ih
    intro n' hn'
    obtain ⟨m', hm', hle'⟩ := hrest n' hn'
    exact ⟨m', List.mem_append_left _ hm', hle'⟩

namespace Scratch.Pool

open scoped List

variable {E : Type}

/-- The pool after a request: it is left as it is, or a buffer is taken from it and the same buffer
is given back, with what was written to it. -/
inductive Borrows (p : Pool E) : Option Nat → Pool E → Prop where
  | nothing : Borrows p none p
  | one (length : Nat) (entries : List E) :
      Borrows p (some length) ((p.take length).2.release { (p.take length).1 with entries })

theorem borrows_release {p : Pool E} {length : Nat} {b : Buffer E}
    (h : b.capacity = (p.take length).1.capacity) :
    p.Borrows (some length) ((p.take length).2.release b) := by
  have hb : { (p.take length).1 with entries := b.entries } = b := by
    obtain ⟨capacity, entries⟩ := b
    exact congrArg (Buffer.mk · entries) h.symm
  exact hb ▸ Borrows.one length b.entries

theorem Borrows.limit_eq {p p' : Pool E} {request : Option Nat} (h : p.Borrows request p') :
    p'.limit = p.limit := by
  cases h with
  | nothing => rfl
  | one length => rw [limit_release, (p.supplies_take length).limit_eq]

/-- After these requests, each given back before the next, there is one buffer for each record, all
of them free. -/
structure Settled (p : Pool E) (requests : List Nat) : Prop where
  capacities : (p.free.map Buffer.capacity).Perm (records requests)
  allocations : p.allocations = (records requests).length

namespace Settled

variable {p p' : Pool E} {requests : List Nat} (h : p.Settled requests)

include h

theorem available : p.available = (records requests).length := by
  rw [← h.capacities.length_eq, List.length_map, Pool.available]

theorem borrow {length : Nat} {b given : Buffer E} (hs : p.Supplies length b p')
    (hg : given.capacity = b.capacity)
    (hl : (records (requests ++ [length])).length ≤ p.limit) :
    (p'.release given).Settled (requests ++ [length]) := by
  have hfree : p.available = (records requests).length := h.available
  rw [records_concat] at hl
  cases hs with
  | made small =>
    have hall : ∀ m ∈ requests, m < length := by
      intro m hm
      obtain ⟨r, hr, hle⟩ := exists_record_ge hm
      obtain ⟨b, hb, rfl⟩ := List.mem_map.1 (h.capacities.mem_iff.2 hr)
      exact hle.trans_lt (small b hb)
    have hrecords : records (requests ++ [length]) = records requests ++ [length] := by
      rw [records_concat, if_pos hall]
    rw [if_pos hall, List.length_append, List.length_singleton] at hl
    have hroom : p.available < p.limit := by omega
    rw [release_of_lt _ _ (by exact hroom)]
    refine ⟨?_, ?_⟩
    · rw [hrecords, List.map_append, List.map_singleton, hg]
      exact h.capacities.append_right _
    · rw [hrecords, List.length_append, ← h.allocations]
      rfl
  | @reused b free perm large =>
    have hmem : b.capacity ∈ records requests :=
      h.capacities.subset (List.mem_map_of_mem (perm.subset List.mem_cons_self))
    have hnot : ¬∀ m ∈ requests, m < length := fun hall =>
      Nat.not_lt.2 large (hall _ ((recordsAfter_sublist [] requests).subset hmem))
    have hrecords : records (requests ++ [length]) = records requests := by
      rw [records_concat, if_neg hnot]
    rw [if_neg hnot] at hl
    have hlen := perm.length_eq
    have hroom : free.length < p.limit := by
      rw [Pool.available] at hfree
      rw [List.length_cons] at hlen
      omega
    rw [release_of_lt _ _ (by exact hroom)]
    refine ⟨?_, ?_⟩
    · rw [hrecords, List.map_append, List.map_singleton, hg]
      calc free.map Buffer.capacity ++ [b.capacity]
        _ ~ b.capacity :: free.map Buffer.capacity := List.perm_append_singleton _ _
        _ ~ p.free.map Buffer.capacity := perm.map Buffer.capacity
        _ ~ records requests := h.capacities
    · rw [hrecords]
      exact h.allocations

theorem borrows {request : Option Nat} (hb : p.Borrows request p')
    (hl : (records (requests ++ request.toList)).length ≤ p.limit) :
    p'.Settled (requests ++ request.toList) := by
  cases hb with
  | nothing => simpa using h
  | one length entries => exact h.borrow (p.supplies_take length) rfl hl

end Settled

theorem settled_nil (limit : Nat) : ({ limit } : Pool E).Settled [] := ⟨.refl [], rfl⟩

end Scratch.Pool

end MinSum
