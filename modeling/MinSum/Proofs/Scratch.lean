import Mathlib.Data.List.Perm.Basic
import MinSum.Scratch

/-! How a pool meets a request. It makes a buffer only if every free one is too small, and of those
that are large enough it hands out a smallest. -/
namespace MinSum.Scratch

open scoped List in
theorem cons_swapRemove_perm {α : Type} {l : List α} {i : Nat} {a : α} (h : l[i]? = some a) :
    (a :: swapRemove l i).Perm l := by
  obtain ⟨hi, rfl⟩ := List.getElem?_eq_some_iff.1 h
  rcases l.eq_nil_or_concat' with rfl | ⟨front, last, rfl⟩
  · contradiction
  rw [List.length_append, List.length_singleton] at hi
  rcases Nat.lt_succ_iff_lt_or_eq.1 hi with hi | rfl
  · have hs : swapRemove (front ++ [last]) i = front.set i last := by
      simp [swapRemove, List.set_append_left _ _ hi]
    rw [hs, List.getElem_append_left hi]
    calc front[i] :: front.set i last
      _ ~ front[i] :: last :: front.eraseIdx i := (List.set_perm_cons_eraseIdx hi last).cons _
      _ ~ last :: front[i] :: front.eraseIdx i := .swap ..
      _ ~ last :: front := (List.getElem_cons_eraseIdx_perm hi).cons _
      _ ~ front ++ [last] := (List.perm_append_singleton last front).symm
  · have hs : swapRemove (front ++ [last]) front.length = front := by
      simp [swapRemove]
    rw [hs, List.getElem_concat_length rfl]
    exact (List.perm_append_singleton last front).symm

namespace Pool

variable {E : Type}

theorem bestFit?_eq_none {length : Nat} {l : List (Buffer E)} (h : bestFit? length l = none) :
    ∀ b ∈ l, b.capacity < length := by
  induction l with
  | nil => simp
  | cons b rest ih =>
    unfold bestFit? at h
    cases hr : bestFit? length rest with
    | none =>
      simp only [hr, ite_eq_right_iff, reduceCtorEq, imp_false, Nat.not_le] at h
      exact List.forall_mem_cons.2 ⟨h, ih hr⟩
    | some found =>
      simp only [hr] at h
      split at h <;> contradiction

theorem bestFit?_eq_some {length i : Nat} {l : List (Buffer E)} {b : Buffer E}
    (h : bestFit? length l = some (i, b)) : l[i]? = some b ∧ length ≤ b.capacity ∧
      ∀ b' ∈ l, length ≤ b'.capacity → b.capacity ≤ b'.capacity := by
  induction l generalizing i b with
  | nil => contradiction
  | cons first rest ih =>
    unfold bestFit? at h
    cases hr : bestFit? length rest with
    | none =>
      simp only [hr, Option.ite_none_right_eq_some, Option.some.injEq, Prod.mk.injEq] at h
      obtain ⟨hlarge, rfl, rfl⟩ := h
      refine ⟨rfl, hlarge, List.forall_mem_cons.2 ⟨fun _ => Nat.le_refl _, fun b hb hle => ?_⟩⟩
      exact absurd hle (Nat.not_le.2 (bestFit?_eq_none hr b hb))
    | some found =>
      obtain ⟨j, best⟩ := found
      obtain ⟨hat, hlarge, hleast⟩ := ih hr
      simp only [hr] at h
      split at h
      · rename_i hfirst
        obtain ⟨rfl, rfl⟩ := Prod.mk.inj (Option.some.inj h)
        refine ⟨rfl, hfirst.1, List.forall_mem_cons.2 ⟨fun _ => Nat.le_refl _, fun b hb hle => ?_⟩⟩
        exact Nat.le_trans hfirst.2 (hleast b hb hle)
      · rename_i hfirst
        obtain ⟨rfl, rfl⟩ := Prod.mk.inj (Option.some.inj h)
        refine ⟨hat, hlarge, List.forall_mem_cons.2 ⟨fun hle => ?_, hleast⟩⟩
        exact Nat.le_of_not_le fun hsmaller => hfirst ⟨hle, hsmaller⟩

/-- What a pool has for a request for `length` numbers: the buffer handed out and the pool left. -/
inductive Supplies (p : Pool E) (length : Nat) : Buffer E → Pool E → Prop where
  | made (small : ∀ b ∈ p.free, b.capacity < length) (entries : List E) :
      Supplies p length ⟨length, entries⟩ { p with allocations := p.allocations + 1 }
  | reused {b : Buffer E} {free : List (Buffer E)} (perm : (b :: free).Perm p.free)
      (large : length ≤ b.capacity)
      (smallest : ∀ b' ∈ p.free, length ≤ b'.capacity → b.capacity ≤ b'.capacity)
      (entries : List E) : Supplies p length { b with entries } { p with free }

namespace Supplies

variable {p p' : Pool E} {length : Nat} {b : Buffer E}

theorem withEntries (h : p.Supplies length b p') (entries : List E) :
    p.Supplies length { b with entries } p' := by
  cases h with
  | made small => exact .made small entries
  | reused perm large smallest => exact .reused perm large smallest entries

theorem le_capacity (h : p.Supplies length b p') : length ≤ b.capacity := by
  cases h with
  | made => exact Nat.le_refl length
  | reused _ large => exact large

theorem limit_eq (h : p.Supplies length b p') : p'.limit = p.limit := by
  cases h <;> rfl

theorem mem_free (h : p.Supplies length b p') {b' : Buffer E} (hb : b' ∈ p'.free) :
    b' ∈ p.free := by
  cases h with
  | made => exact hb
  | reused perm => exact perm.subset (List.mem_cons_of_mem _ hb)

theorem available_le (h : p.Supplies length b p') : p'.available ≤ p.available := by
  cases h with
  | made => exact Nat.le_refl _
  | reused perm => exact Nat.le_of_succ_le (Nat.le_of_eq perm.length_eq)

/-- One buffer more is neither free nor new. -/
theorem balance (h : p.Supplies length b p') :
    p'.allocations + p.available = p.allocations + p'.available + 1 := by
  cases h with
  | made =>
    simp only [available]
    omega
  | reused perm =>
    have hlen := perm.length_eq
    simp only [available, List.length_cons] at hlen ⊢
    omega

theorem allocates_iff (h : p.Supplies length b p') :
    p'.allocations = p.allocations + 1 ↔ ∀ b ∈ p.free, b.capacity < length := by
  cases h with
  | made small => exact iff_of_true rfl small
  | reused perm large =>
    refine iff_of_false (Nat.succ_ne_self _).symm fun hsmall => ?_
    exact Nat.not_lt.2 large (hsmall _ (perm.subset List.mem_cons_self))

end Supplies

theorem supplies_take (p : Pool E) (length : Nat) :
    p.Supplies length (p.take length).1 (p.take length).2 := by
  unfold take
  cases h : bestFit? length p.free with
  | none => exact .made (bestFit?_eq_none h) []
  | some found =>
    obtain ⟨hat, hlarge, hleast⟩ := bestFit?_eq_some h
    exact .reused (cons_swapRemove_perm hat) hlarge hleast []

theorem supplies_acquire [Zero E] (p : Pool E) (length : Nat) :
    p.Supplies length (p.acquire length).1 (p.acquire length).2 :=
  (p.supplies_take length).withEntries _

theorem supplies_acquireCopy (p : Pool E) (l : List E) :
    p.Supplies l.length (p.acquireCopy l).1 (p.acquireCopy l).2 :=
  (p.supplies_take l.length).withEntries _

variable (p : Pool E) (b : Buffer E)

theorem release_of_lt (h : p.available < p.limit) :
    p.release b = { p with free := p.free ++ [b] } := if_pos h

theorem release_of_le (h : p.limit ≤ p.available) : p.release b = p := if_neg (Nat.not_lt.2 h)

@[simp] theorem limit_release : (p.release b).limit = p.limit := by
  unfold release
  split <;> rfl

@[simp] theorem allocations_release : (p.release b).allocations = p.allocations := by
  unfold release
  split <;> rfl

theorem available_release : (p.release b).available =
    if p.available < p.limit then p.available + 1 else p.available := by
  split
  · rename_i h
    rw [release_of_lt p b h, available, List.length_append]
    rfl
  · rename_i h
    rw [release_of_le p b (Nat.not_lt.1 h)]

theorem mem_free_release {b' : Buffer E} (h : b' ∈ (p.release b).free) : b' ∈ p.free ∨ b' = b := by
  rcases Nat.lt_or_ge p.available p.limit with hlt | hge
  · rw [release_of_lt p b hlt] at h
    exact (List.mem_append.1 h).imp_right List.mem_singleton.1
  · rw [release_of_le p b hge] at h
    exact .inl h

end Pool

end MinSum.Scratch
