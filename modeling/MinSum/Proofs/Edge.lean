import Mathlib.Tactic.Common
import MinSum.Edge

/-! Reading and writing the states of several edges of a store. -/
namespace MinSum

namespace EdgeMessages

variable {E : Type} [Energy E]

structure HasSize (s : EdgeMessages E) (size : Nat) : Prop where
  toFactor : s.toFactor.length = size
  toVariable : s.toVariable.length = size

theorem HasSize.uniform (size : Nat) : (uniform size : EdgeMessages E).HasSize size := by
  constructor <;> simp [EdgeMessages.uniform, Message.uniform]

theorem HasSize.reset {s : EdgeMessages E} {size : Nat} (h : s.HasSize size) :
    s.reset.HasSize size := by
  constructor <;> simp [EdgeMessages.reset, Message.uniform, h.toFactor, h.toVariable]

theorem length_of_checkMessage {m : Message E} {size : Nat}
    (h : checkMessage m size = .ok ()) : m.length = size := by
  unfold checkMessage at h
  split_ifs at h with hl
  · exact Decidable.not_not.1 hl

theorem isAdmissible_of_checkMessage {m : Message E} {size : Nat}
    (h : checkMessage m size = .ok ()) : ∀ x ∈ m, Energy.isAdmissible x = true := by
  unfold checkMessage at h
  split_ifs at h with hl
  cases hf : m.find? (!Energy.isAdmissible ·) with
  | some x => simp [hf] at h
  | none => simpa using hf

/-- A message is accepted as a whole, or nothing changes. -/
theorem setToFactor_eq_ok {s s' : EdgeMessages E} {m : Message E}
    (h : s.setToFactor m = .ok s') :
    checkMessage m s.domainSize = .ok () ∧ s' = { s with toFactor := m } := by
  unfold setToFactor at h
  split at h
  · contradiction
  · rename_i hc
    exact ⟨hc, (Except.ok.inj h).symm⟩

theorem setToVariable_eq_ok {s s' : EdgeMessages E} {m : Message E}
    (h : s.setToVariable m = .ok s') :
    checkMessage m s.domainSize = .ok () ∧ s' = { s with toVariable := m } := by
  unfold setToVariable at h
  split at h
  · contradiction
  · rename_i hc
    exact ⟨hc, (Except.ok.inj h).symm⟩

theorem HasSize.setToFactor {s s' : EdgeMessages E} {m : Message E} {size : Nat}
    (hs : s.HasSize size) (h : s.setToFactor m = .ok s') : s'.HasSize size := by
  obtain ⟨hc, rfl⟩ := setToFactor_eq_ok h
  exact ⟨(length_of_checkMessage hc).trans hs.toFactor, hs.toVariable⟩

theorem HasSize.setToVariable {s s' : EdgeMessages E} {m : Message E} {size : Nat}
    (hs : s.HasSize size) (h : s.setToVariable m = .ok s') : s'.HasSize size := by
  obtain ⟨hc, rfl⟩ := setToVariable_eq_ok h
  exact ⟨hs.toFactor, (length_of_checkMessage hc).trans hs.toFactor⟩

end EdgeMessages

namespace EdgeStore

variable {E : Type}

/-- The state of an edge; an edge without a state counts as one with empty messages. -/
def stateOf (a : EdgeStore E) (edge : Nat) : EdgeMessages E := a.states.getD edge ⟨[], []⟩

theorem getElem?_states {a : EdgeStore E} {edge : Nat} (h : edge < a.size) :
    a.states[edge]? = some (a.stateOf edge) := by
  simp only [size] at h
  simp [stateOf, h]

theorem get_eq_ok {a : EdgeStore E} {edge : Nat} (h : edge < a.size) :
    a.get edge = .ok (a.stateOf edge) := by
  rw [get, getElem?_states h]

theorem get_eq_error {a : EdgeStore E} {edge : Nat} (h : a.size ≤ edge) :
    a.get edge = .error (.noSuchEdge edge) := by
  simp only [size] at h
  simp [get, Array.getElem?_eq_none h]

@[simp] theorem size_set (a : EdgeStore E) (edge : Nat) (s : EdgeMessages E) :
    (a.set edge s).size = a.size := by
  simp [set, size]

theorem stateOf_of_le {a : EdgeStore E} {edge : Nat} (h : a.size ≤ edge) :
    a.stateOf edge = ⟨[], []⟩ := by
  change a.states.size ≤ edge at h
  simp [stateOf, h]

theorem stateOf_set (a : EdgeStore E) {edge : Nat} (s : EdgeMessages E) (e : Nat)
    (h : edge < a.size) : (a.set edge s).stateOf e = if e = edge then s else a.stateOf e := by
  simp only [size] at h
  simp only [stateOf, set, Array.getD_eq_getD_getElem?, Array.getElem?_setIfInBounds]
  by_cases he : e = edge
  · subst he
    simp [h]
  · simp [he, Ne.symm he]

theorem stateOf_push (a : EdgeStore E) (s : EdgeMessages E) (e : Nat) :
    (a.push s).stateOf e = if e = a.size then s else a.stateOf e := by
  simp only [stateOf, push, size, Array.getD_eq_getD_getElem?, Array.getElem?_push]
  split <;> rfl

theorem siblings_eq_ok {a : EdgeStore E} {edges : List Nat} (h : ∀ e ∈ edges, e < a.size) :
    a.siblings edges = .ok (edges.map a.stateOf) := by
  induction edges with
  | nil => rfl
  | cons edge edges ih =>
    simp [siblings, get_eq_ok (h edge (by simp)), ih fun e he => h e (by simp [he])]

def loan (a : EdgeStore E) (edge : Nat) : Loan E := ⟨edge, a.stateOf edge⟩

theorem handOut_of_lt {edges : List Nat} {rest : Span E} {offset i : Nat}
    (hi : edges.getD i 0 < offset) (slots : List (Option (Loan E))) (order : List Nat) :
    handOut edges rest offset slots (i :: order) = .error (.duplicateEdge (edges.getD i 0)) := by
  rw [handOut, if_pos hi]

/-- The states that are left of a store, from edge `offset` on. -/
structure Remains (a : EdgeStore E) (offset : Nat) (rest : Span E) : Prop where
  states : rest.states = a.states
  start : rest.start = offset
  stop : rest.stop = a.size

theorem remains_all (a : EdgeStore E) : a.Remains 0 (.all a.states) := ⟨rfl, rfl, rfl⟩

namespace Remains

variable {a : EdgeStore E} {offset : Nat} {rest : Span E} (h : a.Remains offset rest)

include h

theorem size_eq : rest.size = a.size - offset := by
  rw [Span.size, h.start, h.stop]

theorem le_size : offset ≤ a.size := h.start ▸ h.stop ▸ rest.start_le

variable {edges : List Nat} {i : Nat}

theorem handOut_of_le (hi : offset ≤ edges.getD i 0) (hs : a.size ≤ edges.getD i 0)
    (slots : List (Option (Loan E))) (order : List Nat) :
    handOut edges rest offset slots (i :: order) = .error (.noSuchEdge (edges.getD i 0)) := by
  have hrest : rest.size ≤ edges.getD i 0 - offset := h.size_eq ▸ Nat.sub_le_sub_right hs offset
  rw [handOut, if_neg (Nat.not_lt.2 hi), dif_pos hrest]

/-- The state of the edge stands last in what is split off, and the states behind it remain. -/
theorem exists_handOut (hi : offset ≤ edges.getD i 0) (hs : edges.getD i 0 < a.size)
    (slots : List (Option (Loan E))) (order : List Nat) :
    ∃ tail, a.Remains (edges.getD i 0 + 1) tail ∧
      handOut edges rest offset slots (i :: order) =
        handOut edges tail (edges.getD i 0 + 1) (slots.set i (some (a.loan (edges.getD i 0))))
          order := by
  have hrest : ¬rest.size ≤ edges.getD i 0 - offset := by
    rw [h.size_eq]
    omega
  have hstart : rest.start + (edges.getD i 0 - offset + 1) = edges.getD i 0 + 1 := by
    rw [h.start]
    omega
  let split := rest.splitAt (edges.getD i 0 - offset + 1) (Nat.not_le.1 hrest)
  have hlast : split.1.last? = some (a.loan (edges.getD i 0)) := by
    have hlt : rest.start < edges.getD i 0 + 1 := h.start ▸ Nat.lt_succ_of_le hi
    simp only [split, Span.splitAt, Span.last?, hstart, if_pos hlt, h.states, Nat.add_sub_cancel,
      getElem?_states hs]
    rfl
  refine ⟨split.2, ⟨h.states, hstart, h.stop⟩, ?_⟩
  rw [handOut, if_neg (Nat.not_lt.2 hi), dif_neg hrest, ← hlast]

/-- Edges that increase are all lent, each to its own slot. -/
theorem handOut_eq_ok {slots : List (Option (Loan E))} {order : List Nat}
    (hs : (order.map (edges.getD · 0)).Pairwise (· < ·))
    (hlo : ∀ i ∈ order, offset ≤ edges.getD i 0) (hlt : ∀ i ∈ order, edges.getD i 0 < a.size) :
    handOut edges rest offset slots order =
      .ok (order.foldl (fun slots i => slots.set i (some (a.loan (edges.getD i 0)))) slots) := by
  induction order generalizing rest offset slots with
  | nil => rfl
  | cons i order ih =>
    rw [List.map_cons, List.pairwise_cons] at hs
    obtain ⟨tail, htail, hstep⟩ := h.exists_handOut (hlo i List.mem_cons_self)
      (hlt i List.mem_cons_self) slots order
    rw [hstep, List.foldl_cons]
    exact ih htail hs.2 (fun j hj => hs.1 _ (List.mem_map_of_mem hj))
      fun j hj => hlt j (List.mem_cons_of_mem i hj)

end Remains

/-- The order lists all positions of the edges, and never a greater edge before a smaller one. -/
structure Sorts (edges order : List Nat) : Prop where
  perm : order.Perm (List.range edges.length)
  sorted : (order.map (edges.getD · 0)).Pairwise (· ≤ ·)

theorem sorts_inOrder (edges : List Nat) : Sorts edges (inOrder edges) := by
  have hsorted : (inOrder edges).Pairwise
      fun i j => decide (edges.getD i 0 ≤ edges.getD j 0) = true := List.pairwise_mergeSort
    (fun i j k => by simp only [decide_eq_true_eq]; omega)
    (fun i j => by simp only [Bool.or_eq_true, decide_eq_true_eq]; omega) _
  refine ⟨List.mergeSort_perm _ _, ?_⟩
  rw [List.pairwise_map]
  exact hsorted.imp of_decide_eq_true

namespace Sorts

variable {edges order : List Nat} (h : Sorts edges order)

include h

theorem map_perm : (order.map (edges.getD · 0)).Perm edges := by
  have hedges : (List.range edges.length).map (edges.getD · 0) = edges := by
    apply List.ext_getElem
    · simp
    · intro k h₁ h₂
      simp [h₂]
  have hperm := h.perm.map (edges.getD · 0)
  rwa [hedges] at hperm

theorem strict (hd : edges.Nodup) : (order.map (edges.getD · 0)).Pairwise (· < ·) := by
  have hnodup := h.map_perm.nodup_iff.2 hd
  exact (h.sorted.and hnodup).imp fun hab => Nat.lt_of_le_of_ne hab.1 hab.2

end Sorts

theorem getElem?_foldl_set {α : Type} (f : Nat → α) (order : List Nat) (l : List α) (k : Nat) :
    (order.foldl (fun l i => l.set i (f i)) l)[k]? =
      if k ∈ order ∧ k < l.length then some (f k) else l[k]? := by
  induction order generalizing l with
  | nil => simp
  | cons i order ih =>
    rw [List.foldl_cons, ih, List.length_set, List.getElem?_set]
    grind

/-- Distinct edges of the store are lent, whichever order sorts them. -/
theorem lendInOrder_eq_ok {a : EdgeStore E} {edges order : List Nat} (ho : Sorts edges order)
    (hd : edges.Nodup) (h : ∀ e ∈ edges, e < a.size) :
    a.lendInOrder edges order = .ok (edges.map a.loan) := by
  have hlt : ∀ i ∈ order, edges.getD i 0 < a.size := fun i hi =>
    h _ (ho.map_perm.mem_iff.1 (List.mem_map_of_mem hi))
  have hslots : order.foldl (fun slots i => slots.set i (some (a.loan (edges.getD i 0))))
      (List.replicate edges.length none) = edges.map fun e => some (a.loan e) := by
    apply List.ext_getElem?
    intro k
    have hmem : k ∈ order ↔ k < edges.length := ho.perm.mem_iff.trans List.mem_range
    rw [getElem?_foldl_set, List.getElem?_map]
    rcases Nat.lt_or_ge k edges.length with hk | hk
    · simp [hmem, hk]
    · simp [hmem, Nat.not_lt.2 hk]
  rw [lendInOrder,
    a.remains_all.handOut_eq_ok (ho.strict hd) (fun _ _ => Nat.zero_le _) hlt, hslots]
  simp [List.filterMap_map]

theorem exclusive_eq_ok {a : EdgeStore E} {edges : List Nat} (hd : edges.Nodup)
    (h : ∀ e ∈ edges, e < a.size) : a.exclusive edges = .ok (edges.map a.stateOf) := by
  rw [exclusive, lend, lendInOrder_eq_ok (sorts_inOrder edges) hd h]
  simp [loan]

theorem size_write (a : EdgeStore E) (edges : List Nat) (states : List (EdgeMessages E)) :
    (a.write edges states).size = a.size := by
  unfold write
  induction edges.zip states generalizing a with
  | nil => rfl
  | cons x l ih =>
    rw [List.foldl_cons, ih, size_set]

theorem write_cons (a : EdgeStore E) (edge : Nat) (edges : List Nat) (s : EdgeMessages E)
    (states : List (EdgeMessages E)) :
    a.write (edge :: edges) (s :: states) = (a.set edge s).write edges states := rfl

theorem stateOf_write_of_notMem (a : EdgeStore E) {edges : List Nat}
    (states : List (EdgeMessages E)) {e : Nat} (h : ∀ e ∈ edges, e < a.size) (he : e ∉ edges) :
    (a.write edges states).stateOf e = a.stateOf e := by
  induction edges generalizing a states with
  | nil => rfl
  | cons edge edges ih =>
    cases states with
    | nil => rfl
    | cons s states =>
      rw [List.mem_cons, not_or] at he
      rw [write_cons, ih _ _ (fun e he => by simpa using h e (by simp [he])) he.2,
        stateOf_set _ _ _ (h edge (by simp)), if_neg he.1]

theorem stateOf_write_getElem (a : EdgeStore E) {edges : List Nat}
    {states : List (EdgeMessages E)} (hd : edges.Nodup) (h : ∀ e ∈ edges, e < a.size)
    {k : Nat} (hk : k < edges.length) (hk' : k < states.length) :
    (a.write edges states).stateOf edges[k] = states[k] := by
  induction edges generalizing a states k with
  | nil => simp at hk
  | cons edge edges ih =>
    rw [List.nodup_cons] at hd
    cases states with
    | nil => simp at hk'
    | cons s states =>
      have hlt : ∀ e ∈ edges, e < (a.set edge s).size :=
        fun e he => by simpa using h e (by simp [he])
      rw [write_cons]
      cases k with
      | zero =>
        simp only [List.getElem_cons_zero]
        rw [stateOf_write_of_notMem _ _ hlt hd.1, stateOf_set _ _ _ (h edge (by simp)), if_pos rfl]
      | succ k =>
        simp only [List.getElem_cons_succ]
        exact ih _ hd.2 hlt (by simpa using hk) (by simpa using hk')

@[simp] theorem size_reset [Energy E] (a : EdgeStore E) : a.reset.size = a.size := by
  simp [reset, size]

theorem stateOf_reset [Energy E] (a : EdgeStore E) (e : Nat) :
    a.reset.stateOf e = (a.stateOf e).reset := by
  simp only [stateOf, reset, Array.getD_eq_getD_getElem?, Array.getElem?_map]
  cases a.states[e]? <;> rfl

end EdgeStore

end MinSum
