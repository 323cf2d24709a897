import Mathlib.Data.List.Nodup
import Mathlib.Order.Bounds.Basic
import MinSum.Energy.Double
import MinSum.Proofs.Edge

/-! Lending the states of several edges at once. Distinct edges of the store are all lent, each in
the slot of its own position. Otherwise the first edge in order that was lent before, or that the
store does not have, is refused. -/
namespace MinSum.EdgeStore

variable {E : Type}

/-- Why edges are not lent by a store of the given size. Repeated edges of the store come first, the
least of them, and then edges that the store does not have, however often they are listed. -/
inductive Refusal (size : Nat) (edges : List Nat) : SolverError E → Prop where
  | duplicate {edge : Nat} (least : IsLeast {e | e < size ∧ 2 ≤ edges.count e} edge) :
      Refusal size edges (.duplicateEdge edge)
  | noSuchEdge {edge : Nat} (distinct : ∀ e < size, edges.count e ≤ 1)
      (least : IsLeast {e | e ∈ edges ∧ size ≤ e} edge) :
      Refusal size edges (.noSuchEdge edge)

namespace Refusal

variable {size : Nat} {edges edges' : List Nat} {error error' : SolverError E}

theorem perm (h : Refusal size edges error) (hp : edges.Perm edges') :
    Refusal size edges' error := by
  cases h with
  | duplicate least =>
    refine .duplicate ?_
    simpa only [hp.count_eq] using least
  | noSuchEdge distinct least =>
    refine .noSuchEdge ?_ ?_
    · simpa only [hp.count_eq] using distinct
    · simpa only [hp.mem_iff] using least

theorem unique (h : Refusal size edges error) (h' : Refusal size edges error') :
    error = error' := by
  cases h with
  | duplicate least =>
    cases h' with
    | duplicate least' => rw [least.unique least']
    | noSuchEdge distinct _ =>
      have hcount := distinct _ least.1.1
      have hrepeated := least.1.2
      omega
  | noSuchEdge distinct least =>
    cases h' with
    | duplicate least' =>
      have hcount := distinct _ least'.1.1
      have hrepeated := least'.1.2
      omega
    | noSuchEdge _ least' => rw [least.unique least']

end Refusal

/-- Edges lent one after another: they are distinct, and the last one stands right before those that
are left. -/
structure Lent (offset : Nat) (edges : List Nat) : Prop where
  nodup : edges.Nodup
  lt : ∀ e ∈ edges, e < offset
  last : ∀ e, e + 1 = offset → e ∈ edges

theorem lent_nil : Lent 0 [] := ⟨List.nodup_nil, by simp, by simp⟩

theorem Lent.concat {offset edge : Nat} {edges : List Nat} (h : Lent offset edges)
    (he : offset ≤ edge) : Lent (edge + 1) (edges ++ [edge]) := by
  have hlt : ∀ e ∈ edges, e < edge := fun e hmem => Nat.lt_of_lt_of_le (h.lt e hmem) he
  refine ⟨?_, ?_, ?_⟩
  · apply List.nodup_append.2
    refine ⟨h.nodup, List.nodup_singleton edge, fun e hmem e' hmem' => ?_⟩
    obtain rfl := List.mem_singleton.1 hmem'
    exact (hlt e hmem).ne
  · intro e hmem
    rcases List.mem_append.1 hmem with hmem | hmem
    · exact Nat.lt_succ_of_lt (hlt e hmem)
    · obtain rfl := List.mem_singleton.1 hmem
      exact Nat.lt_succ_self e
  · intro e heq
    obtain rfl := Nat.succ.inj heq
    exact List.mem_append_right edges (List.mem_singleton_self e)

namespace Lent

variable {size offset edge : Nat} {lent later : List Nat} (h : Lent offset lent)
  (hlater : ∀ e ∈ later, edge ≤ e)

include h hlater

/-- Edges before the next one were lent before, and so they are listed once. -/
theorem count_le_one {e : Nat} (he : e < edge) : (lent ++ edge :: later).count e ≤ 1 := by
  have hnot : e ∉ edge :: later := by
    rw [List.mem_cons, not_or]
    exact ⟨he.ne, fun hmem => Nat.not_le.2 he (hlater e hmem)⟩
  rw [List.count_append, List.count_eq_zero_of_not_mem hnot]
  exact List.nodup_iff_count_le_one.1 h.nodup e

variable (hoffset : offset ≤ size)

include hoffset

/-- An edge that is not left is the last one that was lent. -/
theorem refusal_of_lt (hle : ∀ e ∈ lent, e ≤ edge) (hlt : edge < offset) :
    Refusal size (lent ++ edge :: later) (.duplicateEdge (E := E) edge) := by
  refine .duplicate ⟨⟨Nat.lt_of_lt_of_le hlt hoffset, ?_⟩, fun e he => ?_⟩
  · obtain ⟨last, rfl⟩ := Nat.exists_eq_add_one_of_ne_zero (Nat.ne_zero_of_lt hlt)
    have hmem := h.last last rfl
    obtain rfl : edge = last := Nat.le_antisymm (Nat.le_of_lt_succ hlt) (hle last hmem)
    have hpos : 0 < lent.count edge := List.count_pos_iff.2 hmem
    rw [List.count_append, List.count_cons_self]
    omega
  · by_contra hsmaller
    have hone := h.count_le_one hlater (Nat.not_le.1 hsmaller)
    have htwo := he.2
    omega

theorem refusal_of_le (hout : size ≤ edge) :
    Refusal size (lent ++ edge :: later) (.noSuchEdge (E := E) edge) := by
  refine .noSuchEdge ?_ ⟨⟨List.mem_append_right lent List.mem_cons_self, hout⟩, ?_⟩
  · exact fun e he => h.count_le_one hlater (Nat.lt_of_lt_of_le he hout)
  · rintro e ⟨he, hsize⟩
    rcases List.mem_append.1 he with he | he
    · exact absurd (h.lt e he) (Nat.not_lt.2 (hoffset.trans hsize))
    · rcases List.mem_cons.1 he with rfl | he
      · exact Nat.le_refl e
      · exact hlater e he

end Lent

/-- Unless all edges are distinct edges of the store, one of them is refused. -/
theorem Remains.exists_refusal {a : EdgeStore E} {offset : Nat} {rest : Span E}
    (h : a.Remains offset rest) {lent edges order : List Nat} (hl : Lent offset lent)
    (hs : (order.map (edges.getD · 0)).Pairwise (· ≤ ·))
    (hle : ∀ e ∈ lent, ∀ i ∈ order, e ≤ edges.getD i 0)
    (hbad : ¬((lent ++ order.map (edges.getD · 0)).Nodup ∧
      ∀ e ∈ lent ++ order.map (edges.getD · 0), e < a.size))
    (slots : List (Option (Loan E))) :
    ∃ error, handOut edges rest offset slots order = .error error ∧
      Refusal a.size (lent ++ order.map (edges.getD · 0)) error := by
  induction order generalizing rest offset lent slots with
  | nil =>
    refine absurd ⟨?_, fun e he => ?_⟩ hbad
    · simpa using hl.nodup
    · exact Nat.lt_of_lt_of_le (hl.lt e (by simpa using he)) h.le_size
  | cons i order ih =>
    rw [List.map_cons] at hs hbad ⊢
    obtain ⟨hlater, hs⟩ := List.pairwise_cons.1 hs
    rcases Nat.lt_or_ge (edges.getD i 0) offset with hlt | hge
    · exact ⟨_, handOut_of_lt hlt slots order,
        hl.refusal_of_lt hlater h.le_size (fun e he => hle e he i List.mem_cons_self) hlt⟩
    · rcases Nat.lt_or_ge (edges.getD i 0) a.size with hin | hout
      · obtain ⟨tail, htail, hstep⟩ := h.exists_handOut hge hin slots order
        rw [List.append_cons] at hbad ⊢
        rw [hstep]
        apply ih htail (hl.concat hge) hs _ hbad
        intro e he j hj
        rcases List.mem_append.1 he with he | he
        · exact hle e he j (List.mem_cons_of_mem i hj)
        · rw [List.mem_singleton.1 he]
          exact hlater _ (List.mem_map_of_mem hj)
      · exact ⟨_, h.handOut_of_le hge hout slots order,
          hl.refusal_of_le hlater h.le_size hout⟩

theorem lendInOrder_eq_error {a : EdgeStore E} {edges order : List Nat} (ho : Sorts edges order)
    (hbad : ¬(edges.Nodup ∧ ∀ e ∈ edges, e < a.size)) :
    ∃ error, a.lendInOrder edges order = .error error ∧ Refusal a.size edges error := by
  have hperm := ho.map_perm
  have hbad' : ¬(([] ++ order.map (edges.getD · 0)).Nodup ∧
      ∀ e ∈ [] ++ order.map (edges.getD · 0), e < a.size) := by
    rwa [List.nil_append, hperm.nodup_iff, forall_congr' fun e => imp_congr_left hperm.mem_iff]
  obtain ⟨error, hrefused, hreason⟩ :=
    a.remains_all.exists_refusal lent_nil ho.sorted (by simp) hbad' (List.replicate edges.length none)
  refine ⟨error, ?_, hreason.perm hperm⟩
  rw [lendInOrder, hrefused]

/-- The loans are of the states of the edges, in their order. What is written to them reaches the
edge at the same position, and no other edge. -/
structure Lends (a : EdgeStore E) (edges : List Nat) (loans : List (Loan E)) : Prop where
  length : loans.length = edges.length
  loan : ∀ (k : Nat) edge, edges[k]? = some edge →
    ∃ l, loans[k]? = some l ∧ l.place = edge ∧ a.get edge = .ok l.state
  siblings : a.siblings edges = .ok (loans.map Loan.state)
  size_write : ∀ states, (a.write (loans.map Loan.place) states).size = a.size
  written : ∀ states, states.length = edges.length → ∀ (k : Nat) edge s, edges[k]? = some edge →
    states[k]? = some s → (a.write (loans.map Loan.place) states).get edge = .ok s
  untouched : ∀ states edge, edge ∉ edges →
    (a.write (loans.map Loan.place) states).get edge = a.get edge

theorem lends_map_loan {a : EdgeStore E} {edges : List Nat} (hd : edges.Nodup)
    (h : ∀ e ∈ edges, e < a.size) : a.Lends edges (edges.map a.loan) := by
  have hplaces : (edges.map a.loan).map Loan.place = edges := by
    simp [EdgeStore.loan, Function.comp_def]
  refine ⟨List.length_map _, fun k edge hk => ?_, ?_, fun states => a.size_write _ states,
    fun states hlen k edge s hk hs => ?_, fun states edge hedge => ?_⟩
  · refine ⟨a.loan edge, by rw [List.getElem?_map, hk, Option.map_some], rfl, ?_⟩
    exact get_eq_ok (h edge (List.mem_of_getElem? hk))
  · rw [siblings_eq_ok h, List.map_map]
    rfl
  · obtain ⟨hlt, rfl⟩ := List.getElem?_eq_some_iff.1 hk
    obtain ⟨hlt', rfl⟩ := List.getElem?_eq_some_iff.1 hs
    have hin : edges[k] < (a.write edges states).size :=
      (a.size_write edges states).symm ▸ h _ (List.getElem_mem hlt)
    rw [hplaces, get_eq_ok hin, stateOf_write_getElem a hd h hlt hlt']
  · rw [hplaces]
    rcases Nat.lt_or_ge edge a.size with hlt | hge
    · rw [get_eq_ok hlt, get_eq_ok ((a.size_write edges states).symm ▸ hlt),
        stateOf_write_of_notMem a states h hedge]
    · rw [get_eq_error hge, get_eq_error ((a.size_write edges states).symm ▸ hge)]

/-- Distinct edges of the store are lent, and what is lent are their states. Of other lists none is
lent, and the reason is given. It does not matter how the sort places equal edges. -/
theorem lends_or_refuses (a : EdgeStore E) (edges : List Nat) :
    (edges.Nodup ∧ (∀ e ∈ edges, e < a.size) →
      ∃ loans, a.lend edges = .ok loans ∧ a.Lends edges loans) ∧
    (¬(edges.Nodup ∧ ∀ e ∈ edges, e < a.size) →
      ∃ error, a.lend edges = .error error ∧ Refusal a.size edges error) ∧
    ∀ order, Sorts edges order → a.lendInOrder edges order = a.lend edges := by
  have hsorts := sorts_inOrder edges
  refine ⟨fun ⟨hd, h⟩ => ?_, fun hbad => ?_, fun order ho => ?_⟩
  · exact ⟨_, lendInOrder_eq_ok hsorts hd h, lends_map_loan hd h⟩
  · exact lendInOrder_eq_error hsorts hbad
  · by_cases hgood : edges.Nodup ∧ ∀ e ∈ edges, e < a.size
    · rw [lend, lendInOrder_eq_ok ho hgood.1 hgood.2, lendInOrder_eq_ok hsorts hgood.1 hgood.2]
    · obtain ⟨error, hrefused, hreason⟩ := lendInOrder_eq_error ho hgood
      obtain ⟨error', hrefused', hreason'⟩ := lendInOrder_eq_error hsorts hgood
      rw [lend, hrefused, hrefused', hreason.unique hreason']

private def fourEdges : EdgeStore Float := ⟨#[.uniform 1, .uniform 2, .uniform 3, .uniform 4]⟩

theorem lends_or_refuses_four :
    ([2, 0, 3].Nodup ∧ ∀ e ∈ [2, 0, 3], e < fourEdges.size) ∧
    (∃ loans, fourEdges.lend [2, 0, 3] = .ok loans ∧ fourEdges.Lends [2, 0, 3] loans) ∧
    ¬([3, 7, 1, 3, 1].Nodup ∧ ∀ e ∈ [3, 7, 1, 3, 1], e < fourEdges.size) ∧
    (∃ error, fourEdges.lend [3, 7, 1, 3, 1] = .error error ∧
      Refusal fourEdges.size [3, 7, 1, 3, 1] error) ∧
    fourEdges.lend [3, 7, 1, 3, 1] = .error (.duplicateEdge 1) ∧
    fourEdges.lend [9, 2, 5, 9] = .error (.noSuchEdge 5) ∧
    Sorts [1, 2, 1] [2, 0, 1] ∧
    fourEdges.lendInOrder [1, 2, 1] [2, 0, 1] = fourEdges.lend [1, 2, 1] := by
  have hgood : [2, 0, 3].Nodup ∧ ∀ e ∈ [2, 0, 3], e < fourEdges.size := by decide
  have hbad : ¬([3, 7, 1, 3, 1].Nodup ∧ ∀ e ∈ [3, 7, 1, 3, 1], e < fourEdges.size) := by decide
  have hsorts : Sorts [1, 2, 1] [2, 0, 1] := ⟨by decide, by decide⟩
  have hrepeated := (lends_or_refuses fourEdges [3, 7, 1, 3, 1]).2.2 [4, 2, 0, 3, 1]
    ⟨by decide, by decide⟩
  have hmissing := (lends_or_refuses fourEdges [9, 2, 5, 9]).2.2 [1, 2, 0, 3]
    ⟨by decide, by decide⟩
  exact ⟨hgood, (lends_or_refuses fourEdges _).1 hgood, hbad,
    (lends_or_refuses fourEdges _).2.1 hbad, hrepeated ▸ by decide +kernel,
    hmissing ▸ by decide +kernel, hsorts, (lends_or_refuses fourEdges _).2.2 _ hsorts⟩

end MinSum.EdgeStore
