import Mathlib.Data.List.GetD
import Mathlib.Data.Multiset.Basic
import MinSum.Proofs.LeaveOneOut
import MinSum.Proofs.Table.Sound

/-! The messages of a table in exact energies. Rows stand for assignments: the least over the
rows with a value is the least over all assignments with it, whether the sums are formed port by
port or once for all ports, and whether or not blocked rows are skipped. -/
namespace MinSum

variable {K : Type} [Field K] [LinearOrder K]

theorem Extended.value_foldl_add (xs : List (Extended K)) (x : Extended K) :
    (xs.foldl (· + ·) x).value = x.value + (xs.map value).sum := by
  induction xs generalizing x with
  | nil => simp
  | cons y xs ih => rw [List.foldl_cons, ih, value_add, List.map_cons, List.sum_cons, add_assoc]

theorem Extended.proper_foldl_add {xs : List (Extended K)} (hs : ∀ y ∈ xs, y.Proper)
    {x : Extended K} (hx : x.Proper) : (xs.foldl (· + ·) x).Proper := by
  induction xs generalizing x with
  | nil => exact hx
  | cons y xs ih => exact ih (fun z hz => hs z (by simp [hz])) (hx.add (hs y (by simp)))

theorem LeaveOneOut.Sums.not_isBlocked {s : LeaveOneOut (Extended K)} {x : WithTop K}
    {terms : Multiset (WithTop K)} (h : s.Sums (x ::ₘ terms)) (ht : terms.sum ≠ ⊤) :
    s.isBlocked = false := by
  rw [sum_eq_ite] at ht
  have hc : terms.count ⊤ = 0 := by
    by_contra hc
    exact ht (if_neg hc)
  have hle : (x ::ₘ terms).count ⊤ ≤ 1 := by
    have := Multiset.count_cons (⊤ : WithTop K) x terms
    split at this <;> omega
  rw [isBlocked, h.infinite]
  simpa using hle

theorem Row.unsigned_eq (r : Row (Extended K)) : r.unsigned = r :=
  congrArg (Row.mk r.indices) (Extended.unsigned_eq r.energy)

theorem Row.map_unsigned (rows : List (Row (Extended K))) : rows.map Row.unsigned = rows :=
  List.map_id'' unsigned_eq rows

theorem Row.Fits.proper {sizes : List Nat} {r : Row (Extended K)} (h : r.Fits sizes) :
    r.energy.Proper := by
  obtain ⟨e, he, hr⟩ := h.energy
  rw [hr, Energy.unsigned]
  split
  · exact Extended.proper_zero
  · exact he

namespace Table

/-- The energy of an assignment plus what is received on the ports other than `port`. -/
def restCost (t : Table (Extended K)) (inputs : List (Message (Extended K))) (port : Nat)
    (indices : List Nat) : WithTop K :=
  (t.energyOf indices).value + (((received inputs indices).eraseIdx port).map Extended.value).sum

/-- Only rows have a finite cost. -/
theorem exists_of_restCost_ne_top {t : Table (Extended K)} {inputs : List (Message (Extended K))}
    {port : Nat} {indices : List Nat} (hne : t.restCost inputs port indices ≠ ⊤) :
    ∃ r ∈ t.rows, r.indices = indices :=
  exists_of_energyOf_ne_top fun he => hne (by simp [restCost, he])

omit [Field K] [LinearOrder K] in
theorem received_map {E : Type} [Energy E] (edges : List Nat) (inputs : Nat → Message E)
    (index : Nat → Nat) : received (edges.map inputs) (edges.map index) =
      edges.map fun e => (inputs e).entry (index e) := by
  simp [received, List.zipWith_map, List.zipWith_self]

theorem proper_received {inputs : List (Message (Extended K))} (hm : ∀ m ∈ inputs, m.Proper)
    (indices : List Nat) : ∀ x ∈ received inputs indices, x.Proper := by
  intro x hx
  obtain ⟨p, hp⟩ := List.mem_iff_getElem?.1 hx
  rw [received, List.getElem?_zipWith_eq_some] at hp
  obtain ⟨i, m, -, hm', rfl⟩ := hp
  exact (hm m (List.mem_of_getElem? hm')).entry i

/-- The sums of the rows that hold a value, found by the positions of the rows. -/
theorem filterMap_summed {E : Type} [Energy E] (t : Table E) (inputs : List (Message E))
    (port v : Nat) : (t.rowsAt port v).filterMap ((t.rows.map (summed inputs))[·]?) =
      (t.rowsHolding port v).map (summed inputs) := by
  simp only [rowsHolding, List.map_filterMap, Array.getElem?_map]

theorem Sound.proper_costWithout {t : Table (Extended K)} (h : t.Sound)
    {inputs : List (Message (Extended K))} (hm : ∀ m ∈ inputs, m.Proper) {r : Row (Extended K)}
    (hr : r ∈ t.rows) (port : Nat) : (costWithout inputs port r).Proper :=
  Extended.proper_foldl_add
    (fun x hx => proper_received hm r.indices x (List.mem_of_mem_eraseIdx hx)) (h.fits r hr).proper

theorem Sound.proper_costWithout_summed {t : Table (Extended K)} (h : t.Sound)
    {inputs : List (Message (Extended K))} (hm : ∀ m ∈ inputs, m.Proper) {r : Row (Extended K)}
    (hr : r ∈ t.rows) (port : Nat) : ((summed inputs r).costWithout port).Proper := by
  have hprop := proper_received hm r.indices
  have hsum := (LeaveOneOut.Sums.of (h.fits r hr).proper).foldl_add hprop
  apply hsum.proper_without
  rw [summed, List.getD_eq_getElem?_getD]
  cases hx : (received inputs r.indices)[port]? with
  | none => exact Extended.proper_top
  | some x => exact hprop x (List.mem_of_getElem? hx)

theorem Sound.length_received {E : Type} [Energy E] {t : Table E} (h : t.Sound)
    {inputs : List (Message E)} (hl : inputs.length = t.sizes.length) {r : Row E}
    (hr : r ∈ t.rows) : (received inputs r.indices).length = inputs.length := by
  rw [received, List.length_zipWith, (h.fits r hr).length, hl, min_self]

/-- The costs of rows that stand for the assignments with a value at a port. -/
structure Stands {α : Type} (t : Table (Extended K)) (inputs : List (Message (Extended K)))
    (port v : Nat) (cost : α → Extended K) (rows : List α) : Prop where
  proper : ∀ a ∈ rows, (cost a).Proper
  row : ∀ a ∈ rows, ∃ r ∈ t.rowsHolding port v, t.restCost inputs port r.indices = (cost a).value
  found : ∀ r ∈ t.rowsHolding port v, t.restCost inputs port r.indices ≠ ⊤ →
    ∃ a ∈ rows, (cost a).value = t.restCost inputs port r.indices

namespace Sound

variable {t : Table (Extended K)} (h : t.Sound) {inputs : List (Message (Extended K))}
  (hm : ∀ m ∈ inputs, m.Proper) {port : Nat}

include h

/-- The least over such rows is the least over the assignments. -/
theorem least_isMinOver {α : Type} {cost : α → Extended K} {rows : List α} {v : Nat}
    (hs : t.Stands inputs port v cost rows) :
    IsMinOver (fun indices : List Nat => indices[port]? = some v) (t.restCost inputs port)
      (least cost rows).value := by
  refine (Table.least_isMinOver hs.proper).transfer ?_ ?_
  · intro indices hv hne
    obtain ⟨r, hr, rfl⟩ := exists_of_restCost_ne_top hne
    obtain ⟨a, ha, hc⟩ := hs.found r (h.mem_rowsHolding.2 ⟨hr, hv⟩) hne
    exact ⟨a, ha, hc.le⟩
  · intro a ha _
    obtain ⟨r, hr, hc⟩ := hs.row a ha
    exact ⟨r.indices, (h.mem_rowsHolding.1 hr).2, hc⟩

include hm

theorem stands_costWithout (v : Nat) :
    t.Stands inputs port v (costWithout inputs port) (t.rowsHolding port v) := by
  have hc : ∀ r ∈ t.rowsHolding port v,
      t.restCost inputs port r.indices = (costWithout inputs port r).value := by
    intro r hr
    rw [restCost, h.energyOf_of_mem (h.mem_rowsHolding.1 hr).1, costWithout,
      Extended.value_foldl_add]
  refine ⟨fun r hr => ?_, fun r hr => ⟨r, hr, hc r hr⟩, fun r hr _ => ⟨r, hr, (hc r hr).symm⟩⟩
  exact h.proper_costWithout hm (h.mem_rowsHolding.1 hr).1 port

variable (hp : port < t.sizes.length) (hl : inputs.length = t.sizes.length)

include hp hl

/-- What the sums of a row consist of, with the term of one port in front. -/
theorem exists_sums_summed {r : Row (Extended K)} (hr : r ∈ t.rows) :
    ∃ x : Extended K, x.Proper ∧ (summed inputs r).received.getD port Energy.top = x ∧
      (summed inputs r).sum.Sums (x.value ::ₘ (r.energy.value ::ₘ
        (((received inputs r.indices).eraseIdx port).map Extended.value : List (WithTop K)))) := by
  have hlen := (h.length_received hl hr).trans hl
  have hx := List.getElem?_eq_getElem (hlen ▸ hp)
  have hprop := proper_received hm r.indices
  have hsum := (LeaveOneOut.Sums.of (h.fits r hr).proper).foldl_add hprop
  refine ⟨_, hprop _ (List.getElem_mem (hlen ▸ hp)), List.getD_eq_getElem _ _ (hlen ▸ hp), ?_⟩
  have hcons := coe_eq_cons_eraseIdx (l := (received inputs r.indices).map Extended.value)
    (p := port) (by rw [List.getElem?_map, hx]; rfl)
  rw [hcons, List.eraseIdx_map, Multiset.singleton_add, Multiset.cons_swap] at hsum
  exact hsum

theorem stands_summed (v : Nat) : t.Stands inputs port v (Summed.costWithout · port)
    (((t.rowsHolding port v).map (summed inputs)).filter fun s => !s.sum.isBlocked) := by
  have hc : ∀ r ∈ t.rowsHolding port v, ((summed inputs r).costWithout port).Proper ∧
      t.restCost inputs port r.indices = ((summed inputs r).costWithout port).value ∧
      (t.restCost inputs port r.indices ≠ ⊤ → (summed inputs r).sum.isBlocked = false) := by
    intro r hr
    have hrow := (h.mem_rowsHolding.1 hr).1
    obtain ⟨x, hx, hget, hsum⟩ := h.exists_sums_summed hm hp hl hrow
    obtain ⟨hpr, hval⟩ := hsum.without hx
    have hcost : t.restCost inputs port r.indices = (r.energy.value ::ₘ
        (((received inputs r.indices).eraseIdx port).map Extended.value :
          Multiset (WithTop K))).sum := by
      rw [restCost, h.energyOf_of_mem hrow, Multiset.sum_cons, Multiset.sum_coe]
    rw [Summed.costWithout, hget, hcost, hval]
    exact ⟨hpr, rfl, hsum.not_isBlocked⟩
  refine ⟨?_, ?_, fun r hr hne => ?_⟩
  · intro a ha
    obtain ⟨r, hr, rfl⟩ := List.mem_map.1 (List.mem_filter.1 ha).1
    exact (hc r hr).1
  · intro a ha
    obtain ⟨r, hr, rfl⟩ := List.mem_map.1 (List.mem_filter.1 ha).1
    exact ⟨r, hr, (hc r hr).2.1⟩
  · refine ⟨summed inputs r, List.mem_filter.2 ⟨List.mem_map_of_mem hr, ?_⟩, (hc r hr).2.1.symm⟩
    simp [(hc r hr).2.2 hne]

end Sound

/-- The message holds at each value the least cost of an assignment with it. -/
structure Sends (t : Table (Extended K)) (inputs : List (Message (Extended K))) (port : Nat)
    (m : Message (Extended K)) : Prop where
  proper : m.Proper
  isMinOver : ∀ v, IsMinOver (fun indices : List Nat => indices[port]? = some v)
    (t.restCost inputs port) (m.valueAt v)

theorem Sends.unique {t : Table (Extended K)} {inputs : List (Message (Extended K))} {port : Nat}
    {m m' : Message (Extended K)} (h : t.Sends inputs port m) (h' : t.Sends inputs port m')
    (hl : m.length = m'.length) : m = m' :=
  h.proper.ext h'.proper hl fun x _ => (h.isMinOver x).unique (h'.isMinOver x)

namespace Sound

variable {t : Table (Extended K)} (h : t.Sound) {inputs : List (Message (Extended K))}
  (hm : ∀ m ∈ inputs, m.Proper) {port size : Nat} (hp : t.sizes[port]? = some size)

include h hp

/-- The leasts over the rows, one for each value, form such a message. -/
theorem sends_map_least {α : Type} {cost : α → Extended K} {rows : Nat → List α}
    (hs : ∀ v, t.Stands inputs port v cost (rows v)) :
    t.Sends inputs port ((List.range size).map fun v => least cost (rows v)) := by
  refine ⟨?_, fun v => ?_⟩
  · intro x hx
    obtain ⟨v, -, rfl⟩ := List.mem_map.1 hx
    exact proper_least (hs v).proper
  · have hv := h.least_isMinOver (hs v)
    rcases Nat.lt_or_ge v size with hlv | hlv
    · rwa [Message.valueAt_eq, List.getElem?_map, List.getElem?_range hlv]
    · -- Values out of range have no rows.
      rw [Message.valueAt_of_le (by simpa using hlv)]
      refine ⟨fun indices hi => ?_, fun hne => absurd rfl hne⟩
      by_contra hlt
      obtain ⟨r, hr, rfl⟩ := exists_of_restCost_ne_top fun htop => hlt htop.ge
      exact Nat.not_lt.2 hlv ((h.fits r hr).lt port v size hi hp)

include hm

theorem sends_message : t.Sends inputs port (t.message inputs port size) :=
  h.sends_map_least hp (h.stands_costWithout hm)

/-- The sums shared by all ports give the same. -/
theorem sends_messages (hl : inputs.length = t.sizes.length) :
    ∃ m, (t.messages inputs t.sizes)[port]? = some m ∧ t.Sends inputs port m := by
  have hlt : port < t.sizes.length := (List.getElem?_eq_some_iff.1 hp).1
  refine ⟨_, ?_, h.sends_map_least hp (h.stands_summed hm hlt hl)⟩
  simp only [messages, List.getElem?_mapIdx, hp, Option.map_some, filterMap_summed]

end Sound

end Table

end MinSum
