import Mathlib.Data.List.Nodup
import MinSum.Proofs.CustomFactor.Equality
import MinSum.Proofs.Table.Message

/-! The table of an equality: its rows are the assignments that give all ports one value. It has
the energies of the equality factor and sends the same messages. -/
namespace MinSum.Table

section

variable {E : Type} [Energy E]

theorem received_replicate (inputs : List (Message E)) (x : Nat) :
    received inputs (List.replicate inputs.length x) = inputs.map (·.entry x) := by
  induction inputs with
  | nil => rfl
  | cons m inputs ih => exact congrArg (m.entry x :: ·) ih

/-- The assignments of `arity` ports that give all of them one value below `size`, at no energy. -/
def agreeingRows (arity size : Nat) : List (Row E) :=
  (List.range size).map fun i => ⟨List.replicate arity i, 0⟩

/-- The table that forces all its ports to the same value. -/
def equality (arity size : Nat) : Except (TableError E) (Table E) :=
  ofRows (List.replicate arity size) (agreeingRows arity size)

end

variable {K : Type} [Field K] [LinearOrder K] {arity size : Nat}

theorem energy_of_mem_agreeingRows {r : Row (Extended K)} (hr : r ∈ agreeingRows arity size) :
    ∃ i < size, r.indices = List.replicate arity i ∧ r.energy = 0 := by
  obtain ⟨i, hi, rfl⟩ := List.mem_map.1 hr
  exact ⟨i, List.mem_range.1 hi, rfl, rfl⟩

theorem nodup_agreeingRows (ha : 0 < arity) (size : Nat) :
    ((agreeingRows (E := Extended K) arity size).map (·.indices)).Nodup := by
  rw [agreeingRows, List.map_map]
  exact List.nodup_range.map (List.replicate_right_injective ha.ne')

theorem consistent_agreeingRows (ha : 0 < arity) (size : Nat) :
    Consistent (List.replicate arity size) (agreeingRows (E := Extended K) arity size) := by
  refine .of_nodup (fun r hr => ?_) (fun r hr => ?_) (nodup_agreeingRows ha size)
  · obtain ⟨i, hi, hindices, -⟩ := energy_of_mem_agreeingRows hr
    refine forall₂_lt_iff.2 ⟨by simp [hindices], fun p j n hj hn => ?_⟩
    rw [hindices] at hj
    obtain rfl := List.eq_of_mem_replicate (List.mem_of_getElem? hj)
    obtain rfl := List.eq_of_mem_replicate (List.mem_of_getElem? hn)
    exact hi
  · obtain ⟨i, -, -, henergy⟩ := energy_of_mem_agreeingRows hr
    rw [henergy]
    rfl

theorem listed_agreeingRows (ha : 0 < arity) (size : Nat) :
    listed (agreeingRows (E := Extended K) arity size) = agreeingRows arity size := by
  have hfilter : (agreeingRows arity size).filter (fun r : Row (Extended K) =>
      r.energy ≠ Energy.top) = agreeingRows arity size := by
    refine List.filter_eq_self.2 fun r hr => ?_
    obtain ⟨i, -, -, henergy⟩ := energy_of_mem_agreeingRows hr
    rw [henergy]
    rfl
  rw [listed_of_nodup (nodup_agreeingRows ha size), hfilter, Row.map_unsigned]

/-- The table exists for any number of ports and any domain. -/
theorem equality_eq_ok (ha : 0 < arity) (hs : 0 < size) :
    equality (E := Extended K) arity size =
      .ok (assemble (List.replicate arity size) (agreeingRows arity size).toArray) := by
  have hzero : 0 ∉ List.replicate arity size := fun h => hs.ne (List.eq_of_mem_replicate h)
  rw [equality, ofRows_of_consistent (by simpa using ha.ne') hzero
    (consistent_agreeingRows ha size), listed_agreeingRows ha size]

section

variable {t : Table (Extended K)} (h : equality arity size = .ok t)

include h

theorem pos_of_equality : 0 < arity ∧ 0 < size := by
  obtain ⟨hne, hz, -, -⟩ := ofRows_eq_ok_iff.1 h
  have ha : 0 < arity := Nat.pos_of_ne_zero (by simpa using hne)
  refine ⟨ha, Nat.pos_of_ne_zero ?_⟩
  rintro rfl
  exact hz (List.mem_replicate.2 ⟨ha.ne', rfl⟩)

theorem eq_assemble_of_equality :
    t = assemble (List.replicate arity size) (agreeingRows arity size).toArray := by
  obtain ⟨ha, hs⟩ := pos_of_equality h
  exact Except.ok.inj (h.symm.trans (equality_eq_ok ha hs))

theorem sound_of_equality : t.Sound := Built.sound ⟨_, _, h⟩

theorem energyOf_replicate {x : Nat} (hx : x < size) :
    t.energyOf (List.replicate arity x) = 0 := by
  have hrow : (⟨List.replicate arity x, 0⟩ : Row (Extended K)) ∈ t.rows := by
    rw [eq_assemble_of_equality h]
    exact List.mem_toArray.2 (List.mem_map.2 ⟨x, List.mem_range.2 hx, rfl⟩)
  exact (sound_of_equality h).energyOf_of_mem hrow

/-- Only assignments of one value to all ports are possible. -/
theorem exists_replicate_of_energyOf_ne_top {indices : List Nat}
    (hne : t.energyOf indices ≠ Energy.top) :
    ∃ x < size, indices = List.replicate arity x := by
  obtain ⟨r, hr, rfl⟩ := exists_of_energyOf_ne_top hne
  rw [eq_assemble_of_equality h] at hr
  obtain ⟨x, hx, hindices, -⟩ := energy_of_mem_agreeingRows (List.mem_toArray.1 hr)
  exact ⟨x, hx, hindices⟩

/-- The table has the energies of the factor. -/
theorem energyOf_equality {indices : List Nat} (hl : indices.length = arity)
    (hlt : ∀ i ∈ indices, i < size) : t.energyOf indices = MinSum.Equality.energy indices := by
  by_cases hagree : ∃ x, ∀ i ∈ indices, i = x
  · obtain ⟨x, hall⟩ := hagree
    have hindices : indices = List.replicate arity x := List.eq_replicate_iff.2 ⟨hl, hall⟩
    have hx : x < size := hlt x (by
      rw [hindices]
      exact List.mem_replicate.2 ⟨(pos_of_equality h).1.ne', rfl⟩)
    rw [MinSum.Equality.energy_of_agree hall, hindices, energyOf_replicate h hx]
  · have htop : t.energyOf indices = Energy.top := by
      by_contra hne
      obtain ⟨x, -, rfl⟩ := exists_replicate_of_energyOf_ne_top h hne
      exact hagree ⟨x, fun i => List.eq_of_mem_replicate⟩
    rw [htop, eq_comm]
    by_contra hne
    cases indices with
    | nil => exact hagree ⟨0, by simp⟩
    | cons i indices =>
      exact hagree ⟨i, fun j hj =>
        MinSum.Equality.eq_of_energy_ne_top hne hj List.mem_cons_self⟩

theorem restCost_replicate {inputs : List (Message (Extended K))} (hl : inputs.length = arity)
    (port : Nat) {x : Nat} (hx : x < size) :
    t.restCost inputs port (List.replicate arity x) =
      ((inputs.eraseIdx port).map (·.valueAt x)).sum := by
  rw [restCost, energyOf_replicate h hx, ← hl, received_replicate, List.eraseIdx_map,
    List.map_map]
  exact zero_add _

/-- What the factor sends on a port, the table sends too. -/
theorem sends_of_equality {inputs : List (Message (Extended K))} (hl : inputs.length = arity)
    {port : Nat} (hp : port < arity) {m : Message (Extended K)} (hlm : m.length = size)
    (hm : Prior.Sends (Message.uniform size) inputs port m) : t.Sends inputs port m := by
  refine ⟨hm.proper, fun x => ?_⟩
  have hagree : ∀ indices : List Nat, indices[port]? = some x →
      t.restCost inputs port indices ≠ ⊤ → x < size ∧ indices = List.replicate arity x := by
    intro indices hi hne
    have henergy : t.energyOf indices ≠ Energy.top := fun he => hne (by simp [restCost, he])
    obtain ⟨y, hy, rfl⟩ := exists_replicate_of_energyOf_ne_top h henergy
    obtain rfl : x = y := List.eq_of_mem_replicate (List.mem_of_getElem? hi)
    exact ⟨hy, rfl⟩
  have hvalue : x < size → m.valueAt x = t.restCost inputs port (List.replicate arity x) := by
    intro hx
    rw [hm.valueAt, Message.valueAt_uniform hx, zero_add, restCost_replicate h hl port hx]
  refine ⟨fun indices hi => ?_, fun hne => ?_⟩
  · by_cases hne : t.restCost inputs port indices = ⊤
    · exact hne ▸ le_top
    · obtain ⟨hx, rfl⟩ := hagree indices hi hne
      exact (hvalue hx).le
  · have hx : x < size := by
      by_contra hx
      exact hne (Message.valueAt_of_le (hlm.trans_le (Nat.not_lt.1 hx)))
    exact ⟨List.replicate arity x, by rw [List.getElem?_replicate, if_pos hp], (hvalue hx).symm⟩

/-- The messages of factor and table are the same. -/
theorem Sends.eq_of_equality {inputs : List (Message (Extended K))} (hl : inputs.length = arity)
    {port : Nat} (hp : port < arity) {m m' : Message (Extended K)} (hlm : m.length = size)
    (hlm' : m'.length = size) (hm : Prior.Sends (Message.uniform size) inputs port m)
    (hm' : t.Sends inputs port m') : m' = m :=
  hm'.unique (sends_of_equality h hl hp hlm hm) (hlm'.trans hlm.symm)

end

end MinSum.Table
