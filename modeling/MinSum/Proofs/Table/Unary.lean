import MinSum.Proofs.Table.Denotes
import MinSum.Proofs.Table.Equality

/-! The table of one port that has the energies of a message. Impossible values have no row. On its
port it sends the message, whatever it hears. -/
namespace MinSum.Table

section

variable {E : Type}

def unaryRows (input : Message E) : List (Row E) := input.zipIdx.map fun (x, i) => ⟨[i], x⟩

variable {input : Message E}

theorem mem_unaryRows {i : Nat} {x : E} :
    (⟨[i], x⟩ : Row E) ∈ unaryRows input ↔ input[i]? = some x := by
  simp [unaryRows, List.mem_zipIdx_iff_getElem?]

theorem exists_of_mem_unaryRows {r : Row E} (hr : r ∈ unaryRows input) :
    ∃ i, input[i]? = some r.energy ∧ r.indices = [i] := by
  obtain ⟨⟨x, i⟩, hx, rfl⟩ := List.mem_map.1 hr
  exact ⟨i, List.mem_zipIdx_iff_getElem?.1 hx, rfl⟩

theorem nodup_unaryRows (input : Message E) : ((unaryRows input).map (·.indices)).Nodup := by
  have hindices : (unaryRows input).map (·.indices) =
      (List.range input.length).map fun i => [i] := by
    apply List.ext_getElem
    · simp [unaryRows]
    · intro i h₁ h₂
      simp [unaryRows]
  rw [hindices]
  exact List.nodup_range.map List.singleton_injective

end

variable {K : Type} [Field K] [LinearOrder K] {input : Message (Extended K)}

theorem consistent_unaryRows (hp : input.Proper) :
    Consistent [input.length] (unaryRows input) := by
  refine .of_nodup (fun r hr => ?_) (fun r hr => ?_) (nodup_unaryRows input)
  · obtain ⟨i, hi, hindices⟩ := exists_of_mem_unaryRows hr
    rw [hindices]
    exact .cons (List.getElem?_eq_some_iff.1 hi).1 .nil
  · obtain ⟨i, hi, -⟩ := exists_of_mem_unaryRows hr
    exact hp _ (List.mem_of_getElem? hi)

theorem exists_unary (hne : input ≠ []) (hp : input.Proper) :
    ∃ t, ofRows [input.length] (unaryRows input) = .ok t ∧ t.sizes = [input.length] ∧
      ∀ i, t.energyOf [i] = input.entry i := by
  have hzero : 0 ∉ [input.length] := by simpa [eq_comm] using hne
  have hok := ofRows_of_consistent (List.cons_ne_nil _ _) hzero (consistent_unaryRows hp)
  have hdenotes := denotes_of_eq_ok hok
  refine ⟨_, hok, rfl, fun i => ?_⟩
  rw [Message.entry, List.getD_eq_getElem?_getD]
  cases hx : input[i]? with
  | none =>
    refine hdenotes.energyOf_eq_top [i] fun r hr hindices => ?_
    obtain ⟨j, hj, hindices'⟩ := exists_of_mem_unaryRows hr
    obtain rfl : j = i := List.singleton_inj.1 (hindices'.symm.trans hindices)
    rw [hx] at hj
    contradiction
  | some x =>
    exact (hdenotes.energyOf_eq ⟨[i], x⟩ (mem_unaryRows.2 hx)).trans (Extended.unsigned_eq x)

theorem Sends.eq_of_unary {t : Table (Extended K)} (hs : t.Sound)
    (hsizes : t.sizes = [input.length]) (he : ∀ i, t.energyOf [i] = input.entry i)
    {heard m : Message (Extended K)} (h : t.Sends [heard] 0 m) (hp : input.Proper)
    (hl : m.length = input.length) : m = input := by
  apply h.proper.ext hp hl
  intro x _
  have hcost : ∀ i, t.restCost [heard] 0 [i] = input.valueAt i := by
    intro i
    rw [restCost, he]
    exact add_zero _
  apply (h.isMinOver x).unique
  constructor
  · intro indices hx
    by_cases htop : t.energyOf indices = Energy.top
    · rw [restCost, htop, Extended.value_top, WithTop.top_add]
      exact le_top
    · obtain ⟨r, hr, rfl⟩ := exists_of_energyOf_ne_top htop
      have hlen := (hs.fits r hr).length
      rw [hsizes] at hlen
      obtain ⟨i, hi⟩ := List.length_eq_one_iff.1 hlen
      rw [hi] at hx ⊢
      obtain rfl : i = x := Option.some.inj hx
      exact (hcost i).ge
  · intro _
    exact ⟨[x], rfl, hcost x⟩

end MinSum.Table
