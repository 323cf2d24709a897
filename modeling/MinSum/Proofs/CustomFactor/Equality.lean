import MinSum.CustomFactor.Equality
import MinSum.Proofs.Prior

/-! The messages of an equality factor in exact energies. It passes on what the other ports
receive, like a variable without preference. -/
namespace MinSum

variable {K : Type} [Field K] [LinearOrder K]

/-- On domains that it accepts the factor makes admissible messages from admissible ones. -/
structure CustomFactor.Admissible (c : CustomFactor (Extended K)) : Prop where
  computeAll : ∀ sizes (inputs previous : List (Message (Extended K))),
    c.checkDomains sizes = .ok () → inputs.map List.length = sizes →
    previous.map List.length = sizes → (∀ m ∈ inputs, m.Proper) → (∀ m ∈ previous, m.Proper) →
    ∀ m ∈ c.computeAll inputs previous, m.Proper
  computePort : ∀ sizes (inputs : List (Message (Extended K))) (port : Nat)
    (old : Message (Extended K)), c.checkDomains sizes = .ok () → inputs.map List.length = sizes →
    sizes[port]? = some old.length → (∀ m ∈ inputs, m.Proper) → old.Proper →
    (c.computePort port inputs old).Proper

namespace Equality

theorem checkDomains_eq_ok {sizes : List Nat} (h : checkDomains sizes = .ok ()) :
    ∃ size, sizes ≠ [] ∧ ∀ n ∈ sizes, n = size := by
  cases sizes with
  | nil => simp [checkDomains] at h
  | cons size sizes =>
    refine ⟨size, by simp, ?_⟩
    simp only [checkDomains] at h
    split at h
    · rename_i hall
      simpa using hall
    · contradiction

/-- Where the energy is not infinite, all indices agree. -/
theorem eq_of_energy_ne_top {E : Type} [Energy E] {indices : List Nat}
    (h : energy indices ≠ (Energy.top : E)) {i j : Nat} (hi : i ∈ indices)
    (hj : j ∈ indices) : i = j := by
  cases indices with
  | nil => simp at hi
  | cons k indices =>
    simp only [energy] at h
    split at h
    · rename_i hall
      have hk : ∀ l ∈ k :: indices, l = k := by simpa using hall
      rw [hk i hi, hk j hj]
    · exact absurd rfl h

theorem exclude_eq_zipWith {E : Type} [Energy E] (s : List (LeaveOneOut E))
    {inputs previous : List (Message E)} (hlen : inputs.length = previous.length) :
    exclude s inputs previous = List.zipWith (LeaveOneOut.leaveOut s) inputs previous := by
  induction inputs generalizing previous with
  | nil =>
    cases previous with
    | nil => rfl
    | cons m previous => simp at hlen
  | cons input inputs ih =>
    cases previous with
    | nil => simp at hlen
    | cons m previous => rw [exclude, ih (by simpa using hlen), List.zipWith_cons_cons]

theorem energy_of_agree {E : Type} [Energy E] {indices : List Nat} {x : Nat}
    (h : ∀ i ∈ indices, i = x) : energy indices = (0 : E) := by
  cases indices with
  | nil => rfl
  | cons k indices =>
    apply if_pos
    simp only [List.all_eq_true, decide_eq_true_eq]
    intro i hi
    rw [h i (by simp [hi]), h k (by simp)]

section

variable {inputs : List (Message (Extended K))} {size : Nat} (hm : ∀ m ∈ inputs, m.Proper)
  (hl : ∀ m ∈ inputs, m.length = size)

include hm hl

theorem sends_computePort {m : Message (Extended K)} (hlm : m.length = size) (port : Nat) :
    Prior.Sends (Message.uniform size) inputs port (computePort port inputs m) := by
  have := Prior.sends_belief (Message.proper_uniform size) hm
    (fun m h => (hl m h).trans List.length_replicate.symm) port
  rw [computePort, hlm]
  exact this

theorem accumulates_sums (hne : inputs ≠ []) : LeaveOneOut.Accumulates (sums inputs) size
    fun x => (inputs.map (·.valueAt x) : List (WithTop K)) := by
  have hstart : LeaveOneOut.Accumulates (List.replicate size (LeaveOneOut.empty (E := Extended K)))
      size fun _ => 0 := by
    refine ⟨List.length_replicate, fun x s hs => ?_⟩
    obtain rfl := (List.mem_replicate.1 (List.mem_of_getElem? hs)).2
    exact LeaveOneOut.Sums.empty
  have := hstart.foldl_add hm hl
  cases inputs with
  | nil => contradiction
  | cons first rest =>
    rw [sums, hl first (by simp)]
    simpa only [zero_add] using this

theorem sends_computeAll {previous : List (Message (Extended K))}
    (hlen : inputs.length = previous.length) (hlp : ∀ m ∈ previous, m.length = size) {port : Nat}
    {m : Message (Extended K)} (h : (computeAll inputs previous)[port]? = some m) :
    Prior.Sends (Message.uniform size) inputs port m := by
  rw [computeAll, exclude_eq_zipWith _ hlen, List.getElem?_zipWith_eq_some] at h
  obtain ⟨received, old, hr, ho, rfl⟩ := h
  have hu : (Message.uniform size : Message (Extended K)).length = size := List.length_replicate
  have hs := accumulates_sums hm hl (List.ne_nil_of_mem (List.mem_of_getElem? hr))
  -- The uniform prior adds nothing to the sums.
  refine Prior.sends_leaveOut hm (fun m h => (hl m h).trans hu.symm) ?_ hr
    ((hlp _ (List.mem_of_getElem? ho)).trans hu.symm)
  refine ⟨hs.length.trans hu.symm, fun x s hx => ?_⟩
  have hlt : x < size := hs.length ▸ (List.getElem?_eq_some_iff.1 hx).1
  rw [Message.valueAt_uniform hlt]
  exact (hs.sums x s hx).cons_zero

end

end Equality

theorem CustomFactor.admissible_equality :
    (CustomFactor.equality : CustomFactor (Extended K)).Admissible where
  computeAll sizes inputs previous hc hl hlp hm _ m hmem := by
    obtain ⟨size, -, hall⟩ := Equality.checkDomains_eq_ok hc
    have hlen : inputs.length = previous.length := by
      simpa using congrArg List.length (hl.trans hlp.symm)
    obtain ⟨p, hp⟩ := List.mem_iff_getElem?.1 hmem
    exact (Equality.sends_computeAll hm (fun m h => hall _ (hl ▸ List.mem_map_of_mem h)) hlen
      (fun m h => hall _ (hlp ▸ List.mem_map_of_mem h)) hp).proper
  computePort sizes inputs port old hc hl ho hm _ := by
    obtain ⟨size, -, hall⟩ := Equality.checkDomains_eq_ok hc
    exact (Equality.sends_computePort hm (fun m h => hall _ (hl ▸ List.mem_map_of_mem h))
      (hall _ (List.mem_of_getElem? ho)) port).proper

end MinSum
