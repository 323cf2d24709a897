import Mathlib.Data.List.GetD
import MinSum.Proofs.CustomFactor.Equality
import MinSum.Proofs.Node.Rule
import MinSum.Proofs.Table.Message

/-! The raw messages of all rules in exact energies. Both ways to compute them, for all ports at
once and for a single port, give what the rule is to send. -/
namespace MinSum.Rule

variable {K : Type} [Field K] [LinearOrder K]

def Serves (rule : Rule (Extended K)) (sizes : List Nat) : Prop :=
  match rule with
  | .prior q => q.Proper ∧ ∀ size ∈ sizes, size = q.length
  | .table t => t.Sound ∧ t.sizes = sizes
  | .custom c => c.Admissible ∧ c.checkDomains sizes = .ok ()

/-- The message is what the rule is to send on the port. Of the custom factors only the equality
has a known meaning. -/
def Sends (rule : Rule (Extended K)) (size : Nat) (inputs : List (Message (Extended K)))
    (port : Nat) (m : Message (Extended K)) : Prop :=
  match rule with
  | .prior q => Prior.Sends q inputs port m
  | .table t => t.Sends inputs port m
  | .custom c => m.Proper ∧ (c = .equality → Prior.Sends (Message.uniform size) inputs port m)

theorem Sends.proper {rule : Rule (Extended K)} {size : Nat}
    {inputs : List (Message (Extended K))} {port : Nat} {m : Message (Extended K)}
    (h : rule.Sends size inputs port m) : m.Proper := by
  cases rule with
  | prior q => exact Prior.Sends.proper h
  | table t => exact Table.Sends.proper h
  | custom c => exact h.1

variable {rule : Rule (Extended K)} {sizes : List Nat} (hr : rule.Serves sizes)
  {inputs : List (Message (Extended K))} (hm : ∀ m ∈ inputs, m.Proper)
  (hl : inputs.map List.length = sizes) {port size : Nat} (hp : sizes[port]? = some size)

include hr hm hl hp

theorem sends_raw {previous : List (Message (Extended K))}
    (hlp : previous.map List.length = sizes) (hpp : ∀ m ∈ previous, m.Proper) :
    ∃ m, (rule.raw inputs previous)[port]? = some m ∧ rule.Sends size inputs port m := by
  have hinputs : ∀ m ∈ inputs, m.length ∈ sizes := fun m h => hl ▸ List.mem_map_of_mem h
  have hprevious : ∀ m ∈ previous, m.length ∈ sizes := fun m h => hlp ▸ List.mem_map_of_mem h
  have hlen : inputs.length = previous.length := by
    simpa using congrArg List.length (hl.trans hlp.symm)
  have hraw : ∃ m, (rule.raw inputs previous)[port]? = some m := by
    have hlt : port < ((rule.raw inputs previous).map List.length).length := by
      rw [rule.lengths_raw hlen, hlp]
      exact (List.getElem?_eq_some_iff.1 hp).1
    exact ⟨_, List.getElem?_eq_getElem (by simpa using hlt)⟩
  cases rule with
  | prior q =>
    obtain ⟨m, h⟩ := hraw
    exact ⟨m, h, Prior.sends_raw hr.1 hm (fun m h => hr.2 _ (hinputs m h))
      (fun m h => hr.2 _ (hprevious m h)) h⟩
  | table t =>
    have hli : inputs.length = t.sizes.length := by rw [hr.2, ← hl, List.length_map]
    rw [raw, hlp, ← hr.2]
    exact hr.1.sends_messages hm (hr.2 ▸ hp) hli
  | custom c =>
    obtain ⟨m, h⟩ := hraw
    refine ⟨m, h, hr.1.computeAll sizes inputs previous hr.2 hl hlp hm hpp m
      (List.mem_of_getElem? h), ?_⟩
    rintro rfl
    obtain ⟨n, -, hn⟩ := Equality.checkDomains_eq_ok hr.2
    obtain rfl : size = n := hn _ (List.mem_of_getElem? hp)
    exact Equality.sends_computeAll hm (fun m h => hn _ (hinputs m h)) hlen
      (fun m h => hn _ (hprevious m h)) h

theorem sends_rawPort {old : Message (Extended K)} (ho : old.length = size) (hop : old.Proper) :
    rule.Sends size inputs port (rule.rawPort inputs port old) := by
  have hinputs : ∀ m ∈ inputs, m.length ∈ sizes := fun m h => hl ▸ List.mem_map_of_mem h
  cases rule with
  | prior q => exact Prior.sends_belief hr.1 hm (fun m h => hr.2 _ (hinputs m h)) port
  | table t =>
    rw [rawPort, ho]
    exact hr.1.sends_message hm (hr.2 ▸ hp)
  | custom c =>
    refine ⟨hr.1.computePort sizes inputs port old hr.2 hl (ho ▸ hp) hm hop, ?_⟩
    rintro rfl
    obtain ⟨n, -, hn⟩ := Equality.checkDomains_eq_ok hr.2
    obtain rfl : size = n := hn _ (List.mem_of_getElem? hp)
    exact Equality.sends_computePort hm (fun m h => hn _ (hinputs m h)) ho port

end MinSum.Rule
