import MinSum.Update

/-! Factors with a message computation of their own. They compute raw messages; normalization
and damping are the same as for tables. -/
namespace MinSum

open Scratch

/-- A factor given by its rules. A rule for messages receives the messages it replaces and may
keep entries of them, but not change a length. -/
structure CustomFactor (E : Type) where
  name : String
  /-- Accepts the domain sizes of the attached variables, or gives a reason against them. -/
  checkDomains : List Nat → Except String Unit
  /-- The unnormalized message on a port. -/
  computePort : (port : Nat) → (inputs : List (Message E)) → Message E → Message E
  /-- The unnormalized messages on all ports. -/
  computeAll : (inputs previous : List (Message E)) → List (Message E)
  /-- The energy of a joint assignment. -/
  energy : List Nat → E
  length_computePort : ∀ port inputs (m : Message E),
    (computePort port inputs m).length = m.length
  lengths_computeAll : ∀ inputs (previous : List (Message E)),
    (computeAll inputs previous).map List.length = previous.map List.length

namespace CustomFactor

variable {E : Type}

def portByPort (computePort : Nat → List (Message E) → Message E → Message E)
    (inputs previous : List (Message E)) : List (Message E) :=
  previous.mapIdx fun port m => computePort port inputs m

theorem lengths_portByPort {computePort : Nat → List (Message E) → Message E → Message E}
    (h : ∀ port inputs (m : Message E), (computePort port inputs m).length = m.length)
    (inputs previous : List (Message E)) :
    (portByPort computePort inputs previous).map List.length = previous.map List.length := by
  apply List.ext_getElem
  · simp [portByPort]
  · intro i h₁ h₂
    simp [portByPort, h]

variable [Energy E]

/-- Recomputes the message on one port; `previous` is the one it replaces. -/
def updatePort (c : CustomFactor E) (inputs : List (Message E)) (port : Nat)
    (previous : Message E) (damping : E) (pool : Pool E) : PortUpdate E :=
  Update.onePort (c.computePort port inputs previous) previous damping pool

def update (c : CustomFactor E) (inputs previous : List (Message E))
    (damping : Option (List E)) (pool : Pool E) : Update E :=
  Update.allPorts (fun _ => true) (c.computeAll inputs previous) previous damping pool

end CustomFactor

end MinSum
