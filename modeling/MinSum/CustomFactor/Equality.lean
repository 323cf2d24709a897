import MinSum.CustomFactor.Basic
import MinSum.LeaveOneOut

/-! The factor that forces all its variables to the same value. -/
namespace MinSum

namespace Equality

variable {E : Type} [Energy E]

def checkDomains : List Nat → Except String Unit
  | [] => .error "needs at least one variable"
  | size :: sizes =>
    if sizes.all (· = size) then .ok ()
    else
      let listed := ", ".intercalate ((size :: sizes).map Nat.repr)
      .error s!"domain sizes differ: [{listed}]"

/-- The sum of what the other ports receive. -/
def computePort (port : Nat) (inputs : List (Message E)) (m : Message E) : Message E :=
  (inputs.eraseIdx port).foldl Message.plus (Message.uniform m.length)

/-- For each value of the first port the sum of what all ports receive. -/
def sums : List (Message E) → List (LeaveOneOut E)
  | [] => []
  | first :: rest =>
    (first :: rest).foldl (overlay .add) (List.replicate first.length .empty)

/-- Takes the message of each port out of the sums. A port without sums keeps what it has. -/
def exclude (sums : List (LeaveOneOut E)) :
    (inputs previous : List (Message E)) → List (Message E)
  | input :: inputs, m :: previous =>
    LeaveOneOut.leaveOut sums input m :: exclude sums inputs previous
  | _, previous => previous

def computeAll (inputs previous : List (Message E)) : List (Message E) :=
  exclude (sums inputs) inputs previous

/-- Zero if all indices agree. -/
def energy : List Nat → E
  | [] => 0
  | i :: indices => if indices.all (· = i) then 0 else Energy.top

theorem length_computePort (port : Nat) (inputs : List (Message E)) (m : Message E) :
    (computePort port inputs m).length = m.length := by
  rw [computePort, Message.length_foldl_plus, Message.uniform, List.length_replicate]

theorem lengths_exclude (s : List (LeaveOneOut E)) (inputs previous : List (Message E)) :
    (exclude s inputs previous).map List.length = previous.map List.length := by
  induction inputs generalizing previous with
  | nil => cases previous <;> rfl
  | cons input inputs ih =>
    cases previous with
    | nil => rfl
    | cons m previous => simp [exclude, LeaveOneOut.leaveOut, length_overlay, ih]

end Equality

def CustomFactor.equality {E : Type} [Energy E] : CustomFactor E where
  name := "equality"
  checkDomains := Equality.checkDomains
  computePort := Equality.computePort
  computeAll := Equality.computeAll
  energy := Equality.energy
  length_computePort := Equality.length_computePort
  lengths_computeAll inputs previous := Equality.lengths_exclude _ inputs previous

/-- Equality with its messages computed one port at a time, on variables of any domains. -/
def CustomFactor.edgewise {E : Type} [Energy E] : CustomFactor E where
  name := "edgewise"
  checkDomains _ := .ok ()
  computePort := Equality.computePort
  computeAll := portByPort Equality.computePort
  energy := Equality.energy
  length_computePort := Equality.length_computePort
  lengths_computeAll := lengths_portByPort Equality.length_computePort

end MinSum
