import MinSum.Energy.Basic

/-! Messages: one energy per value of a variable. Only differences between the energies of one
message matter, so an updated message is shifted to have minimum zero. As negative logarithms they
convert to probabilities and back. -/
namespace MinSum

/-- Energies indexed by the values of a domain. -/
abbrev Message (E : Type) := List E

/-- Applies `f` at the positions that both lists have and keeps the rest of the first. -/
def overlay {α β : Type} (f : α → β → α) (as : List α) (bs : List β) : List α :=
  List.zipWith f as bs ++ as.drop bs.length

theorem length_overlay {α β : Type} (f : α → β → α) (as : List α) (bs : List β) :
    (overlay f as bs).length = as.length := by
  simp only [overlay, List.length_append, List.length_zipWith, List.length_drop]
  omega

namespace Message

inductive Verdict where
  | possible
  | contradiction
  deriving DecidableEq, Repr

variable {E : Type} [Energy E]

def uniform (size : Nat) : Message E := List.replicate size 0

def impossible (size : Nat) : Message E := List.replicate size Energy.top

/-- The energy of a value; there is no value outside the message. -/
def entry (m : Message E) (value : Nat) : E := m.getD value Energy.top

/-- The least energy, `top` if there is none. -/
def lowest (m : Message E) : E := m.foldl (fun low x => if x < low then x else low) Energy.top

/-- Shifts the minimum to zero. Without a possible value nothing changes. -/
def normalize (m : Message E) : Message E × Verdict :=
  let low := lowest m
  if low = Energy.top then (m, .contradiction)
  else if Energy.isZero low then (m, .possible)
  else (m.map (· - low), .possible)

/-- Mixes `1 - damping` parts of a message with `damping` parts of the one it replaces. At full
damping the old message is kept as it is, since zero parts of `top` would be invalid. -/
def damp (m old : Message E) (damping : E) : Message E :=
  if Energy.isZero damping then m
  else if damping = 1 then old
  else
    let keep := 1 - damping
    overlay (fun x y => keep * x + damping * y) m old

/-- The last step of every update. The verdict is that of the message before damping. -/
def finish (m : Message E) (saved : Option (Message E)) (damping : E) : Message E × Verdict :=
  let (normal, verdict) := normalize m
  match saved with
  | none => (normal, verdict)
  | some old => (damp normal old damping, verdict)

/-- Position of the first least energy, `low` at position `best` being the least so far. -/
def argminFrom (best : Nat) (low : E) (next : Nat) : Message E → Nat
  | [] => best
  | x :: rest =>
    if Energy.precedes x low then argminFrom next x (next + 1) rest
    else argminFrom best low (next + 1) rest

def argmin? : Message E → Option Nat
  | [] => none
  | x :: rest => some (argminFrom 0 x 1 rest)

def plus (m other : Message E) : Message E := overlay (· + ·) m other

theorem length_foldl_plus (ms : List (Message E)) (m : Message E) :
    (ms.foldl plus m).length = m.length := by
  induction ms generalizing m with
  | nil => rfl
  | cons n ms ih => rw [List.foldl_cons, ih, plus, length_overlay]

section

variable {E : Type} [LogEnergy E]

/-- The distribution of a message; all zeros if no value is possible. -/
def toProbabilities (m : Message E) : List E :=
  let low := lowest m
  if low = Energy.top then m.map fun _ => 0
  else
    let weights := m.map fun x => LogEnergy.exp (-(x - low))
    let factor := 1 / weights.foldl (· + ·) 0
    weights.map (· * factor)

def energyOfProbability? (p : E) : Option E :=
  if !Energy.isFinite p || decide (p < 0) then none
  else if Energy.isZero p then some Energy.top
  else some (-LogEnergy.log p)

/-- The energies of unnormalized probabilities, or the first entry that is not one. -/
def ofProbabilities : List E → Except E (Message E)
  | [] => .ok []
  | p :: rest =>
    match energyOfProbability? p with
    | none => .error p
    | some energy =>
      match ofProbabilities rest with
      | .error bad => .error bad
      | .ok energies => .ok (energy :: energies)

end

end Message

end MinSum
