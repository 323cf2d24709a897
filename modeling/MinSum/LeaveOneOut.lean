import MinSum.Message

/-! Sums from which any single term can be taken back out. Infinite terms are counted and not
added: taking one out of an infinite total by subtraction would be invalid. -/
namespace MinSum

structure LeaveOneOut (E : Type) where
  finite : E
  infinite : Nat
  deriving DecidableEq, Repr

namespace LeaveOneOut

variable {E : Type} [Energy E]

def empty : LeaveOneOut E := ⟨0, 0⟩

def add (s : LeaveOneOut E) (x : E) : LeaveOneOut E :=
  if x = Energy.top then { s with infinite := s.infinite + 1 }
  else { s with finite := s.finite + x }

def of (base : E) : LeaveOneOut E := empty.add base

def total (s : LeaveOneOut E) : E := if 0 < s.infinite then Energy.top else s.finite

/-- The sum without the term `x`, which must be one of the terms. -/
def without (s : LeaveOneOut E) (x : E) : E :=
  if x = Energy.top then if 1 < s.infinite then Energy.top else s.finite
  else if 0 < s.infinite then Energy.top
  else s.finite - x

/-- Infinite whichever term is taken out. -/
def isBlocked (s : LeaveOneOut E) : Bool := 1 < s.infinite

/-- Cut or filled up with empty sums to the given length. -/
def resize (size : Nat) (sums : List (LeaveOneOut E)) : List (LeaveOneOut E) :=
  (sums.take size).rightpad size .empty

/-- The message that remains of sums, one per value, without what is received on its own port.
Entries without a sum stay as they were. -/
def leaveOut (sums : List (LeaveOneOut E)) (received previous : Message E) : Message E :=
  overlay (fun _ x => x) previous (List.zipWith (fun s x => s.without x) sums received)

end LeaveOneOut

end MinSum
