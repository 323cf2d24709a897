import MinSum.Failure
import MinSum.Message

/-! The messages on the edges of a graph. Both ends of an edge use the same state, which a
store holds under the number of the edge. -/
namespace MinSum

structure EdgeMessages (E : Type) where
  toFactor : Message E
  toVariable : Message E
  deriving DecidableEq, Repr

namespace EdgeMessages

variable {E : Type} [Energy E]

def uniform (size : Nat) : EdgeMessages E := ⟨.uniform size, .uniform size⟩

def domainSize (s : EdgeMessages E) : Nat := s.toFactor.length

/-- Messages from outside have the right length and admissible entries. -/
def checkMessage (m : Message E) (size : Nat) : Except (SolverError E) Unit :=
  if m.length ≠ size then .error (.messageLength size m.length)
  else
    match m.find? (!Energy.isAdmissible ·) with
    | some x => .error (.invalidMessage x)
    | none => .ok ()

def setToFactor (s : EdgeMessages E) (m : Message E) : Except (SolverError E) (EdgeMessages E) :=
  match checkMessage m s.domainSize with
  | .error e => .error e
  | .ok _ => .ok { s with toFactor := m }

def setToVariable (s : EdgeMessages E) (m : Message E) : Except (SolverError E) (EdgeMessages E) :=
  match checkMessage m s.domainSize with
  | .error e => .error e
  | .ok _ => .ok { s with toVariable := m }

def reset (s : EdgeMessages E) : EdgeMessages E :=
  ⟨.uniform s.toFactor.length, .uniform s.toVariable.length⟩

end EdgeMessages

/-- A state lent for writing, with its place among the states of a store. -/
structure Loan (E : Type) where
  place : Nat
  state : EdgeMessages E
  deriving DecidableEq, Repr

/-- Neighboring states of a store: those from `start` on and before `stop`. -/
structure Span (E : Type) where
  states : Array (EdgeMessages E)
  start : Nat
  stop : Nat
  start_le : start ≤ stop
  stop_le : stop ≤ states.size

namespace Span

variable {E : Type}

def all (states : Array (EdgeMessages E)) : Span E :=
  ⟨states, 0, states.size, Nat.zero_le _, Nat.le_refl _⟩

def size (s : Span E) : Nat := s.stop - s.start

def splitAt (s : Span E) (k : Nat) (h : k ≤ s.size) : Span E × Span E :=
  have hk : s.start + k ≤ s.stop := Nat.add_le_of_le_sub' s.start_le h
  (⟨s.states, s.start, s.start + k, Nat.le_add_right _ _, Nat.le_trans hk s.stop_le⟩,
    ⟨s.states, s.start + k, s.stop, hk, s.stop_le⟩)

def last? (s : Span E) : Option (Loan E) :=
  if s.start < s.stop then s.states[s.stop - 1]?.map (Loan.mk (s.stop - 1)) else none

end Span

structure EdgeStore (E : Type) where
  states : Array (EdgeMessages E) := #[]
  deriving DecidableEq, Repr

namespace EdgeStore

variable {E : Type}

def size (a : EdgeStore E) : Nat := a.states.size

def push (a : EdgeStore E) (s : EdgeMessages E) : EdgeStore E := ⟨a.states.push s⟩

def get (a : EdgeStore E) (edge : Nat) : Except (SolverError E) (EdgeMessages E) :=
  match a.states[edge]? with
  | some s => .ok s
  | none => .error (.noSuchEdge edge)

def set (a : EdgeStore E) (edge : Nat) (s : EdgeMessages E) : EdgeStore E :=
  ⟨a.states.setIfInBounds edge s⟩

def siblings (a : EdgeStore E) : List Nat → Except (SolverError E) (List (EdgeMessages E))
  | [] => .ok []
  | edge :: edges =>
    match a.get edge with
    | .error e => .error e
    | .ok s =>
      match a.siblings edges with
      | .error e => .error e
      | .ok states => .ok (s :: states)

/-- The positions of a list of edges in the order of the edges. -/
def inOrder (edges : List Nat) : List Nat :=
  (List.range edges.length).mergeSort fun i j => edges.getD i 0 ≤ edges.getD j 0

/-- Lends the edges at the positions `order` of a list one after another. The states that are left
are those from edge `offset` on. Slot `i` is for the edge at position `i`. -/
def handOut (edges : List Nat) (rest : Span E) (offset : Nat) (slots : List (Option (Loan E))) :
    List Nat → Except (SolverError E) (List (Option (Loan E)))
  | [] => .ok slots
  | i :: order =>
    let edge := edges.getD i 0
    if edge < offset then .error (.duplicateEdge edge)
    else if h : rest.size ≤ edge - offset then .error (.noSuchEdge edge)
    else
      let (head, tail) := rest.splitAt (edge - offset + 1) (Nat.not_le.1 h)
      handOut edges tail (edge + 1) (slots.set i head.last?) order

def lendInOrder (a : EdgeStore E) (edges order : List Nat) :
    Except (SolverError E) (List (Loan E)) :=
  match handOut edges (.all a.states) 0 (List.replicate edges.length none) order with
  | .error e => .error e
  | .ok slots => .ok (slots.filterMap id)

/-- The states of the listed edges for writing: no edge may be listed twice. -/
def lend (a : EdgeStore E) (edges : List Nat) : Except (SolverError E) (List (Loan E)) :=
  a.lendInOrder edges (inOrder edges)

/-- The states of the listed edges, read off what is lent. -/
def exclusive (a : EdgeStore E) (edges : List Nat) :
    Except (SolverError E) (List (EdgeMessages E)) :=
  match a.lend edges with
  | .error e => .error e
  | .ok loans => .ok (loans.map Loan.state)

def write (a : EdgeStore E) (edges : List Nat) (states : List (EdgeMessages E)) : EdgeStore E :=
  (edges.zip states).foldl (fun a (edge, s) => a.set edge s) a

def reset [Energy E] (a : EdgeStore E) : EdgeStore E := ⟨a.states.map EdgeMessages.reset⟩

end EdgeStore

end MinSum
