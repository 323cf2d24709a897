/-! Scratch buffers for copies of messages. A pool keeps released buffers and hands them out
again, the smallest that is large enough first. -/
namespace MinSum.Scratch

/-- Room for `capacity` numbers, of which the listed ones are in use. -/
structure Buffer (E : Type) where
  capacity : Nat
  entries : List E
  deriving DecidableEq, Repr

/-- Released buffers, at most `limit` of them, and a count of the buffers ever made. -/
structure Pool (E : Type) where
  limit : Nat
  free : List (Buffer E) := []
  allocations : Nat := 0
  deriving DecidableEq, Repr

/-- Without the element at position `i`, whose place the last one takes. -/
def swapRemove {α : Type} (l : List α) (i : Nat) : List α :=
  match l.getLast? with
  | none => []
  | some last => (l.set i last).dropLast

namespace Buffer

variable {E : Type}

def clear (b : Buffer E) : Buffer E := { b with entries := [] }

def extend (b : Buffer E) (l : List E) : Buffer E := { b with entries := b.entries ++ l }

def resize [Zero E] (b : Buffer E) (length : Nat) : Buffer E :=
  { b with entries := (b.entries.take length).rightpad length 0 }

def slice (b : Buffer E) (offset length : Nat) : List E := (b.entries.drop offset).take length

def write (b : Buffer E) (offset : Nat) (l : List E) : Buffer E :=
  { b with entries := b.entries.take offset ++ l ++ b.entries.drop (offset + l.length) }

end Buffer

namespace Pool

variable {E : Type}

def available (p : Pool E) : Nat := p.free.length

/-- The smallest of the buffers that hold `length` numbers, and its position. Of equally small
ones the first is taken. -/
def bestFit? (length : Nat) : List (Buffer E) → Option (Nat × Buffer E)
  | [] => none
  | b :: rest =>
    match bestFit? length rest with
    | none => if length ≤ b.capacity then some (0, b) else none
    | some (i, best) =>
      if length ≤ b.capacity ∧ b.capacity ≤ best.capacity then some (0, b)
      else some (i + 1, best)

/-- An empty buffer with room for `length` numbers: the smallest free one, or else a new one. -/
def take (p : Pool E) (length : Nat) : Buffer E × Pool E :=
  match bestFit? length p.free with
  | some (i, b) => (b.clear, { p with free := swapRemove p.free i })
  | none => (⟨length, []⟩, { p with allocations := p.allocations + 1 })

def acquireCopy (p : Pool E) (l : List E) : Buffer E × Pool E :=
  let (b, p) := p.take l.length
  (b.extend l, p)

def acquire [Zero E] (p : Pool E) (length : Nat) : Buffer E × Pool E :=
  let (b, p) := p.take length
  (b.resize length, p)

/-- Gives a buffer back, with what it holds. Beyond the limit it is dropped. -/
def release (p : Pool E) (b : Buffer E) : Pool E :=
  if p.free.length < p.limit then { p with free := p.free ++ [b] } else p

@[simp] theorem entries_take (p : Pool E) (length : Nat) : (p.take length).1.entries = [] := by
  unfold take
  split <;> rfl

@[simp] theorem entries_acquireCopy (p : Pool E) (l : List E) :
    (p.acquireCopy l).1.entries = l := by
  simp [acquireCopy, Buffer.extend]

@[simp] theorem entries_acquire [Zero E] (p : Pool E) (length : Nat) :
    (p.acquire length).1.entries = List.replicate length 0 := by
  simp [acquire, Buffer.resize, List.rightpad]

end Pool

end MinSum.Scratch
