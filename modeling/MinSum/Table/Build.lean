import MinSum.Table.Basic
import Std.Data.TreeMap

/-! Construction of tables from rows and from dense arrays. A table keeps the distinct
assignments of finite energy, in order of first occurrence. -/
namespace MinSum

namespace Table

variable {E : Type}

/-- There is a port and no domain is empty. -/
def checkSizes (sizes : List Nat) : Except (TableError E) Unit :=
  if sizes.isEmpty then .error .noPorts
  else
    match sizes.findIdx? (· = 0) with
    | some port => .error (.emptyDomain port)
    | none => .ok ()

/-- Every index lies in the domain of its port. Ports are counted from `port`. -/
def checkRange (row port : Nat) : (indices sizes : List Nat) → Except (TableError E) Unit
  | index :: indices, size :: sizes =>
    if size ≤ index then .error (.indexOutOfRange row port index size)
    else checkRange row (port + 1) indices sizes
  | _, _ => .ok ()

/-- Checks on the row number `row`, apart from those that involve other rows. -/
def checkRow [Energy E] (sizes : List Nat) (row : Nat) (r : Row E) :
    Except (TableError E) Unit :=
  if r.indices.length ≠ sizes.length then
    .error (.arity row sizes.length r.indices.length)
  else
    match checkRange row 0 r.indices sizes with
    | .error e => .error e
    | .ok _ =>
      if Energy.isAdmissible r.energy then .ok () else .error (.invalidEnergy row r.energy)

/-- Rows in order of arrival. `energies` holds the energy of the first row with given indices. -/
structure Collected (E : Type) where
  rows : Array (Row E) := #[]
  energies : Std.TreeMap (List Nat) E := ∅
  getElem?_energies : ∀ indices : List Nat,
    energies[indices]? = (rows.find? (·.indices = indices)).map (·.energy) := by simp

def Collected.push (c : Collected E) (r : Row E) : Collected E where
  rows := c.rows.push r
  energies := c.energies.insertIfNew r.indices r.energy
  getElem?_energies indices := by
    simp only [Std.TreeMap.getElem?_insertIfNew, c.getElem?_energies, Array.find?_push,
      Std.TreeMap.mem_iff_isSome_getElem?, Std.compare_eq_iff_eq]
    by_cases h : r.indices = indices
    · subst h
      cases c.rows.find? (·.indices = r.indices) <;> simp
    · simp [h]

/-- Adds the rows of the list to `kept`. Zeros lose their sign, so equal energies become
identical. Impossible rows are kept here: they too contradict other rows. -/
def collect [Energy E] (sizes : List Nat) (row : Nat) (kept : Collected E) :
    List (Row E) → Except (TableError E) (Collected E)
  | [] => .ok kept
  | r :: rest =>
    match checkRow sizes row r with
    | .error e => .error e
    | .ok _ =>
      let energy := Energy.unsigned r.energy
      match kept.energies[r.indices]? with
      | none => collect sizes (row + 1) (kept.push ⟨r.indices, energy⟩) rest
      | some first =>
        if first = energy then collect sizes (row + 1) kept rest
        else .error (.ambiguous r.indices first energy)

/-- The table of the listed rows. Repetitions of a row are merged, impossible rows left out. -/
def ofRows [Energy E] (sizes : List Nat) (rows : List (Row E)) :
    Except (TableError E) (Table E) :=
  match checkSizes sizes with
  | .error e => .error e
  | .ok _ =>
    match collect sizes 0 {} rows with
    | .error e => .error e
    | .ok kept => .ok (assemble sizes (kept.rows.filter (·.energy ≠ Energy.top)))

end Table

def volume : List Nat → Nat
  | [] => 1
  | n :: shape => n * volume shape

/-- All index tuples of a shape, the last axis varying fastest. -/
def tuples : List Nat → List (List Nat)
  | [] => [[]]
  | n :: shape => (List.range n).flatMap fun i => (tuples shape).map (i :: ·)

/-- An array with one axis per port, its entries in the order of `tuples`. -/
structure Dense (α : Type) where
  shape : List Nat
  entries : List α
  length_entries : entries.length = volume shape

namespace Dense

variable {α : Type}

def indexed (a : Dense α) : List (List Nat × α) := (tuples a.shape).zip a.entries

end Dense

namespace Table

variable {E : Type}

/-- The table of an array of energies, in which infinite entries are impossible. -/
def ofEnergies [Energy E] (a : Dense E) : Except (TableError E) (Table E) :=
  match checkSizes a.shape with
  | .error e => .error e
  | .ok _ => ofRows a.shape (a.indexed.map fun (indices, energy) => ⟨indices, energy⟩)

/-- The rows of positive weights, at the negative logarithm of the weight. -/
def rowsOfWeights [LogEnergy E] : List (List Nat × E) → Except (TableError E) (List (Row E))
  | [] => .ok []
  | (indices, weight) :: rest =>
    if !Energy.isFinite weight || decide (weight < 0) then .error (.invalidWeight indices weight)
    else
      match rowsOfWeights rest with
      | .error e => .error e
      | .ok rows =>
        if Energy.isZero weight then .ok rows
        else .ok (⟨indices, -LogEnergy.log weight⟩ :: rows)

/-- The table of an array of unnormalized probabilities, in which zero is impossible. -/
def ofWeights [LogEnergy E] (a : Dense E) : Except (TableError E) (Table E) :=
  match checkSizes a.shape with
  | .error e => .error e
  | .ok _ =>
    match rowsOfWeights a.indexed with
    | .error e => .error e
    | .ok rows => ofRows a.shape rows

end Table

end MinSum
