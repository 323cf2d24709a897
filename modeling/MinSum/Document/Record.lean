import MinSum.Document.Basic

/-! Records, whose parts stand in a list by place or in a document by name. -/
namespace MinSum.Document

/-- Reads one part of a record and adds it to what has been read so far. -/
abbrev Part (σ : Type) := σ → Document → Read σ

def part {σ α : Type} (read : Document → Read α) (put : σ → α → σ) : Part σ :=
  fun s d => (read d).map (put s)

/-- Reads parts by their place. The length of the list is checked after its items; `whole` names
what a list is that has them all. -/
def readInTurn {σ : Type} (whole : String) (parts : List (Part σ)) (start : σ)
    (items : List Document) : Read σ := do
  let s ← (parts.zip items).foldlM (fun s (part, d) => part s d) start
  if items.length < parts.length then throw (.wrongLength items.length whole)
  if parts.length < items.length then throw (.wrongLength items.length "fewer elements in array")
  return s

/-- Reads the parts that are there, in the order of their names. Other fields are ignored. -/
def readNamed {σ : Type} (parts : List (String × Part σ)) (start : σ)
    (entries : List (String × Document)) : Read σ :=
  (parts.mergeSort fun a b => a.1 ≤ b.1).foldlM (fun s (name, part) =>
    match entries.find? (·.1 = name) with
    | none => .ok s
    | some (_, d) => part s d) start

/-- A kind of record: its name, and its parts in the order in which a list holds them. -/
structure Record (σ : Type) where
  name : String
  parts : List (String × Part σ)

/-- Reads a record. A list holds all parts, but among fields some can be missing. -/
def Record.read {σ : Type} (r : Record σ) (start : σ) : Document → Read σ
  | list items =>
    let whole := s!"struct {r.name} with {r.parts.length} elements"
    readInTurn whole (r.parts.map (·.2)) start items
  | fields entries => readNamed r.parts start entries
  | d => .error (.wrongKind d.describe s!"struct {r.name}")

def require {α : Type} (name : String) : Option α → Read α
  | some x => .ok x
  | none => .error (.missingField name)

end MinSum.Document
