import MinSum.Damping
import MinSum.Document.Record
import MinSum.Edge
import MinSum.Energy.Double
import MinSum.Table.Build

/-! The stored forms of tables, domains, settings and edge states. Tables are checked when they
are read; the other forms are taken as they are. Of several faults the first is reported, missing
fields last. -/
namespace MinSum

structure StoredTable (E : Type) where
  sizes : List Nat
  rows : List (Row E)
  deriving DecidableEq, Repr

namespace Table

variable {E : Type}

def toStored (t : Table E) : StoredTable E := ⟨t.sizes, t.rows.toList⟩

def ofStored [Energy E] (s : StoredTable E) : Except (TableError E) (Table E) :=
  ofRows s.sizes s.rows

end Table

namespace Document

def readRow : Document → Read (Row Float)
  | list items =>
    readInTurn "a tuple of size 2"
      [part (readList readIndex) fun r indices => { r with indices },
        part readFloat fun r energy => { r with energy }] ⟨[], 0⟩ items
  | d => .error (.wrongKind d.describe "a tuple of size 2")

structure TableParts where
  sizes : Option (List Nat) := none
  rows : Option (List (Row Float)) := none

def TableParts.record : Record TableParts where
  name := "TableRepr"
  parts := [
    ("domain_sizes", part (readList readIndex) fun p sizes => { p with sizes }),
    ("rows", part (readList readRow) fun p rows => { p with rows })]

def readTable (d : Document) : Read (Table Float) := do
  let p ← TableParts.record.read {} d
  let stored := ⟨← require "domain_sizes" p.sizes, ← require "rows" p.rows⟩
  match Table.ofStored stored with
  | .error e => throw (.table e)
  | .ok t => return t

def indexList (l : List Nat) : Document := list (l.map fun (n : Nat) => integer n)

def numberList (l : List Float) : Document := list (l.map number)

def ofTable (t : Table Float) : Document :=
  let stored := t.toStored
  let row := fun r : Row Float => list [indexList r.indices, number r.energy]
  fields [("domain_sizes", indexList stored.sizes), ("rows", list (stored.rows.map row))]

/-- The content of a finite field is named, never listed. -/
def readPolynomial : Document → Read Nat
  | fields entries => do
    let polynomial ← readNamed
      [("polynomial", part (readBetween 0 0xffffffff "u32") fun _ n => some n)] none entries
    return (← require "polynomial" polynomial).toNat
  | d => .error (.wrongKind d.describe "struct variant")

def readKind (d : Document) : Read Domain.Kind := do
  match ← readVariant d with
  | ("Enumerated", none) | ("Enumerated", some null) => return .enumerated
  | ("Enumerated", some content) => throw (.wrongKind content.describe "unit")
  | ("FiniteField", some content) => return .finiteField (← readPolynomial content)
  | ("FiniteField", none) => throw (.wrongKind "unit variant" "struct variant")
  | (found, _) => throw (.unknownVariant found "Enumerated" "FiniteField")

def readValue (d : Document) : Read Value := do
  match ← readVariant d with
  | ("Int", some content) =>
    return .int (← readBetween (-0x8000000000000000) 0x7fffffffffffffff "i64" content)
  | ("Text", some content) => return .text (← readText content)
  | ("Int", none) | ("Text", none) => throw (.wrongKind "unit variant" "newtype variant")
  | (found, _) => throw (.unknownVariant found "Int" "Text")

structure DomainParts where
  kind : Option Domain.Kind := none
  values : Option (List Value) := none

def DomainParts.record : Record DomainParts where
  name := "DiscreteDomain"
  parts := [
    ("kind", part readKind fun p kind => { p with kind }),
    ("values", part (readSet readValue) fun p values => { p with values })]

/-- A stored domain may be empty; of repeated values the first is kept. -/
def readDomain (d : Document) : Read Domain := do
  let p ← DomainParts.record.read {} d
  return .ofStored (← require "kind" p.kind) (← require "values" p.values)

def ofKind : Domain.Kind → Document
  | .enumerated => text "Enumerated"
  | .finiteField p => fields [("FiniteField", fields [("polynomial", integer p)])]

def ofValue : Value → Document
  | .int n => fields [("Int", integer n)]
  | .text s => fields [("Text", text s)]

def ofDomain (d : Domain) : Document :=
  fields [("kind", ofKind d.kind), ("values", list (d.values.toList.map ofValue))]

structure SettingsParts where
  damping : Option Float := none
  poolCapacity : Option Nat := none
  showProgress : Option Bool := none

def SettingsParts.record : Record SettingsParts where
  name := "Config"
  parts := [
    ("damping", part readFloat fun p damping => { p with damping }),
    ("pool_capacity", part readIndex fun p poolCapacity => { p with poolCapacity }),
    ("show_progress", part readBool fun p showProgress => { p with showProgress })]

def readSettings (d : Document) : Read (Settings Float) := do
  let p ← SettingsParts.record.read {} d
  return ⟨← require "damping" p.damping, ← require "pool_capacity" p.poolCapacity,
    ← require "show_progress" p.showProgress⟩

def ofSettings (s : Settings Float) : Document :=
  fields [("damping", number s.damping), ("pool_capacity", integer s.poolCapacity),
    ("show_progress", bool s.showProgress)]

def choiceRecord : Record (DampingChoice Float) where
  name := "NodeOptions"
  parts := [
    ("damping", part (readOption readFloat) fun c damping => { c with damping }),
    ("node_specific_damping",
      part (readOption (readList readFloat)) fun c portDamping => { c with portDamping })]

def readChoice : Document → Read (DampingChoice Float) := choiceRecord.read {}

def ofChoice (c : DampingChoice Float) : Document :=
  fields [("damping", c.damping.elim null number),
    ("node_specific_damping", c.portDamping.elim null numberList)]

structure EdgeParts where
  toFactor : Option (Message Float) := none
  toVariable : Option (Message Float) := none

def EdgeParts.record : Record EdgeParts where
  name := "EdgeState"
  parts := [
    ("var_to_factor", part (readList readFloat) fun p toFactor => { p with toFactor }),
    ("factor_to_var", part (readList readFloat) fun p toVariable => { p with toVariable })]

def readEdge (d : Document) : Read (EdgeMessages Float) := do
  let p ← EdgeParts.record.read {} d
  return ⟨← require "var_to_factor" p.toFactor, ← require "factor_to_var" p.toVariable⟩

def ofEdge (s : EdgeMessages Float) : Document :=
  fields [("var_to_factor", numberList s.toFactor), ("factor_to_var", numberList s.toVariable)]

end Document

end MinSum
