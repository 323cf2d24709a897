import MinSum.Distinct

/-! Finite ordered domains of discrete values. A domain numbers its values densely from zero;
messages and tables are indexed by these numbers. -/
namespace MinSum

/-- A value that a variable can take. The integer 1 and the text "1" are different values. -/
inductive Value where
  | int (n : Int)
  | text (s : String)
  deriving DecidableEq, Repr

namespace Domain

inductive Kind where
  | enumerated
  /-- The elements of GF(2^N) by their binary encoding; `polynomial` has degree N. -/
  | finiteField (polynomial : Nat)
  deriving DecidableEq, Repr

end Domain

structure Domain where
  kind : Domain.Kind
  values : Array Value
  nodup : values.toList.Nodup
  deriving DecidableEq, Repr

inductive DomainError where
  | empty
  | duplicateValue (value : Value)
  | invalidRange (start stop : Int)
  | invalidPolynomial (polynomial : Nat)
  deriving DecidableEq, Repr

namespace Domain

def size (d : Domain) : Nat := d.values.size

def value? (d : Domain) (i : Nat) : Option Value := d.values[i]?

def indexOf? (d : Domain) (v : Value) : Option Nat := d.values.findIdx? (· = v)

def ofValues (l : List Value) : Except DomainError Domain :=
  match h : firstRepeat? [] l with
  | some v => .error (.duplicateValue v)
  | none =>
    if l.isEmpty then .error .empty
    else .ok ⟨.enumerated, l.toArray, (nodup_of_firstRepeat?_eq_none h).1⟩

def consecutive (start : Int) (n : Nat) : List Value :=
  (List.range n).map fun (k : Nat) => .int (start + k)

theorem nodup_consecutive (start : Int) (n : Nat) : (consecutive start n).Nodup := by
  refine List.Pairwise.map _ ?_ List.nodup_range
  intro a b hab h
  simp only [Value.int.injEq] at h
  omega

/-- The integers from `start` up to, not including, `stop`. -/
def range (start stop : Int) : Except DomainError Domain :=
  if stop ≤ start then .error (.invalidRange start stop)
  else .ok ⟨.enumerated, (consecutive start (stop - start).toNat).toArray,
    nodup_consecutive start _⟩

def bit : Domain := ⟨.enumerated, #[.int 0, .int 1], by decide⟩

def maxFieldDegree : Nat := 24

/-- The encodings of GF(2^N), N being the degree of `polynomial`. The polynomial needs a
constant term and a degree from 1 to `maxFieldDegree`. -/
def finiteField (polynomial : Nat) : Except DomainError Domain :=
  let degree := polynomial.log2
  if degree = 0 ∨ maxFieldDegree < degree ∨ polynomial % 2 = 0 then
    .error (.invalidPolynomial polynomial)
  else .ok ⟨.finiteField polynomial, (consecutive 0 (Nat.pow 2 degree)).toArray,
    nodup_consecutive 0 _⟩

/-- A domain of the given kind and values, later repetitions left out. It may be empty. -/
def ofStored (kind : Kind) (l : List Value) : Domain :=
  ⟨kind, (distinct [] l).toArray, (nodup_distinct [] l).1⟩

end Domain

end MinSum
