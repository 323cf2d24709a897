import MinSum.CustomFactor.Basic
import MinSum.Failure
import MinSum.Interning
import MinSum.Table.Basic

/-! Model graphs: variables, factors and the edges between them, with the domains, inputs and
tables, but without messages. -/
namespace MinSum

namespace Graph

structure Link where
  neighbor : Nat
  edge : Nat
  deriving DecidableEq, Repr

structure Variable (E : Type) where
  name : String
  domain : Shared Domain
  /-- Prior energies; none stands for uniform ones. -/
  input : Option (Message E) := none
  /-- The index of the only value that the variable may take. -/
  fixed : Option Nat := none
  /-- The adjacent factors, in the order in which they were attached. -/
  links : List Link := []

inductive Potential (E : Type) where
  | table (table : Shared (Table E))
  | custom (custom : CustomFactor E)

structure Factor (E : Type) where
  potential : Potential E
  /-- The attached variables, in port order. -/
  links : List Link

structure Edge where
  var : Nat
  factor : Nat
  deriving DecidableEq, Repr

end Graph

/-- Variables, factors and edges by number. Domains and tables of equal content are shared. -/
structure Graph (E : Type) where
  vars : Array (Graph.Variable E) := #[]
  factors : Array (Graph.Factor E) := #[]
  edges : Array Graph.Edge := #[]
  domains : Interner Domain := {}
  tables : Interner (Table E) := {}

namespace Graph

variable {E : Type}

def Variable.size (v : Variable E) : Nat := v.domain.content.size

/-- The energies of the values before any message: a fixed value excludes the others. -/
def Variable.prior [Energy E] (v : Variable E) : Message E :=
  match v.fixed, v.input with
  | some index, _ => (Message.impossible v.size).set index 0
  | none, some input => input
  | none, none => Message.uniform v.size

/-- The edges at a node, in the order of its links. -/
def edgesOf (links : List Link) : List Nat := links.map (·.edge)

def neighborsOf (links : List Link) : List Nat := links.map (·.neighbor)

def variableAt (g : Graph E) (v : Nat) : Except (GraphError E) (Variable E) :=
  match g.vars[v]? with
  | some var => .ok var
  | none => .error (.noSuchVariable v)

def factorAt (g : Graph E) (f : Nat) : Except (GraphError E) (Factor E) :=
  match g.factors[f]? with
  | some factor => .ok factor
  | none => .error (.noSuchFactor f)

def edgeAt (g : Graph E) (e : Nat) : Except (GraphError E) Edge :=
  match g.edges[e]? with
  | some edge => .ok edge
  | none => .error (.noSuchEdge e)

/-- The name of a variable, for messages also where there is no such variable. -/
def nameOf (g : Graph E) (v : Nat) : String :=
  match g.vars[v]? with
  | some var => var.name
  | none => "<unknown>"

def domainAt (g : Graph E) (v : Nat) : Except (GraphError E) (Shared Domain) :=
  match g.variableAt v with
  | .ok var => .ok var.domain
  | .error e => .error e

def domainSizeAt (g : Graph E) (v : Nat) : Except (GraphError E) Nat :=
  match g.variableAt v with
  | .ok var => .ok var.size
  | .error e => .error e

def idOf (g : Graph E) (name : String) : Except (GraphError E) Nat :=
  match g.vars.findIdx? (·.name = name) with
  | some v => .ok v
  | none => .error (.noSuchName name)

def edgeBetween (g : Graph E) (v f : Nat) : Except (GraphError E) Nat :=
  match g.variableAt v with
  | .error e => .error e
  | .ok var =>
    match var.links.find? (·.neighbor = f) with
    | some link => .ok link.edge
    | none => .error (.notAdjacent var.name f)

def domainSizes (g : Graph E) : List Nat → Except (GraphError E) (List Nat)
  | [] => .ok []
  | v :: rest =>
    match g.domainSizeAt v with
    | .error e => .error e
    | .ok size =>
      match g.domainSizes rest with
      | .error e => .error e
      | .ok sizes => .ok (size :: sizes)

end Graph

end MinSum
