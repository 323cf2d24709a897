import MinSum.Decimal.Text
import MinSum.Domain
import MinSum.Table.Basic

/-! All failures of the library, why a change of a model graph or a request to a solver is refused
among them, and the sentences that report them. -/
namespace MinSum

inductive NodeId where
  | var (v : Nat)
  | factor (f : Nat)
  deriving DecidableEq, Repr

def NodeId.text : NodeId → String
  | .var v => s!"variable {v}"
  | .factor f => s!"factor {f}"

inductive GraphError (E : Type) where
  | nameTaken (name : String)
  | noSuchName (name : String)
  | noSuchVariable (v : Nat)
  | noSuchFactor (f : Nat)
  | noSuchEdge (e : Nat)
  | notAdjacent (name : String) (f : Nat)
  | repeatedOperand (name : String)
  | arity (expected got : Nat)
  | domainSize (name : String) (expected got : Nat)
  | inputLength (name : String) (expected got : Nat)
  | invalidInput (name : String) (energy : E)
  | fixedOutOfRange (name : String) (index size : Nat)
  | valueNotInDomain (name : String) (value : Value)
  | unsuitableDomains (factor reason : String)
  deriving DecidableEq, Repr

inductive SolverError (E : Type) where
  | notInitialized (node : NodeId)
  | noSuchPort (node : NodeId) (port siblings : Nat)
  | noSuchEdge (edge : Nat)
  | duplicateEdge (edge : Nat)
  | noSuchNode (node : NodeId)
  | foreignEdge (node : NodeId) (edge : Nat)
  | siblingCount (node : NodeId) (expected got : Nat)
  | domainSize (edge expected got : Nat)
  | messageLength (expected got : Nat)
  | invalidMessage (energy : E)
  | invalidDamping (coefficient : E)
  | noFactorBelief (node : NodeId)
  | graph (error : GraphError E)
  deriving DecidableEq, Repr

def Value.toText : Value → String
  | .int n => toString n
  | .text s => s

def listText (l : List Nat) : String := "[" ++ ", ".intercalate (l.map Nat.repr) ++ "]"

def binaryText (n : Nat) : String := "0b" ++ String.ofList (Nat.toDigits 2 n)

/-- Energies are written positionally, and a tie between two shortest decimals goes up. -/
def energyText (x : Float) : String := Decimal.Format.text ⟨.up, Decimal.Digits.positional⟩ x

def DomainError.message : DomainError → String
  | .empty => "A domain must have at least one value."
  | .duplicateValue v => s!"Value {v.toText} appears more than once in the domain."
  | .invalidRange start stop => s!"Invalid range {start}..{stop}."
  | .invalidPolynomial p =>
    s!"{binaryText p} is not a valid primitive polynomial " ++
      "(degree must be in 1..=24, constant term must be 1)."

def TableError.message : TableError Float → String
  | .noPorts => "A factor table needs at least one port."
  | .emptyDomain port => s!"Port {port} has an empty domain."
  | .arity row expected got => s!"Row {row} has {got} indices, expected {expected}."
  | .indexOutOfRange row port index size =>
    s!"Row {row}: index {index} is out of range for port {port} (domain size {size})."
  | .invalidEnergy row energy => s!"Row {row} has invalid energy {energyText energy}."
  | .ambiguous indices first second =>
    s!"Assignment {listText indices} is given two different energies " ++
      s!"({energyText first} and {energyText second})."
  | .invalidWeight indices weight =>
    s!"Invalid weight {energyText weight} for assignment {listText indices}."

def GraphError.message : GraphError Float → String
  | .nameTaken name => s!"Variable {name} declared multiple times."
  | .noSuchName name => s!"No variable named {name}."
  | .noSuchVariable v => s!"No variable with id {v}."
  | .noSuchFactor f => s!"No factor with id {f}."
  | .noSuchEdge e => s!"No edge with id {e}."
  | .notAdjacent name f => s!"No edge between variable {name} and factor {f}."
  | .repeatedOperand name => s!"Variable {name} is given twice to the same factor."
  | .arity expected got => s!"Factor expects {expected} variables, got {got}."
  | .domainSize name expected got =>
    s!"Domain of variable {name} has size {got}, expected {expected}."
  | .inputLength name expected got =>
    s!"Input of variable {name} has length {got}, expected {expected}."
  | .invalidInput name energy =>
    s!"Input of variable {name} contains invalid value {energyText energy}."
  | .fixedOutOfRange name index size =>
    s!"Fixed value index {index} out of range for variable {name} (domain size {size})."
  | .valueNotInDomain name value =>
    s!"Value {value.toText} is not in the domain of variable {name}."
  | .unsuitableDomains factor reason =>
    s!"Custom factor {factor} cannot be attached: {reason}"

def SolverError.message : SolverError Float → String
  | .notInitialized node => s!"{node.text} used before initialize()."
  | .noSuchPort node port siblings =>
    s!"{node.text} has no port {port} (it has {siblings} sibling edges)."
  | .noSuchEdge edge => s!"No edge state with id {edge}."
  | .duplicateEdge edge => s!"Edge {edge} is requested more than once."
  | .noSuchNode node => s!"No {node.text} in the graph."
  | .foreignEdge node edge => s!"Edge {edge} is not attached to {node.text}."
  | .siblingCount node expected got =>
    s!"{node.text} has {expected} sibling edges, got {got} edge states."
  | .domainSize edge expected got =>
    s!"Edge {edge} carries messages of length {got}, expected {expected}."
  | .messageLength expected got => s!"Message has length {got}, expected {expected}."
  | .invalidMessage energy => s!"Invalid message energy {energyText energy}."
  | .invalidDamping coefficient =>
    s!"Damping coefficient {energyText coefficient} is not in [0, 1]."
  | .noFactorBelief node =>
    s!"factor belief of a custom factor is not supported ({node.text})."
  | .graph e => e.message

inductive Failure (E : Type) where
  | domain (error : DomainError)
  | table (error : TableError E)
  | graph (error : GraphError E)
  | solver (error : SolverError E)
  deriving DecidableEq, Repr

def Failure.message : Failure Float → String
  | .domain e => "Invalid domain: " ++ e.message
  | .table e => "Malformed factor table: " ++ e.message
  | .graph e => "Invalid graph: " ++ e.message
  | .solver e => "Solver error: " ++ e.message

end MinSum
