import MinSum.Graph.Basic

/-! Growth and inputs of model graphs. A refused change leaves no trace: the graph stays the one
before it. -/
namespace MinSum.Graph

variable {E : Type}

/-- Adds a variable without input, whose number is the old count of variables. -/
def addVariable (g : Graph E) (name : String) (domain : Domain) :
    Except (GraphError E) (Nat × Graph E) :=
  if g.vars.any (·.name = name) then .error (.nameTaken name)
  else
    let (domain, domains) := g.domains.intern domain
    .ok (g.vars.size,
      { g with vars := g.vars.push { name, domain }, domains })

def linkVariable (vars : Array (Variable E)) (f : Nat) (link : Link) :
    Array (Variable E) :=
  vars.modify link.neighbor fun v => { v with links := v.links ++ [⟨f, link.edge⟩] }

/-- Adds a factor over distinct variables, with new edges in port order. -/
def attach (g : Graph E) (potential : Potential E) (operands : List Nat) : Nat × Graph E :=
  let f := g.factors.size
  let links := operands.mapIdx fun port v => ⟨v, g.edges.size + port⟩
  (f, { g with
    vars := links.foldl (linkVariable · f ·) g.vars
    factors := g.factors.push ⟨potential, links⟩
    edges := g.edges ++ operands.map (Edge.mk · f) })

/-- No variable occurs twice. -/
def checkOperands (g : Graph E) (operands : List Nat) : Except (GraphError E) Unit :=
  match firstRepeat? [] operands with
  | some v => .error (.repeatedOperand (g.nameOf v))
  | none => .ok ()

/-- Each variable has the domain size of its port. -/
def checkPorts (g : Graph E) : (operands sizes : List Nat) → Except (GraphError E) Unit
  | v :: operands, size :: sizes =>
    match g.variableAt v with
    | .error e => .error e
    | .ok var =>
      if var.size = size then g.checkPorts operands sizes
      else .error (.domainSize var.name size var.size)
  | _, _ => .ok ()

def addTable [DecidableEq E] (g : Graph E) (table : Table E) (operands : List Nat) :
    Except (GraphError E) (Nat × Graph E) :=
  if table.portCount ≠ operands.length then .error (.arity table.portCount operands.length)
  else
    match g.checkPorts operands table.sizes with
    | .error e => .error e
    | .ok _ =>
      match g.checkOperands operands with
      | .error e => .error e
      | .ok _ =>
        let (table, tables) := g.tables.intern table
        .ok ({ g with tables }.attach (.table table) operands)

def addCustom (g : Graph E) (custom : CustomFactor E) (operands : List Nat) :
    Except (GraphError E) (Nat × Graph E) :=
  match g.domainSizes operands with
  | .error e => .error e
  | .ok sizes =>
    match custom.checkDomains sizes with
    | .error reason => .error (.unsuitableDomains custom.name reason)
    | .ok _ =>
      match g.checkOperands operands with
      | .error e => .error e
      | .ok _ => .ok (g.attach (.custom custom) operands)

/-- An input has one admissible energy per value. -/
def checkInput [Energy E] (var : Variable E) (input : Message E) :
    Except (GraphError E) Unit :=
  if input.length ≠ var.size then .error (.inputLength var.name var.size input.length)
  else
    match input.find? (!Energy.isAdmissible ·) with
    | some x => .error (.invalidInput var.name x)
    | none => .ok ()

/-- Sets the prior energies of a variable. No input and an empty one both mean uniform. -/
def setInput [Energy E] (g : Graph E) (v : Nat) (input : Option (Message E)) :
    Except (GraphError E) (Graph E) :=
  let input := input.filter (!·.isEmpty)
  match g.variableAt v with
  | .error e => .error e
  | .ok var =>
    match input.elim (.ok ()) (checkInput var) with
    | .error e => .error e
    | .ok _ => .ok { g with vars := g.vars.setIfInBounds v { var with input } }

def setInputProbabilities [LogEnergy E] (g : Graph E) (v : Nat) (probabilities : List E) :
    Except (GraphError E) (Graph E) :=
  match Message.ofProbabilities probabilities with
  | .error bad => .error (.invalidInput (g.nameOf v) bad)
  | .ok energies => g.setInput v (some energies)

def fixValue (g : Graph E) (v : Nat) (fixed : Option Nat) : Except (GraphError E) (Graph E) :=
  match g.variableAt v with
  | .error e => .error e
  | .ok var =>
    match fixed.filter (var.size ≤ ·) with
    | some index => .error (.fixedOutOfRange var.name index var.size)
    | none => .ok { g with vars := g.vars.setIfInBounds v { var with fixed } }

def fixValueOf (g : Graph E) (v : Nat) (value : Value) : Except (GraphError E) (Graph E) :=
  match g.variableAt v with
  | .error e => .error e
  | .ok var =>
    match var.domain.content.indexOf? value with
    | none => .error (.valueNotInDomain var.name value)
    | some index => g.fixValue v (some index)

end MinSum.Graph
