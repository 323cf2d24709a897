import MinSum.LeaveOneOut
import MinSum.Update

/-! Messages sent by a variable with a given prior. The message on a port is the prior plus the
messages received on the other ports. -/
namespace MinSum.Prior

open Scratch

variable {E : Type} [Energy E]

/-- The prior plus everything received. -/
def belief (prior : Message E) (incoming : List (Message E)) : Message E :=
  incoming.foldl Message.plus prior

def updatePort (prior : Message E) (incoming : List (Message E)) (port : Nat)
    (previous : Message E) (damping : E) (pool : Pool E) : PortUpdate E :=
  Update.onePort (belief prior (incoming.eraseIdx port)) previous damping pool

/-- The sum of the prior and of everything received, for each value. The accumulators are
started afresh, whatever they hold. -/
def accumulate (accumulators : List (LeaveOneOut E)) (prior : Message E)
    (incoming : List (Message E)) : List (LeaveOneOut E) :=
  incoming.foldl (overlay .add) (overlay (fun _ p => .of p) accumulators prior)

/-- Finishes the messages from `port` on. Every damped message is copied to the same buffer
before it is replaced. Ends with the messages, the contradictory ports and the buffer. -/
def settle (sums : List (LeaveOneOut E)) (damping : Option (List E)) (buffer : Buffer E)
    (port : Nat) :
    (incoming previous : List (Message E)) → List (Message E) × List Nat × Buffer E
  | received :: incoming, old :: previous =>
    let d := Update.dampingAt damping port
    let buffer := if Energy.isZero d then buffer else buffer.write 0 old
    let saved := if Energy.isZero d then none else some (buffer.slice 0 old.length)
    let (output, verdict) := Message.finish (LeaveOneOut.leaveOut sums received old) saved d
    let (outputs, ports, buffer) := settle sums damping buffer (port + 1) incoming previous
    (output :: outputs, if verdict = .contradiction then port :: ports else ports, buffer)
  | _, previous => (previous, [], buffer)

def update (prior : Message E) (incoming previous : List (Message E))
    (damping : Option (List E)) (pool : Pool E) (accumulators : List (LeaveOneOut E)) :
    Update E :=
  let sums := accumulate accumulators prior incoming
  match damping with
  | none =>
    let (outputs, ports, _) := settle sums none ⟨0, []⟩ 0 incoming previous
    ⟨outputs, ports, pool⟩
  | some coefficients =>
    let (buffer, pool) := pool.acquire prior.length
    let (outputs, ports, buffer) := settle sums (some coefficients) buffer 0 incoming previous
    ⟨outputs, ports, pool.release buffer⟩

end MinSum.Prior
