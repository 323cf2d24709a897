import MinSum.Message
import MinSum.Scratch

/-! The common frame of message updates. An update computes raw messages, then normalizes each
and damps it against the message it replaces, of which a copy was put into a scratch buffer. -/
namespace MinSum

open Scratch

structure PortUpdate (E : Type) where
  output : Message E
  verdict : Message.Verdict
  pool : Pool E
  deriving DecidableEq, Repr

structure Update (E : Type) where
  outputs : List (Message E)
  contradictions : List Nat
  pool : Pool E
  deriving DecidableEq, Repr

namespace Update

variable {E : Type} [Energy E]

/-- The damping of a port, zero where none is given. -/
def dampingAt (damping : Option (List E)) (port : Nat) : E :=
  match damping with
  | none => 0
  | some coefficients => coefficients.getD port 0

/-- Replaces one message by the finished form of `raw`. The old message is copied to a buffer
only if it takes part in the new one. -/
def onePort (raw previous : Message E) (damping : E) (pool : Pool E) : PortUpdate E :=
  if Energy.isZero damping then
    let (output, verdict) := Message.finish raw none damping
    ⟨output, verdict, pool⟩
  else
    let (buffer, pool) := pool.acquireCopy previous
    let (output, verdict) := Message.finish raw (some buffer.entries) damping
    ⟨output, verdict, pool.release buffer⟩

def totalLength (messages : List (Message E)) : Nat :=
  messages.foldr (fun m length => m.length + length) 0

/-- Copies the old messages into one buffer, at consecutive offsets. The places of ports that
`keep` leaves out stay as they are. -/
def save (keep : Nat → Bool) (port offset : Nat) (buffer : Buffer E) :
    List (Message E) → Buffer E
  | [] => buffer
  | m :: rest =>
    let buffer := if keep port then buffer.write offset m else buffer
    save keep (port + 1) (offset + m.length) buffer rest

/-- Finishes the raw messages from `port` on, whose old messages start at `offset` in the
buffer. Returns the new messages and the contradictory ports. -/
def settle (damping : Option (List E)) (saved : Option (Buffer E)) (port offset : Nat) :
    List (Message E) → List (Message E) × List Nat
  | [] => ([], [])
  | raw :: rest =>
    let d := dampingAt damping port
    let old := if Energy.isZero d then none else saved.map (·.slice offset raw.length)
    let (output, verdict) := Message.finish raw old d
    let (outputs, ports) := settle damping saved (port + 1) (offset + raw.length) rest
    (output :: outputs, if verdict = .contradiction then port :: ports else ports)

/-- Replaces the messages of all ports by the finished forms of `raw`. With damping, one buffer
holds the old messages of the ports that `keep` names. -/
def allPorts (keep : Nat → Bool) (raw previous : List (Message E)) (damping : Option (List E))
    (pool : Pool E) : Update E :=
  match damping with
  | none =>
    let (outputs, ports) := settle none none 0 0 raw
    ⟨outputs, ports, pool⟩
  | some coefficients =>
    let (buffer, pool) := pool.acquire (totalLength previous)
    let buffer := save keep 0 0 buffer previous
    let (outputs, ports) := settle (some coefficients) (some buffer) 0 0 raw
    ⟨outputs, ports, pool.release buffer⟩

end Update

end MinSum
