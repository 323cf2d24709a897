import MinSum.Node.Rule
import MinSum.Proofs.Energy.Zero
import MinSum.Proofs.Update

/-! One form for the updates of variables, tables and custom factors: the raw messages of the
rule, each settled on its own port. -/
namespace MinSum

open Scratch

variable {E : Type} [Energy E]

namespace Prior

theorem length_belief (prior : Message E) (incoming : List (Message E)) :
    (belief prior incoming).length = prior.length := Message.length_foldl_plus incoming prior

theorem settle_eq [Energy.LawfulZero E] {damping : Option (List E)}
    {sums : List (LeaveOneOut E)} (buffer : Buffer E) (port : Nat)
    {incoming previous : List (Message E)} (hl : incoming.length = previous.length) :
    let raw := List.zipWith (LeaveOneOut.leaveOut sums) incoming previous
    (settle sums damping buffer port incoming previous).1 =
        ((raw.zip previous).zipIdx port).map
          (fun x => Update.settled damping x.2 x.1.1 x.1.2) ∧
      (settle sums damping buffer port incoming previous).2.1 =
        Update.contradictory port raw := by
  induction incoming generalizing previous port buffer with
  | nil =>
    cases previous with
    | nil => exact ⟨rfl, rfl⟩
    | cons o previous => simp at hl
  | cons r incoming ih =>
    cases previous with
    | nil => simp at hl
    | cons o previous =>
      have hl' : incoming.length = previous.length := by simpa using hl
      let b := if Energy.isZero (Update.dampingAt damping port) then buffer else buffer.write 0 o
      obtain ⟨h₁, h₂⟩ := ih b (port + 1) hl'
      have hold : (if Energy.isZero (Update.dampingAt damping port) then none
          else some (b.slice 0 o.length)) = Update.keptAt damping port o := by
        unfold Update.keptAt
        split
        · rfl
        · rename_i hz
          cases damping with
          | none => exact absurd Energy.isZero_zero hz
          | some ds => simp [b, hz, Buffer.slice, Buffer.write]
      simp only [List.zipWith_cons_cons, List.zip_cons_cons, List.zipIdx_cons, List.map_cons,
        Update.contradictory_cons]
      rw [← h₁, ← h₂]
      simp only [settle, Message.finish_snd]
      exact ⟨by rw [Update.settled, ← hold], rfl⟩

/-- The sums that all accumulators end with, one for each value of the prior. -/
def sums (prior : Message E) (incoming : List (Message E)) : List (LeaveOneOut E) :=
  incoming.foldl (overlay .add) (prior.map .of)

/-- What accumulators held before does not matter, only that there is one per value. -/
theorem accumulate_eq {accumulators : List (LeaveOneOut E)} {prior : Message E}
    (h : accumulators.length = prior.length) (incoming : List (Message E)) :
    accumulate accumulators prior incoming = sums prior incoming := by
  rw [accumulate, overlay_eq_map _ h, sums]

def raw (prior : Message E) (incoming previous : List (Message E)) : List (Message E) :=
  List.zipWith (LeaveOneOut.leaveOut (sums prior incoming)) incoming previous

theorem lengths_raw (prior : Message E) {incoming previous : List (Message E)}
    (hl : incoming.length = previous.length) :
    (raw prior incoming previous).map List.length = previous.map List.length := by
  apply List.ext_getElem
  · simp [raw, hl]
  · intro i h₁ h₂
    simp [raw, LeaveOneOut.leaveOut, length_overlay]

theorem update_eq [Energy.LawfulZero E] (prior : Message E) {incoming previous : List (Message E)}
    (hl : incoming.length = previous.length) {accumulators : List (LeaveOneOut E)}
    (ha : accumulators.length = prior.length) (damping : Option (List E)) (pool : Pool E) :
    let u := update prior incoming previous damping pool accumulators
    u.outputs = Update.settledAll damping (raw prior incoming previous) previous ∧
      u.contradictions = Update.contradictory 0 (raw prior incoming previous) := by
  simp only [update, accumulate_eq ha]
  cases damping with
  | none => exact settle_eq _ 0 hl
  | some ds => exact settle_eq _ 0 hl

end Prior

namespace Table

theorem lengths_messages (t : Table E) (inputs : List (Message E)) (sizes : List Nat) :
    (t.messages inputs sizes).map List.length = sizes := by
  apply List.ext_getElem
  · simp [messages]
  · intro i h₁ h₂
    simp [messages]

theorem update_eq (t : Table E) (inputs previous : List (Message E)) (damping : Option (List E))
    (pool : Pool E) :
    let raw := t.messages inputs (previous.map List.length)
    (t.update inputs previous damping pool).outputs = Update.settledAll damping raw previous ∧
      (t.update inputs previous damping pool).contradictions = Update.contradictory 0 raw :=
  Update.allPorts_eq (lengths_messages t inputs _) (fun p hp => by simp [hp]) pool

end Table

theorem CustomFactor.update_eq (c : CustomFactor E) (inputs previous : List (Message E))
    (damping : Option (List E)) (pool : Pool E) :
    let raw := c.computeAll inputs previous
    (c.update inputs previous damping pool).outputs = Update.settledAll damping raw previous ∧
      (c.update inputs previous damping pool).contradictions = Update.contradictory 0 raw :=
  Update.allPorts_eq (c.lengths_computeAll inputs previous) (fun _ _ => rfl) pool

namespace Rule

def raw (rule : Rule E) (inputs previous : List (Message E)) : List (Message E) :=
  match rule with
  | .prior p => Prior.raw p inputs previous
  | .table t => t.messages inputs (previous.map List.length)
  | .custom c => c.computeAll inputs previous

/-- The message on one port before normalization, computed on its own. -/
def rawPort (rule : Rule E) (inputs : List (Message E)) (port : Nat) (previous : Message E) :
    Message E :=
  match rule with
  | .prior p => Prior.belief p (inputs.eraseIdx port)
  | .table t => t.message inputs port previous.length
  | .custom c => c.computePort port inputs previous

theorem lengths_raw (rule : Rule E) {inputs previous : List (Message E)}
    (hl : inputs.length = previous.length) :
    (rule.raw inputs previous).map List.length = previous.map List.length := by
  cases rule with
  | prior p => exact Prior.lengths_raw p hl
  | table t => exact Table.lengths_messages t inputs _
  | custom c => exact c.lengths_computeAll inputs previous

/-- An update settles every raw message on its own port, whatever the pool holds. -/
theorem update_eq [Energy.LawfulZero E] (rule : Rule E) {inputs previous : List (Message E)}
    (hl : inputs.length = previous.length) (damping : Option (List E)) (pool : Pool E) :
    (rule.update inputs previous damping pool).outputs =
        Update.settledAll damping (rule.raw inputs previous) previous ∧
      (rule.update inputs previous damping pool).contradictions =
        Update.contradictory 0 (rule.raw inputs previous) := by
  cases rule with
  | prior p => exact Prior.update_eq p hl List.length_replicate damping pool
  | table t => exact t.update_eq inputs previous damping pool
  | custom c => exact c.update_eq inputs previous damping pool

/-- The rule can serve ports of the given domain sizes. -/
def Fits (rule : Rule E) (sizes : List Nat) : Prop :=
  match rule with
  | .prior p => ∀ size ∈ sizes, size = p.length
  | .table t => t.sizes = sizes
  | .custom _ => True

theorem length_rawPort {rule : Rule E} {sizes : List Nat} (hf : rule.Fits sizes)
    (inputs : List (Message E)) (port : Nat) {previous : Message E}
    (hp : previous.length ∈ sizes) :
    (rule.rawPort inputs port previous).length = previous.length := by
  cases rule with
  | prior p => exact (Prior.length_belief p _).trans (hf _ hp).symm
  | table t => simp [rawPort, Table.message]
  | custom c => exact c.length_computePort port inputs previous

theorem updatePort_eq (rule : Rule E) (inputs : List (Message E)) (port : Nat)
    (previous : Message E) (d : E) (pool : Pool E) :
    rule.updatePort inputs port previous d pool =
      Update.onePort (rule.rawPort inputs port previous) previous d pool := by
  cases rule <;> rfl

end Rule

end MinSum
