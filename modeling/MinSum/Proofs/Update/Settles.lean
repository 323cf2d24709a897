import MinSum.Proofs.CustomFactor.Equality
import MinSum.Proofs.Update.Portwise

/-! Updates told by the raw messages of single ports. In exact energies the sums that the update of
all ports shares give each port the raw message that it would have alone, so both kinds of updates
settle the same messages. -/
namespace MinSum

open Scratch

namespace Update

variable {E : Type} [Energy E]

/-- The updates of all ports and of one port settle raw messages that are told by the port and by
the message that is replaced. -/
structure Settles (sizes : List Nat) (raw : Nat → Message E → Message E)
    (all : List (Message E) → Option (List E) → Pool E → Update E)
    (one : Nat → Message E → E → Pool E → PortUpdate E) : Prop where
  outputs : ∀ previous damping pool, previous.map List.length = sizes →
    (all previous damping pool).outputs = settledAll damping (previous.mapIdx raw) previous
  contradictions : ∀ previous damping pool, previous.map List.length = sizes →
    (all previous damping pool).contradictions = contradictory 0 (previous.mapIdx raw)
  alone : ∀ port old d pool, one port old d pool = onePort (raw port old) old d pool

/-- It is enough that the raw messages of all ports are those of single ports. -/
theorem settles_of_raw {sizes : List Nat} {rawPort : Nat → Message E → Message E}
    {rawAll : List (Message E) → List (Message E)}
    {all : List (Message E) → Option (List E) → Pool E → Update E}
    {one : Nat → Message E → E → Pool E → PortUpdate E}
    (hraw : ∀ previous : List (Message E), previous.map List.length = sizes →
      (rawAll previous).length = previous.length ∧ ∀ (port : Nat) old,
        previous[port]? = some old → (rawAll previous)[port]? = some (rawPort port old))
    (hall : ∀ previous damping pool, previous.map List.length = sizes →
      (all previous damping pool).outputs = settledAll damping (rawAll previous) previous ∧
        (all previous damping pool).contradictions = contradictory 0 (rawAll previous))
    (hone : ∀ port old d pool, one port old d pool = onePort (rawPort port old) old d pool) :
    Settles sizes rawPort all one := by
  have hmapIdx : ∀ previous : List (Message E), previous.map List.length = sizes →
      rawAll previous = previous.mapIdx rawPort := by
    intro previous hp
    obtain ⟨hlen, hport⟩ := hraw previous hp
    apply List.ext_getElem?
    intro port
    rw [List.getElem?_mapIdx]
    cases hold : previous[port]? with
    | none => exact List.getElem?_eq_none (hlen ▸ List.getElem?_eq_none_iff.1 hold)
    | some old => exact hport port old hold
  refine ⟨fun previous damping pool hp => ?_, fun previous damping pool hp => ?_, hone⟩
  · rw [← hmapIdx previous hp, (hall previous damping pool hp).1]
  · rw [← hmapIdx previous hp, (hall previous damping pool hp).2]

theorem contradictory_congr {raw raw' : List (Message E)}
    (h : raw'.map Message.normalize = raw.map Message.normalize) (port : Nat) :
    contradictory port raw' = contradictory port raw := by
  induction raw generalizing raw' port with
  | nil =>
    obtain rfl := List.map_eq_nil_iff.1 h
    rfl
  | cons r raw ih =>
    cases raw' with
    | nil => simp at h
    | cons r' raw' =>
      obtain ⟨hr, hrest⟩ := List.cons.inj h
      rw [contradictory_cons, contradictory_cons, hr, ih hrest]

/-- Two pairs of updates, of all ports and of one port each, leave the same messages and report the
same contradictions, whatever the old messages, the damping and the pools. -/
structure SameResults (sizes : List Nat)
    (all all' : List (Message E) → Option (List E) → Pool E → Update E)
    (one one' : Nat → Message E → E → Pool E → PortUpdate E) : Prop where
  outputs : ∀ previous damping pool pool', previous.map List.length = sizes →
    (all' previous damping pool').outputs = (all previous damping pool).outputs
  contradictions : ∀ previous damping pool pool', previous.map List.length = sizes →
    (all' previous damping pool').contradictions = (all previous damping pool).contradictions
  output : ∀ port old d pool pool', sizes[port]? = some old.length →
    (one' port old d pool').output = (one port old d pool).output
  verdict : ∀ port old d pool pool', sizes[port]? = some old.length →
    (one' port old d pool').verdict = (one port old d pool).verdict

/-- Raw messages that normalize alike are settled alike. -/
theorem Settles.sameResults [Energy.LawfulZero E] {sizes : List Nat}
    {raw raw' : Nat → Message E → Message E}
    {all all' : List (Message E) → Option (List E) → Pool E → Update E}
    {one one' : Nat → Message E → E → Pool E → PortUpdate E}
    (h : Settles sizes raw all one) (h' : Settles sizes raw' all' one')
    (hraw : ∀ port (old : Message E), sizes[port]? = some old.length →
      Message.normalize (raw' port old) = Message.normalize (raw port old)) :
    SameResults sizes all all' one one' := by
  have hold : ∀ previous : List (Message E), previous.map List.length = sizes →
      ∀ (port : Nat) old, previous[port]? = some old →
        Message.normalize (raw' port old) = Message.normalize (raw port old) := by
    intro previous hp port old hold
    apply hraw
    rw [← hp, List.getElem?_map, hold]
    rfl
  refine ⟨fun previous damping pool pool' hp => ?_, fun previous damping pool pool' hp => ?_,
    fun port old d pool pool' hs => ?_, fun port old d pool pool' hs => ?_⟩
  · rw [h.outputs _ _ _ hp, h'.outputs _ _ _ hp]
    apply List.ext_getElem?
    intro port
    rw [getElem?_settledAll, getElem?_settledAll, List.getElem?_mapIdx, List.getElem?_mapIdx]
    cases ho : previous[port]? with
    | none => rfl
    | some old => simp only [Option.map_some, settled_eq_damp, hold previous hp port old ho]
  · rw [h.contradictions _ _ _ hp, h'.contradictions _ _ _ hp]
    apply contradictory_congr
    apply List.ext_getElem?
    intro port
    simp only [List.getElem?_map, List.getElem?_mapIdx]
    cases ho : previous[port]? with
    | none => rfl
    | some old => simp only [Option.map_some, hold previous hp port old ho]
  · rw [h.alone, h'.alone, onePort_eq_damp, onePort_eq_damp, hraw port old hs]
  · rw [h.alone, h'.alone, onePort_verdict, onePort_verdict, hraw port old hs]

end Update

theorem length_eq_of_map_eq {E : Type} {inputs previous : List (Message E)} {size : Nat}
    (hl : ∀ m ∈ inputs, m.length = size)
    (h : previous.map List.length = inputs.map List.length) : ∀ m ∈ previous, m.length = size := by
  intro m hm
  have hlength : m.length ∈ inputs.map List.length := h ▸ List.mem_map_of_mem hm
  obtain ⟨m', hm', heq⟩ := List.mem_map.1 hlength
  rw [← heq, hl m' hm']

variable {K : Type} [Field K] [LinearOrder K]

theorem Table.Sound.settles {t : Table (Extended K)} (ht : t.Sound)
    {inputs : List (Message (Extended K))} (hm : ∀ m ∈ inputs, m.Proper)
    (hl : inputs.length = t.sizes.length) :
    Update.Settles t.sizes (fun port old => t.message inputs port old.length) (t.update inputs)
      (t.updatePort inputs) := by
  refine Update.settles_of_raw (fun previous hp => ⟨?_, fun port old hold => ?_⟩)
    (fun previous damping pool _ => t.update_eq inputs previous damping pool)
    fun _ _ _ _ => rfl
  · simpa using congrArg List.length (t.lengths_messages inputs (previous.map List.length))
  · rw [hp]
    apply ht.getElem?_messages hm hl
    rw [← hp, List.getElem?_map, hold]
    rfl

theorem Prior.settles {prior : Message (Extended K)} {incoming : List (Message (Extended K))}
    (hp : prior.Proper) (hm : ∀ m ∈ incoming, m.Proper)
    (hl : ∀ m ∈ incoming, m.length = prior.length) {accumulators : List (LeaveOneOut (Extended K))}
    (ha : accumulators.length = prior.length) :
    Update.Settles (incoming.map List.length)
      (fun port _ => belief prior (incoming.eraseIdx port))
      (fun previous damping pool => update prior incoming previous damping pool accumulators)
      (updatePort prior incoming) := by
  have hlen : ∀ previous : List (Message (Extended K)),
      previous.map List.length = incoming.map List.length → incoming.length = previous.length := by
    intro previous hprev
    simpa using (congrArg List.length hprev).symm
  refine Update.settles_of_raw (fun previous hprev => ⟨?_, fun port old hold => ?_⟩)
    (fun previous damping pool hprev => update_eq prior (hlen previous hprev) ha damping pool)
    fun _ _ _ _ => rfl
  · simpa using congrArg List.length (lengths_raw prior (hlen previous hprev))
  · exact getElem?_raw hp hm hl (hlen previous hprev) (length_eq_of_map_eq hl hprev)
      (List.getElem?_eq_some_iff.1 hold).1

theorem CustomFactor.settles_equality {inputs : List (Message (Extended K))} {size : Nat}
    (hm : ∀ m ∈ inputs, m.Proper) (hl : ∀ m ∈ inputs, m.length = size) :
    Update.Settles (inputs.map List.length) (fun port old => Equality.computePort port inputs old)
      (equality.update inputs) (equality.updatePort inputs) := by
  refine Update.settles_of_raw (fun previous hprev => ⟨?_, fun port old hold => ?_⟩)
    (fun previous damping pool _ => equality.update_eq inputs previous damping pool)
    fun _ _ _ _ => rfl
  · simpa using congrArg List.length (equality.lengths_computeAll inputs previous)
  · have hlengths := congrArg (·[port]?) (equality.lengths_computeAll inputs previous)
    simp only [List.getElem?_map, hold, Option.map_some, Option.map_eq_some_iff] at hlengths
    obtain ⟨m, hget, hlength⟩ := hlengths
    have hlen : inputs.length = previous.length := by
      simpa using (congrArg List.length hprev).symm
    have hlp := length_eq_of_map_eq hl hprev
    have hsend := Equality.sends_computeAll hm hl hlen hlp hget
    have hone := Equality.sends_computePort hm hl (hlp old (List.mem_of_getElem? hold)) port
    rw [hget, hsend.unique hone (hlength.trans (Equality.length_computePort _ _ _).symm)]

end MinSum
