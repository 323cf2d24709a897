import MinSum.Proofs.CustomFactor.Equality

/-! Damping, port by port. For tables, variables and custom factors alike, with any energies and not
only exact ones: what an update leaves on a port with damping is what it leaves without, mixed with
the old message of the same port by the coefficient of the same port. Old messages of other ports,
their coefficients and the scratch buffers have no part in it. -/
namespace MinSum

open Scratch

variable {E : Type} [Energy E]

structure Message.Damped (d : E) (new old result : Message E) : Prop where
  eq_damp : result = new.damp old d
  off : Energy.isZero d = true → result = new
  full : d = 1 → result = old
  mixed : Energy.isZero d = false → d ≠ 1 →
    result = List.zipWith (fun x y => (1 - d) * x + d * y) new old

theorem Message.damped_damp [Energy.LawfulUnit E] {new old : Message E}
    (hl : old.length = new.length) (d : E) : Damped d new old (new.damp old d) where
  eq_damp := rfl
  off hz := if_pos hz
  full h1 := by
    rw [h1, damp_one]
  mixed hz h1 := by
    rw [damp, if_neg (by simp [hz]), if_neg h1]
    exact overlay_eq_zipWith _ hl.ge

namespace Update

/-- How an update of ports of the given sizes depends on the messages that it replaces, on its
coefficients and on its pool. Without damping it leaves the messages `fresh` and lists `ports`. -/
structure DampsPerPort (update : List (Message E) → Option (List E) → Pool E → Update E)
    (sizes : List Nat) (fresh : List (Message E)) (ports : List Nat) : Prop where
  undamped : ∀ previous pool, previous.map List.length = sizes →
    (update previous none pool).outputs = fresh ∧
      (update previous none pool).contradictions = ports
  contradictions : ∀ previous ds pool, previous.map List.length = sizes →
    (update previous (some ds) pool).contradictions = ports
  lengths : ∀ previous ds pool, previous.map List.length = sizes →
    (update previous (some ds) pool).outputs.map List.length = sizes
  damped : ∀ previous ds pool (port : Nat) new old d, previous.map List.length = sizes →
    fresh[port]? = some new → previous[port]? = some old → ds[port]? = some d →
      ∃ result, (update previous (some ds) pool).outputs[port]? = some result ∧
        Message.Damped d new old result
  /-- Other ports do not matter, and neither does the pool. -/
  apart : ∀ previous previous' ds ds' pool pool' (port : Nat), previous.map List.length = sizes →
    previous'.map List.length = sizes → previous[port]? = previous'[port]? →
      ds[port]? = ds'[port]? → (update previous (some ds) pool).outputs[port]? =
        (update previous' (some ds') pool').outputs[port]?

theorem settledAll_none [Energy.LawfulZero E] {raw previous : List (Message E)}
    (hl : raw.length = previous.length) :
    settledAll none raw previous = raw.map fun m => (Message.normalize m).1 := by
  apply List.ext_getElem?
  intro port
  rw [getElem?_settledAll, List.getElem?_map]
  cases hr : raw[port]? with
  | none => rfl
  | some r =>
    have hport : port < previous.length := hl ▸ (List.getElem?_eq_some_iff.1 hr).1
    simp only [List.getElem?_eq_getElem hport, Option.map_some]
    rw [settled_eq_damp]
    exact congrArg some (Message.damp_zero _ previous[port])

/-- Ports are settled one by one, so it is enough that the raw messages do not depend on those that
are replaced. -/
theorem dampsPerPort_of_raw [Energy.LawfulUnit E]
    {update : List (Message E) → Option (List E) → Pool E → Update E} {sizes : List Nat}
    {raw : List (Message E)} (hl : raw.map List.length = sizes)
    (h : ∀ previous damping pool, previous.map List.length = sizes →
      (update previous damping pool).outputs = settledAll damping raw previous ∧
        (update previous damping pool).contradictions = contradictory 0 raw) :
    DampsPerPort update sizes (raw.map fun m => (Message.normalize m).1)
      (contradictory 0 raw) where
  undamped previous pool hp := by
    obtain ⟨ho, hc⟩ := h previous none pool hp
    have hlen : raw.length = previous.length := by
      simpa using congrArg List.length (hl.trans hp.symm)
    exact ⟨ho.trans (settledAll_none hlen), hc⟩
  contradictions previous ds pool hp := (h previous (some ds) pool hp).2
  lengths previous ds pool hp := by
    rw [(h previous (some ds) pool hp).1, lengths_settledAll (hl.trans hp.symm), hp]
  damped previous ds pool port new old d hp hnew hold hd := by
    rw [List.getElem?_map, Option.map_eq_some_iff] at hnew
    obtain ⟨r, hr, rfl⟩ := hnew
    have hlen : old.length = (Message.normalize r).1.length := by
      have hport := congrArg (·[port]?) (hl.trans hp.symm)
      simp only [List.getElem?_map, hr, hold, Option.map_some, Option.some.injEq] at hport
      rw [Message.length_normalize, hport]
    have hdamping : dampingAt (some ds) port = d := by simp [dampingAt, hd]
    refine ⟨_, ?_, Message.damped_damp hlen d⟩
    rw [(h previous (some ds) pool hp).1, getElem?_settledAll, hr, hold]
    simp only [settled_eq_damp, hdamping]
  apart previous previous' ds ds' pool pool' port hp hp' hold hd := by
    have hdamping : dampingAt (some ds) port = dampingAt (some ds') port := by
      simp only [dampingAt, List.getD_eq_getElem?_getD, hd]
    rw [(h previous (some ds) pool hp).1, (h previous' (some ds') pool' hp').1,
      getElem?_settledAll, getElem?_settledAll, hold]
    simp only [settled_eq_damp, hdamping]

end Update

namespace LeaveOneOut

/-- Where there is a sum and an input for every value, nothing of the old messages stays. -/
theorem zipWith_leaveOut {sums : List (LeaveOneOut E)} {inputs previous : List (Message E)}
    (hs : ∀ m ∈ inputs, m.length = sums.length)
    (hp : previous.map List.length = inputs.map List.length) :
    List.zipWith (leaveOut sums) inputs previous =
      inputs.map fun m => List.zipWith (fun s x => s.without x) sums m := by
  induction inputs generalizing previous with
  | nil => rfl
  | cons m inputs ih =>
    cases previous with
    | nil => simp at hp
    | cons old previous =>
      obtain ⟨hold, hrest⟩ := List.cons.inj hp
      have hsum : m.length = sums.length := hs m List.mem_cons_self
      have hlen : old.length = (List.zipWith (fun s x => s.without x) sums m).length := by
        rw [List.length_zipWith, hold, hsum, min_self]
      have hout : leaveOut sums m old = List.zipWith (fun s x => s.without x) sums m :=
        (overlay_eq_map id hlen).trans (List.map_id _)
      rw [List.zipWith_cons_cons, hout, ih (fun m' h => hs m' (List.mem_cons_of_mem m h)) hrest,
        List.map_cons]

theorem length_foldl_add (ms : List (Message E)) (sums : List (LeaveOneOut E)) :
    (ms.foldl (overlay .add) sums).length = sums.length := by
  induction ms generalizing sums with
  | nil => rfl
  | cons m ms ih => rw [List.foldl_cons, ih, length_overlay]

end LeaveOneOut

theorem Prior.length_sums (prior : Message E) (incoming : List (Message E)) :
    (sums prior incoming).length = prior.length := by
  rw [sums, LeaveOneOut.length_foldl_add, List.length_map]

theorem Equality.length_sums {inputs : List (Message E)} {size : Nat}
    (hl : ∀ m ∈ inputs, m.length = size) (hne : inputs ≠ []) : (sums inputs).length = size := by
  cases inputs with
  | nil => contradiction
  | cons first rest =>
    rw [sums, LeaveOneOut.length_foldl_add, List.length_replicate, hl first List.mem_cons_self]

namespace CustomFactor

/-- The rule for all messages reads the inputs and no message that it replaces. -/
def Overwrites (c : CustomFactor E) (inputs : List (Message E)) (sizes : List Nat) : Prop :=
  ∀ previous previous' : List (Message E), previous.map List.length = sizes →
    previous'.map List.length = sizes → c.computeAll inputs previous = c.computeAll inputs previous'

theorem overwrites_equality {inputs : List (Message E)} {size : Nat}
    (hl : ∀ m ∈ inputs, m.length = size) :
    (equality : CustomFactor E).Overwrites inputs (inputs.map List.length) := by
  intro previous previous' hp hp'
  have hraw : ∀ ms : List (Message E), ms.map List.length = inputs.map List.length →
      Equality.computeAll inputs ms =
        inputs.map fun m => List.zipWith (fun s x => s.without x) (Equality.sums inputs) m := by
    intro ms hms
    have hlen : inputs.length = ms.length := by simpa using (congrArg List.length hms).symm
    rw [Equality.computeAll, Equality.exclude_eq_zipWith _ hlen]
    apply LeaveOneOut.zipWith_leaveOut _ hms
    intro m hm
    rw [hl m hm, Equality.length_sums hl (List.ne_nil_of_mem hm)]
  exact (hraw previous hp).trans (hraw previous' hp').symm

end CustomFactor

variable [Energy.LawfulUnit E]

theorem Table.dampsPerPort (t : Table E) (inputs : List (Message E)) :
    ∃ fresh ports, Update.DampsPerPort (t.update inputs) t.sizes fresh ports := by
  refine ⟨_, _, Update.dampsPerPort_of_raw (t.lengths_messages inputs t.sizes) ?_⟩
  intro previous damping pool hp
  rw [← hp]
  exact t.update_eq inputs previous damping pool

theorem Prior.dampsPerPort {prior : Message E} {incoming : List (Message E)}
    (hl : ∀ m ∈ incoming, m.length = prior.length) :
    ∃ fresh ports, ∀ accumulators : List (LeaveOneOut E), accumulators.length = prior.length →
      Update.DampsPerPort (fun previous damping pool =>
        update prior incoming previous damping pool accumulators) (incoming.map List.length)
        fresh ports := by
  -- The raw messages are those that would replace the incoming ones.
  have hlengths := lengths_raw prior (rfl : incoming.length = incoming.length)
  refine ⟨_, _, fun accumulators ha => Update.dampsPerPort_of_raw hlengths ?_⟩
  intro previous damping pool hp
  have hlen : incoming.length = previous.length := by
    simpa using (congrArg List.length hp).symm
  have hsums : ∀ m ∈ incoming, m.length = (sums prior incoming).length := fun m hm =>
    (hl m hm).trans (length_sums prior incoming).symm
  have hraw : raw prior incoming previous = raw prior incoming incoming := by
    rw [raw, raw, LeaveOneOut.zipWith_leaveOut hsums hp, LeaveOneOut.zipWith_leaveOut hsums rfl]
  rw [← hraw]
  exact update_eq prior hlen ha damping pool

theorem CustomFactor.Overwrites.dampsPerPort {c : CustomFactor E} {inputs : List (Message E)}
    {sizes : List Nat} (h : c.Overwrites inputs sizes) :
    ∃ fresh ports, Update.DampsPerPort (c.update inputs) sizes fresh ports := by
  let blank : List (Message E) := sizes.map Message.uniform
  have hblank : blank.map List.length = sizes := by
    simp [blank, Message.uniform, Function.comp_def]
  refine ⟨_, _, Update.dampsPerPort_of_raw ((c.lengths_computeAll inputs blank).trans hblank) ?_⟩
  intro previous damping pool hp
  rw [h blank previous hblank hp]
  exact c.update_eq inputs previous damping pool

namespace Update

/-- Damping is per port and independent of everything else, in the updates of tables, of variables,
and of custom factors that overwrite their messages. -/
theorem damping_per_port (inputs : List (Message E)) :
    (∀ t : Table E, ∃ fresh ports, DampsPerPort (t.update inputs) t.sizes fresh ports) ∧
    (∀ prior : Message E, (∀ m ∈ inputs, m.length = prior.length) →
      ∃ fresh ports, ∀ accumulators : List (LeaveOneOut E), accumulators.length = prior.length →
        DampsPerPort (fun previous damping pool =>
          Prior.update prior inputs previous damping pool accumulators) (inputs.map List.length)
          fresh ports) ∧
    ∀ (c : CustomFactor E) (sizes : List Nat), c.Overwrites inputs sizes →
      ∃ fresh ports, DampsPerPort (c.update inputs) sizes fresh ports :=
  ⟨fun t => t.dampsPerPort inputs, fun _ hl => Prior.dampsPerPort hl, fun _ _ h => h.dampsPerPort⟩

private def doubles : List (Message Float) := [[0.1, Energy.top], [0.2, 1.5], [0.0, 0.3]]

private def tilted : Message Float := [0.7, 0.0]

private def oddRows : Table Float :=
  Table.assemble [2, 2, 2] #[⟨[0, 1, 0], 0.1⟩, ⟨[1, 1, 1], 2.5⟩, ⟨[0, 0, 1], 1.25⟩]

private def leftOver : List (LeaveOneOut Float) := [⟨3.5, 1⟩, ⟨0.25, 7⟩]

theorem damping_per_port_doubles : (∀ m ∈ doubles, m.length = tilted.length) ∧
    leftOver.length = tilted.length ∧
    CustomFactor.equality.Overwrites doubles (doubles.map List.length) ∧
    (∃ fresh ports, DampsPerPort (oddRows.update doubles) oddRows.sizes fresh ports) ∧
    (∃ fresh ports, DampsPerPort (fun previous damping pool =>
      Prior.update tilted doubles previous damping pool leftOver) (doubles.map List.length)
      fresh ports) ∧
    ∃ fresh ports, DampsPerPort (CustomFactor.equality.update doubles) (doubles.map List.length)
      fresh ports := by
  have hl : ∀ m ∈ doubles, m.length = tilted.length := by decide +kernel
  have ha : leftOver.length = tilted.length := rfl
  have ho := CustomFactor.overwrites_equality hl
  obtain ⟨htable, hprior, hcustom⟩ := damping_per_port doubles
  obtain ⟨fresh, ports, hdamps⟩ := hprior tilted hl
  exact ⟨hl, ha, ho, htable oddRows, ⟨fresh, ports, hdamps leftOver ha⟩, hcustom _ _ ho⟩

end Update

end MinSum
