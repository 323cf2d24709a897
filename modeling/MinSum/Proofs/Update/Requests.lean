import MinSum.CustomFactor.Equality
import MinSum.Energy.Double
import MinSum.Prior
import MinSum.Proofs.Scratch.Records
import MinSum.Table.Update

/-! What updates ask of their pool. Those of tables, of variables and of custom factors borrow one
buffer at most, so a pool that serves updates is settled once the greatest length was asked for. -/
namespace MinSum

open Scratch

variable {E : Type}

/-- An update of all ports or of one, with all that it reads other than the pool. -/
inductive Update.Call (E : Type) where
  | table (t : Table E) (inputs previous : List (Message E)) (damping : Option (List E))
  | tablePort (t : Table E) (inputs : List (Message E)) (port : Nat) (previous : Message E)
      (damping : E)
  | prior (prior : Message E) (incoming previous : List (Message E)) (damping : Option (List E))
      (accumulators : List (LeaveOneOut E))
  | priorPort (prior : Message E) (incoming : List (Message E)) (port : Nat)
      (previous : Message E) (damping : E)
  | custom (c : CustomFactor E) (inputs previous : List (Message E)) (damping : Option (List E))
  | customPort (c : CustomFactor E) (inputs : List (Message E)) (port : Nat)
      (previous : Message E) (damping : E)

namespace Update

theorem capacity_save (keep : Nat → Bool) (port offset : Nat) (b : Buffer E)
    (ms : List (Message E)) : (save keep port offset b ms).capacity = b.capacity := by
  induction ms generalizing port offset b with
  | nil => rfl
  | cons m ms ih =>
    rw [save, ih]
    split <;> rfl

variable [Energy E]

def portRequest (previous : Message E) (d : E) : Option Nat :=
  if Energy.isZero d then none else some previous.length

theorem borrows_onePort (raw previous : Message E) (d : E) (pool : Pool E) :
    pool.Borrows (portRequest previous d) (onePort raw previous d pool).pool := by
  unfold portRequest onePort
  split
  · exact .nothing
  · exact Pool.borrows_release rfl

theorem borrows_allPorts (keep : Nat → Bool) (raw previous : List (Message E))
    (damping : Option (List E)) (pool : Pool E) :
    pool.Borrows (damping.map fun _ => totalLength previous)
      (allPorts keep raw previous damping pool).pool := by
  cases damping with
  | none => exact .nothing
  | some ds => exact Pool.borrows_release (capacity_save keep 0 0 _ previous)

end Update

namespace Prior

variable [Energy E]

theorem capacity_settle (sums : List (LeaveOneOut E)) (damping : Option (List E)) (b : Buffer E)
    (port : Nat) (incoming previous : List (Message E)) :
    (settle sums damping b port incoming previous).2.2.capacity = b.capacity := by
  induction incoming generalizing port b previous with
  | nil => cases previous <;> rfl
  | cons r incoming ih =>
    cases previous with
    | nil => rfl
    | cons old previous =>
      rw [settle]
      simp only
      rw [ih]
      split <;> rfl

theorem borrows_update (prior : Message E) (incoming previous : List (Message E))
    (damping : Option (List E)) (pool : Pool E) (accumulators : List (LeaveOneOut E)) :
    pool.Borrows (damping.map fun _ => prior.length)
      (update prior incoming previous damping pool accumulators).pool := by
  cases damping with
  | none => exact .nothing
  | some ds => exact Pool.borrows_release (capacity_settle _ _ _ 0 incoming previous)

end Prior

namespace Update.Call

variable [Energy E]

/-- The length of the buffer that the call needs: damping keeps a copy of old messages. -/
def request? : Call E → Option Nat
  | .table _ _ previous damping | .custom _ _ previous damping =>
    damping.map fun _ => totalLength previous
  | .prior m _ _ damping _ => damping.map fun _ => m.length
  | .tablePort _ _ _ previous d | .priorPort _ _ _ previous d | .customPort _ _ _ previous d =>
    portRequest previous d

def run (p : Pool E) : Call E → Pool E
  | .table t inputs previous damping => (t.update inputs previous damping p).pool
  | .tablePort t inputs port previous d => (t.updatePort inputs port previous d p).pool
  | .prior m incoming previous damping accumulators =>
    (Prior.update m incoming previous damping p accumulators).pool
  | .priorPort m incoming port previous d => (Prior.updatePort m incoming port previous d p).pool
  | .custom c inputs previous damping => (c.update inputs previous damping p).pool
  | .customPort c inputs port previous d => (c.updatePort inputs port previous d p).pool

theorem borrows_run (p : Pool E) (c : Call E) : p.Borrows c.request? (c.run p) := by
  cases c with
  | table => exact borrows_allPorts _ _ _ _ p
  | tablePort => exact borrows_onePort _ _ _ p
  | prior => exact Prior.borrows_update _ _ _ _ p _
  | priorPort => exact borrows_onePort _ _ _ p
  | custom => exact borrows_allPorts _ _ _ _ p
  | customPort => exact borrows_onePort _ _ _ p

theorem limit_foldl_run (p : Pool E) (calls : List (Call E)) :
    (calls.foldl run p).limit = p.limit := by
  induction calls generalizing p with
  | nil => rfl
  | cons c calls ih => exact (ih (c.run p)).trans (c.borrows_run p).limit_eq

theorem settled_foldl_run {p : Pool E} {requests : List Nat} (h : p.Settled requests)
    {calls : List (Call E)}
    (hl : (records (requests ++ calls.filterMap request?)).length ≤ p.limit) :
    (calls.foldl run p).Settled (requests ++ calls.filterMap request?) := by
  induction calls generalizing p requests with
  | nil => simpa using h
  | cons c calls ih =>
    have hcons : requests ++ (c :: calls).filterMap request? =
        (requests ++ c.request?.toList) ++ calls.filterMap request? := by
      rw [List.append_assoc, List.filterMap_cons]
      cases c.request? <;> rfl
    rw [hcons] at hl ⊢
    have hb := c.borrows_run p
    have hfirst : (records (requests ++ c.request?.toList)).length ≤ p.limit := by
      rw [records_append, List.length_append] at hl
      omega
    exact ih (h.borrows hb hfirst) (hb.limit_eq ▸ hl)

/-- A call borrows one buffer at most. On a pool with room for a buffer of each length that exceeds
all before, these are the buffers made, all of them are free in the end, and calls that were made
before make no new one. -/
theorem allocations_eq_records (limit : Nat) (calls : List (Call E)) :
    (∀ (c : Call E) (p : Pool E), p.Borrows c.request? (c.run p)) ∧
    ((records (calls.filterMap request?)).length ≤ limit →
      let p := calls.foldl run { limit }
      p.allocations = (records (calls.filterMap request?)).length ∧
      p.available = (records (calls.filterMap request?)).length ∧
      ∀ again : List (Call E), (∀ c ∈ again, c ∈ calls) →
        (again.foldl run p).allocations = p.allocations) := by
  refine ⟨fun c p => c.borrows_run p, fun hl => ?_⟩
  have h := settled_foldl_run (Pool.settled_nil limit) hl
  refine ⟨h.allocations, h.available, fun again hagain => ?_⟩
  have hrepeated : recordsAfter (calls.filterMap request?) (again.filterMap request?) = [] := by
    refine recordsAfter_eq_nil fun n hn => ⟨n, ?_, Nat.le_refl n⟩
    obtain ⟨c, hc, hrequest⟩ := List.mem_filterMap.1 hn
    exact List.mem_filterMap.2 ⟨c, hagain c hc, hrequest⟩
  have hsame : records (calls.filterMap request? ++ again.filterMap request?) =
      records (calls.filterMap request?) := by
    rw [records_append, hrepeated, List.append_nil]
  have hroom : (records (calls.filterMap request? ++ again.filterMap request?)).length ≤
      (calls.foldl run ({ limit } : Pool E)).limit := by
    rw [hsame, limit_foldl_run]
    exact hl
  rw [(settled_foldl_run h hroom).allocations, h.allocations, List.nil_append, hsame]

private def unequalBits : Table Float := Table.assemble [2, 2] #[⟨[0, 1], 0.5⟩, ⟨[1, 0], 0.25⟩]

private def bitMessages : List (Message Float) := [[0.0, 1.5], [0.75, 0.0]]

private def mixedCalls : List (Call Float) :=
  [.tablePort unequalBits bitMessages 0 [0.0, 0.0] 0.0,
    .priorPort [0.0, 0.125] bitMessages 1 [0.0, 2.5] 0.5,
    .table unequalBits bitMessages bitMessages (some [0.0, 0.25]),
    .prior [0.0, 0.5, Energy.top] [[0.0, 0.0, 1.0]] [[0.0, 0.0, 0.0]] (some [0.5])
      (List.replicate 3 .empty),
    .custom .equality bitMessages bitMessages none,
    .custom .equality bitMessages bitMessages (some [0.5, 0.5])]

theorem allocations_eq_records_mixed :
    mixedCalls.filterMap request? = [2, 4, 3, 4] ∧
    (records (mixedCalls.filterMap request?)).length ≤ 2 ∧
    (mixedCalls.foldl run { limit := 2 }).allocations = 2 ∧
    (mixedCalls.foldl run { limit := 2 }).available = 2 ∧
    (mixedCalls.reverse.foldl run (mixedCalls.foldl run { limit := 2 })).allocations = 2 := by
  have hrequests : mixedCalls.filterMap request? = [2, 4, 3, 4] := by decide +kernel
  have hrecords : (records (mixedCalls.filterMap request?)).length = 2 := by
    rw [hrequests]
    decide
  obtain ⟨hmade, hfree, hagain⟩ := (allocations_eq_records 2 mixedCalls).2 hrecords.le
  rw [hrecords] at hmade hfree
  have hreverse := hagain mixedCalls.reverse fun c hc => List.mem_reverse.1 hc
  exact ⟨hrequests, hrecords.le, hmade, hfree, hreverse.trans hmade⟩

end Update.Call

end MinSum
