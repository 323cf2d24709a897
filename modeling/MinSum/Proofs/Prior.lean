import MinSum.Prior
import MinSum.Proofs.LeaveOneOut
import MinSum.Proofs.Node.Rule

/-! The messages of a variable in exact energies: on each port the prior plus what the other
ports receive, whether the sum is formed for the port or taken out of the sum of all. -/
namespace MinSum

variable {K : Type} [Field K] [LinearOrder K]

namespace LeaveOneOut

structure Accumulates (sums : List (LeaveOneOut (Extended K))) (size : Nat)
    (terms : Nat → Multiset (WithTop K)) : Prop where
  length : sums.length = size
  sums : ∀ (x : Nat) (s : LeaveOneOut (Extended K)), sums[x]? = some s → s.Sums (terms x)

theorem Accumulates.foldl_add {sums : List (LeaveOneOut (Extended K))} {size : Nat}
    {terms : Nat → Multiset (WithTop K)} (h : Accumulates sums size terms)
    {ms : List (Message (Extended K))} (hm : ∀ m ∈ ms, m.Proper)
    (hl : ∀ m ∈ ms, m.length = size) : Accumulates (ms.foldl (overlay .add) sums) size
      fun x => terms x + (ms.map (·.valueAt x) : List (WithTop K)) := by
  induction ms generalizing sums terms with
  | nil => simpa using h
  | cons m ms ih =>
    have hstep : Accumulates (overlay .add sums m) size fun x => m.valueAt x ::ₘ terms x := by
      refine ⟨(length_overlay _ _ _).trans h.length, fun x s hs => ?_⟩
      rw [getElem?_overlay, Option.map_eq_some_iff] at hs
      obtain ⟨s, hs, rfl⟩ := hs
      have hx : x < m.length := by
        rw [hl m (by simp), ← h.length]
        exact (List.getElem?_eq_some_iff.1 hs).1
      have := (h.sums x s hs).add (hm m (by simp) _ (List.getElem_mem hx))
      rw [Message.valueAt_eq]
      simpa [hx] using this
    have hrest := ih hstep (fun m' h' => hm m' (by simp [h'])) fun m' h' => hl m' (by simp [h'])
    refine ⟨hrest.length, fun x s hs => ?_⟩
    have := hrest.sums x s hs
    rwa [Multiset.cons_add, ← Multiset.add_cons, Multiset.cons_coe] at this

/-- The message that remains holds for each value the sum of the other terms. -/
theorem Accumulates.valueAt_leaveOut {sums : List (LeaveOneOut (Extended K))} {size : Nat}
    {terms : Nat → Multiset (WithTop K)} {received previous : Message (Extended K)}
    (h : Accumulates sums size fun x => received.valueAt x ::ₘ terms x) (hr : received.Proper)
    (hlr : received.length = size) (hlp : previous.length = size) :
    (leaveOut sums received previous).Proper ∧
      ∀ x < size, (leaveOut sums received previous).valueAt x = (terms x).sum := by
  have hentry : ∀ x < size, ∃ e : Extended K,
      (leaveOut sums received previous)[x]? = some e ∧ e.Proper ∧ e.value = (terms x).sum := by
    intro x hx
    have hs := List.getElem?_eq_getElem (h.length ▸ hx : x < sums.length)
    have hrx := List.getElem?_eq_getElem (hlr ▸ hx : x < received.length)
    have hsum := h.sums x _ hs
    rw [Message.valueAt_eq, hrx] at hsum
    obtain ⟨hp, hv⟩ := hsum.without (hr _ (List.mem_of_getElem? hrx))
    refine ⟨_, ?_, hp, hv⟩
    have hpx := List.getElem?_eq_getElem (hlp ▸ hx : x < previous.length)
    rw [LeaveOneOut.leaveOut, getElem?_overlay, hpx, List.getElem?_zipWith, hs, hrx]
    rfl
  have hlen : (leaveOut sums received previous).length = size := by
    rw [LeaveOneOut.leaveOut, length_overlay, hlp]
  refine ⟨fun e he => ?_, fun x hx => ?_⟩
  · obtain ⟨x, hx⟩ := List.mem_iff_getElem?.1 he
    obtain ⟨e', he', hp, -⟩ := hentry x (hlen ▸ (List.getElem?_eq_some_iff.1 hx).1)
    obtain rfl : e = e' := by simpa [hx] using he'
    exact hp
  · obtain ⟨e, he, -, hv⟩ := hentry x hx
    rw [Message.valueAt_eq, he]
    exact hv

end LeaveOneOut

namespace Prior

/-- The message holds at each value the prior plus what the ports other than `port` receive. -/
structure Sends (prior : Message (Extended K)) (incoming : List (Message (Extended K)))
    (port : Nat) (m : Message (Extended K)) : Prop where
  proper : m.Proper
  valueAt : ∀ x, m.valueAt x =
    prior.valueAt x + ((incoming.eraseIdx port).map (·.valueAt x)).sum

/-- There is one such message of each length. -/
theorem Sends.unique {prior : Message (Extended K)} {incoming : List (Message (Extended K))}
    {port : Nat} {m m' : Message (Extended K)} (h : Sends prior incoming port m)
    (h' : Sends prior incoming port m') (hl : m.length = m'.length) : m = m' :=
  h.proper.ext h'.proper hl fun x _ => (h.valueAt x).trans (h'.valueAt x).symm

section

variable {prior : Message (Extended K)} {incoming : List (Message (Extended K))}
  (hp : prior.Proper) (hm : ∀ m ∈ incoming, m.Proper)
  (hl : ∀ m ∈ incoming, m.length = prior.length)

include hp hm hl

theorem sends_belief (port : Nat) : Sends prior incoming port
    (belief prior (incoming.eraseIdx port)) := by
  refine ⟨Message.proper_foldl_plus (fun m h => hm m (List.mem_of_mem_eraseIdx h)) hp, ?_⟩
  exact Message.valueAt_foldl_plus fun m h => hl m (List.mem_of_mem_eraseIdx h)

omit hp in
/-- A message taken out of sums that all ports share. -/
theorem sends_leaveOut {sums : List (LeaveOneOut (Extended K))}
    (hs : LeaveOneOut.Accumulates sums prior.length fun x =>
      prior.valueAt x ::ₘ (incoming.map (·.valueAt x) : List (WithTop K)))
    {port : Nat} {received previous : Message (Extended K)}
    (hr : incoming[port]? = some received) (hlp : previous.length = prior.length) :
    Sends prior incoming port (LeaveOneOut.leaveOut sums received previous) := by
  have hmem := List.mem_of_getElem? hr
  have hs' : LeaveOneOut.Accumulates sums prior.length fun x => received.valueAt x ::ₘ
      (prior.valueAt x ::ₘ ((incoming.eraseIdx port).map (·.valueAt x) : List (WithTop K))) := by
    refine ⟨hs.length, fun x s hx => ?_⟩
    have hcons := coe_eq_cons_eraseIdx (l := incoming.map (·.valueAt x)) (p := port)
      (by rw [List.getElem?_map, hr]; rfl)
    have := hs.sums x s hx
    rwa [hcons, List.eraseIdx_map, Multiset.cons_swap] at this
  obtain ⟨hpr, hv⟩ := hs'.valueAt_leaveOut (hm _ hmem) (hl _ hmem) hlp
  refine ⟨hpr, fun x => ?_⟩
  rcases Nat.lt_or_ge x prior.length with hx | hx
  · rw [hv x hx, Multiset.sum_cons, Multiset.sum_coe]
  · rw [Message.valueAt_of_le hx, Message.valueAt_of_le, WithTop.top_add]
    rwa [LeaveOneOut.leaveOut, length_overlay, hlp]

theorem accumulates_sums : LeaveOneOut.Accumulates (sums prior incoming) prior.length fun x =>
    prior.valueAt x ::ₘ (incoming.map (·.valueAt x) : List (WithTop K)) := by
  have hstart : LeaveOneOut.Accumulates (prior.map .of) prior.length fun x =>
      {prior.valueAt x} := by
    refine ⟨List.length_map _, fun x s hs => ?_⟩
    rw [List.getElem?_map, Option.map_eq_some_iff] at hs
    obtain ⟨e, he, rfl⟩ := hs
    rw [Message.valueAt_eq, he]
    exact LeaveOneOut.Sums.of (hp e (List.mem_of_getElem? he))
  rw [sums]
  simpa only [Multiset.singleton_add] using hstart.foldl_add hm hl

theorem sends_raw {previous : List (Message (Extended K))} {port : Nat}
    {m : Message (Extended K)} (hlp : ∀ m ∈ previous, m.length = prior.length)
    (h : (raw prior incoming previous)[port]? = some m) : Sends prior incoming port m := by
  rw [raw, List.getElem?_zipWith_eq_some] at h
  obtain ⟨received, old, hr, ho, rfl⟩ := h
  exact sends_leaveOut hm hl (accumulates_sums hp hm hl) hr (hlp _ (List.mem_of_getElem? ho))

end

end Prior

end MinSum
