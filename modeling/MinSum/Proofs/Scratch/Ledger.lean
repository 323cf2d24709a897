import MinSum.Proofs.Scratch

/-! Any use of a pool by any number of holders at once. Every buffer ever made is held, free, or was
given back to a full pool, and what a holder finds in it is what was asked for, whatever others
wrote there before. -/
namespace MinSum.Scratch

structure Ledger (E : Type) where
  pool : Pool E
  /-- For each request in order the buffer that meets it, until it is given back. -/
  handles : List (Option (Buffer E)) := []
  /-- How many buffers were given back while the pool was full. -/
  discarded : Nat := 0
  deriving DecidableEq, Repr

inductive Step (E : Type) where
  | acquire (length : Nat)
  | copy (l : List E)
  /-- The holder of a buffer overwrites some of its entries. -/
  | write (handle offset : Nat) (l : List E)
  | release (handle : Nat)
  deriving DecidableEq, Repr

variable {E : Type}

def Buffer.Fits (b : Buffer E) : Prop := b.entries.length ≤ b.capacity

namespace Ledger

def opened (limit : Nat) : Ledger E := { pool := { limit } }

def buffer? (s : Ledger E) (handle : Nat) : Option (Buffer E) := s.handles[handle]?.join

def live (s : Ledger E) : Nat := s.handles.countP (·.isSome)

def hand (s : Ledger E) (b : Buffer E) (pool : Pool E) : Ledger E :=
  { s with pool, handles := s.handles ++ [some b] }

/-- The holder of `b` writes to it, within the entries in use. -/
def write (s : Ledger E) (handle : Nat) (b : Buffer E) (offset : Nat) (l : List E) : Ledger E :=
  if offset + l.length ≤ b.entries.length then
    { s with handles := s.handles.set handle (some (b.write offset l)) }
  else s

def giveBack (s : Ledger E) (handle : Nat) (b : Buffer E) : Ledger E where
  pool := s.pool.release b
  handles := s.handles.set handle none
  discarded := if s.pool.available < s.pool.limit then s.discarded else s.discarded + 1

/-- Through a handle that holds nothing, nothing happens. -/
def perform [Zero E] (s : Ledger E) : Step E → Ledger E
  | .acquire length => s.hand (s.pool.acquire length).1 (s.pool.acquire length).2
  | .copy l => s.hand (s.pool.acquireCopy l).1 (s.pool.acquireCopy l).2
  | .write handle offset l =>
    match s.buffer? handle with
    | some b => s.write handle b offset l
    | none => s
  | .release handle =>
    match s.buffer? handle with
    | some b => s.giveBack handle b
    | none => s

/-- The buffers of a ledger are all accounted for. -/
structure Balanced (limit : Nat) (s : Ledger E) : Prop where
  limit_eq : s.pool.limit = limit
  available_le : s.pool.available ≤ limit
  allocations_eq : s.pool.allocations = s.live + s.pool.available + s.discarded
  free_fits : ∀ b ∈ s.pool.free, b.Fits
  held_fits : ∀ b, some b ∈ s.handles → b.Fits

/-- From `s` to `s'` a request for `length` numbers is met by a buffer that holds `entries`. It is
made for this purpose only if every free one is too small, else it is a smallest free one. -/
structure Grants (s : Ledger E) (length : Nat) (entries : List E) (s' : Ledger E) : Prop where
  handed : ∃ b pool, s' = s.hand b pool ∧ b.entries = entries ∧ s.pool.Supplies length b pool
  allocates_iff : s'.pool.allocations = s.pool.allocations + 1 ↔
    ∀ b ∈ s.pool.free, b.capacity < length

theorem mem_of_buffer? {s : Ledger E} {handle : Nat} {b : Buffer E}
    (h : s.buffer? handle = some b) : some b ∈ s.handles :=
  List.mem_of_getElem? (Option.join_eq_some_iff.1 h)

theorem live_hand (s : Ledger E) (b : Buffer E) (pool : Pool E) :
    (s.hand b pool).live = s.live + 1 := by
  simp [live, hand]

theorem live_set {s : Ledger E} {handle : Nat} {b : Buffer E} (h : s.buffer? handle = some b)
    (x : Option (Buffer E)) : (s.handles.set handle x).countP (·.isSome) + 1 =
      s.live + if x.isSome then 1 else 0 := by
  obtain ⟨hlt, hb⟩ := List.getElem?_eq_some_iff.1 (Option.join_eq_some_iff.1 h)
  have hpos : 0 < s.handles.countP (·.isSome) :=
    List.countP_pos_iff.2 ⟨_, mem_of_buffer? h, rfl⟩
  rw [List.countP_set hlt, hb, Option.isSome_some, if_pos rfl, live]
  omega

namespace Balanced

variable {limit handle : Nat} {s : Ledger E} {b : Buffer E} (h : s.Balanced limit)

include h

theorem hand {length : Nat} {pool : Pool E} (hs : s.pool.Supplies length b pool)
    (hb : b.Fits) : (s.hand b pool).Balanced limit where
  limit_eq := hs.limit_eq.trans h.limit_eq
  available_le := Nat.le_trans hs.available_le h.available_le
  allocations_eq := by
    have hold := h.allocations_eq
    have hnew := hs.balance
    rw [live_hand]
    change pool.allocations = s.live + 1 + pool.available + s.discarded
    omega
  free_fits b' hb' := h.free_fits b' (hs.mem_free hb')
  held_fits b' hb' := by
    rcases List.mem_append.1 hb' with hb' | hb'
    · exact h.held_fits b' hb'
    · obtain rfl := Option.some.inj (List.mem_singleton.1 hb')
      exact hb

theorem write (hb : s.buffer? handle = some b) (offset : Nat) (l : List E) :
    (s.write handle b offset l).Balanced limit := by
  unfold Ledger.write
  split
  · rename_i hin
    refine ⟨h.limit_eq, h.available_le, ?_, h.free_fits, fun c hc => ?_⟩
    · have hlive := Nat.succ.inj (live_set hb (some (b.write offset l)))
      rw [live, hlive]
      exact h.allocations_eq
    · rcases List.mem_or_eq_of_mem_set hc with hc | hc
      · exact h.held_fits c hc
      · obtain rfl := Option.some.inj hc
        have hlen : (b.write offset l).entries.length = b.entries.length := by
          simp only [Buffer.write, List.length_append, List.length_take, List.length_drop]
          omega
        rw [Buffer.Fits, hlen]
        exact h.held_fits b (mem_of_buffer? hb)
  · exact h

theorem giveBack (hb : s.buffer? handle = some b) : (s.giveBack handle b).Balanced limit where
  limit_eq := (s.pool.limit_release b).trans h.limit_eq
  available_le := by
    have hle := h.available_le
    have hlimit := h.limit_eq
    change (s.pool.release b).available ≤ limit
    rw [Pool.available_release]
    split <;> omega
  allocations_eq := by
    have hold := h.allocations_eq
    have hlive : (s.giveBack handle b).live + 1 = s.live := live_set hb none
    change (s.pool.release b).allocations = (s.giveBack handle b).live +
      (s.pool.release b).available +
        if s.pool.available < s.pool.limit then s.discarded else s.discarded + 1
    rw [Pool.allocations_release, Pool.available_release]
    split <;> omega
  free_fits c hc := by
    rcases s.pool.mem_free_release b hc with hc | rfl
    · exact h.free_fits c hc
    · exact h.held_fits c (mem_of_buffer? hb)
  held_fits c hc :=
    h.held_fits c ((List.mem_or_eq_of_mem_set hc).resolve_right (Option.some_ne_none c))

theorem perform [Zero E] (step : Step E) : (s.perform step).Balanced limit := by
  cases step with
  | acquire length =>
    have hs := s.pool.supplies_acquire length
    refine h.hand hs ?_
    rw [Buffer.Fits, Pool.entries_acquire, List.length_replicate]
    exact hs.le_capacity
  | copy l =>
    have hs := s.pool.supplies_acquireCopy l
    refine h.hand hs ?_
    rw [Buffer.Fits, Pool.entries_acquireCopy]
    exact hs.le_capacity
  | write handle offset l =>
    cases hb : s.buffer? handle with
    | none => simpa only [Ledger.perform, hb] using h
    | some b => simpa only [Ledger.perform, hb] using h.write hb offset l
  | release handle =>
    cases hb : s.buffer? handle with
    | none => simpa only [Ledger.perform, hb] using h
    | some b => simpa only [Ledger.perform, hb] using h.giveBack hb

end Balanced

theorem balanced_opened (limit : Nat) : (opened limit : Ledger E).Balanced limit :=
  ⟨rfl, Nat.zero_le _, rfl, by simp [opened], by simp [opened]⟩

theorem Balanced.foldl_perform [Zero E] {limit : Nat} {s : Ledger E} (h : s.Balanced limit)
    (steps : List (Step E)) : (steps.foldl Ledger.perform s).Balanced limit := by
  induction steps generalizing s with
  | nil => exact h
  | cons step steps ih => exact ih (h.perform step)

theorem grants_acquire [Zero E] (s : Ledger E) (length : Nat) :
    s.Grants length (List.replicate length 0) (s.perform (.acquire length)) where
  handed := ⟨_, _, rfl, s.pool.entries_acquire length, s.pool.supplies_acquire length⟩
  allocates_iff := (s.pool.supplies_acquire length).allocates_iff

theorem grants_copy [Zero E] (s : Ledger E) (l : List E) :
    s.Grants l.length l (s.perform (.copy l)) where
  handed := ⟨_, _, rfl, s.pool.entries_acquireCopy l, s.pool.supplies_acquireCopy l⟩
  allocates_iff := (s.pool.supplies_acquireCopy l).allocates_iff

/-- After any use of a pool its buffers are accounted for, and the next request is met by zeros or
by the numbers to be copied. -/
theorem history_balanced [Zero E] (limit : Nat) (steps : List (Step E)) :
    let s := steps.foldl perform (opened limit)
    s.Balanced limit ∧
    (∀ length, s.Grants length (List.replicate length 0) (s.perform (.acquire length))) ∧
    ∀ l, s.Grants l.length l (s.perform (.copy l)) :=
  ⟨(balanced_opened limit).foldl_perform steps, grants_acquire _, grants_copy _⟩

-- The smaller one of two free buffers is handed out again, without what was written to it.
example :
    let steps : List (Step Int) := [.acquire 3, .copy [7, 7], .write 1 0 [5], .release 0,
      .release 1, .acquire 2]
    let s := steps.foldl perform (opened 4)
    s.buffer? 2 = some ⟨2, [0, 0]⟩ ∧ s.pool.allocations = 2 ∧ s.pool.available = 1 := by decide

end Ledger

end MinSum.Scratch
