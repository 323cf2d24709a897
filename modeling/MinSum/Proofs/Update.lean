import Mathlib.Tactic.Common
import MinSum.Proofs.Energy.Zero
import MinSum.Update

/-! What an update leaves on its ports, whatever the scratch buffers hold: each raw message
normalized and mixed with the message that was on the same port. -/
namespace MinSum

open Scratch

theorem overlay_eq_zipWith {α β : Type} (f : α → β → α) {as : List α} {bs : List β}
    (h : as.length ≤ bs.length) : overlay f as bs = List.zipWith f as bs := by
  rw [overlay, List.drop_eq_nil_of_le h, List.append_nil]

theorem overlay_eq_map {α β : Type} (g : β → α) {as : List α} {bs : List β}
    (h : as.length = bs.length) : overlay (fun _ b => g b) as bs = bs.map g := by
  rw [overlay_eq_zipWith _ (Nat.le_of_eq h)]
  apply List.ext_getElem
  · simp [h]
  · intro i h₁ h₂
    simp

section

variable {E : Type} [Energy E]

namespace Message

@[simp] theorem length_normalize (m : Message E) : (normalize m).1.length = m.length := by
  simp only [normalize]
  split
  · rfl
  · split <;> simp

theorem length_damp {m old : Message E} (h : old.length = m.length) (d : E) :
    (damp m old d).length = m.length := by
  unfold damp
  split
  · rfl
  · split
    · exact h
    · exact length_overlay _ _ _

theorem damp_zero [Energy.LawfulZero E] (m old : Message E) : damp m old 0 = m :=
  if_pos Energy.isZero_zero

theorem damp_one [Energy.LawfulUnit E] (m old : Message E) : damp m old 1 = old := by
  simp only [damp, Energy.isZero_one, Bool.false_eq_true, if_false, if_true]

/-- Damping changes the message and not the verdict. -/
theorem finish_snd (raw : Message E) (saved : Option (Message E)) (d : E) :
    (finish raw saved d).2 = (normalize raw).2 := by
  unfold finish
  cases saved <;> rfl

theorem finish_none (raw : Message E) (d : E) : (finish raw none d).1 = (normalize raw).1 := rfl

theorem finish_some (raw old : Message E) (d : E) :
    (finish raw (some old) d).1 = damp (normalize raw).1 old d := rfl

theorem length_finish {raw : Message E} {saved : Option (Message E)}
    (h : ∀ old ∈ saved, old.length = raw.length) (d : E) :
    (finish raw saved d).1.length = raw.length := by
  cases saved with
  | none => rw [finish_none, length_normalize]
  | some old =>
    rw [finish_some, length_damp, length_normalize]
    rw [length_normalize]
    exact h old rfl

end Message

end

namespace Update

section

variable {E : Type}

theorem totalLength_cons (m : Message E) (rest : List (Message E)) :
    totalLength (m :: rest) = m.length + totalLength rest := rfl

private theorem length_write {b : Buffer E} {offset : Nat} {m : Message E}
    (h : offset + m.length ≤ b.entries.length) :
    (b.write offset m).entries.length = b.entries.length := by
  simp only [Buffer.write, List.length_append, List.length_take, List.length_drop]
  omega

private theorem take_write {b : Buffer E} {offset : Nat} {m : Message E}
    (h : offset + m.length ≤ b.entries.length) :
    (b.write offset m).entries.take (offset + m.length) = b.entries.take offset ++ m := by
  have hl : (b.entries.take offset ++ m).length = offset + m.length := by
    rw [List.length_append, List.length_take]
    omega
  simp only [Buffer.write]
  rw [← hl, List.take_left]

/-- From `offset` on the buffer holds the messages of the ports that `keep` names. -/
def Saved (keep : Nat → Bool) (b : Buffer E) : (port offset : Nat) → List (Message E) → Prop
  | _, _, [] => True
  | port, offset, m :: rest =>
    (keep port = true → b.slice offset m.length = m) ∧
      Saved keep b (port + 1) (offset + m.length) rest

/-- Saving writes behind `offset` only, and what it writes stays. -/
theorem saved_save (keep : Nat → Bool) (port offset : Nat) (b : Buffer E)
    (ms : List (Message E)) (h : offset + totalLength ms ≤ b.entries.length) :
    (save keep port offset b ms).entries.length = b.entries.length ∧
      (save keep port offset b ms).entries.take offset = b.entries.take offset ∧
      Saved keep (save keep port offset b ms) port offset ms := by
  induction ms generalizing port offset b with
  | nil => exact ⟨rfl, rfl, trivial⟩
  | cons m ms ih =>
    rw [totalLength_cons] at h
    have hm : offset + m.length ≤ b.entries.length := by omega
    let b' := if keep port then b.write offset m else b
    have hb' : b'.entries.length = b.entries.length := by
      dsimp only [b']
      split
      · exact length_write hm
      · rfl
    obtain ⟨hl, ht, hs⟩ := ih (port + 1) (offset + m.length) b' (by rw [hb']; omega)
    change (save keep (port + 1) (offset + m.length) b' ms).entries.length = _ ∧ _
    refine ⟨hl.trans hb', ?_, ?_, hs⟩
    · have := congrArg (List.take offset) ht
      rw [List.take_take, List.take_take, Nat.min_eq_left (Nat.le_add_right _ _)] at this
      apply this.trans
      dsimp only [b']
      split
      · simp only [Buffer.write]
        rw [List.append_assoc, List.take_append_of_le_length (by rw [List.length_take]; omega),
          List.take_take, Nat.min_self]
      · rfl
    · intro hk
      have hw : b' = b.write offset m := if_pos hk
      change ((save keep (port + 1) (offset + m.length) b' ms).entries.drop offset).take
        m.length = m
      rw [List.take_drop, ht, hw, take_write hm, List.drop_append_of_le_length
        (by rw [List.length_take]; omega), List.drop_eq_nil_of_le (by rw [List.length_take]; omega),
        List.nil_append]

end

variable {E : Type} [Energy E]

/-- The message that takes part in the next one of the same port: none without damping. -/
def keptAt (damping : Option (List E)) (port : Nat) (old : Message E) : Option (Message E) :=
  if Energy.isZero (dampingAt damping port) then none else damping.map fun _ => old

theorem eq_of_mem_keptAt {damping : Option (List E)} {port : Nat} {old m : Message E}
    (h : m ∈ keptAt damping port old) : m = old := by
  unfold keptAt at h
  split at h
  · simp at h
  · cases damping with
    | none => simp at h
    | some ds => simpa using h.symm

def settled (damping : Option (List E)) (port : Nat) (raw old : Message E) : Message E :=
  (Message.finish raw (keptAt damping port old) (dampingAt damping port)).1

theorem length_settled (damping : Option (List E)) (port : Nat) {raw old : Message E}
    (h : old.length = raw.length) : (settled damping port raw old).length = raw.length := by
  refine Message.length_finish ?_ _
  intro m hm
  rw [eq_of_mem_keptAt hm, h]

/-- At every damping the new message is the normalized raw one, mixed with the old one. -/
theorem settled_eq_damp [Energy.LawfulZero E] (damping : Option (List E)) (port : Nat)
    (raw old : Message E) : settled damping port raw old =
      (Message.normalize raw).1.damp old (dampingAt damping port) := by
  unfold settled keptAt
  by_cases hz : Energy.isZero (dampingAt damping port) = true
  · rw [if_pos hz, Message.finish_none, Message.damp, if_pos hz]
  · rw [if_neg hz]
    cases damping with
    | none => exact absurd Energy.isZero_zero hz
    | some ds => rw [Option.map_some, Message.finish_some]

/-- The ports from `port` on whose raw message leaves no value possible. -/
def contradictory (port : Nat) (raw : List (Message E)) : List Nat :=
  ((raw.zipIdx port).filter fun x => (Message.normalize x.1).2 = .contradiction).map (·.2)

theorem mem_contradictory {raw : List (Message E)} {p : Nat} :
    p ∈ contradictory 0 raw ↔
      ∃ m, raw[p]? = some m ∧ (Message.normalize m).2 = .contradiction := by
  simp [contradictory, List.mem_zipIdx_iff_getElem?]

/-- Contradictory ports are reported in order, each once. -/
theorem pairwise_contradictory (port : Nat) (raw : List (Message E)) :
    (contradictory port raw).Pairwise (· < ·) := by
  have hs : (contradictory port raw).Sublist ((raw.zipIdx port).map (·.2)) :=
    List.filter_sublist.map _
  apply List.Pairwise.sublist hs
  rw [List.zipIdx_map_snd]
  exact List.pairwise_lt_range'

theorem onePort_output (raw previous : Message E) (d : E) (pool : Pool E) :
    (onePort raw previous d pool).output =
      (Message.finish raw (if Energy.isZero d then none else some previous) d).1 := by
  unfold onePort
  split
  · rfl
  · simp only [Pool.entries_acquireCopy]

theorem onePort_eq_damp (raw previous : Message E) (d : E) (pool : Pool E) :
    (onePort raw previous d pool).output = (Message.normalize raw).1.damp previous d := by
  rw [onePort_output]
  split
  · rename_i hz
    rw [Message.finish_none, Message.damp, if_pos hz]
  · rw [Message.finish_some]

theorem onePort_verdict (raw previous : Message E) (d : E) (pool : Pool E) :
    (onePort raw previous d pool).verdict = (Message.normalize raw).2 := by
  unfold onePort
  split
  · exact Message.finish_snd raw none d
  · exact Message.finish_snd raw _ d

/-- From `port` on, the message that takes part in the next one can be read off the buffer. -/
def Held (damping : Option (List E)) (saved : Option (Buffer E)) :
    (port offset : Nat) → List (Message E) → Prop
  | _, _, [] => True
  | port, offset, m :: rest =>
    (if Energy.isZero (dampingAt damping port) then none
      else saved.map (·.slice offset m.length)) = keptAt damping port m ∧
      Held damping saved (port + 1) (offset + m.length) rest

theorem held_none (port offset : Nat) (ms : List (Message E)) : Held none none port offset ms := by
  induction ms generalizing port offset with
  | nil => trivial
  | cons m ms ih => exact ⟨by simp [keptAt], ih _ _⟩

theorem Saved.held {keep : Nat → Bool} {b : Buffer E} {ds : List E}
    (hk : ∀ p, Energy.isZero (dampingAt (some ds) p) = false → keep p = true)
    {port offset : Nat} {ms : List (Message E)} (h : Saved keep b port offset ms) :
    Held (some ds) (some b) port offset ms := by
  induction ms generalizing port offset with
  | nil => trivial
  | cons m ms ih =>
    refine ⟨?_, ih h.2⟩
    unfold keptAt
    split
    · rfl
    · rename_i hz
      rw [Option.map_some, h.1 (hk port (by simpa using hz)), Option.map_some]

theorem contradictory_cons (port : Nat) (r : Message E) (raw : List (Message E)) :
    contradictory port (r :: raw) =
      if (Message.normalize r).2 = .contradiction then port :: contradictory (port + 1) raw
      else contradictory (port + 1) raw := by
  simp only [contradictory, List.zipIdx_cons, List.filter_cons, decide_eq_true_eq]
  split <;> simp

theorem settle_eq {damping : Option (List E)} {saved : Option (Buffer E)}
    {raw previous : List (Message E)} (hl : raw.map List.length = previous.map List.length)
    {port offset : Nat} (hs : Held damping saved port offset previous) :
    settle damping saved port offset raw =
      ((raw.zip previous).zipIdx port |>.map fun x => settled damping x.2 x.1.1 x.1.2,
        contradictory port raw) := by
  induction raw generalizing previous port offset with
  | nil => rfl
  | cons r raw ih =>
    cases previous with
    | nil => simp at hl
    | cons o previous =>
      simp only [List.map_cons, List.cons.injEq] at hl
      rw [settle, hl.1, ih hl.2 hs.2, contradictory_cons]
      simp only [hs.1, Message.finish_snd]
      rfl

def settledAll (damping : Option (List E)) (raw previous : List (Message E)) :
    List (Message E) :=
  (raw.zip previous).zipIdx.map fun x => settled damping x.2 x.1.1 x.1.2

/-- Every port gets its own message, whatever the pool holds. -/
theorem allPorts_eq {keep : Nat → Bool} {raw previous : List (Message E)}
    (hl : raw.map List.length = previous.map List.length) {damping : Option (List E)}
    (hk : ∀ p, Energy.isZero (dampingAt damping p) = false → keep p = true) (pool : Pool E) :
    (allPorts keep raw previous damping pool).outputs = settledAll damping raw previous ∧
      (allPorts keep raw previous damping pool).contradictions = contradictory 0 raw := by
  cases damping with
  | none => simp [allPorts, settle_eq hl (held_none 0 0 previous), settledAll]
  | some ds =>
    have hs := (saved_save keep 0 0 (pool.acquire (totalLength previous)).1 previous
      (by simp)).2.2
    simp [allPorts, settle_eq hl (hs.held hk), settledAll]

theorem getElem?_settledAll (damping : Option (List E)) (raw previous : List (Message E))
    (p : Nat) : (settledAll damping raw previous)[p]? =
      match raw[p]?, previous[p]? with
      | some r, some o => some (settled damping p r o)
      | _, _ => none := by
  simp only [settledAll, List.getElem?_map, List.getElem?_zipIdx, List.zip, List.getElem?_zipWith]
  cases raw[p]? <;> cases previous[p]? <;> simp

theorem lengths_settledAll {raw previous : List (Message E)}
    (hl : raw.map List.length = previous.map List.length) (damping : Option (List E)) :
    (settledAll damping raw previous).map List.length = previous.map List.length := by
  apply List.ext_getElem?
  intro p
  have hp := congrArg (·[p]?) hl
  simp only [List.getElem?_map] at hp ⊢
  rw [getElem?_settledAll]
  cases hr : raw[p]? with
  | none => simpa [hr] using hp
  | some r =>
    cases ho : previous[p]? with
    | none => simp [hr, ho] at hp
    | some o =>
      have hlen : r.length = o.length := by simpa [hr, ho] using hp
      simp [length_settled damping p hlen.symm, hlen]

end Update

end MinSum
