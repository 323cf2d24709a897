import MinSum.Proofs.Message

/-! Messages that differ by a constant. Only differences between the energies of one message
matter: such messages are the same once they are normalized, and have their least energy at the
same position. -/
namespace MinSum.Message

variable {K : Type} [Field K] [LinearOrder K]

def shift (m : Message (Extended K)) (k : K) : Message (Extended K) := m.map (· + .finite k)

theorem length_shift (m : Message (Extended K)) (k : K) : (m.shift k).length = m.length :=
  List.length_map _

theorem valueAt_shift (m : Message (Extended K)) (k : K) (x : Nat) :
    (m.shift k).valueAt x = m.valueAt x + k := by
  simp only [valueAt_eq, shift, List.getElem?_map]
  cases m[x]? with
  | none => rfl
  | some a => exact Extended.value_add a (.finite k)

variable {m : Message (Extended K)}

theorem Proper.shift (hm : m.Proper) (k : K) : (m.shift k).Proper := by
  intro x hx
  obtain ⟨a, ha, rfl⟩ := List.mem_map.1 hx
  exact (hm a ha).add (Extended.proper_finite k)

/-- A message is told by the energies of another, up to a constant. -/
theorem Proper.eq_shift {m' : Message (Extended K)} (hm : m.Proper) (hm' : m'.Proper)
    (hl : m'.length = m.length) {k : K} (hv : ∀ x < m.length, m'.valueAt x = m.valueAt x + k) :
    m' = m.shift k := by
  apply hm'.ext (hm.shift k) (hl.trans (m.length_shift k).symm)
  intro x hx
  rw [hv x (hl ▸ hx), valueAt_shift]

theorem shift_zero (m : Message (Extended K)) : m.shift 0 = m := by
  apply List.map_id''
  intro x
  change Extended.add x (.finite 0) = x
  cases x <;> simp [Extended.add]

/-- Up to a constant, normalization is the same. -/
theorem Proper.normalize_shift [IsStrictOrderedRing K] (hm : m.Proper) (k : K) :
    (Message.normalize (m.shift k)).1 = (Message.normalize m).1 := by
  have hs := hm.shift k
  have hlen : (Message.normalize (m.shift k)).1.length = (Message.normalize m).1.length := by
    rw [length_normalize, length_normalize, length_shift]
  apply hs.normalize.ext hm.normalize hlen
  intro x _
  rcases normalize_cases hm with ⟨he, htop⟩ | ⟨low, hlow, -, -, hv⟩
  · have htop' : ∀ y, (m.shift k).valueAt y = ⊤ := by
      intro y
      rw [valueAt_shift, htop, WithTop.top_add]
    obtain ⟨c, hc⟩ := hs.exists_valueAt_normalize
    rw [hc, htop', WithTop.top_add, he, htop]
  · rcases normalize_cases hs with ⟨-, htop'⟩ | ⟨low', hlow', -, -, hv'⟩
    · -- The least energy of the message is a number, and so is that of the shifted one.
      obtain ⟨y, -, hy⟩ := (isMinOver_lowest_valueAt hm).attained (by simp [hlow])
      have hy' := htop' y
      rw [valueAt_shift, hy, hlow, Extended.value_finite, ← WithTop.coe_add] at hy'
      exact absurd hy' WithTop.coe_ne_top
    · have hmin := isMinOver_lowest_valueAt hs
      have hmoved : IsMinOver (fun _ => True) (m.shift k).valueAt ((lowest m).value + k) := by
        apply (isMinOver_lowest_valueAt hm).shift k
        · intro y _
          exact (m.valueAt_shift k y).ge
        · intro y _ _
          exact ⟨y, trivial, m.valueAt_shift k y⟩
      have hlowest := hmin.unique hmoved
      rw [hlow, hlow', Extended.value_finite, Extended.value_finite, ← WithTop.coe_add,
        WithTop.coe_inj] at hlowest
      have hback : k + -(low + k) = -low := by rw [neg_add_rev, add_neg_cancel_left]
      rw [hv, hv', valueAt_shift, hlowest, add_assoc, ← WithTop.coe_add, hback]

theorem Proper.normalize_shift_snd (hm : m.Proper) (k : K) :
    (Message.normalize (m.shift k)).2 = (Message.normalize m).2 := by
  have hiff : (Message.normalize (m.shift k)).2 = .contradiction ↔
      (Message.normalize m).2 = .contradiction := by
    simp only [(hm.shift k).normalize_snd_iff, hm.normalize_snd_iff, valueAt_shift,
      WithTop.add_eq_top, WithTop.coe_ne_top, or_false]
  cases h : (Message.normalize m).2 <;> cases h' : (Message.normalize (m.shift k)).2 <;>
    simp [h, h'] at hiff ⊢

theorem Proper.normalize_shift_eq [IsStrictOrderedRing K] (hm : m.Proper) (k : K) :
    Message.normalize (m.shift k) = Message.normalize m :=
  Prod.ext (hm.normalize_shift k) (hm.normalize_shift_snd k)

def shiftEach (c : Nat → K) (ms : List (Message (Extended K))) : List (Message (Extended K)) :=
  ms.mapIdx fun p m => m.shift (c p)

theorem proper_shiftEach {ms : List (Message (Extended K))} (hm : ∀ m ∈ ms, m.Proper)
    (c : Nat → K) : ∀ m ∈ shiftEach c ms, m.Proper := by
  intro m hmem
  obtain ⟨p, hp, rfl⟩ := List.mem_mapIdx.1 hmem
  exact (hm _ (List.getElem_mem hp)).shift (c p)

theorem lengths_shiftEach (c : Nat → K) (ms : List (Message (Extended K))) :
    (shiftEach c ms).map List.length = ms.map List.length := by
  apply List.ext_getElem
  · simp [shiftEach]
  · intro p h₁ h₂
    simp [shiftEach, length_shift]

/-- The energies of one value, message by message. -/
theorem map_valueAt_shiftEach (c : Nat → K) (ms : List (Message (Extended K))) (x : Nat) :
    (shiftEach c ms).map (·.valueAt x) =
      (ms.map (·.valueAt x)).mapIdx fun p y => y + (c p : WithTop K) := by
  apply List.ext_getElem
  · simp [shiftEach]
  · intro p h₁ h₂
    simp [shiftEach, valueAt_shift]

theorem Proper.argminFrom_shift [IsStrictOrderedRing K] {low : Extended K}
    {rest : Message (Extended K)} (hlow : low.Proper) (hrest : rest.Proper) (best next : Nat)
    (k : K) :
    Message.argminFrom best (low + .finite k) next (rest.shift k) =
      Message.argminFrom best low next rest := by
  induction rest generalizing best next low with
  | nil => rfl
  | cons x rest ih =>
    have hx : x.Proper := hrest x List.mem_cons_self
    have hrest : Message.Proper rest := fun y hy => hrest y (List.mem_cons_of_mem x hy)
    have hiff : Energy.precedes (x + .finite k) (low + .finite k) = Energy.precedes x low := by
      rw [Bool.eq_iff_iff, Extended.precedes_iff hx hlow,
        Extended.precedes_iff (hx.add (Extended.proper_finite k))
          (hlow.add (Extended.proper_finite k)), Extended.value_add, Extended.value_add,
        Extended.value_finite]
      exact WithTop.add_lt_add_iff_right WithTop.coe_ne_top
    simp only [Message.shift, List.map_cons, Message.argminFrom, hiff]
    split
    · exact ih hx hrest _ _
    · exact ih hlow hrest _ _

theorem Proper.argmin_shift [IsStrictOrderedRing K] (hm : m.Proper) (k : K) :
    (m.shift k).argmin? = m.argmin? := by
  cases m with
  | nil => rfl
  | cons x rest =>
    have hx : x.Proper := hm x List.mem_cons_self
    have hrest : Message.Proper rest := fun y hy => hm y (List.mem_cons_of_mem x hy)
    exact congrArg some (Proper.argminFrom_shift hx hrest 0 1 k)

end MinSum.Message
