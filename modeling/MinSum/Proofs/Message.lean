import Mathlib.Algebra.Order.Field.Basic
import Mathlib.Tactic.Linarith
import MinSum.Proofs.Energy.Least
import MinSum.Proofs.Update

/-! Messages of exact energies as functions from values to numbers. Outside the domain they are
infinite. -/
namespace MinSum

theorem getElem?_overlay {α β : Type} (f : α → β → α) (as : List α) (bs : List β) (i : Nat) :
    (overlay f as bs)[i]? = as[i]?.map fun a => (bs[i]?.map (f a)).getD a := by
  rw [overlay, List.getElem?_append, List.length_zipWith, List.getElem?_zipWith,
    List.getElem?_drop]
  by_cases hb : i < bs.length
  · by_cases ha : i < as.length
    · simp [ha, hb]
    · simp [Nat.not_lt.1 ha, hb]
      omega
  · have h : ¬ i < min as.length bs.length := by omega
    rw [if_neg h]
    have hi : bs.length + (i - min as.length bs.length) = i ∨ as.length ≤ i := by omega
    rcases hi with hi | hi
    · rw [hi]
      cases as[i]? <;> simp [Nat.not_lt.1 hb]
    · rw [List.getElem?_eq_none (by omega), List.getElem?_eq_none hi]
      rfl

namespace Message

variable {K : Type} [Field K] [LinearOrder K]

/-- The energy of a value as a number. -/
def valueAt (m : Message (Extended K)) (x : Nat) : WithTop K := (m.entry x).value

def Proper (m : Message (Extended K)) : Prop := ∀ x ∈ m, x.Proper

instance (m : Message (Extended K)) : Decidable m.Proper :=
  inferInstanceAs (Decidable (∀ x ∈ m, x.Proper))

def Finite (m : Message (Extended K)) : Prop := ∀ x ∈ m, ∃ k, x = .finite k

theorem valueAt_eq (m : Message (Extended K)) (x : Nat) :
    m.valueAt x = (m[x]?.map Extended.value).getD ⊤ := by
  rw [valueAt, entry, List.getD_eq_getElem?_getD]
  cases m[x]? <;> rfl

theorem valueAt_of_le {m : Message (Extended K)} {x : Nat} (h : m.length ≤ x) :
    m.valueAt x = ⊤ := by
  rw [valueAt_eq, List.getElem?_eq_none h]
  rfl

theorem exists_of_valueAt_ne_top {m : Message (Extended K)} {x : Nat} (h : m.valueAt x ≠ ⊤) :
    ∃ a ∈ m, a.value = m.valueAt x := by
  rw [valueAt_eq] at h ⊢
  cases ha : m[x]? with
  | none => simp [ha] at h
  | some a => exact ⟨a, List.mem_of_getElem? ha, rfl⟩

theorem Proper.entry {m : Message (Extended K)} (h : m.Proper) (x : Nat) : (m.entry x).Proper := by
  rw [Message.entry, List.getD_eq_getElem?_getD]
  cases hx : m[x]? with
  | none => exact Extended.proper_top
  | some a => exact h a (List.mem_of_getElem? hx)

/-- A message is told by its length and its energies. -/
theorem Proper.ext {m m' : Message (Extended K)} (h : m.Proper) (h' : m'.Proper)
    (hl : m.length = m'.length) (hv : ∀ x < m.length, m.valueAt x = m'.valueAt x) : m = m' := by
  apply List.ext_getElem hl
  intro x hx hx'
  have := hv x hx
  simp only [valueAt_eq, List.getElem?_eq_getElem hx, List.getElem?_eq_getElem hx',
    Option.map_some, Option.getD_some] at this
  exact (h _ (List.getElem_mem hx)).ext (h' _ (List.getElem_mem hx')) this

theorem proper_uniform (size : Nat) : (uniform size : Message (Extended K)).Proper := by
  intro x hx
  rw [(List.mem_replicate.1 hx).2]
  exact Extended.proper_zero

theorem valueAt_uniform {size x : Nat} (hx : x < size) :
    (uniform size : Message (Extended K)).valueAt x = 0 := by
  rw [valueAt_eq, uniform, List.getElem?_replicate_of_lt hx]
  rfl

theorem Proper.plus {m other : Message (Extended K)} (h : m.Proper) (h' : other.Proper) :
    (m.plus other).Proper := by
  intro x hx
  obtain ⟨i, hi⟩ := List.mem_iff_getElem?.1 hx
  rw [Message.plus, getElem?_overlay] at hi
  obtain ⟨a, ha, rfl⟩ := Option.map_eq_some_iff.1 hi
  have hpa := h a (List.mem_of_getElem? ha)
  cases hb : other[i]? with
  | none => exact hpa
  | some b => exact hpa.add (h' b (List.mem_of_getElem? hb))

theorem valueAt_plus {m other : Message (Extended K)} (hl : other.length = m.length) (x : Nat) :
    (m.plus other).valueAt x = m.valueAt x + other.valueAt x := by
  simp only [valueAt_eq, plus, getElem?_overlay]
  rcases Nat.lt_or_ge x m.length with hx | hx
  · have hx' : x < other.length := hl ▸ hx
    simp [List.getElem?_eq_getElem hx, List.getElem?_eq_getElem hx', Extended.value_add]
  · simp [hx]

theorem proper_foldl_plus {ms : List (Message (Extended K))} (hm : ∀ m ∈ ms, m.Proper)
    {m : Message (Extended K)} (h : m.Proper) : (ms.foldl plus m).Proper := by
  induction ms generalizing m with
  | nil => exact h
  | cons n ms ih =>
    exact ih (fun x hx => hm x (by simp [hx])) (h.plus (hm n (by simp)))

theorem valueAt_foldl_plus {ms : List (Message (Extended K))} {m : Message (Extended K)}
    (hl : ∀ n ∈ ms, n.length = m.length) (x : Nat) :
    (ms.foldl plus m).valueAt x = m.valueAt x + (ms.map (valueAt · x)).sum := by
  induction ms generalizing m with
  | nil => simp
  | cons n ms ih =>
    have hn := hl n (by simp)
    rw [List.foldl_cons, ih, valueAt_plus hn, List.map_cons, List.sum_cons, add_assoc]
    intro n' hn'
    rw [plus, length_overlay]
    exact hl n' (by simp [hn'])

theorem isMinOver_lowest {m : Message (Extended K)} (h : m.Proper) :
    IsMinOver (· ∈ m) Extended.value (lowest m).value :=
  Table.least_isMinOver h

theorem proper_lowest {m : Message (Extended K)} (h : m.Proper) : (lowest m).Proper :=
  Table.proper_least h

/-- The least energy, over values instead of entries. -/
theorem isMinOver_lowest_valueAt {m : Message (Extended K)} (h : m.Proper) :
    IsMinOver (fun _ => True) m.valueAt (lowest m).value := by
  refine (isMinOver_lowest h).transfer ?_ ?_
  · intro x _ hx
    obtain ⟨a, ha, hv⟩ := exists_of_valueAt_ne_top hx
    exact ⟨a, ha, hv.le⟩
  · intro a ha _
    obtain ⟨x, hx⟩ := List.mem_iff_getElem?.1 ha
    refine ⟨x, trivial, ?_⟩
    rw [valueAt_eq, hx]
    rfl

theorem valueAt_map_sub (m : Message (Extended K)) (k : K) (x : Nat) :
    valueAt (m.map (· - Extended.finite k)) x = m.valueAt x + (-k : K) := by
  simp only [valueAt_eq, List.getElem?_map]
  cases m[x]? with
  | none => rfl
  | some a => exact Extended.value_sub_finite a k

/-- Without a possible value nothing changes, otherwise the least energy is subtracted. -/
theorem normalize_cases {m : Message (Extended K)} (h : m.Proper) :
    (normalize m = (m, .contradiction) ∧ ∀ x, m.valueAt x = ⊤) ∨
      ∃ k : K, lowest m = .finite k ∧ (normalize m).2 = .possible ∧ (normalize m).1.Proper ∧
        ∀ x, (normalize m).1.valueAt x = m.valueAt x + (-k : K) := by
  have hmin := isMinOver_lowest_valueAt h
  rcases Extended.proper_iff.1 (proper_lowest h) with ht | ⟨k, hk⟩
  · refine .inl ⟨?_, fun x => ?_⟩
    · simp only [normalize, if_pos ht]
    · rw [ht, Extended.value_top] at hmin
      exact top_le_iff.1 (hmin.le x trivial)
  · refine .inr ⟨k, hk, ?_⟩
    have hne : ¬ lowest m = Energy.top := by simp [hk, Extended.top_eq]
    by_cases hz : Energy.isZero (lowest m) = true
    · have hk0 : k = 0 := by
        rw [Extended.isZero_iff, hk, Extended.zero_eq] at hz
        exact Extended.finite.inj hz
      simp only [normalize, if_neg hne, if_pos hz, hk0, neg_zero, WithTop.coe_zero, add_zero]
      exact ⟨trivial, h, fun _ => trivial⟩
    · have he : normalize m = (m.map (· - Extended.finite k), .possible) := by
        simp only [normalize, if_neg hne, if_neg hz]
        rw [hk]
      rw [he]
      refine ⟨rfl, ?_, valueAt_map_sub m k⟩
      intro y hy
      obtain ⟨a, ha, rfl⟩ := List.mem_map.1 hy
      exact (h a ha).sub_finite k

theorem Proper.normalize {m : Message (Extended K)} (h : m.Proper) :
    (Message.normalize m).1.Proper := by
  rcases normalize_cases h with ⟨he, -⟩ | ⟨k, -, -, hp, -⟩
  · rw [he]
    exact h
  · exact hp

/-- Normalization shifts all energies by the same number. -/
theorem Proper.exists_valueAt_normalize {m : Message (Extended K)} (h : m.Proper) :
    ∃ c : K, ∀ x, (Message.normalize m).1.valueAt x = m.valueAt x + c := by
  rcases normalize_cases h with ⟨he, -⟩ | ⟨k, -, -, -, hv⟩
  · refine ⟨0, fun x => ?_⟩
    rw [he, WithTop.coe_zero, add_zero]
  · exact ⟨-k, hv⟩

/-- The verdict tells whether some value is possible. -/
theorem Proper.normalize_snd_iff {m : Message (Extended K)} (h : m.Proper) :
    (Message.normalize m).2 = .contradiction ↔ ∀ x, m.valueAt x = ⊤ := by
  rcases normalize_cases h with ⟨he, ht⟩ | ⟨k, hk, hv, -, -⟩
  · rw [he]
    exact ⟨fun _ => ht, fun _ => rfl⟩
  · rw [hv]
    refine ⟨fun hc => Verdict.noConfusion hc, fun ht => ?_⟩
    obtain ⟨x, -, hx⟩ := (isMinOver_lowest_valueAt h).attained (by simp [hk])
    rw [ht x, hk] at hx
    exact absurd hx.symm WithTop.coe_ne_top

theorem Proper.argminFrom {m : Message (Extended K)} (h : m.Proper) {best next : Nat}
    {low : Extended K} {rest : Message (Extended K)} (hrest : m.drop next = rest)
    (hbest : m[best]? = some low) (hle : ∀ y < next, m.valueAt best ≤ m.valueAt y)
    (hfirst : ∀ y < best, m.valueAt best < m.valueAt y) :
    let x := Message.argminFrom best low next rest
    x < m.length ∧ (∀ y, m.valueAt x ≤ m.valueAt y) ∧ ∀ y < x, m.valueAt x < m.valueAt y := by
  induction rest generalizing best next low with
  | nil =>
    refine ⟨(List.getElem?_eq_some_iff.1 hbest).1, fun y => ?_, hfirst⟩
    rw [Message.argminFrom]
    rcases Nat.lt_or_ge y next with hy | hy
    · exact hle y hy
    · have hlen : m.length ≤ next := List.drop_eq_nil_iff.1 hrest
      rw [valueAt_of_le (hlen.trans hy)]
      exact le_top
  | cons x rest ih =>
    have hx : m[next]? = some x := by
      have hdrop : (m.drop next)[0]? = m[next + 0]? := List.getElem?_drop
      rw [hrest] at hdrop
      exact hdrop.symm
    have htail : m.drop (next + 1) = rest := by
      rw [← List.drop_drop, hrest]
      rfl
    have hlow : m.valueAt best = low.value := by rw [valueAt_eq, hbest]; rfl
    have hnext : m.valueAt next = x.value := by rw [valueAt_eq, hx]; rfl
    have hprecedes := Extended.precedes_iff (h x (List.mem_of_getElem? hx))
      (h low (List.mem_of_getElem? hbest))
    rw [Message.argminFrom]
    split
    · rename_i hp
      have hlt := hprecedes.1 hp
      rw [← hlow, ← hnext] at hlt
      refine ih htail hx (fun y hy => ?_) fun y hy => hlt.trans_le (hle y hy)
      rcases Nat.lt_succ_iff_lt_or_eq.1 hy with hy | rfl
      · exact hlt.le.trans (hle y hy)
      · exact le_refl _
    · rename_i hp
      have hge := not_lt.1 fun hlt => hp (hprecedes.2 hlt)
      rw [← hlow, ← hnext] at hge
      refine ih htail hbest (fun y hy => ?_) hfirst
      rcases Nat.lt_succ_iff_lt_or_eq.1 hy with hy | rfl
      · exact hle y hy
      · exact hge

/-- What is found is the first value of least energy. -/
theorem Proper.argmin_spec {m : Message (Extended K)} (h : m.Proper) (hpos : 0 < m.length) :
    ∃ x, m.argmin? = some x ∧ x < m.length ∧ (∀ y, m.valueAt x ≤ m.valueAt y) ∧
      ∀ y < x, m.valueAt x < m.valueAt y := by
  cases m with
  | nil => contradiction
  | cons low rest =>
    have hle : ∀ y < 1, valueAt (low :: rest) 0 ≤ valueAt (low :: rest) y := by
      intro y hy
      rw [Nat.lt_one_iff.1 hy]
    have hfirst : ∀ y < 0, valueAt (low :: rest) 0 < valueAt (low :: rest) y := by
      intro y hy
      contradiction
    exact ⟨_, rfl, h.argminFrom rfl rfl hle hfirst⟩

/-- A value of strictly least energy is found. -/
theorem Proper.argmin_eq {m : Message (Extended K)} (h : m.Proper) {x : Nat} (hx : x < m.length)
    (hlt : ∀ y < m.length, y ≠ x → m.valueAt x < m.valueAt y) : m.argmin? = some x := by
  obtain ⟨y, hy, hlen, hle, -⟩ := h.argmin_spec (Nat.zero_lt_of_lt hx)
  by_cases hne : y = x
  · rw [hy, hne]
  · exact absurd (hle x) (hlt y hlen hne).not_ge

section damping

variable [IsStrictOrderedRing K]

omit [IsStrictOrderedRing K] in
/-- Strictly between none and full damping the messages are mixed. -/
theorem damp_eq_overlay (m old : Message (Extended K)) {d : K} (h₀ : 0 < d) (h₁ : d < 1) :
    damp m old (.finite d) =
      overlay (fun x y => Extended.finite (1 - d) * x + Extended.finite d * y) m old := by
  have hz : ¬ Energy.isZero (Extended.finite d) = true := by
    rw [Extended.isZero_iff, Extended.zero_eq, Extended.finite.injEq]
    exact h₀.ne'
  have h1 : ¬ Extended.finite d = 1 := by
    rw [Extended.one_eq, Extended.finite.injEq]
    exact h₁.ne
  have hk : (1 - Extended.finite d : Extended K) = .finite (1 - d) := rfl
  simp only [damp, if_neg hz, if_neg h1, hk]

/-- Both messages take part in every entry of a mixture. -/
theorem damp_between {m old : Message (Extended K)} (hm : m.Proper) (ho : old.Proper)
    (hl : old.length = m.length) {d : K} (h₀ : 0 < d) (h₁ : d < 1) :
    (damp m old (.finite d)).Proper ∧ ∀ x, (damp m old (.finite d)).valueAt x = ⊤ ↔
      m.valueAt x = ⊤ ∨ old.valueAt x = ⊤ := by
  have he := damp_eq_overlay m old h₀ h₁
  have hpos : 0 < 1 - d := by linarith
  constructor
  · intro x hx
    rw [he] at hx
    obtain ⟨i, hi⟩ := List.mem_iff_getElem?.1 hx
    rw [getElem?_overlay] at hi
    obtain ⟨a, ha, rfl⟩ := Option.map_eq_some_iff.1 hi
    have hpa := hm a (List.mem_of_getElem? ha)
    cases hb : old[i]? with
    | none => exact hpa
    | some b =>
      have hpb := ho b (List.mem_of_getElem? hb)
      exact (hpa.mul_finite hpos).1.add (hpb.mul_finite h₀).1
  · intro x
    rw [he]
    simp only [valueAt_eq, getElem?_overlay]
    rcases Nat.lt_or_ge x m.length with hx | hx
    · have hx' : x < old.length := hl ▸ hx
      have ha := (hm _ (List.getElem_mem hx)).mul_finite hpos
      have hb := (ho _ (List.getElem_mem hx')).mul_finite h₀
      simp only [List.getElem?_eq_getElem hx, List.getElem?_eq_getElem hx', Option.map_some,
        Option.getD_some, Extended.value_add, WithTop.add_eq_top, ha.2, hb.2]
    · simp [hx]

/-- Damping never rules out a value that both messages leave possible. -/
theorem Proper.damp {m old : Message (Extended K)} (hm : m.Proper) (ho : old.Proper)
    (hl : old.length = m.length) {d : Extended K} (hd : 0 ≤ d ∧ d ≤ 1) :
    (Message.damp m old d).Proper ∧ ∀ x, m.valueAt x ≠ ⊤ → old.valueAt x ≠ ⊤ →
      (Message.damp m old d).valueAt x ≠ ⊤ := by
  obtain ⟨k, rfl, h₀, h₁⟩ := Extended.exists_of_unit hd
  rcases h₀.lt_or_eq with h₀ | rfl
  · rcases h₁.lt_or_eq with h₁ | rfl
    · obtain ⟨hp, hv⟩ := damp_between hm ho hl h₀ h₁
      exact ⟨hp, fun x hx hy => mt (hv x).1 (by simp [hx, hy])⟩
    · rw [← Extended.one_eq, damp_one]
      exact ⟨ho, fun _ _ hy => hy⟩
  · rw [← Extended.zero_eq, damp_zero]
    exact ⟨hm, fun _ hx _ => hx⟩

end damping

end Message

namespace Update

variable {K : Type} [Field K] [LinearOrder K] [IsStrictOrderedRing K]

def UnitDamping (damping : Option (List (Extended K))) : Prop :=
  ∀ ds ∈ damping, ∀ d ∈ ds, 0 ≤ d ∧ d ≤ 1

theorem UnitDamping.dampingAt {damping : Option (List (Extended K))} (h : UnitDamping damping)
    (port : Nat) : 0 ≤ Update.dampingAt damping port ∧ Update.dampingAt damping port ≤ 1 := by
  have hzero : (0 : Extended K) ≤ 0 ∧ (0 : Extended K) ≤ 1 := Extended.unit_zero
  cases damping with
  | none => exact hzero
  | some ds =>
    rw [Update.dampingAt, List.getD_eq_getElem?_getD]
    cases hp : ds[port]? with
    | none => exact hzero
    | some d => exact h ds rfl d (List.mem_of_getElem? hp)

theorem UnitDamping.settled {damping : Option (List (Extended K))} (h : UnitDamping damping)
    (port : Nat) {raw old : Message (Extended K)} (hr : raw.Proper) (ho : old.Proper)
    (hl : old.length = raw.length) :
    (settled damping port raw old).Proper ∧ ∀ x, raw.valueAt x ≠ ⊤ → old.valueAt x ≠ ⊤ →
      (settled damping port raw old).valueAt x ≠ ⊤ := by
  obtain ⟨c, hc⟩ := hr.exists_valueAt_normalize
  have hn : ∀ x, raw.valueAt x ≠ ⊤ → (Message.normalize raw).1.valueAt x ≠ ⊤ := by
    intro x hx
    rw [hc x]
    exact WithTop.add_ne_top.2 ⟨hx, WithTop.coe_ne_top⟩
  rw [settled_eq_damp]
  obtain ⟨hp, hv⟩ := hr.normalize.damp ho (by rw [Message.length_normalize, hl])
    (h.dampingAt port)
  exact ⟨hp, fun x hx hy => hv x (hn x hx) hy⟩

omit [IsStrictOrderedRing K] in
/-- Without damping the message on a port is the raw one, shifted. -/
theorem settled_of_zero {damping : Option (List (Extended K))} {port : Nat}
    (hd : Update.dampingAt damping port = 0) (raw old : Message (Extended K)) :
    settled damping port raw old = (Message.normalize raw).1 := by
  rw [settled_eq_damp, hd, Message.damp_zero]

end Update

end MinSum
