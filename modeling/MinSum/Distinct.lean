/-! Lists without repetition: finding a repetition, and leaving repetitions out. -/
namespace MinSum

variable {α : Type} [DecidableEq α]

/-- The first element that is in `seen` or occurs earlier in the list. -/
def firstRepeat? (seen : List α) : List α → Option α
  | [] => none
  | a :: l => if a ∈ seen then some a else firstRepeat? (a :: seen) l

theorem nodup_of_firstRepeat?_eq_none {seen l : List α} (h : firstRepeat? seen l = none) :
    l.Nodup ∧ ∀ a ∈ l, a ∉ seen := by
  induction l generalizing seen with
  | nil => simp
  | cons a l ih =>
    simp only [firstRepeat?] at h
    split at h
    · contradiction
    · rename_i ha
      obtain ⟨hl, hs⟩ := ih h
      refine ⟨List.nodup_cons.2 ⟨fun hmem => hs a hmem (by simp), hl⟩, ?_⟩
      intro b hb
      rcases List.mem_cons.1 hb with rfl | hb
      · exact ha
      · exact fun hmem => hs b hb (List.mem_cons_of_mem _ hmem)

theorem firstRepeat?_eq_some_iff {seen l : List α} {a : α} : firstRepeat? seen l = some a ↔
    ∃ front back, l = front ++ a :: back ∧ front.Nodup ∧ (∀ b ∈ front, b ∉ seen) ∧
      (a ∈ seen ∨ a ∈ front) := by
  induction l generalizing seen with
  | nil => simp [firstRepeat?]
  | cons b l ih =>
    rw [firstRepeat?]
    split
    · rename_i hb
      constructor
      · intro h
        obtain rfl := Option.some.inj h
        exact ⟨[], l, rfl, List.nodup_nil, by simp, .inl hb⟩
      · rintro ⟨front, back, heq, -, hfront, -⟩
        cases front with
        | nil => rw [(List.cons.inj heq).1]
        | cons c front =>
          obtain rfl := (List.cons.inj heq).1
          exact absurd hb (hfront b List.mem_cons_self)
    · rename_i hb
      rw [ih]
      constructor
      · rintro ⟨front, back, rfl, hnodup, hfront, ha⟩
        refine ⟨b :: front, back, rfl, ?_, ?_, ?_⟩
        · exact List.nodup_cons.2 ⟨fun hmem => hfront b hmem List.mem_cons_self, hnodup⟩
        · refine List.forall_mem_cons.2 ⟨hb, fun c hc hseen => ?_⟩
          exact hfront c hc (List.mem_cons_of_mem b hseen)
        · grind
      · rintro ⟨front, back, heq, hnodup, hfront, ha⟩
        cases front with
        | nil =>
          obtain rfl := (List.cons.inj heq).1
          exact absurd (ha.resolve_right List.not_mem_nil) hb
        | cons c front =>
          obtain ⟨rfl, rfl⟩ := List.cons.inj heq
          obtain ⟨hnot, hnodup⟩ := List.nodup_cons.1 hnodup
          refine ⟨front, back, rfl, hnodup, ?_, by grind⟩
          intro c hc
          have hne : c ≠ b := fun he => hnot (he ▸ hc)
          simp [hne, hfront c (List.mem_cons_of_mem b hc)]

/-- Each element that is not in `seen` once, at its first position. -/
def distinct (seen : List α) : List α → List α
  | [] => []
  | a :: l => if a ∈ seen then distinct seen l else a :: distinct (a :: seen) l

theorem nodup_distinct (seen l : List α) :
    (distinct seen l).Nodup ∧ ∀ a ∈ distinct seen l, a ∉ seen := by
  induction l generalizing seen with
  | nil => simp [distinct]
  | cons a l ih =>
    simp only [distinct]
    split
    · exact ih seen
    · rename_i ha
      obtain ⟨hl, hs⟩ := ih (a :: seen)
      refine ⟨List.nodup_cons.2 ⟨fun hmem => hs a hmem (by simp), hl⟩, ?_⟩
      intro b hb
      rcases List.mem_cons.1 hb with rfl | hb
      · exact ha
      · exact fun hmem => hs b hb (List.mem_cons_of_mem _ hmem)

@[simp] theorem mem_distinct {seen l : List α} {a : α} :
    a ∈ distinct seen l ↔ a ∈ l ∧ a ∉ seen := by
  induction l generalizing seen with
  | nil => simp [distinct]
  | cons b l ih =>
    by_cases hb : b ∈ seen
    · rw [distinct, if_pos hb, ih]
      grind
    · rw [distinct, if_neg hb, List.mem_cons, ih]
      grind

theorem distinct_congr {seen seen' l : List α} (h : ∀ a ∈ l, a ∈ seen ↔ a ∈ seen') :
    distinct seen l = distinct seen' l := by
  induction l generalizing seen seen' with
  | nil => rfl
  | cons a l ih =>
    have ha := h a List.mem_cons_self
    have hl : ∀ b ∈ l, b ∈ seen ↔ b ∈ seen' := fun b hb => h b (List.mem_cons_of_mem a hb)
    by_cases hs : a ∈ seen
    · rw [distinct, distinct, if_pos hs, if_pos (ha.1 hs), ih hl]
    · rw [distinct, distinct, if_neg hs, if_neg (mt ha.2 hs)]
      exact congrArg (a :: ·) (ih fun b hb => by simp [hl b hb])

theorem filter_distinct (p : α → Bool) (seen l : List α) :
    (distinct seen l).filter p = distinct seen (l.filter p) := by
  induction l generalizing seen with
  | nil => rfl
  | cons a l ih =>
    by_cases hs : a ∈ seen
    · rw [distinct, if_pos hs, ih]
      by_cases hp : p a = true
      · rw [List.filter_cons_of_pos hp, distinct, if_pos hs]
      · rw [List.filter_cons_of_neg hp]
    · rw [distinct, if_neg hs]
      by_cases hp : p a = true
      · rw [List.filter_cons_of_pos hp, List.filter_cons_of_pos hp, ih, distinct, if_neg hs]
      · rw [List.filter_cons_of_neg hp, List.filter_cons_of_neg hp, ih]
        refine distinct_congr fun b hb => ?_
        have hne : b ≠ a := fun he => hp (he ▸ (List.mem_filter.1 hb).2)
        simp [hne]

theorem distinct_eq_self {l : List α} (h : l.Nodup) : distinct [] l = l := by
  induction l with
  | nil => rfl
  | cons a l ih =>
    obtain ⟨ha, hl⟩ := List.nodup_cons.1 h
    have hseen : distinct [a] l = distinct [] l :=
      distinct_congr fun b hb => by simp [show b ≠ a from fun he => ha (he ▸ hb)]
    rw [distinct, if_neg List.not_mem_nil, hseen, ih hl]

theorem distinct_map {β : Type} [DecidableEq β] {f : α → β} (hf : ∀ a b, f a = f b → a = b)
    (seen l : List α) : distinct (seen.map f) (l.map f) = (distinct seen l).map f := by
  induction l generalizing seen with
  | nil => rfl
  | cons a l ih =>
    have hmem : f a ∈ seen.map f ↔ a ∈ seen := by
      rw [List.mem_map]
      exact ⟨fun ⟨b, hb, heq⟩ => hf b a heq ▸ hb, fun ha => ⟨a, ha, rfl⟩⟩
    by_cases hs : a ∈ seen
    · rw [List.map_cons, distinct, distinct, if_pos hs, if_pos (hmem.2 hs), ih]
    · rw [List.map_cons, distinct, distinct, if_neg hs, if_neg (mt hmem.1 hs), List.map_cons,
        ← ih (a :: seen), List.map_cons]

theorem distinct_concat (seen l : List α) (a : α) : distinct seen (l ++ [a]) =
    if a ∈ seen ∨ a ∈ l then distinct seen l else distinct seen l ++ [a] := by
  induction l generalizing seen with
  | nil => simp [distinct]
  | cons b l ih =>
    by_cases hb : b ∈ seen
    · rw [List.cons_append, distinct, if_pos hb, ih, distinct, if_pos hb]
      grind
    · rw [List.cons_append, distinct, if_neg hb, ih, distinct, if_neg hb]
      grind

theorem find?_distinct {p : α → Bool} {seen : List α} (h : ∀ a ∈ seen, p a = false) (l : List α) :
    (distinct seen l).find? p = l.find? p := by
  induction l generalizing seen with
  | nil => rfl
  | cons a l ih =>
    by_cases hs : a ∈ seen
    · rw [distinct, if_pos hs, ih h, List.find?_cons_of_neg (by simp [h a hs])]
    · rw [distinct, if_neg hs]
      by_cases hp : p a = true
      · rw [List.find?_cons_of_pos hp, List.find?_cons_of_pos hp]
      · rw [List.find?_cons_of_neg hp, List.find?_cons_of_neg hp, ih]
        intro b hb
        rcases List.mem_cons.1 hb with rfl | hb
        · simpa using hp
        · exact h b hb

end MinSum
