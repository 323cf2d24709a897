import Mathlib.Data.Finset.Card
import Mathlib.Data.List.Nodup
import MinSum.Distinct
import MinSum.Interning

/-! Interning one content after another. Each content is kept once, in order of first occurrence,
and stays under the key under which it is handed out, so keys tell contents apart. -/
namespace MinSum.Interner

variable {α : Type} [DecidableEq α]

section

variable (r : Interner α) (x : α)

theorem content_intern : (r.intern x).1.content = x := by
  unfold intern
  split <;> rfl

theorem getElem?_key_intern :
    (r.intern x).2.contents[(r.intern x).1.key]? = some (r.intern x).1.content := by
  unfold intern
  split
  · rename_i key h
    obtain ⟨hlt, hx, -⟩ := Array.findIdx?_eq_some_iff_getElem.1 h
    rw [Array.getElem?_eq_getElem hlt, of_decide_eq_true hx]
  · simp

/-- What was not kept before is added at the end. -/
theorem toList_intern : (r.intern x).2.contents.toList =
    if x ∈ r.contents then r.contents.toList else r.contents.toList ++ [x] := by
  unfold intern
  split
  · rename_i key h
    obtain ⟨hlt, hx, -⟩ := Array.findIdx?_eq_some_iff_getElem.1 h
    have hmem : x ∈ r.contents := of_decide_eq_true hx ▸ Array.getElem_mem hlt
    rw [if_pos hmem]
  · rename_i h
    have hnew : x ∉ r.contents := fun hmem => by
      simpa using Array.findIdx?_eq_none_iff.1 h x hmem
    rw [if_neg hnew, Array.toList_push]

variable {r x}

/-- A content that is kept stays under its key. -/
theorem getElem?_intern {key : Nat} {y : α} (h : r.contents[key]? = some y) :
    (r.intern x).2.contents[key]? = some y := by
  rw [← Array.getElem?_toList] at h ⊢
  rw [toList_intern]
  split
  · exact h
  · rw [List.getElem?_append_left (List.getElem?_eq_some_iff.1 h).1, h]

theorem mem_contents_intern {y : α} : y ∈ (r.intern x).2.contents ↔ y ∈ r.contents ∨ y = x := by
  rw [← Array.mem_toList_iff, toList_intern]
  split
  · rename_i hx
    rw [Array.mem_toList_iff]
    exact ⟨.inl, fun h => h.elim id fun he => he ▸ hx⟩
  · simp

omit [DecidableEq α] in
theorem key_unique {i j : Nat} (hi : r.contents[i]? = some x) (hj : r.contents[j]? = some x) :
    i = j := by
  rw [← Array.getElem?_toList] at hi hj
  obtain ⟨hlt, hx⟩ := List.getElem?_eq_some_iff.1 hi
  obtain ⟨hlt', hx'⟩ := List.getElem?_eq_some_iff.1 hj
  exact (List.Nodup.getElem_inj_iff r.nodup).1 (hx.trans hx'.symm)

omit [DecidableEq α] in
/-- Keys tell contents apart. -/
theorem key_eq_iff {s s' : Shared α} (hs : r.contents[s.key]? = some s.content)
    (hs' : r.contents[s'.key]? = some s'.content) : s.key = s'.key ↔ s.content = s'.content := by
  constructor
  · intro hk
    rw [hk, hs'] at hs
    exact (Option.some.inj hs).symm
  · intro hc
    rw [hc] at hs
    exact key_unique hs hs'

end

/-- Interns the contents one after another and lists what is handed out. -/
def internAll (r : Interner α) : List α → List (Shared α) × Interner α
  | [] => ([], r)
  | x :: xs =>
    let (shared, r) := r.intern x
    let (rest, r) := r.internAll xs
    (shared :: rest, r)

variable (r : Interner α) (xs : List α)

theorem toList_internAll : (r.internAll xs).2.contents.toList =
    r.contents.toList ++ distinct r.contents.toList xs := by
  induction xs generalizing r with
  | nil => simp [internAll, distinct]
  | cons x xs ih =>
    rw [internAll, ih, toList_intern, distinct]
    by_cases hx : x ∈ r.contents
    · rw [if_pos hx, if_pos (Array.mem_toList_iff.2 hx)]
    · have hseen : distinct (r.contents.toList ++ [x]) xs = distinct (x :: r.contents.toList) xs :=
        distinct_congr fun a _ => by simp [or_comm]
      rw [if_neg hx, if_neg (mt Array.mem_toList_iff.1 hx), hseen, List.append_assoc,
        List.singleton_append]

theorem getElem?_internAll {r : Interner α} {key : Nat} {y : α}
    (h : r.contents[key]? = some y) : (r.internAll xs).2.contents[key]? = some y := by
  induction xs generalizing r with
  | nil => exact h
  | cons x xs ih => exact ih (getElem?_intern h)

/-- Whatever is interned is handed out and, to the end, kept under the key handed out with it. -/
theorem handed_internAll : List.Forall₂
    (fun (s : Shared α) x => s.content = x ∧ (r.internAll xs).2.contents[s.key]? = some x)
    (r.internAll xs).1 xs := by
  induction xs generalizing r with
  | nil => exact .nil
  | cons x xs ih =>
    refine .cons ⟨r.content_intern x, ?_⟩ (ih _)
    have hkept := r.getElem?_key_intern x
    rw [content_intern] at hkept
    exact getElem?_internAll xs hkept

theorem mem_contents_internAll {x : α} :
    x ∈ (r.internAll xs).2.contents ↔ x ∈ r.contents ∨ x ∈ xs := by
  rw [← Array.mem_toList_iff, toList_internAll, List.mem_append, mem_distinct,
    Array.mem_toList_iff]
  tauto

variable {xs} in
theorem of_mem_internAll {s : Shared α} (hs : s ∈ (r.internAll xs).1) :
    s.content ∈ xs ∧ (r.internAll xs).2.contents[s.key]? = some s.content := by
  have hhanded := r.handed_internAll xs
  obtain ⟨i, rfl⟩ := List.mem_iff_get.1 hs
  have hi : i < xs.length := hhanded.length_eq ▸ i.2
  obtain ⟨hcontent, hkey⟩ := hhanded.get i.2 hi
  rw [← hcontent] at hkey
  exact ⟨hcontent ▸ List.get_mem xs ⟨i, hi⟩, hkey⟩

/-- From the beginning, there is one content for each that is different from the others. -/
theorem size_internAll : (internAll {} xs).2.size = xs.toFinset.card := by
  have hlist : (internAll {} xs).2.contents.toList = distinct [] xs := by
    simpa using toList_internAll {} xs
  have hset : (distinct [] xs).toFinset = xs.toFinset := by
    ext x
    simp
  rw [size, ← Array.length_toList, hlist, ← hset,
    List.toFinset_card_of_nodup (nodup_distinct [] xs).1]

/-- Each owner that has asked for a content holds it under its key, and no other owner holds one. -/
structure Provides (r : Interner α) (asked : Nat → α → Prop) (held : Nat → Option (Shared α)) :
    Prop where
  asked_iff : ∀ i x, asked i x ↔ ∃ s, held i = some s ∧ s.content = x
  kept : ∀ i s, held i = some s → r.contents[s.key]? = some s.content

namespace Provides

variable {r : Interner α} {asked asked' : Nat → α → Prop} {held held' : Nat → Option (Shared α)}

omit [DecidableEq α] in
theorem empty : Provides ({} : Interner α) (fun _ _ => False) fun _ => none :=
  ⟨by simp, by simp⟩

omit [DecidableEq α] in
theorem congr (h : r.Provides asked held) (ha : ∀ i x, asked' i x ↔ asked i x)
    (hh : ∀ i, held' i = held i) : r.Provides asked' held' := by
  obtain rfl : asked' = asked := funext fun i => funext fun x => propext (ha i x)
  obtain rfl : held' = held := funext hh
  exact h

theorem intern (h : r.Provides asked held) (x : α) : (r.intern x).2.Provides asked held :=
  ⟨h.asked_iff, fun i s hs => getElem?_intern (h.kept i s hs)⟩

/-- A new owner is handed what it asks for. -/
theorem hand (h : r.Provides asked held) {n : Nat} (hn : held n = none) {x : α}
    (ha : ∀ i y, asked' i y ↔ asked i y ∨ i = n ∧ y = x)
    (hh : ∀ i, held' i = if i = n then some (r.intern x).1 else held i) :
    (r.intern x).2.Provides asked' held' := by
  refine ⟨fun i y => ?_, fun i s hs => ?_⟩
  · rw [ha, hh, h.asked_iff]
    by_cases hi : i = n
    · subst hi
      simp [hn, content_intern, eq_comm]
    · simp [hi]
  · rw [hh] at hs
    split at hs
    · obtain rfl := Option.some.inj hs
      exact r.getElem?_key_intern x
    · exact getElem?_intern (h.kept i s hs)

omit [DecidableEq α] in
/-- Owners hold one key exactly if they have asked for one content. -/
theorem key_eq_iff (h : r.Provides asked held) {i j : Nat} {x y : α} (hx : asked i x)
    (hy : asked j y) : (held i).map (·.key) = (held j).map (·.key) ↔ x = y := by
  obtain ⟨s, hs, rfl⟩ := (h.asked_iff i x).1 hx
  obtain ⟨s', hs', rfl⟩ := (h.asked_iff j y).1 hy
  rw [hs, hs', Option.map_some, Option.map_some, Option.some.injEq]
  exact Interner.key_eq_iff (h.kept i s hs) (h.kept j s' hs')

end Provides

end MinSum.Interner
