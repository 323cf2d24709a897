import Mathlib.Algebra.Group.Nat.Defs
import MinSum.Document.Record

/-! The reading of documents: what a reader yields, and what a record keeps while it is read part by
part, by place or by name. -/
namespace MinSum.Document

variable {α β σ : Type}

/-- If anything is read, it satisfies `p`. -/
def Yields (x : Read α) (p : α → Prop) : Prop := ∀ a, x = .ok a → p a

namespace Yields

variable {x : Read α} {p : α → Prop} {q : β → Prop}

theorem ok {a : α} (h : p a) : Yields (.ok a) p := by
  rintro _ ⟨⟩
  exact h

theorem error (e : DocumentError) : Yields (.error e) p := nofun

theorem any (x : Read α) : Yields x fun _ => True := fun _ _ => trivial

theorem bind {f : α → Read β} (h : Yields x p) (hf : ∀ a, p a → Yields (f a) q) :
    Yields (x >>= f) q := by
  cases x with
  | error e => exact error e
  | ok a => exact hf a (h a rfl)

theorem map {f : α → β} (h : Yields x p) (hf : ∀ a, p a → q (f a)) : Yields (x.map f) q :=
  h.bind fun a ha => ok (hf a ha)

theorem mapM {f : β → Read α} {l : List β} (h : ∀ b ∈ l, Yields (f b) p) :
    Yields (l.mapM f) fun as => ∀ a ∈ as, p a := by
  induction l with
  | nil => exact ok fun a ha => absurd ha List.not_mem_nil
  | cons b l ih =>
    rw [List.mapM_cons]
    refine (h b List.mem_cons_self).bind fun a ha => ?_
    refine (ih fun b hb => h b (List.mem_cons_of_mem _ hb)).bind fun as has => ?_
    exact ok (List.forall_mem_cons.2 ⟨ha, has⟩)

theorem foldlM {f : α → β → Read α} {l : List β} (h : ∀ b ∈ l, ∀ a, p a → Yields (f a b) p)
    {a : α} (ha : p a) : Yields (l.foldlM f a) p := by
  induction l generalizing a with
  | nil => exact ok ha
  | cons b l ih =>
    rw [List.foldlM_cons]
    exact (h b List.mem_cons_self a ha).bind fun a' ha' =>
      ih (fun b hb => h b (List.mem_cons_of_mem _ hb)) ha'

end Yields

theorem yields_readIndex (d : Document) : Yields (readIndex d) (· < 2 ^ 64) := by
  have hbetween : Yields (readBetween 0 0xffffffffffffffff "usize" d) (· < 2 ^ 64) := by
    cases d with
    | integer n =>
      rw [readBetween]
      split
      · next h => exact .ok (by omega)
      · exact .error _
    | _ => exact .error _
  exact hbetween.map fun n hn => by omega

theorem yields_readList {read : Document → Read α} {p : α → Prop} (h : ∀ d, Yields (read d) p)
    (d : Document) : Yields (readList read d) fun l => ∀ a ∈ l, p a := by
  cases d with
  | list items => exact .mapM fun d _ => h d
  | _ => exact .error _

theorem yields_require {name : String} {found : Option α} {p : α → Prop}
    (h : ∀ a, found = some a → p a) : Yields (require name found) p := by
  cases found with
  | none => exact .error _
  | some a => exact .ok (h a rfl)

theorem yields_readInTurn {whole : String} {parts : List (Part σ)} {p : σ → Prop}
    (h : ∀ part ∈ parts, ∀ s d, p s → Yields (part s d) p) {start : σ} (hstart : p start)
    (items : List Document) : Yields (readInTurn whole parts start items) p := by
  refine Yields.bind (Yields.foldlM (fun x hx s => ?_) hstart) fun s hs => ?_
  · exact h x.1 (List.of_mem_zip hx).1 s x.2
  dsimp only
  split
  · exact .error _
  · split
    · exact .error _
    · exact .ok hs

theorem yields_readNamed {parts : List (String × Part σ)} {p : σ → Prop}
    (h : ∀ part ∈ parts, ∀ s d, p s → Yields (part.2 s d) p) {start : σ} (hstart : p start)
    (entries : List (String × Document)) : Yields (readNamed parts start entries) p := by
  refine Yields.foldlM (fun part hpart s hs => ?_) hstart
  dsimp only
  split
  · exact .ok hs
  · exact h part (List.mem_mergeSort.1 hpart) s _ hs

theorem Record.yields_read {r : Record σ} {p : σ → Prop}
    (h : ∀ part ∈ r.parts, ∀ s d, p s → Yields (part.2 s d) p) {start : σ} (hstart : p start)
    (d : Document) : Yields (r.read start d) p := by
  cases d with
  | list items =>
    refine yields_readInTurn (fun part hpart => ?_) hstart items
    obtain ⟨named, hnamed, rfl⟩ := List.mem_map.1 hpart
    exact h named hnamed
  | fields entries => exact yields_readNamed h hstart entries
  | _ => exact .error _

theorem readIndex_integer {n : Nat} (h : n < 2 ^ 64) : readIndex (integer n) = .ok n := by
  have hle : (n : Int) ≤ 0xffffffffffffffff := by omega
  rw [readIndex, readBetween, if_pos ⟨Int.natCast_nonneg n, hle⟩]
  rfl

theorem readList_list_map {read : Document → Read α} {write : α → Document} {l : List α}
    (h : ∀ a ∈ l, read (write a) = .ok a) : readList read (list (l.map write)) = .ok l := by
  induction l with
  | nil => rfl
  | cons a l ih =>
    have hl : (l.map write).mapM read = .ok l := ih fun b hb => h b (List.mem_cons_of_mem a hb)
    rw [readList, List.map_cons, List.mapM_cons, h a List.mem_cons_self, hl]
    rfl

end MinSum.Document
