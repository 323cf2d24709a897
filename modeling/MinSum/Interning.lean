/-! Interning: equal contents are kept once and handed out under one key. -/
namespace MinSum

structure Shared (α : Type) where
  key : Nat
  content : α
  deriving DecidableEq, Repr

/-- The distinct contents seen so far; the key of a content is its position. -/
structure Interner (α : Type) where
  contents : Array α := #[]
  nodup : contents.toList.Nodup := by exact List.nodup_nil
  deriving DecidableEq, Repr

namespace Interner

variable {α : Type} [DecidableEq α]

def size (r : Interner α) : Nat := r.contents.size

def isEmpty (r : Interner α) : Bool := r.contents.isEmpty

theorem nodup_push {contents : Array α} {x : α} (h : contents.toList.Nodup)
    (hx : contents.findIdx? (· = x) = none) : (contents.push x).toList.Nodup := by
  rw [Array.toList_push, List.nodup_append]
  refine ⟨h, by simp, fun a ha b hb => ?_⟩
  rw [List.mem_singleton] at hb
  subst hb
  have := Array.findIdx?_eq_none_iff.1 hx a (Array.mem_toList_iff.1 ha)
  simpa using this

/-- The key of a content, which is kept from now on. -/
def intern (r : Interner α) (x : α) : Shared α × Interner α :=
  match h : r.contents.findIdx? (· = x) with
  | some key => (⟨key, x⟩, r)
  | none => (⟨r.contents.size, x⟩, ⟨r.contents.push x, nodup_push r.nodup h⟩)

end Interner

end MinSum
