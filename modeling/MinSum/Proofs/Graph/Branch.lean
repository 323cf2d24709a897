import Mathlib.Combinatorics.SimpleGraph.Acyclic

/-! Branches of an undirected graph: what can be reached from a vertex without entering another
one. In an acyclic graph the branch of a vertex consists of the vertex and of the branches of its
other neighbors, which have nothing in common. -/
namespace MinSum

open Relation

variable {V : Type} {T : SimpleGraph V} {o : Option V} {u v w x : V}

/-- The vertex can be reached from `u` without entering `o`. -/
def InBranch (T : SimpleGraph V) (o : Option V) (u : V) : V → Prop :=
  ReflTransGen (fun a b => T.Adj a b ∧ o ≠ some b) u

namespace InBranch

theorem refl : InBranch T o u u := ReflTransGen.refl

theorem ne (h : InBranch T (some v) u x) (huv : u ≠ v) : x ≠ v := by
  cases h with
  | refl => exact huv
  | tail _ hx =>
    rintro rfl
    exact hx.2 rfl

theorem step (h : InBranch T o u x) (hx : T.Adj x v) : InBranch T o u v ∨ o = some v := by
  by_cases hv : o = some v
  · exact .inr hv
  · exact .inl (h.tail ⟨hx, hv⟩)

theorem none_iff : InBranch T none u x ↔ T.Reachable u x := by
  rw [SimpleGraph.reachable_iff_reflTransGen, InBranch]
  simp only [ne_eq, reduceCtorEq, not_false_eq_true, and_true]

/-- A branch can be walked back, as it does not contain the forbidden vertex. -/
theorem symm (h : InBranch T (some v) u x) (huv : u ≠ v) : InBranch T (some v) x u := by
  induction h with
  | refl => exact .refl
  | tail hb hx ih =>
    have hne : some v ≠ some _ := fun heq => ne hb huv (Option.some.inj heq).symm
    exact ReflTransGen.head ⟨hx.1.symm, hne⟩ ih

theorem cases_root (h : InBranch T o u x) :
    x = u ∨ ∃ w, T.Adj u w ∧ o ≠ some w ∧ InBranch T (some u) w x := by
  induction h with
  | refl => exact .inl rfl
  | @tail b c _ hc ih =>
    by_cases hcu : c = u
    · exact .inl hcu
    have hne : some u ≠ some c := fun heq => hcu (Option.some.inj heq).symm
    rcases ih with rfl | ⟨w, hw, how, hb⟩
    · exact .inr ⟨c, hc.1, hc.2, .refl⟩
    · exact .inr ⟨w, hw, how, hb.tail ⟨hc.1, hne⟩⟩

variable (ha : T.IsAcyclic)

include ha

theorem eq_of_adj (hv : T.Adj u v) (hw : T.Adj u w) (h : InBranch T (some u) v w) : v = w := by
  by_contra hne
  have hbridge : ¬ (T.deleteEdges {s(u, v)}).Reachable u v :=
    SimpleGraph.isAcyclic_iff_forall_adj_isBridge.1 ha hv
  have hback : ∀ x, InBranch T (some u) v x → (T.deleteEdges {s(u, v)}).Reachable v x := by
    intro x hx
    induction hx with
    | refl => exact SimpleGraph.Reachable.refl v
    | @tail b c hb hc ih =>
      have hbu : b ≠ u := InBranch.ne hb hv.ne'
      have hcu : c ≠ u := fun heq => hc.2 (congrArg some heq.symm)
      have hbc : (T.deleteEdges {s(u, v)}).Adj b c := by
        rw [SimpleGraph.deleteEdges_adj]
        refine ⟨hc.1, fun heq => ?_⟩
        rcases Sym2.eq_iff.1 heq with ⟨hb', -⟩ | ⟨-, hc'⟩
        · exact hbu hb'
        · exact hcu hc'
      exact ih.trans hbc.reachable
  have huw : (T.deleteEdges {s(u, v)}).Adj u w := by
    rw [SimpleGraph.deleteEdges_adj]
    refine ⟨hw, fun heq => ?_⟩
    rcases Sym2.eq_iff.1 heq with ⟨-, hwv⟩ | ⟨huv, -⟩
    · exact hne hwv.symm
    · exact hv.ne huv
  exact hbridge (huw.reachable.trans (hback w h).symm)

/-- The branches behind two neighbors have nothing in common. -/
theorem eq_of_inBranch (hv : T.Adj u v) (hw : T.Adj u w) (h : InBranch T (some u) v x)
    (h' : InBranch T (some u) w x) : v = w :=
  eq_of_adj ha hv hw (h.trans (h'.symm hw.ne'))

/-- The branch behind a neighbor is a part of the branch of the vertex. -/
theorem of_adj (hw : T.Adj u w) (ho : ∀ v, o = some v → T.Adj u v ∧ v ≠ w)
    (h : InBranch T (some u) w x) : InBranch T o u x := by
  induction h with
  | refl => exact ReflTransGen.single ⟨hw, fun heq => (ho w heq).2 rfl⟩
  | @tail b c hb hc ih =>
    refine ih.tail ⟨hc.1, fun heq => ?_⟩
    obtain ⟨hadj, hne⟩ := ho c heq
    exact hne (eq_of_adj ha hw hadj (hb.tail hc)).symm

end InBranch

/-- Where no vertex has two neighbors of no greater depth, the deepest vertex of a cycle would. -/
theorem isAcyclic_of_depth (depth : V → Nat) (h : ∀ a b c, T.Adj a b → T.Adj a c →
    depth b ≤ depth a → depth c ≤ depth a → b = c) : T.IsAcyclic := by
  classical
  intro v c hc
  obtain ⟨u, hu, hmax⟩ := c.support.toFinset.exists_max_image depth
    ⟨v, List.mem_toFinset.2 c.start_mem_support⟩
  have hu := List.mem_toFinset.1 hu
  have hr : (c.rotate u hu).IsCycle := hc.rotate hu
  have hle : ∀ i, depth ((c.rotate u hu).getVert i) ≤ depth u := by
    intro i
    apply hmax
    have hmem := (c.rotate u hu).getVert_mem_support i
    rw [SimpleGraph.Walk.mem_support_rotate_iff] at hmem
    exact List.mem_toFinset.2 hmem
  have hsnd := (c.rotate u hu).adj_snd hr.not_nil
  have hlast := ((c.rotate u hu).adj_penultimate hr.not_nil).symm
  exact hr.snd_ne_penultimate (h u _ _ hsnd hlast (hle _) (hle _))

end MinSum
