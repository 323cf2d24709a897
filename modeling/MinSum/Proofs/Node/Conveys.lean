import Mathlib.Algebra.BigOperators.WithTop
import MinSum.Proofs.Graph.Tree
import MinSum.Proofs.Node.Says

/-! In a tree a message can be exact: up to a constant it tells, for each value, the least energy
of the branch that it comes from. A node that hears exact messages has exact ones to say. -/
namespace MinSum

/-- A node hears what the other end of the edge said. -/
theorem EdgeStore.heard_eq_said {E : Type} (g : Graph E) (store : EdgeStore E) (id : NodeId)
    (e : Nat) : store.heard id e = store.said (g.opposite id e) e := by
  cases id <;> rfl

variable {K : Type} [Field K] [LinearOrder K]

namespace Graph

def Tabular {E : Type} (g : Graph E) : Prop :=
  ∀ factor ∈ g.factors, ∃ t, factor.potential = .table t

theorem Tabular.exact {E : Type} [Energy E] {g : Graph E} (h : g.Tabular) : g.Exact := by
  intro factor hf
  obtain ⟨t, ht⟩ := h factor hf
  rw [ht]
  trivial

/-- The energy of the branch on the near side of an edge. -/
noncomputable def branchCost (g : Graph (Extended K)) (id : NodeId) (e : Nat) (b : Nat → Nat) :
    WithTop K := ∑ x ∈ g.branch (some (g.opposite id e)) id, g.cost x b

/-- What the node said last on the edge, plus a constant, is the least energy of its branch. -/
def Tells (g : Graph (Extended K)) (store : EdgeStore (Extended K)) (id : NodeId) (e : Nat)
    (c : K) : Prop :=
  ∀ x < g.edgeSize e, IsMinOver (fun b : Nat → Nat => b (g.varOf e) = x) (g.branchCost id e)
    ((store.said id e).valueAt x + c)

def Conveys (g : Graph (Extended K)) (store : EdgeStore (Extended K)) (id : NodeId) (e : Nat) :
    Prop := ∃ c : K, g.Tells store id e c

variable {g : Graph (Extended K)} {id : NodeId} {e : Nat} {b b' : Nat → Nat}

/-- It matters only what was said. -/
theorem Conveys.congr {store store' : EdgeStore (Extended K)} (hc : g.Conveys store id e)
    (hs : store'.said id e = store.said id e) : g.Conveys store' id e := by
  obtain ⟨c, hc⟩ := hc
  rw [Tells, ← hs] at hc
  exact ⟨c, hc⟩

variable (h : g.WellFormed)

include h

theorem branchCost_congr (he : e ∈ g.incident id)
    (hb : ∀ v, .var v ∈ g.branch (some (g.opposite id e)) id → b v = b' v)
    (hv : b (g.varOf e) = b' (g.varOf e)) : g.branchCost id e b = g.branchCost id e b' := by
  have hid := WellFormed.hasNode_of_mem_incident he
  refine Finset.sum_congr rfl fun x hx => ?_
  have hxb := (h.mem_branch hid).1 hx
  refine cost_congr (fun v hxv => hb v (hxv ▸ hx)) fun e' he' => ?_
  cases x with
  | var v =>
    rw [h.varOf_of_mem_incident he']
    exact hb v hx
  | factor f =>
    rcases hxb.step (h.adj_opposite he') with hstep | hstep
    · exact hb _ ((h.mem_branch hid).2 hstep)
    · -- The factor is the near end, and reads the variable at the far end.
      have hfar := Option.some.inj hstep
      cases id with
      | var v => exact NodeId.noConfusion hfar
      | factor f' =>
        have hvar : g.varOf e = g.varOf e' := NodeId.var.inj hfar
        rw [← hvar]
        exact hv

/-- Assignments of the branches behind a node that agree with one at the node make up a single
assignment. -/
theorem exists_glue (ht : g.IsTree) (b : Nat → Nat) (c : Nat → Nat → Nat)
    (hc : ∀ e ∈ g.incident id, c e (g.varOf e) = b (g.varOf e)) :
    ∃ b' : Nat → Nat, (∀ v, id = .var v → b' v = b v) ∧
      (∀ e ∈ g.incident id, b' (g.varOf e) = b (g.varOf e)) ∧
      ∀ e ∈ g.incident id, ∀ v, .var v ∈ g.branch (some id) (g.opposite id e) → b' v = c e v := by
  classical
  let Behind : Nat → Nat → Prop := fun v e =>
    e ∈ g.incident id ∧ .var v ∈ g.branch (some id) (g.opposite id e)
  have hbranch : ∀ {v e}, Behind v e → InBranch g.bipartite (some id) (g.opposite id e) (.var v) :=
    fun hb => (h.mem_branch (h.hasNode_opposite hb.1)).1 hb.2
  have hunique : ∀ {v e e'}, Behind v e → Behind v e' → e = e' := fun hb hb' =>
    h.eq_of_opposite_eq hb.1 hb'.1 (InBranch.eq_of_inBranch ht.acyclic (h.adj_opposite hb.1)
      (h.adj_opposite hb'.1) (hbranch hb) (hbranch hb'))
  have hnear : ∀ {v e}, Behind v e → id ≠ .var v := fun hb heq =>
    (hbranch hb).ne (h.adj_opposite hb.1).ne' heq.symm
  let b' : Nat → Nat := fun v => if hv : ∃ e, Behind v e then c hv.choose v else b v
  have hin : ∀ {v e}, Behind v e → b' v = c e v := by
    intro v e hb
    have hv : ∃ e, Behind v e := ⟨e, hb⟩
    simp only [b', dif_pos hv, hunique hv.choose_spec hb]
  have hout : ∀ {v}, (¬ ∃ e, Behind v e) → b' v = b v := fun hv => dif_neg hv
  refine ⟨b', fun v hid => hout fun ⟨e, hb⟩ => hnear hb hid, fun e he => ?_,
    fun e he v hv => hin ⟨he, hv⟩⟩
  by_cases hv : ∃ e', Behind (g.varOf e) e'
  · obtain ⟨e', hb⟩ := hv
    -- The variable of the edge is behind some edge only if it is the neighbor there.
    have hee : e' = e := by
      cases id with
      | var v => exact absurd (congrArg NodeId.var (h.varOf_of_mem_incident he).symm) (hnear hb)
      | factor f =>
        apply h.eq_of_opposite_eq hb.1 he
        exact InBranch.eq_of_adj ht.acyclic (h.adj_opposite hb.1) (h.adj_opposite he) (hbranch hb)
    rw [hin hb, hee, hc e he]
  · exact hout hv

/-- A node of finite energy has its variables in range. -/
theorem lt_edgeSize_of_cost_ne_top (hx : g.Tabular) (he : e ∈ g.incident id)
    (hb : g.cost id b ≠ ⊤) : b (g.varOf e) < g.edgeSize e := by
  have hlt := h.lt_of_mem_incident he
  cases id with
  | var v =>
    rw [edgeSize_eq_sizeAt hlt, h.varOf_of_mem_incident he, ← h.length_priorOf]
    by_contra hle
    exact hb (Message.valueAt_of_le (Nat.not_lt.1 hle))
  | factor f =>
    have hf : f < g.factors.size := WellFormed.hasNode_of_mem_incident he
    have hfactor := Array.getElem?_eq_getElem hf
    obtain ⟨t, ht⟩ := hx _ (Array.getElem_mem hf)
    have hs := (h.valid_factor _ (Array.getElem_mem hf)).suits
    rw [ht, sizes_operands h hfactor] at hs
    simp only [cost, hfactor, Option.map_some, Option.getD_some, ht, Potential.energy] at hb
    have henergy : t.content.energyOf ((g.incident (.factor f)).map fun e => b (g.varOf e)) ≠
        Energy.top := fun heq => hb (by rw [heq]; rfl)
    obtain ⟨r, hr, hindices⟩ := Table.exists_of_energyOf_ne_top henergy
    obtain ⟨p, hp⟩ := List.mem_iff_getElem?.1 he
    have hfits := hs.1.sound.fits r hr
    rw [hs.2] at hfits
    exact hfits.lt p _ _ (by rw [hindices, List.getElem?_map, hp]; rfl)
      (by rw [List.getElem?_map, hp]; rfl)

theorem branchCost_opposite (he : e ∈ g.incident id) : g.branchCost (g.opposite id e) e =
    fun b => ∑ x ∈ g.branch (some id) (g.opposite id e), g.cost x b := by
  funext b
  rw [branchCost, h.opposite_opposite he]

theorem branchCost_eq (ht : g.IsTree) (he : e ∈ g.incident id) (b : Nat → Nat) :
    g.branchCost id e b = g.cost id b +
      ∑ e' ∈ (g.incident id).toFinset.erase e, g.branchCost (g.opposite id e') e' b := by
  rw [branchCost, h.sum_branch_opposite ht _ he]
  congr 1
  refine Finset.sum_congr rfl fun e' he' => ?_
  rw [branchCost_opposite h (List.mem_toFinset.1 (Finset.mem_of_mem_erase he'))]

omit h in
theorem sum_inflow_add (g : Graph (Extended K)) (store : EdgeStore (Extended K)) (id : NodeId)
    (b : Nat → Nat) (S : Finset Nat) (k : Nat → K) :
    g.cost id b + ∑ e ∈ S, g.inflow store id b e + (∑ e ∈ S, k e : K) =
      g.cost id b + ∑ e ∈ S, (g.inflow store id b e + k e) := by
  rw [add_assoc, Finset.sum_add_distrib, WithTop.coe_sum]

/-- What a node of finite energy hears about its own value is the least energy of the branch. -/
theorem Tells.isMinOver {store : EdgeStore (Extended K)} {c : K} (hx : g.Tabular)
    (he : e ∈ g.incident id) (hb : g.cost id b ≠ ⊤) (hc : g.Tells store (g.opposite id e) e c) :
    IsMinOver (fun b' : Nat → Nat => b' (g.varOf e) = b (g.varOf e))
      (g.branchCost (g.opposite id e) e) (g.inflow store id b e + c) := by
  have hmin := hc _ (lt_edgeSize_of_cost_ne_top h hx he hb)
  rw [← store.heard_eq_said] at hmin
  exact hmin

variable [IsStrictOrderedRing K] (ht : g.IsTree) (hx : g.Tabular)
  {store : EdgeStore (Extended K)} {S : Finset Nat} (hS : ∀ e ∈ S, e ∈ g.incident id)

include ht hx hS

omit [IsStrictOrderedRing K] in
/-- Each branch has an assignment of least energy. They are glued together at the node. -/
theorem exists_best {k : Nat → K} (hk : ∀ e ∈ S, g.Tells store (g.opposite id e) e (k e))
    (hne : g.cost id b + ∑ e ∈ S, g.inflow store id b e ≠ ⊤) :
    ∃ b' : Nat → Nat, (∀ v, id = .var v → b' v = b v) ∧
      (∀ e ∈ g.incident id, b' (g.varOf e) = b (g.varOf e)) ∧
      ∀ e ∈ S, g.branchCost (g.opposite id e) e b' = g.inflow store id b e + k e := by
  obtain ⟨hb, hin⟩ := WithTop.add_ne_top.1 hne
  have hattained : ∀ e, ∃ c : Nat → Nat, c (g.varOf e) = b (g.varOf e) ∧
      (e ∈ S → g.branchCost (g.opposite id e) e c = g.inflow store id b e + k e) := by
    intro e
    by_cases he : e ∈ S
    · have hfinite : g.inflow store id b e + k e ≠ ⊤ :=
        WithTop.add_ne_top.2 ⟨WithTop.sum_ne_top.1 hin e he, WithTop.coe_ne_top⟩
      obtain ⟨c, hc, hcost⟩ := ((hk e he).isMinOver h hx (hS e he) hb).attained hfinite
      exact ⟨c, hc, fun _ => hcost⟩
    · exact ⟨b, rfl, fun h => absurd h he⟩
  choose c hc hcost using hattained
  obtain ⟨b', hown, hedge, hbranch⟩ := exists_glue h ht b c fun e _ => hc e
  refine ⟨b', hown, hedge, fun e he => ?_⟩
  have hmem := hS e he
  rw [← hcost e he]
  apply branchCost_congr h (h.mem_incident_opposite hmem)
  · rw [h.opposite_opposite hmem]
    exact hbranch e hmem
  · rw [hedge e hmem, hc e]

/-- Behind a node the messages can be replaced by the branches that they come from: up to a
constant the least energy is the same, whichever values at the node are fixed. -/
theorem exists_shift (hconv : ∀ e ∈ S, g.Conveys store (g.opposite id e) e) :
    ∃ k : K, ∀ (p : (Nat → Nat) → Prop) (m : WithTop K),
      (∀ b b' : Nat → Nat, (∀ v, id = .var v → b' v = b v) →
        (∀ e ∈ g.incident id, b' (g.varOf e) = b (g.varOf e)) → p b → p b') →
      IsMinOver p (fun b => g.cost id b + ∑ e ∈ S, g.inflow store id b e) m →
      IsMinOver p (fun b => g.cost id b + ∑ e ∈ S, g.branchCost (g.opposite id e) e b)
        (m + k) := by
  choose! k hk using hconv
  have hsum := fun b => sum_inflow_add g store id b S k
  refine ⟨∑ e ∈ S, k e, fun p m hp hmin => hmin.shift _ ?_ ?_⟩
  · intro b _
    by_cases hb : g.cost id b = ⊤
    · simp only [hb, WithTop.top_add, le_refl]
    · rw [hsum]
      have hle : ∑ e ∈ S, (g.inflow store id b e + k e) ≤
          ∑ e ∈ S, g.branchCost (g.opposite id e) e b :=
        Finset.sum_le_sum fun e he => ((hk e he).isMinOver h hx (hS e he) hb).le b rfl
      exact add_le_add_right hle _
  · intro b hpb hne
    obtain ⟨b', hown, hedge, hbest⟩ := exists_best h ht hx hS hk hne
    refine ⟨b', hp b b' hown hedge hpb, ?_⟩
    rw [hsum, cost_congr hown hedge, Finset.sum_congr rfl hbest]

omit hS in
/-- A node that hears exact messages on its other edges says an exact one. -/
theorem conveys_of_says (he : e ∈ g.incident id)
    (hconv : ∀ e' ∈ g.incident id, e' ≠ e → g.Conveys store (g.opposite id e') e')
    {raw : Message (Extended K)} (hraw : g.Says store id e raw) {store' : EdgeStore (Extended K)}
    (hnew : store'.said id e = (Message.normalize raw).1) : g.Conveys store' id e := by
  have hmem : ∀ e' ∈ (g.incident id).toFinset.erase e, e' ∈ g.incident id ∧ e' ≠ e := by
    intro e' he'
    obtain ⟨hne, he'⟩ := Finset.mem_erase.1 he'
    exact ⟨List.mem_toFinset.1 he', hne⟩
  obtain ⟨k, hk⟩ := exists_shift h ht hx (fun e' he' => (hmem e' he').1)
    fun e' he' => hconv e' (hmem e' he').1 (hmem e' he').2
  obtain ⟨c, hc⟩ := hraw.proper.exists_valueAt_normalize
  refine ⟨k - c, fun x hlt => ?_⟩
  have hshift : (Message.normalize raw).1.valueAt x + ((k - c : K) : WithTop K) =
      raw.valueAt x + k := by
    rw [hc x, add_assoc, ← WithTop.coe_add, add_sub_cancel]
  rw [hnew, hshift, funext (branchCost_eq h ht he)]
  refine hk _ _ ?_ (hraw.isMinOver x hlt)
  intro b b' _ hedge hb
  rw [hedge e he, hb]

end Graph

end MinSum
