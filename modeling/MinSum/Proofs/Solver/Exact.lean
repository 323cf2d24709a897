import MinSum.Proofs.Node.Conveys
import MinSum.Proofs.Solver.Admissible
import MinSum.Proofs.Solver.Readout

/-! Sweeps over a tree of tables without damping. Whatever the messages were, after each half sweep
those of one more rank are exact, and with the last of them the beliefs. -/
namespace MinSum

/-- A node changes only what it says itself. -/
theorem Node.Tracks.said_deliver_of_ne {E : Type} [Energy E] {g : Graph E} {settings : Settings E}
    {id id' : NodeId} {n : Node E} {store : EdgeStore E} (h : n.Tracks g settings id)
    (hi : n.binding.initialized = true) (hg : g.WellFormed) (hs : store.Fits g) {e : Nat}
    (he : e ∈ g.incident id') (hne : id' ≠ id) :
    (n.deliver store).said id' e = store.said id' e := by
  have hkeep := h.deliver_forall hi hg hs
    (Q := fun e side m => side = id'.side → e ∈ g.incident id' → m = store.said id' e)
    (fun e side hside _ => by rw [hside]; rfl) ?_
  · exact hkeep e id'.side rfl he
  · intro p e m hp _ hside he
    rw [h.edges_eq hi] at hp
    exact absurd (hg.eq_of_mem_incident (List.mem_of_getElem? hp) he hside).symm hne

variable {K : Type} [Field K] [LinearOrder K]

/-- The messages of rank below `r` are exact, and so are those of rank `r` of the nodes in `D`. -/
structure Graph.Knows (g : Graph (Extended K)) (r : Nat) (D : NodeId → Prop)
    (store : EdgeStore (Extended K)) : Prop where
  proper : store.Proper
  conveys : ∀ id e, e ∈ g.incident id → g.rank id e < r ∨ (g.rank id e = r ∧ D id) →
    g.Conveys store id e

namespace Graph.Knows

variable {g : Graph (Extended K)} {r : Nat} {D D' : NodeId → Prop} {store : EdgeStore (Extended K)}
  (h : g.Knows r D store)

include h

theorem mono (hD : ∀ id, D' id → D id) : g.Knows r D' store where
  proper := h.proper
  conveys id e he hrank := h.conveys id e he (hrank.imp_right (And.imp_right (hD id)))

/-- Messages of one rank are sent by nodes of one kind. -/
theorem next (hg : g.WellFormed) (ht : g.IsTree)
    (hD : ∀ id, g.HasNode id → id.weight = r % 2 → D id) :
    g.Knows (r + 1) (fun _ => False) store where
  proper := h.proper
  conveys id e he hrank := by
    apply h.conveys id e he
    have hmod := hg.rank_mod ht he
    rcases Nat.lt_or_ge (g.rank id e) r with hlt | hle
    · exact .inl hlt
    · have heq : g.rank id e = r := by
        rcases hrank with hlt | ⟨-, hfalse⟩
        · omega
        · exact hfalse.elim
      exact .inr ⟨heq, hD id (WellFormed.hasNode_of_mem_incident he) (heq ▸ hmod.symm)⟩

end Graph.Knows

namespace Solver

structure OnTree (s : Solver (Extended K)) : Prop where
  tree : s.graph.IsTree
  tabular : s.graph.Tabular
  initialized : ∀ id, s.graph.HasNode id → s.Initialized id
  undamped : ∀ id port d, s.damping id port = .ok d → d = 0

variable {s s' : Solver (Extended K)} {r : Nat} {D : NodeId → Prop}

theorem OnTree.congr (ht : s.OnTree) (hs : s.SameNodes s') : s'.OnTree where
  tree := hs.graph ▸ ht.tree
  tabular := hs.graph ▸ ht.tabular
  initialized id hid := (hs.initialized_iff id).2 (ht.initialized id (hs.graph ▸ hid))
  undamped id port d hd := by
    rw [damping, hs.nodeAt] at hd
    exact ht.undamped id port d hd

theorem OnTree.dampingAt_eq (ht : s.OnTree) {id : NodeId} {n : Node (Extended K)}
    (hn : s.nodeAt id = .ok n) (hi : n.binding.initialized = true) {port : Nat}
    (hp : port < n.binding.edges.length) : Update.dampingAt n.binding.damping port = 0 :=
  ht.undamped id port _ (damping_eq hn hi hp)

variable [IsStrictOrderedRing K] (h : s.WellFormed) (ht : s.OnTree)

include h ht

/-- An updated node passes on what it knows. -/
theorem WellFormed.knows_deliver {id : NodeId} {n : Node (Extended K)} (hn : s.nodeAt id = .ok n)
    (hi : n.binding.initialized = true) (hk : s.graph.Knows r D s.store) :
    s.graph.Knows r (fun x => D x ∨ x = id) (n.deliver s.store) := by
  have htracks := h.tracks id n hn
  have hx := ht.tabular.exact
  have hproper := (h.keeps_finiteOn hx.admissible (F := fun _ _ => False)
    fun _ _ _ _ _ _ _ _ _ _ _ _ _ hx => hx.elim).deliver id n hn hi s.store h.store
      ⟨hk.proper, fun _ _ hx => hx.elim⟩
  refine ⟨hproper.proper, fun id' e he hrank => ?_⟩
  by_cases hid : id' = id
  · subst hid
    have hle : s.graph.rank id' e ≤ r := by omega
    have hpe := he
    rw [← htracks.edges_eq hi] at hpe
    obtain ⟨p, hp⟩ := List.mem_iff_getElem?.1 hpe
    obtain ⟨raw, hraw, -, hsend⟩ := htracks.sends_raw hi h.graph h.store hk.proper hx.admissible hp
    have hout := htracks.says_of_sends hi h.graph hx hp hsend
    apply Graph.conveys_of_says h.graph ht.tree ht.tabular he ?_ hout
    · rw [htracks.said_deliver hi h.graph h.store hp hraw]
      have hlt := (List.getElem?_eq_some_iff.1 hp).1
      exact Update.settled_of_zero (ht.dampingAt_eq hn hi hlt) _ _
    · intro e' he' hne
      have hlt := h.graph.rank_opposite_lt ht.tree he he' hne
      exact hk.conveys _ e' (h.graph.mem_incident_opposite he') (.inl (by omega))
  · have hold : s.graph.Conveys s.store id' e := by
      apply hk.conveys id' e he
      rcases hrank with hlt | ⟨heq, hD | hD⟩
      · exact .inl hlt
      · exact .inr ⟨heq, hD⟩
      · exact absurd hD hid
    exact hold.congr (htracks.said_deliver_of_ne hi h.graph h.store he hid)

theorem WellFormed.knows_update {id : NodeId} (hid : s.graph.HasNode id)
    (hk : s.graph.Knows r D s.store) : (∃ ports, (s.update id).1 = .ok ports) ∧
      s.graph.Knows r (fun x => D x ∨ x = id) (s.update id).2.store := by
  obtain ⟨n, hn, hi⟩ := ht.initialized id hid
  obtain ⟨pool, hu⟩ := h.update_eq hn hi
  rw [hu]
  exact ⟨⟨_, rfl⟩, h.knows_deliver ht hn hi hk⟩

theorem WellFormed.knows_updateNodes {ids : List NodeId} (hids : ∀ id ∈ ids, s.graph.HasNode id)
    (hk : s.graph.Knows r D s.store) :
    s.graph.Knows r (fun x => D x ∨ x ∈ ids) (s.updateNodes ids).2.store := by
  induction ids generalizing s D with
  | nil => exact hk.mono fun x hx => hx.resolve_right List.not_mem_nil
  | cons id ids ih =>
    obtain ⟨⟨ports, hok⟩, hnext⟩ := h.knows_update ht (hids id List.mem_cons_self) hk
    have hc := h.holds.continues_update s.keeps_trivial id
    rw [← hc.graph] at hnext
    have hrest := ih hc.holds.wellFormed (ht.congr hc.toSameNodes)
      (fun id' hid => hc.graph ▸ hids id' (List.mem_cons_of_mem _ hid)) hnext
    rw [hc.graph] at hrest
    rw [updateNodes, Attempt.andThen_eq hok]
    refine hrest.mono fun x hx => ?_
    rw [List.mem_cons] at hx
    tauto

/-- A sweep over the factors and then the variables makes messages of two more ranks exact. -/
theorem WellFormed.knows_sweep {k : Nat} (hk : s.graph.Knows (2 * k) (fun _ => False) s.store) :
    s.graph.Knows (2 * k + 2) (fun _ => False)
      (s.updateNodes (s.factorIds ++ s.variableIds)).2.store := by
  have hids : ∀ id, id ∈ s.factorIds ∨ id ∈ s.variableIds ↔ s.graph.HasNode id := fun id => by
    rw [← h.mem_ids, List.mem_append]
  have hfactors := h.knows_updateNodes ht (fun id hid => (hids id).1 (.inl hid)) hk
  have hc := h.holds.continues_updateNodes s.keeps_trivial s.factorIds
  have hnext := hfactors.next h.graph ht.tree ?_
  · obtain ⟨ports, hok⟩ := h.updateNodes_isOk_iff.2 fun id hid =>
      ht.initialized id ((hids id).1 (.inl hid))
    rw [updateNodes_append, Attempt.andThen_eq hok]
    rw [← hc.graph] at hnext
    have hvars := hc.holds.wellFormed.knows_updateNodes (ht.congr hc.toSameNodes)
      (fun id hid => hc.graph ▸ (hids id).1 (.inr hid)) hnext
    rw [hc.graph] at hvars
    refine hvars.next h.graph ht.tree fun id hid hw => .inr ?_
    cases id with
    | var v => exact ((hids _).2 hid).resolve_left (by simp [factorIds])
    | factor f =>
      simp only [NodeId.weight] at hw
      omega
  · intro id hid hw
    refine .inr ?_
    cases id with
    | var v =>
      simp only [NodeId.weight] at hw
      omega
    | factor f => exact ((hids _).2 hid).resolve_right (by simp [variableIds])

theorem WellFormed.knows_iterate {k : Nat} (hk : s.graph.Knows (2 * k) (fun _ => False) s.store)
    (n : Nat) : s.graph.Knows (2 * (k + n)) (fun _ => False) (s.iterate n).2.store := by
  induction n generalizing s k with
  | zero => exact hk
  | succ n ih =>
    have hc := h.holds.continues_updateNodes s.keeps_trivial (s.factorIds ++ s.variableIds)
    obtain ⟨x, hok⟩ := h.updateNodes_isOk_iff.2 fun id hid =>
      ht.initialized id (h.mem_ids.1 hid)
    have hsweep := h.knows_sweep ht hk
    rw [← hc.graph] at hsweep
    have hrest := ih hc.holds.wellFormed (ht.congr hc.toSameNodes) (k := k + 1) hsweep
    rw [hc.graph] at hrest
    have hrank : 2 * (k + (n + 1)) = 2 * (k + 1 + n) := by omega
    rw [iterate, Attempt.andThen_eq hok, hrank]
    exact hrest

end Solver

end MinSum
