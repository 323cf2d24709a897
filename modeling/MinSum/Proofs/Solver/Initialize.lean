import MinSum.Proofs.Solver.Frame

/-! Initialization cannot fail, and leaves every node initialized. A change of the damping
initializes no node less. -/
namespace MinSum.Solver

variable {E : Type} [Energy E] {s : Solver E}

omit [Energy E] in
theorem warnings_setNode (s : Solver E) (id : NodeId) (n : Node E) :
    (s.setNode id n).warnings = s.warnings := by
  cases n <;> cases id <;> rfl

omit [Energy E] in
/-- Replacing a node by an initialized one takes no initialization away. -/
theorem Initialized.setNode {id id' : NodeId} {old n : Node E} (h : s.Initialized id')
    (ho : s.nodeAt id = .ok old) (hn : n.id = id) (hi : n.binding.initialized = true) :
    (s.setNode id n).Initialized id' := by
  by_cases heq : id' = id
  · subst heq
    exact ⟨n, by rw [nodeAt_setNode ho hn, if_pos rfl], hi⟩
  · obtain ⟨m, hm, hmi⟩ := h
    exact ⟨m, by rw [nodeAt_setNode ho hn, if_neg heq, hm], hmi⟩

namespace WellFormed

variable (h : s.WellFormed)

include h

theorem initializeNode_eq {id : NodeId} (hid : s.graph.HasNode id) :
    ∃ n, s.initializeNode id = (.ok (), s.setNode id n) ∧ (s.setNode id n).Initialized id ∧
      ∀ id', s.Initialized id' → (s.setNode id n).Initialized id' := by
  obtain ⟨old, ho⟩ := h.nodeAt_of_hasNode id hid
  obtain ⟨n, he, ht, hb⟩ :=
    Node.exists_bind_eq h.graph h.store s.settings (h.tracks id old ho).toPlaced
  have hi : n.binding.initialized = true := by
    rw [hb]
    rfl
  refine ⟨n, ?_, ⟨n, ?_, hi⟩, fun id' hid' => hid'.setNode ho ht.id_eq hi⟩
  · simp only [Solver.initializeNode, ho, he]
  · rw [nodeAt_setNode ho ht.id_eq, if_pos rfl]

/-- Nodes are initialized one after another, and none of those before is lost. -/
theorem initializeNodes_eq {ids : List NodeId} (hids : ∀ id ∈ ids, s.graph.HasNode id) :
    (s.initializeNodes ids).1 = .ok () ∧
      (∀ id ∈ ids, (s.initializeNodes ids).2.Initialized id) ∧
      ∀ id, s.Initialized id → (s.initializeNodes ids).2.Initialized id := by
  induction ids generalizing s with
  | nil => exact ⟨rfl, by simp, fun _ hid => hid⟩
  | cons id ids ih =>
    obtain ⟨n, he, hnew, hold⟩ := h.initializeNode_eq (hids id (by simp))
    have hw := h.initializeNode id
    rw [he] at hw
    obtain ⟨hg, -⟩ := setNode_frame s id n
    obtain ⟨hok, hall, hkeep⟩ := ih hw fun id' hid' => by
      rw [hg]
      exact hids id' (by simp [hid'])
    rw [Solver.initializeNodes, Attempt.andThen_eq (congrArg Prod.fst he), he]
    refine ⟨hok, fun id' hid' => ?_, fun id' hid' => hkeep id' (hold id' hid')⟩
    rcases List.mem_cons.1 hid' with rfl | hid'
    · exact hkeep _ hnew
    · exact hall id' hid'

theorem initializeAll_eq : s.initializeAll.1 = .ok () ∧ s.initializeAll.2.graph = s.graph ∧
    s.initializeAll.2.store = s.store.reset ∧ s.initializeAll.2.warnings = #[] ∧
    ∀ id, s.graph.HasNode id → s.initializeAll.2.Initialized id := by
  let s' : Solver E := { s with store := s.store.reset }
  have hsame : s.SameNodes s' := ⟨rfl, rfl, rfl, rfl⟩
  have hids : ∀ id, s.graph.HasNode id ↔ id ∈ s'.variableIds ++ s'.factorIds := by
    intro id
    rw [← h.mem_ids, List.mem_append, List.mem_append, or_comm]
    rfl
  obtain ⟨hok, hall, -⟩ := (hsame.wellFormed h h.store.reset).initializeNodes_eq
    fun id hid => (hids id).2 hid
  obtain ⟨hg, hst⟩ := s'.frame_initializeNodes (s'.variableIds ++ s'.factorIds)
  have he : s.initializeAll = (.ok (),
      { (s'.initializeNodes (s'.variableIds ++ s'.factorIds)).2 with warnings := #[] }) :=
    Attempt.andThen_eq hok
  rw [he]
  exact ⟨rfl, hg, hst, rfl, fun id hid => hall id ((hids id).1 hid)⟩

theorem modifyChoice_keeps (id : NodeId) (f : DampingChoice E → DampingChoice E) :
    (s.modifyChoice id f).2.warnings = s.warnings ∧
      ∀ id', s.Initialized id' → (s.modifyChoice id f).2.Initialized id' := by
  unfold Solver.modifyChoice
  cases hn : s.nodeAt id with
  | error e => exact ⟨rfl, fun _ hid => hid⟩
  | ok n =>
    cases hc : n.choose (f n.binding.choice) with
    | error e =>
      simp only [hc]
      exact ⟨trivial, fun _ hid => hid⟩
    | ok n' =>
      obtain ⟨hp, hi⟩ := (h.tracks id n hn).toPlaced.choose hc
      simp only [hc]
      split
      · rename_i hi'
        obtain ⟨hg, hset, hst, -, -⟩ := setNode_frame s id n'
        have hat : (s.setNode id n').nodeAt id = .ok n' := by
          rw [nodeAt_setNode hn hp.id_eq, if_pos rfl]
        obtain ⟨n'', he, ht, hb⟩ := Node.exists_bind_eq h.graph h.store s.settings hp
        simp only [Solver.initializeNode, hat, hg, hset, hst, he]
        rw [setNode_setNode s hp.id_eq ht.id_eq]
        exact ⟨warnings_setNode _ _ _, fun id' hid' => hid'.setNode hn ht.id_eq (by rw [hb]; rfl)⟩
      · rename_i hi'
        refine ⟨warnings_setNode _ _ _, fun id' hid' => ?_⟩
        obtain ⟨m, hm, hmi⟩ := hid'
        -- The node that was changed was not initialized before.
        have hne : id' ≠ id := by
          rintro rfl
          obtain rfl := Except.ok.inj (hn.symm.trans hm)
          exact hi' (hi.trans hmi)
        exact ⟨m, by rw [nodeAt_setNode hn hp.id_eq, if_neg hne, hm], hmi⟩

end WellFormed

end MinSum.Solver
