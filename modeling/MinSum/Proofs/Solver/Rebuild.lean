import MinSum.Proofs.Solver.Attainable
import MinSum.Proofs.Solver.Initialize

/-! What is needed to build a solver a second time: its graph, which every run changes as the graph
itself would have been changed, and the damping that its nodes choose. -/
namespace MinSum

namespace Graph

variable {E : Type}

def after [LogEnergy E] (g : Graph E) : Action E → Graph E
  | .setInput v input => g.orSame (g.setInput v input)
  | .setInputProbabilities v p => g.orSame (g.setInputProbabilities v p)
  | .fixValue v fixed => g.orSame (g.fixValue v fixed)
  | .addVariable name domain => g.orSame ((g.addVariable name domain).map Prod.snd)
  | .addTable table _ operands => g.orSame ((g.addTable table operands).map Prod.snd)
  | .addCustom custom operands => g.orSame ((g.addCustom custom operands).map Prod.snd)
  | _ => g

theorem Reachable.after [LogEnergy E] {g : Graph E} (h : g.Reachable) (a : Action E) :
    (g.after a).Reachable := by
  cases a with
  | setInput v input => exact orSame_keeps h fun _ hg => .setInput v input h hg
  | setInputProbabilities v p => exact orSame_keeps h fun _ hg => .setInputProbabilities v p h hg
  | fixValue v fixed => exact orSame_keeps h fun _ hg => .fixValue v fixed h hg
  | addVariable name domain =>
    exact orSame_grown_keeps h fun _ _ hg => .addVariable name domain h hg
  | addTable table built operands =>
    exact orSame_grown_keeps h fun _ _ hg => .addTable table built operands h hg
  | addCustom custom operands =>
    exact orSame_grown_keeps h fun _ _ hg => .addCustom custom operands h hg
  | _ => exact h

theorem Reachable.foldl_after [LogEnergy E] {g : Graph E} (h : g.Reachable)
    (actions : List (Action E)) : (actions.foldl Graph.after g).Reachable := by
  induction actions generalizing g with
  | nil => exact h
  | cons a actions ih => exact ih (h.after a)

end Graph

namespace Solver

section

variable {E : Type} [Energy E]

theorem graph_changeInput (s : Solver E) (v : Nat) (changed : Except (GraphError E) (Graph E)) :
    (s.changeInput v changed).2.graph = s.graph.orSame changed := by
  cases changed with
  | error e => rfl
  | ok g =>
    simp only [changeInput, reloadInput]
    repeat' split
    all_goals rfl

theorem graph_attach (s : Solver E) (operands : List Nat) (f : Nat) (g : Graph E) :
    (s.attach operands f g).2.graph = g :=
  (attach_keeps (P := fun _ => True) (fun _ _ _ => trivial) s operands f g trivial).1

theorem graph_addTable (s : Solver E) (table : Table E) (operands : List Nat) :
    (s.addTable table operands).2.graph =
      s.graph.orSame ((s.graph.addTable table operands).map Prod.snd) := by
  unfold addTable
  cases s.graph.addTable table operands with
  | error e => rfl
  | ok x => exact s.graph_attach operands x.1 x.2

theorem graph_addCustom (s : Solver E) (custom : CustomFactor E) (operands : List Nat) :
    (s.addCustom custom operands).2.graph =
      s.graph.orSame ((s.graph.addCustom custom operands).map Prod.snd) := by
  unfold addCustom
  cases s.graph.addCustom custom operands with
  | error e => rfl
  | ok x => exact s.graph_attach operands x.1 x.2

omit [Energy E] in
theorem graph_modifyEdge (s : Solver E) (edge : Nat)
    (f : EdgeMessages E → Except (SolverError E) (EdgeMessages E)) :
    (s.modifyEdge edge f).2.graph = s.graph := by
  unfold modifyEdge
  repeat' split
  all_goals rfl

end

section

variable {E : Type} [LogEnergy E]

/-- A solver changes its graph as the graph itself would be changed, and in no other way. -/
theorem graph_perform (s : Solver E) (a : Action E) : (s.perform a).graph = s.graph.after a := by
  cases a with
  | initializeAll =>
    exact Attempt.andThen_keeps (p := fun t : Solver E => t.graph = s.graph)
      (frame_initializeNodes _ _).1 fun _ _ ht => ht
  | initializeNode id => exact (s.frame_initializeNode id).1
  | update id => exact (s.refilled_runUpdate id _).graph
  | updatePort id port => exact (s.refilled_runUpdate id _).graph
  | iterate n => exact (s.refilled_iterate n).graph
  | iterateParallel n => exact (s.refilled_iterateParallel n).graph
  | iterateInOrder orders => exact (s.refilled_iterateInOrder orders).graph
  | setInput v input => exact s.graph_changeInput v _
  | setInputProbabilities v p => exact s.graph_changeInput v _
  | fixValue v fixed => exact s.graph_changeInput v _
  | setDamping id d => exact (s.frame_setDamping id d).1
  | setPortDamping id ds => exact (s.frame_modifyChoice id _).1
  | addVariable name domain =>
    simp only [Solver.perform, Solver.addVariable, Graph.after]
    cases s.graph.addVariable name domain <;> rfl
  | addTable table built operands => exact s.graph_addTable table operands
  | addCustom custom operands => exact s.graph_addCustom custom operands
  | setToFactor edge m => exact s.graph_modifyEdge edge _
  | setToVariable edge m => exact s.graph_modifyEdge edge _
  | resetEdge edge => exact s.graph_modifyEdge edge _
  | takeWarnings => rfl

theorem graph_foldl_perform (s : Solver E) (actions : List (Action E)) :
    (actions.foldl Solver.perform s).graph = actions.foldl Graph.after s.graph := by
  induction actions generalizing s with
  | nil => rfl
  | cons a actions ih => rw [List.foldl_cons, List.foldl_cons, ih, s.graph_perform]

theorem Reachable.graph_reachable [Energy.LawfulZero E] {s : Solver E} (h : s.Reachable) : s.graph.Reachable := by
  induction h with
  | ofGraph hg hs => exact (ofGraph_eq_ok hg.wellFormed hs).1.symm ▸ hg
  | perform _ a ih =>
    rw [graph_perform]
    exact ih.after a

end

section

variable {E : Type} [Energy E] {s : Solver E}

/-- The damping that a node chooses; there is no choice without a node. -/
def choiceOf (s : Solver E) (id : NodeId) : DampingChoice E :=
  match s.nodeAt id with
  | .ok n => n.binding.choice
  | .error _ => {}

omit [Energy E] in
theorem choiceOf_eq {id : NodeId} {n : Node E} (hn : s.nodeAt id = .ok n) :
    s.choiceOf id = n.binding.choice := by
  simp only [choiceOf, hn]

omit [Energy E] in
theorem choiceOf_setNode {id : NodeId} {old n : Node E} (ho : s.nodeAt id = .ok old)
    (hn : n.id = id) (id' : NodeId) : (s.setNode id n).choiceOf id' =
      if id' = id then n.binding.choice else s.choiceOf id' := by
  simp only [choiceOf, nodeAt_setNode ho hn]
  by_cases h : id' = id
  · simp only [if_pos h]
  · simp only [if_neg h]

/-- Two solvers of one graph under the same settings, whose nodes choose the same damping. -/
structure SameChoices (s t : Solver E) : Prop where
  graph : t.graph = s.graph
  settings : t.settings = s.settings
  choiceOf : ∀ id, t.choiceOf id = s.choiceOf id

omit [Energy E] in
theorem SameChoices.trans {s t u : Solver E} (h : s.SameChoices t) (h' : t.SameChoices u) :
    s.SameChoices u :=
  ⟨h'.graph.trans h.graph, h'.settings.trans h.settings,
    fun id => (h'.choiceOf id).trans (h.choiceOf id)⟩

namespace WellFormed

variable (h : s.WellFormed)

include h

theorem sameChoices_initializeNode (id : NodeId) : s.SameChoices (s.initializeNode id).2 := by
  unfold Solver.initializeNode
  split
  · exact ⟨rfl, rfl, fun _ => rfl⟩
  rename_i n hn
  obtain ⟨n', he, ht, hb⟩ :=
    Node.exists_bind_eq h.graph h.store s.settings (h.tracks id n hn).toPlaced
  rw [he]
  obtain ⟨hg, hset, -⟩ := setNode_frame s id n'
  refine ⟨hg, hset, fun id' => ?_⟩
  rw [choiceOf_setNode hn ht.id_eq]
  split
  · rename_i heq
    rw [heq, choiceOf_eq hn, hb]
    rfl
  · rfl

theorem sameChoices_initializeNodes (ids : List NodeId) :
    s.SameChoices (s.initializeNodes ids).2 := by
  induction ids generalizing s with
  | nil => exact ⟨rfl, rfl, fun _ => rfl⟩
  | cons id ids ih =>
    have hid : s.SameChoices (s.initializeNode id).2 ∧ (s.initializeNode id).2.WellFormed :=
      ⟨h.sameChoices_initializeNode id, h.initializeNode id⟩
    exact (Attempt.andThen_keeps (p := fun t => s.SameChoices t ∧ t.WellFormed) hid
      fun _ t ht => ⟨ht.1.trans (ih ht.2), ht.2.initializeNodes ids⟩).1

theorem sameChoices_initializeAll : s.SameChoices s.initializeAll.2 := by
  have hsame : s.SameNodes { s with store := s.store.reset } := ⟨rfl, rfl, rfl, rfl⟩
  have hr := (hsame.wellFormed h h.store.reset).sameChoices_initializeNodes
    (s.variableIds ++ s.factorIds)
  refine Attempt.andThen_keeps (p := s.SameChoices)
    ⟨hr.graph, hr.settings, fun id => hr.choiceOf id⟩ fun _ _ ht => ?_
  exact ⟨ht.graph, ht.settings, fun id => ht.choiceOf id⟩

/-- A valid choice is accepted. -/
theorem modifyChoice_eq {id : NodeId} {n : Node E} (hn : s.nodeAt id = .ok n)
    {f : DampingChoice E → DampingChoice E} (hc : (f n.binding.choice).check = .ok ()) :
    ∃ n', s.modifyChoice id f = (.ok (), s.setNode id n') ∧ n'.id = id ∧
      n'.binding.choice = f n.binding.choice := by
  let chosen := n.withBinding { n.binding with choice := f n.binding.choice }
  have hchoose : n.choose (f n.binding.choice) = .ok chosen := by
    simp only [Node.choose, Binding.choose, hc]
    rfl
  have hchoice : chosen.binding.choice = f n.binding.choice := by cases n <;> rfl
  obtain ⟨hp, -⟩ := (h.tracks id n hn).toPlaced.choose hchoose
  simp only [Solver.modifyChoice, hn, hchoose]
  split
  · obtain ⟨hg, hset, hst, -, -⟩ := setNode_frame s id chosen
    have hat : (s.setNode id chosen).nodeAt id = .ok chosen := by
      rw [nodeAt_setNode hn hp.id_eq, if_pos rfl]
    obtain ⟨n'', he, ht, hb⟩ := Node.exists_bind_eq h.graph h.store s.settings hp
    simp only [Solver.initializeNode, hat, hg, hset, hst, he]
    rw [setNode_setNode s hp.id_eq ht.id_eq]
    exact ⟨n'', rfl, ht.id_eq, by rw [hb]; exact hchoice⟩
  · exact ⟨chosen, rfl, hp.id_eq, hchoice⟩

end WellFormed

end

end Solver

theorem DampingChoice.checkAll_append {E : Type} [Energy E] {as bs : List E} :
    checkAll (as ++ bs) = .ok () ↔ checkAll as = .ok () ∧ checkAll bs = .ok () := by
  induction as with
  | nil => simp [checkAll]
  | cons d as ih =>
    simp only [List.cons_append, checkAll]
    cases checkDamping d with
    | error e => simp
    | ok _ => exact ih

def DampingChoice.actions {E : Type} [Energy E] (c : DampingChoice E) (id : NodeId) :
    List (Action E) :=
  c.damping.toList.map (.setDamping id) ++ c.portDamping.toList.map (.setPortDamping id)

namespace Solver

def choices {E : Type} [Energy E] (s : Solver E) : List (Action E) :=
  (s.variableIds ++ s.factorIds).flatMap fun id => (s.choiceOf id).actions id

structure Rechosen {E : Type} [Energy E] (id : NodeId) (c : DampingChoice E) (s t : Solver E) :
    Prop where
  wellFormed : t.WellFormed
  graph : t.graph = s.graph
  settings : t.settings = s.settings
  choiceOf_self : t.choiceOf id = c
  choiceOf_ne : ∀ id', id' ≠ id → t.choiceOf id' = s.choiceOf id'

variable {E : Type} [LogEnergy E]

theorem Rechosen.trans {id : NodeId} {c c' : DampingChoice E} {s t u : Solver E}
    (h : Rechosen id c s t) (h' : Rechosen id c' t u) : Rechosen id c' s u where
  wellFormed := h'.wellFormed
  graph := h'.graph.trans h.graph
  settings := h'.settings.trans h.settings
  choiceOf_self := h'.choiceOf_self
  choiceOf_ne id' hne := (h'.choiceOf_ne id' hne).trans (h.choiceOf_ne id' hne)

namespace WellFormed

variable {s : Solver E} (h : s.WellFormed) {id : NodeId} (hid : s.graph.HasNode id)

include h hid

theorem rechosen_modifyChoice {f : DampingChoice E → DampingChoice E} {c : DampingChoice E}
    (hf : f (s.choiceOf id) = c) (hc : c.check = .ok ()) :
    Rechosen id c s (s.modifyChoice id f).2 := by
  have hw := h.modifyChoice id f
  obtain ⟨n, hn⟩ := h.nodeAt_of_hasNode id hid
  rw [choiceOf_eq hn] at hf
  obtain ⟨n', he, hn', hchoice⟩ := h.modifyChoice_eq hn (hf.symm ▸ hc)
  rw [he] at hw ⊢
  obtain ⟨hg, hset, -⟩ := setNode_frame s id n'
  refine ⟨hw, hg, hset, ?_, fun id' hne => ?_⟩
  · rw [choiceOf_setNode hn hn', if_pos rfl, hchoice, hf]
  · rw [choiceOf_setNode hn hn', if_neg hne]

theorem rechosen_setDamping {d : E} {ds : Option (List E)}
    (hds : (s.choiceOf id).portDamping = ds)
    (hc : (⟨some d, ds⟩ : DampingChoice E).check = .ok ()) :
    Rechosen id ⟨some d, ds⟩ s (s.perform (.setDamping id d)) := by
  have hone := (DampingChoice.checkAll_append.1 hc).1
  have hd : checkDamping d = .ok () := by
    simp only [Option.toList_some, DampingChoice.checkAll] at hone
    split at hone
    · contradiction
    · assumption
  simp only [Solver.perform, Solver.setDamping, hd]
  exact h.rechosen_modifyChoice hid (by rw [hds]) hc

theorem rechosen_setPortDamping {d : Option E} {ds : List E} (hd : (s.choiceOf id).damping = d)
    (hc : (⟨d, some ds⟩ : DampingChoice E).check = .ok ()) :
    Rechosen id ⟨d, some ds⟩ s (s.perform (.setPortDamping id ds)) :=
  h.rechosen_modifyChoice hid (by rw [hd]) hc

/-- A node without choice, or with this one already, accepts the actions. -/
theorem rechosen_actions {c : DampingChoice E} (hc : c.check = .ok ())
    (hold : s.choiceOf id = {} ∨ s.choiceOf id = c) :
    Rechosen id c s ((c.actions id).foldl Solver.perform s) := by
  rcases c with ⟨_ | d, _ | ds⟩
  · have hnone : s.choiceOf id = {} := hold.elim (fun he => he) fun he => he
    exact ⟨h, rfl, rfl, hnone, fun _ _ => rfl⟩
  · refine h.rechosen_setPortDamping hid ?_ hc
    rcases hold with he | he <;> rw [he]
  · refine h.rechosen_setDamping hid ?_ hc
    rcases hold with he | he <;> rw [he]
  · have hone : (⟨some d, (s.choiceOf id).portDamping⟩ : DampingChoice E).check = .ok () := by
      rcases hold with he | he <;> rw [he]
      · exact DampingChoice.checkAll_append.2 ⟨(DampingChoice.checkAll_append.1 hc).1, rfl⟩
      · exact hc
    have hfirst := h.rechosen_setDamping hid rfl hone
    exact hfirst.trans (hfirst.wellFormed.rechosen_setPortDamping (hfirst.graph.symm ▸ hid)
      (by rw [hfirst.choiceOf_self]) hc)

end WellFormed

/-- Choices made one node after another end with all of them made. -/
theorem WellFormed.sameChoices_foldl {s t : Solver E} (hs : s.WellFormed) (ht : t.WellFormed)
    (hg : t.graph = s.graph) (hset : t.settings = s.settings)
    (hold : ∀ id, t.choiceOf id = {} ∨ t.choiceOf id = s.choiceOf id) {ids : List NodeId}
    (hids : ∀ id ∈ ids, s.graph.HasNode id)
    (hrest : ∀ id, id ∉ ids → t.choiceOf id = s.choiceOf id) :
    s.SameChoices ((ids.flatMap fun id => (s.choiceOf id).actions id).foldl Solver.perform t) := by
  induction ids generalizing t with
  | nil => exact ⟨hg, hset, fun id => hrest id List.not_mem_nil⟩
  | cons id ids ih =>
    rw [List.forall_mem_cons] at hids
    obtain ⟨n, hn⟩ := hs.nodeAt_of_hasNode id hids.1
    have hc : (s.choiceOf id).check = .ok () := choiceOf_eq hn ▸ (hs.tracks id n hn).choice
    have hr := ht.rechosen_actions (hg.symm ▸ hids.1) hc (hold id)
    rw [List.flatMap_cons, List.foldl_append]
    refine ih hr.wellFormed (hr.graph.trans hg) (hr.settings.trans hset) ?_ hids.2 ?_
    · intro id'
      by_cases hne : id' = id
      · exact .inr (hne ▸ hr.choiceOf_self)
      · rw [hr.choiceOf_ne id' hne]
        exact hold id'
    · intro id' hid'
      by_cases hne : id' = id
      · exact hne ▸ hr.choiceOf_self
      · rw [hr.choiceOf_ne id' hne]
        exact hrest id' fun hmem => (List.mem_cons.1 hmem).elim hne hid'

/-- A new solver of the same graph can be made, and its nodes can make the same choices. -/
theorem WellFormed.exists_rebuilt {s : Solver E} (h : s.WellFormed) :
    ∃ fresh, Solver.ofGraph s.graph s.settings = .ok fresh ∧
      s.SameChoices (s.choices.foldl Solver.perform fresh) := by
  obtain ⟨fresh, hf, hg, hset, hw, hb⟩ := exists_ofGraph h.graph h.damping
  refine ⟨fresh, hf, ?_⟩
  have hempty : ∀ id, fresh.choiceOf id = {} := by
    intro id
    cases hn : fresh.nodeAt id with
    | error e => simp only [choiceOf, hn]
    | ok n => rw [choiceOf_eq hn, hb id n hn]
  have hids : ∀ id, id ∈ s.variableIds ++ s.factorIds ↔ s.graph.HasNode id := by
    intro id
    rw [← h.mem_ids, List.mem_append, List.mem_append, or_comm]
  refine h.sameChoices_foldl hw hg hset (fun id => .inl (hempty id)) (fun id => (hids id).1) ?_
  intro id hid
  rw [hempty]
  cases hn : s.nodeAt id with
  | error e => simp only [choiceOf, hn]
  | ok n => exact absurd ((hids id).2 (h.tracks id n hn).hasNode) hid

end Solver

end MinSum
