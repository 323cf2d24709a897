import MinSum.Proofs.Solver.Admissible
import MinSum.Proofs.Solver.Growth
import MinSum.Proofs.Solver.Loaded

/-! Settings in force. However a run mixes changes, growth and initializations, an initialized node
counts with the input that the graph has now and with the damping that was last accepted for it. -/
namespace MinSum

section

variable {E : Type} [Energy E]

namespace DampingChoice

def coefficient (c : DampingChoice E) (siblings : Nat) (default : E) (port : Nat) : E :=
  match c.portDamping.getD [] with
  | [] => c.damping.getD default
  | d :: ds => if (d :: ds).length = siblings then (d :: ds).getD port 0 else 0

/-- The coefficients in force are those of the ports; only a zero may have lost its sign. -/
theorem unsigned_dampingAt_inForce (c : DampingChoice E) {siblings port : Nat} (default : E)
    (hp : port < siblings) :
    Energy.unsigned (Update.dampingAt (c.inForce siblings default) port) =
      Energy.unsigned (c.coefficient siblings default port) := by
  have hlist : ∀ ds : List E, port < ds.length → Energy.unsigned (Update.dampingAt
      (if ds.any (!Energy.isZero ·) then some ds else none) port) =
        Energy.unsigned (ds.getD port 0) := by
    intro ds hlt
    split
    · rfl
    -- Coefficients that are all zero are not put into force.
    · rename_i hzero
      have hz : Energy.isZero ds[port] = true := by
        by_contra hne
        exact hzero (List.any_eq_true.2 ⟨_, List.getElem_mem hlt, by simpa using hne⟩)
      rw [List.getD_eq_getElem _ _ hlt, Update.dampingAt, Energy.unsigned, Energy.unsigned, hz]
      simp
  unfold inForce coefficient
  cases hc : c.portDamping.getD [] with
  | nil =>
    have hlen : port < (List.replicate siblings (c.damping.getD default)).length := by simpa
    have hget := hlist _ hlen
    rw [List.getD_eq_getElem _ _ hlen, List.getElem_replicate] at hget
    simpa using hget
  | cons d ds =>
    by_cases hlen : (d :: ds).length = siblings
    · have hget := hlist (d :: ds) (hlen ▸ hp)
      simpa [hlen] using hget
    · have hne : ((d :: ds).length != siblings) = true := by simpa using hlen
      simp only [List.isEmpty_cons, Bool.not_false, Bool.true_and, hne, if_true, if_neg hlen]
      rfl

/-- A coefficient in force has passed its check. -/
theorem unit_dampingAt_inForce {c : DampingChoice E} (hc : c.check = .ok ()) {default : E}
    (hd : checkDamping default = .ok ()) (hz : checkDamping (0 : E) = .ok ()) (siblings port : Nat) :
    0 ≤ Update.dampingAt (c.inForce siblings default) port ∧
      Update.dampingAt (c.inForce siblings default) port ≤ 1 := by
  have hzero := unit_of_checkDamping hz
  cases hf : c.inForce siblings default with
  | none => exact hzero
  | some ds =>
    rw [Update.dampingAt, List.getD_eq_getElem?_getD]
    cases hp : ds[port]? with
    | none => exact hzero
    | some d =>
      rcases mem_of_inForce hf (List.mem_of_getElem? hp) with hmem | rfl
      · exact unit_of_checkAll hc hmem
      · exact unit_of_checkDamping hd

theorem eq_of_checkDamping {d : E} {e : SolverError E} (h : checkDamping d = .error e) :
    e = .invalidDamping d := by
  unfold checkDamping at h
  split at h
  · contradiction
  · exact (Except.error.inj h).symm

theorem eq_of_checkAll {ds : List E} {e : SolverError E} (h : checkAll ds = .error e) :
    ∃ d, e = .invalidDamping d := by
  induction ds with
  | nil => simp [checkAll] at h
  | cons d ds ih =>
    rw [checkAll] at h
    split at h
    · rename_i e' hd
      exact ⟨d, (Except.error.inj h).symm.trans (eq_of_checkDamping hd)⟩
    · exact ih h

end DampingChoice

/-- A choice is refused for a coefficient. -/
theorem Node.eq_of_choose {n : Node E} {c : DampingChoice E} {e : SolverError E}
    (h : n.choose c = .error e) : ∃ d, e = .invalidDamping d := by
  unfold Node.choose Binding.choose at h
  cases hc : c.check with
  | error e' =>
    obtain rfl : e' = e := by simpa [hc] using h
    exact DampingChoice.eq_of_checkAll hc
  | ok _ => simp [hc] at h

omit [Energy E] in
theorem Binding.eq_of_checkStates {store : EdgeStore E} {edges sizes : List Nat}
    (hlt : ∀ e ∈ edges, e < store.size) {err : SolverError E}
    (h : checkStates store edges sizes = .error err) :
    ∃ edge expected got, err = .domainSize edge expected got := by
  induction edges generalizing sizes with
  | nil => simp [checkStates] at h
  | cons e edges ih =>
    cases sizes with
    | nil => simp [checkStates] at h
    | cons size sizes =>
      rw [checkStates, EdgeStore.get_eq_ok (hlt e List.mem_cons_self)] at h
      simp only at h
      split at h
      · exact ih (fun e he => hlt e (List.mem_cons_of_mem _ he)) h
      · exact ⟨_, _, _, (Except.error.inj h).symm⟩

structure Ledger (E : Type) where
  /-- The choices that passed their checks, also where a node could not be bound with them. -/
  kept : NodeId → DampingChoice E := fun _ => {}
  /-- The choices that were accepted. One that a node only keeps counts from the next time on that
  the node is bound. -/
  accepted : NodeId → DampingChoice E := fun _ => {}

namespace Ledger

def keep (l : Ledger E) (id : NodeId) (c : DampingChoice E) : Ledger E :=
  { l with kept := Function.update l.kept id c }

/-- What the node keeps is accepted. -/
def accept (l : Ledger E) (id : NodeId) : Ledger E :=
  { l with accepted := Function.update l.accepted id (l.kept id) }

/-- The node was asked to change its choice, with the given answer. -/
def choose (l : Ledger E) (id : NodeId) (f : DampingChoice E → DampingChoice E) :
    Except (SolverError E) Unit → Ledger E
  | .ok _ => (l.keep id (f (l.kept id))).accept id
  | .error (.domainSize _ _ _) => l.keep id (f (l.kept id))
  | .error _ => l

def bind (l : Ledger E) (s : Solver E) : List NodeId → Ledger E
  | [] => l
  | id :: rest =>
    match s.initializeNode id with
    | (.ok _, s) => (l.accept id).bind s rest
    | (.error _, _) => l

def enter {E : Type} [LogEnergy E] (l : Ledger E) (s : Solver E) : Action E → Ledger E
  | .initializeAll => l.bind { s with store := s.store.reset } (s.variableIds ++ s.factorIds)
  | .initializeNode id => l.bind s [id]
  | .setDamping id d => l.choose id (fun c => { c with damping := some d }) (s.setDamping id d).1
  | .setPortDamping id ds =>
    l.choose id (fun c => { c with portDamping := some ds }) (s.setPortDamping id ds).1
  | _ => l

end Ledger

namespace Node

/-- The node stands at its place, with the damping in force that was accepted for it. -/
structure Heeds (settings : Settings E) (accepted : NodeId → DampingChoice E) (g : Graph E)
    (id : NodeId) (n : Node E) : Prop extends n.Stands g id where
  damping : n.binding.initialized = true → (accepted id).check = .ok () ∧
    n.binding.damping = (accepted id).inForce (g.incident id).length settings.damping

variable {g : Graph E} {settings : Settings E} {accepted accepted' : NodeId → DampingChoice E}
  {id : NodeId} {n : Node E}

theorem local_heeds (settings : Settings E) (accepted : NodeId → DampingChoice E) :
    Local (Heeds settings accepted) where
  placed h := h.toPlaced
  waiting h hi := ⟨local_stands.waiting h hi, fun ht => absurd ht (by simp [hi])⟩
  congr h h' hs := by
    refine ⟨local_stands.congr h.toStands h' hs, fun hi => ?_⟩
    rw [(hs hi).incident]
    exact h.damping hi
  load hc h hv := by
    refine ⟨local_stands.load hc h.toStands hv, fun hi => ?_⟩
    rw [hc.incident_eq]
    exact h.damping hi

theorem Heeds.congr (h : n.Heeds settings accepted g id) (ha : accepted' id = accepted id) :
    n.Heeds settings accepted' g id :=
  ⟨h.toStands, fun hi => ha ▸ h.damping hi⟩

/-- Another choice that is only kept is not in force. -/
theorem Heeds.choose (h : n.Heeds settings accepted g id) {c : DampingChoice E} {n' : Node E}
    (hc : n.choose c = .ok n') : n'.Heeds settings accepted g id := by
  refine ⟨h.toStands.choose hc, ?_⟩
  obtain ⟨-, rfl⟩ := choose_eq_ok hc
  cases n <;> exact h.damping

end Node

namespace Solver

variable {s s' : Solver E} {settings : Settings E} {l : Ledger E}

omit [Energy E] in
theorem choiceOf_var (s : Solver E) (v : Nat) :
    s.choiceOf (.var v) = (s.vars[v]?.map (·.binding.choice)).getD {} := by
  simp only [choiceOf, nodeAt]
  cases s.vars[v]? <;> rfl

omit [Energy E] in
theorem choiceOf_factor (s : Solver E) (f : Nat) :
    s.choiceOf (.factor f) = (s.factors[f]?.map (·.binding.choice)).getD {} := by
  simp only [choiceOf, nodeAt]
  cases s.factors[f]? <;> rfl

omit [Energy E] in
theorem nodeAt_eq_error {id : NodeId} {e : SolverError E} (h : s.nodeAt id = .error e) :
    e = .noSuchNode id := by
  unfold nodeAt at h
  repeat' split at h
  all_goals first | contradiction | exact (Except.error.inj h).symm

omit [Energy E] in
theorem choiceOf_congr (hv : s'.vars = s.vars) (hf : s'.factors = s.factors) (id : NodeId) :
    s'.choiceOf id = s.choiceOf id := by
  simp only [choiceOf, nodeAt_congr hv hf]

omit [Energy E] in
/-- Another node with the same choice makes no difference. -/
theorem choiceOf_setNode_of_eq {id : NodeId} {old n : Node E} (ho : s.nodeAt id = .ok old)
    (hn : n.id = id) (hc : n.binding.choice = old.binding.choice) (id' : NodeId) :
    (s.setNode id n).choiceOf id' = s.choiceOf id' := by
  rw [choiceOf_setNode ho hn]
  split
  · rename_i heq
    rw [heq, hc, choiceOf_eq ho]
  · rfl

theorem choiceOf_changeInput (h : s.Anchored) (v : Nat) (g' : Graph E) (id : NodeId) :
    (s.changeInput v (.ok g')).2.choiceOf id = s.choiceOf id := by
  simp only [changeInput, reloadInput, variableNodeAt]
  cases hm : s.vars[v]? with
  | none => exact choiceOf_congr rfl rfl id
  | some m =>
    have hn : s.nodeAt (.var v) = .ok (.var m) := nodeAt_var_eq_ok.2 ⟨m, hm, rfl⟩
    have hid : (Node.var m).id = .var v := (h.nodes _ _ hn).id_eq
    have hat : ({ s with graph := g' } : Solver E).nodeAt (.var v) = .ok (.var m) :=
      (nodeAt_congr rfl rfl _).trans hn
    simp only [VariableNode.loadInput]
    split
    · cases g'.variableAt m.var with
      | error e => exact choiceOf_congr rfl rfl id
      | ok var =>
        exact (choiceOf_setNode_of_eq (n := .var (m.load var)) hat hid rfl id).trans
          (choiceOf_congr rfl rfl id)
    · exact choiceOf_congr rfl rfl id

omit [Energy E] in
theorem choiceOf_push_var (s : Solver E) (g : Graph E) (v : Nat) (id : NodeId) :
    ({ s with graph := g, vars := s.vars.push { var := v } } : Solver E).choiceOf id =
      s.choiceOf id := by
  cases id with
  | factor f => rw [choiceOf_factor, choiceOf_factor]
  | var w =>
    rw [choiceOf_var, choiceOf_var, Array.getElem?_push]
    split
    · rename_i heq
      simp [heq]
    · rfl

theorem choiceOf_grown (s : Solver E) (g : Graph E) (potential : Graph.Potential E)
    (operands : List Nat) (id : NodeId) :
    (s.grown g potential operands).choiceOf id = s.choiceOf id := by
  cases id with
  | var v =>
    rw [choiceOf_var, choiceOf_var, getElem?_vars_grown]
    cases s.vars[v]? with
    | none => rfl
    | some m =>
      by_cases hv : v ∈ operands
      · simp [hv, Binding.invalidate]
      · simp [hv]
  | factor f =>
    have hf : (s.grown g potential operands).factors =
      s.factors.push { factor := s.graph.factors.size, potential } := rfl
    rw [choiceOf_factor, choiceOf_factor, hf, Array.getElem?_push]
    split
    · rename_i heq
      simp [heq]
    · rfl

/-- The nodes keep the choices of the record, and the initialized ones have in force what was
accepted. -/
structure Follows (settings : Settings E) (l : Ledger E) (s : Solver E) : Prop where
  settings_eq : s.settings = settings
  choices : ∀ id, s.choiceOf id = l.kept id
  nodes : s.Assembled (Node.Heeds settings l.accepted)

namespace Follows

variable (h : s.Follows settings l)

include h

theorem anchored : s.Anchored :=
  ⟨h.nodes.graph, h.nodes.size_vars, h.nodes.size_factors, h.nodes.size_store,
    fun id n hn => (h.nodes.nodes id n hn).toStands⟩

theorem congr (hs : s.Refilled s') : s'.Follows settings l where
  settings_eq := hs.settings.trans h.settings_eq
  choices id := (choiceOf_congr hs.vars hs.factors id).trans (h.choices id)
  nodes := h.nodes.congr hs

/-! Initialization -/

/-- A node that is bound puts into force what it keeps. One that cannot be bound leaves everything
as it was, but for the input; the edge states are to blame. -/
theorem initializeNode (id : NodeId) :
    match s.initializeNode id with
    | (.ok _, s') => s'.Follows settings (l.accept id)
    | (.error e, s') => s'.Follows settings l ∧
      ∀ n, s.nodeAt id = .ok n → ∃ edge expected got, e = .domainSize edge expected got := by
  unfold Solver.initializeNode
  cases hn : s.nodeAt id with
  | error e => exact ⟨h, fun n hn' => by simp at hn'⟩
  | ok n =>
    have hs := h.nodes.nodes id n hn
    obtain ⟨hstands, hbind⟩ := hs.toStands.bind_spec h.nodes.graph s.store s.settings
    have hchoice : n.binding.choice = l.kept id := (choiceOf_eq hn).symm.trans (h.choices id)
    obtain ⟨-, hset, -⟩ := setNode_frame s id (n.bind s.graph s.store s.settings).2
    simp only
    -- Only the place `id` changes, so the record stays right for the other nodes.
    cases hr : (n.bind s.graph s.store s.settings).1 with
    | ok _ =>
      rw [hr] at hbind
      refine ⟨hset.trans h.settings_eq, fun id' => ?_, ?_⟩
      · exact (choiceOf_setNode_of_eq hn hstands.id_eq (congrArg (·.choice) hbind) id').trans
          (h.choices id')
      · refine h.nodes.replaceNode hn hstands.id_eq ⟨hstands, fun _ => ?_⟩ fun id' n' hne ht =>
          ht.congr (Function.update_of_ne hne _ _)
        have hself : (l.accept id).accepted id = n.binding.choice :=
          (Function.update_self _ _ _).trans hchoice.symm
        rw [hself, hbind]
        exact ⟨hs.choice, by rw [← h.settings_eq]; rfl⟩
    | error e =>
      rw [hr] at hbind
      refine ⟨⟨hset.trans h.settings_eq, fun id' => ?_, ?_⟩, fun _ _ => ?_⟩
      · exact (choiceOf_setNode_of_eq hn hstands.id_eq (congrArg (·.choice) hbind.1) id').trans
          (h.choices id')
      · refine h.nodes.setNode hn hstands.id_eq ⟨hstands, ?_⟩
        rw [hbind.1]
        exact hs.damping
      · refine Binding.eq_of_checkStates (fun e he => ?_) hbind.2
        rw [h.nodes.size_store]
        exact h.nodes.graph.lt_of_mem_incident he

theorem initializeNodes (ids : List NodeId) :
    (s.initializeNodes ids).2.Follows settings (l.bind s ids) := by
  induction ids generalizing s l with
  | nil => exact h
  | cons id ids ih =>
    have hid := h.initializeNode id
    rw [Solver.initializeNodes, Ledger.bind]
    rcases hs : s.initializeNode id with ⟨_ | _, s'⟩ <;> rw [hs] at hid
    · exact hid.1
    · exact ih hid

theorem initializeAll : s.initializeAll.2.Follows settings
    (l.bind { s with store := s.store.reset } (s.variableIds ++ s.factorIds)) := by
  have hr : s.Refilled { s with store := s.store.reset } :=
    ⟨⟨rfl, rfl, rfl, rfl⟩, EdgeStore.size_reset _⟩
  refine Attempt.andThen_keeps (p := fun t : Solver E => t.Follows settings _)
    (Follows.initializeNodes (h.congr hr) _) fun _ _ hs => ?_
  exact hs.congr ⟨⟨rfl, rfl, rfl, rfl⟩, rfl⟩

/-! Choices -/

/-- The node keeps a valid choice. What is in force stays so until the node is bound again. -/
theorem keep {id : NodeId} {f : DampingChoice E → DampingChoice E} {n n' : Node E}
    (hn : s.nodeAt id = .ok n) (hc : n.choose (f n.binding.choice) = .ok n') :
    (s.setNode id n').Follows settings (l.keep id (f (l.kept id))) ∧
      (s.setNode id n').nodeAt id = .ok n' := by
  have hs := (h.nodes.nodes id n hn).choose hc
  have hkept : n'.binding.choice = f (l.kept id) := by
    obtain ⟨-, rfl⟩ := Node.choose_eq_ok hc
    rw [← h.choices, choiceOf_eq hn]
    cases n <;> rfl
  obtain ⟨-, hset, -⟩ := setNode_frame s id n'
  refine ⟨⟨hset.trans h.settings_eq, fun id' => ?_, h.nodes.setNode hn hs.id_eq hs⟩, ?_⟩
  · rw [choiceOf_setNode hn hs.id_eq, hkept, h.choices]
    exact (Function.update_apply _ _ _ _).symm
  · rw [nodeAt_setNode hn hs.id_eq, if_pos rfl]

/-- A node that waits for initialization has nothing in force, so it accepts what it keeps. -/
theorem accept {id : NodeId} {n : Node E} (hn : s.nodeAt id = .ok n)
    (hi : n.binding.initialized = false) : s.Follows settings (l.accept id) := by
  refine ⟨h.settings_eq, h.choices, h.nodes.graph, h.nodes.size_vars, h.nodes.size_factors,
    h.nodes.size_store, fun id' n' hn' => ?_⟩
  have hs := h.nodes.nodes id' n' hn'
  by_cases hid : id' = id
  · subst hid
    obtain rfl := Except.ok.inj (hn.symm.trans hn')
    exact (Node.local_heeds _ _).waiting hs.toPlaced hi
  · exact hs.congr (Function.update_of_ne hid _ _)

/-- A valid choice is accepted, unless the node cannot be bound. Then the node only keeps it. -/
theorem modifyChoice (id : NodeId) (f : DampingChoice E → DampingChoice E) :
    (s.modifyChoice id f).2.Follows settings (l.choose id f (s.modifyChoice id f).1) := by
  unfold Solver.modifyChoice
  cases hn : s.nodeAt id with
  | error e =>
    obtain rfl : e = .noSuchNode id := nodeAt_eq_error hn
    exact h
  | ok n =>
    simp only
    cases hc : n.choose (f n.binding.choice) with
    | error e =>
      obtain ⟨d, rfl⟩ : ∃ d, e = .invalidDamping d := Node.eq_of_choose hc
      exact h
    | ok n' =>
      obtain ⟨hkeep, hat⟩ := h.keep hn hc
      simp only
      split
      · have hbound := Follows.initializeNode hkeep id
        rcases hb : (s.setNode id n').initializeNode id with ⟨e | _, s'⟩ <;> rw [hb] at hbound
        · obtain ⟨_, _, _, rfl⟩ := hbound.2 n' hat
          exact hbound.1
        · exact hbound
      · rename_i hi
        exact Follows.accept hkeep hat (Bool.eq_false_iff.2 hi)

end Follows

/-- A new solver has no choices to follow. -/
theorem WellFormed.follows (h : s.WellFormed) (hb : ∀ id n, s.nodeAt id = .ok n → n.binding = {}) :
    s.Follows s.settings {} where
  settings_eq := rfl
  choices id := by
    cases hn : s.nodeAt id with
    | error e => simp only [choiceOf, hn]
    | ok n => rw [choiceOf_eq hn, hb id n hn]
  nodes := by
    refine ⟨h.graph, h.size_vars, h.size_factors, h.store.size, fun id n hn => ?_⟩
    exact (Node.local_heeds _ _).waiting (h.tracks id n hn).toPlaced (congrArg _ (hb id n hn))

end Solver

end

namespace Solver

variable {E : Type} [LogEnergy E] {s : Solver E} {l : Ledger E}

/-- Actions that bind no node and change no choice leave all choices as they are. -/
theorem Anchored.choices_perform (h : s.Anchored) {a : Action E} (ha : ¬ a.Rebinds) :
    (s.perform a).settings = s.settings ∧ ∀ id, (s.perform a).choiceOf id = s.choiceOf id := by
  have hrefill : ∀ {t : Solver E}, s.Refilled t →
      t.settings = s.settings ∧ ∀ id, t.choiceOf id = s.choiceOf id := fun hr =>
    ⟨hr.settings, choiceOf_congr hr.vars hr.factors⟩
  have hinput : ∀ (v : Nat) (changed : Except (GraphError E) (Graph E)),
      (s.changeInput v changed).2.settings = s.settings ∧
        ∀ id, (s.changeInput v changed).2.choiceOf id = s.choiceOf id := by
    intro v changed
    cases changed with
    | error e => exact ⟨rfl, fun _ => rfl⟩
    | ok g' => exact ⟨(changeInput_frame s v g').2.1, choiceOf_changeInput h v g'⟩
  have hT := Node.local_stands (E := E)
  cases a with
  | update id => exact hrefill (s.refilled_runUpdate id _)
  | updatePort id port => exact hrefill (s.refilled_runUpdate id _)
  | iterate n => exact hrefill (s.refilled_iterate n)
  | iterateParallel n => exact hrefill (s.refilled_iterateParallel n)
  | iterateInOrder orders => exact hrefill (s.refilled_iterateInOrder orders)
  | setInput v input => exact hinput v _
  | setInputProbabilities v p => exact hinput v _
  | fixValue v fixed => exact hinput v _
  | addVariable name domain =>
    simp only [Solver.perform, Solver.addVariable]
    split
    · exact ⟨rfl, fun _ => rfl⟩
    · exact ⟨rfl, choiceOf_push_var s _ _⟩
  | addTable table built operands =>
    cases hadd : s.graph.addTable table operands with
    | error e =>
      simp only [Solver.perform, Solver.addTable, hadd]
      exact ⟨trivial, fun _ => trivial⟩
    | ok x =>
      obtain ⟨shared, tables, -, -, he, -⟩ := h.addTable_eq hT built hadd
      rw [Solver.perform, he]
      exact ⟨rfl, choiceOf_grown s _ _ _⟩
  | addCustom custom operands =>
    cases hadd : s.graph.addCustom custom operands with
    | error e =>
      simp only [Solver.perform, Solver.addCustom, hadd]
      exact ⟨trivial, fun _ => trivial⟩
    | ok x =>
      obtain ⟨-, he, -⟩ := h.addCustom_eq hT hadd
      rw [Solver.perform, he]
      exact ⟨rfl, choiceOf_grown s _ _ _⟩
  | setToFactor edge m => exact hrefill (s.refilled_modifyEdge edge _)
  | setToVariable edge m => exact hrefill (s.refilled_modifyEdge edge _)
  | resetEdge edge => exact hrefill (s.refilled_modifyEdge edge _)
  | takeWarnings => exact hrefill ⟨⟨rfl, rfl, rfl, rfl⟩, rfl⟩
  | _ => exact absurd trivial ha

namespace Follows

variable {settings : Settings E} (h : s.Follows settings l)

include h

theorem perform_of_not_rebinds {a : Action E} (ha : ¬ a.Rebinds) :
    (s.perform a).Follows settings l := by
  obtain ⟨hset, hchoices⟩ := h.anchored.choices_perform ha
  exact ⟨hset.trans h.settings_eq, fun id => (hchoices id).trans (h.choices id),
    h.nodes.perform (Node.local_heeds _ _) ha⟩

theorem perform (a : Action E) : (s.perform a).Follows settings (l.enter s a) := by
  cases a with
  | initializeAll => exact h.initializeAll
  | initializeNode id =>
    have hone : s.initializeNodes [id] = s.initializeNode id := by
      rw [Solver.initializeNodes]
      rcases s.initializeNode id with ⟨_ | _, _⟩ <;> rfl
    have hnodes := h.initializeNodes [id]
    rw [hone] at hnodes
    exact hnodes
  | setDamping id d =>
    simp only [Solver.perform, Ledger.enter, Solver.setDamping]
    cases hd : checkDamping d with
    | error e =>
      obtain rfl := DampingChoice.eq_of_checkDamping hd
      exact h
    | ok _ => exact h.modifyChoice id _
  | setPortDamping id ds => exact h.modifyChoice id _
  | _ => exact h.perform_of_not_rebinds id

end Follows

/-- The states that runs lead to, with what their nodes have been asked to choose. Edge states may
also be put in the place of others, as in `Attainable`: messages of unequal lengths included. -/
inductive Recorded : Solver E → Ledger E → Prop where
  | ofGraph {g : Graph E} {settings : Settings E} {s : Solver E} (hg : g.Reachable)
      (hs : Solver.ofGraph g settings = .ok s) : Recorded s {}
  | perform {s : Solver E} {l : Ledger E} (h : Recorded s l) (a : Action E) :
      Recorded (s.perform a) (l.enter s a)
  | replaceEdge {s : Solver E} {l : Ledger E} (h : Recorded s l) (edge : Nat)
      (state : EdgeMessages E) : Recorded (s.modifyEdge edge fun _ => .ok state).2 l

/-- Every run can be recorded. -/
theorem attainable_iff_recorded : s.Attainable ↔ ∃ l, s.Recorded l := by
  constructor
  · intro h
    induction h with
    | ofGraph hg hs => exact ⟨_, .ofGraph hg hs⟩
    | perform _ a ih =>
      obtain ⟨l, hl⟩ := ih
      exact ⟨_, hl.perform a⟩
    | replaceEdge _ edge state ih =>
      obtain ⟨l, hl⟩ := ih
      exact ⟨_, hl.replaceEdge edge state⟩
  · rintro ⟨l, h⟩
    induction h with
    | ofGraph hg hs => exact .ofGraph hg hs
    | perform _ a ih => exact ih.perform a
    | replaceEdge _ edge state ih => exact ih.replaceEdge edge state

theorem Recorded.follows (h : s.Recorded l) :
    s.Follows s.settings l ∧ checkDamping s.settings.damping = .ok () := by
  suffices hall : ∃ settings : Settings E, s.Follows settings l ∧
      checkDamping settings.damping = .ok () by
    obtain ⟨_, hf, hd⟩ := hall
    exact hf.settings_eq ▸ ⟨hf, hd⟩
  induction h with
  | ofGraph hg hs =>
    obtain ⟨-, -, hw, hb⟩ := ofGraph_eq_ok hg.wellFormed hs
    exact ⟨_, hw.follows hb, hw.damping⟩
  | perform _ a ih =>
    obtain ⟨settings, hf, hd⟩ := ih
    exact ⟨settings, hf.perform a, hd⟩
  | replaceEdge _ edge state ih =>
    obtain ⟨settings, hf, hd⟩ := ih
    exact ⟨settings, hf.congr (refilled_modifyEdge _ edge _), hd⟩

/-- In every state that a run leads to, an initialized variable counts with the input and the fixed
value that it has in the graph now, and so does the score. The damping on each port of an initialized
node is that of the choice that was last accepted for the node, among as many edges as it has now, and
lies between zero and one. -/
theorem Recorded.settings_in_force (h : s.Recorded l) (hz : checkDamping (0 : E) = .ok ()) :
    (∀ v, s.Initialized (.var v) → ∃ var, s.graph.vars[v]? = some var ∧ s.CountsWith v var) ∧
    (s.score = s.guesses.map fun a =>
      (List.zipWith Graph.Variable.inputEnergy s.graph.vars.toList a).foldl (· + ·) 0 +
        (s.graph.factors.toList.map (·.energy a)).foldl (· + ·) 0) ∧
    ∀ id port, s.Initialized id → port < (s.graph.incident id).length →
      ∃ d, s.damping id port = .ok d ∧ 0 ≤ d ∧ d ≤ 1 ∧ Energy.unsigned d =
        Energy.unsigned ((l.accepted id).coefficient (s.graph.incident id).length
          s.settings.damping port) := by
  obtain ⟨hf, hd⟩ := h.follows
  have ha := hf.anchored
  refine ⟨fun v hi => ha.countsWith hi, ha.score_eq, fun id port hi hp => ?_⟩
  obtain ⟨n, hn, hi⟩ := hi
  obtain ⟨hcheck, hforce⟩ := (hf.nodes.nodes id n hn).damping hi
  have hport : port < n.binding.edges.length := (ha.edges_eq hn hi).symm ▸ hp
  have heq := damping_eq hn hi hport
  obtain ⟨hlow, hhigh⟩ := DampingChoice.unit_dampingAt_inForce hcheck hd hz
    (s.graph.incident id).length port
  rw [hforce] at heq
  exact ⟨_, heq, hlow, hhigh, DampingChoice.unsigned_dampingAt_inForce _ _ hp⟩

/-- A bit with an equality factor, on whose edge then lies a state for a domain of three values. -/
private def resized : Solver Float :=
  (([.addVariable "x" .bit, .addCustom .equality [0], .fixValue 0 (some 1),
    .initializeAll].foldl Solver.perform .empty).modifyEdge 0 fun _ => .ok (.uniform 3)).2

private def halve : Action Float := .setDamping (.var 0) 0.5

theorem Recorded.settings_in_force_kept : ∃ l : Ledger Float, (resized.perform halve).Recorded l ∧
    l.kept (.var 0) = ⟨some 0.5, none⟩ ∧ l.accepted (.var 0) = {} ∧
      (∃ var, (resized.perform halve).CountsWith 0 var ∧ var.fixed = some 1) ∧
      ∃ d, (resized.perform halve).damping (.var 0) 0 = .ok d ∧
        Energy.unsigned d = Energy.unsigned 0 := by
  have hz : checkDamping (0 : Float) = .ok () := by with_unfolding_all rfl
  have hstart : (Solver.empty : Solver Float).Recorded {} := .ofGraph .empty (ofGraph_empty hz)
  have hbit := (hstart.perform (.addVariable "x" .bit)).perform (.addCustom .equality [0])
  have hbound := (hbit.perform (.fixValue 0 (some 1))).perform .initializeAll
  have hl : (resized.perform halve).Recorded _ := (hbound.replaceEdge 0 (.uniform 3)).perform halve
  have hi : (resized.perform halve).Initialized (.var 0) :=
    ⟨_, by with_unfolding_all rfl, by with_unfolding_all rfl⟩
  obtain ⟨hinput, -, hdamping⟩ := hl.settings_in_force hz
  obtain ⟨var, hvar, hcounts⟩ := hinput 0 hi
  obtain ⟨d, hd, -, -, hunsigned⟩ := hdamping (.var 0) 0 hi (by decide +kernel)
  have hfixed : (resized.perform halve).graph.vars[0]?.map (·.fixed) = some (some 1) := by
    decide +kernel
  refine ⟨_, hl, by with_unfolding_all rfl, by with_unfolding_all rfl, ⟨var, hcounts, ?_⟩, d, hd,
    hunsigned.trans (by decide +kernel)⟩
  simpa [hvar] using hfixed

/-- A choice that a call refused comes into force later, when the edge has a state of the right size
again and the node is bound. By the calls that succeeded, it would be the default. -/
theorem refused_damping_in_force :
    let s := ((resized.perform halve).modifyEdge 0 fun _ => .ok (.uniform 2)).2.perform
      (.initializeNode (.var 0))
    (resized.reply halve).failure? = some (.domainSize 0 2 3) ∧ s.Attainable ∧
      s.Initialized (.var 0) ∧ s.damping (.var 0) 0 = .ok 0.5 ∧
        DampingChoice.coefficient {} 1 s.settings.damping 0 = (0 : Float) := by
  intro s
  have hz : checkDamping (0 : Float) = .ok () := by with_unfolding_all rfl
  have hresized : resized.Attainable :=
    ((Reachable.empty hz).foldl_perform _).attainable.replaceEdge 0 _
  exact ⟨by with_unfolding_all rfl, ((hresized.perform halve).replaceEdge 0 _).perform _,
    ⟨_, by with_unfolding_all rfl, by with_unfolding_all rfl⟩, by decide +kernel,
    by decide +kernel⟩

end Solver

end MinSum
