import MinSum.Proofs.Graph.WellFormed
import MinSum.Proofs.Interning

/-! Every change of a model graph keeps the invariant. -/
namespace MinSum.Graph

variable {E : Type}

theorem far_mk_var (v f w : Nat) :
    (Edge.mk v f).far (.var w) = if v = w then some f else none := rfl

theorem far_mk_factor (v f h : Nat) :
    (Edge.mk v f).far (.factor h) = if f = h then some v else none := rfl

/-- The links of a new factor, its edges numbered from `start` on. -/
def newLinks (start : Nat) (operands : List Nat) : List Link :=
  operands.mapIdx fun port v => ⟨v, start + port⟩

theorem newLinks_cons (start v : Nat) (operands : List Nat) :
    newLinks start (v :: operands) = ⟨v, start⟩ :: newLinks (start + 1) operands := by
  simp only [newLinks, List.mapIdx_cons, Nat.add_zero, List.cons.injEq, true_and]
  congr
  funext port w
  rw [Nat.add_assoc, Nat.add_comm 1 port]

theorem neighborsOf_newLinks (start : Nat) (operands : List Nat) :
    neighborsOf (newLinks start operands) = operands := by
  induction operands generalizing start with
  | nil => rfl
  | cons v operands ih =>
    rw [newLinks_cons]
    exact congrArg (v :: ·) (ih (start + 1))

theorem edgesOf_newLinks (start : Nat) (operands : List Nat) :
    edgesOf (newLinks start operands) = List.range' start operands.length := by
  induction operands generalizing start with
  | nil => rfl
  | cons v operands ih =>
    rw [newLinks_cons, List.length_cons, List.range'_succ]
    exact congrArg (start :: ·) (ih (start + 1))

theorem linksAlong_newFactor (f start : Nat) (operands : List Nat) :
    linksAlong (.factor f) start (operands.map (Edge.mk · f)) = newLinks start operands := by
  induction operands generalizing start with
  | nil => rfl
  | cons v operands ih =>
    rw [List.map_cons, linksAlong_cons, newLinks_cons, ih, far_mk_factor, if_pos rfl]
    rfl

theorem linksAlong_otherFactor {f h : Nat} (hne : f ≠ h) (start : Nat) (operands : List Nat) :
    linksAlong (.factor h) start (operands.map (Edge.mk · f)) = [] := by
  induction operands generalizing start with
  | nil => rfl
  | cons v operands ih =>
    rw [List.map_cons, linksAlong_cons, ih, far_mk_factor, if_neg hne]
    rfl

theorem getElem?_foldl_linkVariable (f start : Nat) (operands : List Nat)
    (vars : Array (Variable E)) (w : Nat) :
    ((newLinks start operands).foldl (linkVariable · f ·) vars)[w]? =
      vars[w]?.map fun var =>
        { var with
          links := var.links ++ linksAlong (.var w) start (operands.map (Edge.mk · f)) } := by
  induction operands generalizing start vars with
  | nil => simp [newLinks, linksAlong]
  | cons v operands ih =>
    rw [newLinks_cons, List.foldl_cons, ih, List.map_cons, linksAlong_cons, far_mk_var,
      linkVariable, Array.getElem?_modify]
    by_cases hv : v = w
    · subst hv
      cases vars[v]? <;> simp
    · cases vars[w]? <;> simp [hv]

@[simp] theorem size_foldl_linkVariable (f : Nat) (links : List Link)
    (vars : Array (Variable E)) : (links.foldl (linkVariable · f ·) vars).size = vars.size := by
  induction links generalizing vars with
  | nil => rfl
  | cons l links ih => rw [List.foldl_cons, ih, linkVariable, Array.size_modify]

section attach

variable (g : Graph E) (potential : Potential E) (operands : List Nat)

@[simp] theorem edges_attach : (g.attach potential operands).2.edges =
    g.edges ++ (operands.map (Edge.mk · g.factors.size)).toArray := by
  apply Array.ext'
  simp [attach]

@[simp] theorem factors_attach : (g.attach potential operands).2.factors =
    g.factors.push ⟨potential, newLinks g.edges.size operands⟩ := rfl

theorem getElem?_vars_attach (w : Nat) : (g.attach potential operands).2.vars[w]? =
    g.vars[w]?.map fun var => { var with
      links := var.links ++
        linksAlong (.var w) g.edges.size (operands.map (Edge.mk · g.factors.size)) } :=
  getElem?_foldl_linkVariable _ _ _ _ _

@[simp] theorem size_vars_attach :
    (g.attach potential operands).2.vars.size = g.vars.size := size_foldl_linkVariable _ _ _

theorem sizeAt_attach (v : Nat) : (g.attach potential operands).2.sizeAt v = g.sizeAt v := by
  simp only [sizeAt, getElem?_vars_attach, Option.map_map]
  rfl

theorem linksAt_attach_factor (f : Nat) : (g.attach potential operands).2.linksAt (.factor f) =
    if f = g.factors.size then newLinks g.edges.size operands else g.linksAt (.factor f) := by
  simp only [linksAt, factors_attach, Array.getElem?_push]
  split <;> rfl

theorem linksAt_attach_var {w : Nat} (hw : w < g.vars.size) :
    (g.attach potential operands).2.linksAt (.var w) = g.linksAt (.var w) ++
      linksAlong (.var w) g.edges.size (operands.map (Edge.mk · g.factors.size)) := by
  rw [linksAt, getElem?_vars_attach, Array.getElem?_eq_getElem hw]
  simp [linksAt, hw]

end attach

theorem nodup_of_checkOperands {g : Graph E} {operands : List Nat}
    (h : g.checkOperands operands = .ok ()) : operands.Nodup := by
  unfold checkOperands at h
  split at h
  · contradiction
  · rename_i hr
    exact (nodup_of_firstRepeat?_eq_none hr).1

theorem domainSizes_eq_ok {g : Graph E} {operands sizes : List Nat}
    (h : g.domainSizes operands = .ok sizes) :
    (∀ v ∈ operands, v < g.vars.size) ∧ sizes = operands.map g.sizeAt := by
  induction operands generalizing sizes with
  | nil =>
    rw [domainSizes, Except.ok.injEq] at h
    simp [← h]
  | cons v operands ih =>
    unfold domainSizes domainSizeAt variableAt at h
    cases hv : g.vars[v]? with
    | none => simp [hv] at h
    | some var =>
      cases hr : g.domainSizes operands with
      | error e => simp [hv, hr] at h
      | ok rest =>
        obtain ⟨hlt, rfl⟩ := ih hr
        simp only [hv, hr, Except.ok.injEq] at h
        subst h
        refine ⟨?_, by simp [sizeAt, hv]⟩
        intro w hw
        rcases List.mem_cons.1 hw with rfl | hw
        · exact (Array.getElem?_eq_some_iff.1 hv).1
        · exact hlt w hw

theorem domainSizes_of_lt {g : Graph E} {operands : List Nat}
    (h : ∀ v ∈ operands, v < g.vars.size) :
    g.domainSizes operands = .ok (operands.map g.sizeAt) := by
  induction operands with
  | nil => rfl
  | cons v operands ih =>
    obtain ⟨var, hv⟩ : ∃ var, g.vars[v]? = some var :=
      ⟨_, Array.getElem?_eq_getElem (h v (by simp))⟩
    simp [domainSizes, domainSizeAt, variableAt, hv, sizeAt, ih fun w hw => h w (by simp [hw])]

theorem checkPorts_eq_ok {g : Graph E} {operands sizes : List Nat}
    (hl : sizes.length = operands.length) (h : g.checkPorts operands sizes = .ok ()) :
    (∀ v ∈ operands, v < g.vars.size) ∧ sizes = operands.map g.sizeAt := by
  induction operands generalizing sizes with
  | nil => simpa using hl
  | cons v operands ih =>
    cases sizes with
    | nil => simp at hl
    | cons size sizes =>
      unfold checkPorts variableAt at h
      cases hv : g.vars[v]? with
      | none => simp [hv] at h
      | some var =>
        simp only [hv] at h
        split at h
        · rename_i hsize
          obtain ⟨hlt, hrest⟩ := ih (by simpa using hl) h
          refine ⟨?_, by simp [sizeAt, hv, hsize, ← hrest]⟩
          intro w hw
          rcases List.mem_cons.1 hw with rfl | hw
          · exact (Array.getElem?_eq_some_iff.1 hv).1
          · exact hlt w hw
        · contradiction

theorem addCustom_eq_ok {g g' : Graph E} {f : Nat} {custom : CustomFactor E}
    {operands : List Nat} (h : g.addCustom custom operands = .ok (f, g')) :
    (∀ v ∈ operands, v < g.vars.size) ∧ operands.Nodup ∧
      custom.checkDomains (operands.map g.sizeAt) = .ok () ∧
        (f, g') = g.attach (.custom custom) operands := by
  unfold Graph.addCustom at h
  split at h
  · contradiction
  rename_i hsizes
  obtain ⟨hlt, rfl⟩ := domainSizes_eq_ok hsizes
  split at h
  · contradiction
  rename_i hd
  split at h
  · contradiction
  rename_i hop
  exact ⟨hlt, nodup_of_checkOperands hop, hd, (Except.ok.inj h).symm⟩

theorem addTable_eq_attach [DecidableEq E] {g g' : Graph E} {f : Nat} {table : Table E}
    {operands : List Nat} (h : g.addTable table operands = .ok (f, g')) :
    table.portCount = operands.length ∧ g.checkPorts operands table.sizes = .ok () ∧
      operands.Nodup ∧ (f, g') = ({ g with tables := (g.tables.intern table).2 } : Graph E).attach
        (.table (g.tables.intern table).1) operands := by
  unfold Graph.addTable at h
  split at h
  · contradiction
  rename_i hcount
  split at h
  · contradiction
  rename_i hports
  split at h
  · contradiction
  rename_i hop
  exact ⟨Decidable.not_not.1 hcount, hports, nodup_of_checkOperands hop, (Except.ok.inj h).symm⟩

/-- An accepted table is attached, with its content shared. -/
theorem addTable_eq_ok [DecidableEq E] {g g' : Graph E} {f : Nat} {table : Table E}
    {operands : List Nat} (h : g.addTable table operands = .ok (f, g')) :
    (∀ v ∈ operands, v < g.vars.size) ∧ operands.Nodup ∧
      table.sizes = operands.map g.sizeAt ∧ ∃ shared tables, shared.content = table ∧
        (f, g') = ({ g with tables } : Graph E).attach (.table shared) operands := by
  obtain ⟨hcount, hports, hn, he⟩ := addTable_eq_attach h
  obtain ⟨hlt, hsizes⟩ := checkPorts_eq_ok hcount hports
  exact ⟨hlt, hn, hsizes, _, _, Interner.content_intern _ _, he⟩

variable [Energy E]

theorem Factor.Valid.congr {g g' : Graph E} {factor : Factor E} (h : factor.Valid g)
    (hs : ∀ v ∈ neighborsOf factor.links, g'.sizeAt v = g.sizeAt v) : factor.Valid g' where
  nodup := h.nodup
  consecutive := h.consecutive
  suits := by
    rw [List.map_congr_left hs]
    exact h.suits

namespace WellFormed

variable {g g' : Graph E}

theorem lt_of_mem_neighborsOf (h : g.WellFormed) {factor : Factor E} (hf : factor ∈ g.factors)
    {v : Nat} (hv : v ∈ neighborsOf factor.links) : v < g.vars.size := by
  obtain ⟨l, hl, rfl⟩ := List.mem_map.1 hv
  obtain ⟨f, hf⟩ := Array.mem_iff_getElem?.1 hf
  have hmem : l ∈ g.linksAt (.factor f) := by simpa [linksAt, hf] using hl
  obtain ⟨e, he, hfar⟩ := h.mem_linksAt.1 hmem
  simp only [Edge.far, Option.ite_none_right_eq_some, Option.some.injEq] at hfar
  exact hfar.2 ▸ (h.ends e (Array.mem_of_getElem? he)).1

theorem addVariable {v : Nat} {name : String} {domain : Domain} (h : g.WellFormed)
    (ha : g.addVariable name domain = .ok (v, g')) : g'.WellFormed := by
  unfold Graph.addVariable at ha
  split at ha
  · contradiction
  rename_i hname
  simp only [Except.ok.injEq, Prod.mk.injEq] at ha
  obtain ⟨-, rfl⟩ := ha
  have hold : ∀ w < g.vars.size, ∀ var : Variable E, (g.vars.push var)[w]? = g.vars[w]? := by
    intro w hw var
    rw [Array.getElem?_push, if_neg (Nat.ne_of_lt hw)]
  refine ⟨?_, ?_, ?_, ?_, ?_⟩
  · intro id hid
    cases id with
    | factor f => exact h.linksAt_eq (.factor f) hid
    | var w =>
      simp only [HasNode, Array.size_push] at hid
      rcases Nat.lt_succ_iff_lt_or_eq.1 hid with hw | rfl
      · have := h.linksAt_eq (.var w) hw
        simpa only [linksAt, hold w hw] using this
      · rw [h.linksAlong_eq_nil (.var g.vars.size) (Nat.lt_irrefl _)]
        simp [linksAt]
  · intro edge he
    have := h.ends edge he
    simp only [Array.size_push]
    omega
  · intro var hvar
    rcases Array.mem_push.1 hvar with hvar | rfl
    · exact h.valid_variable var hvar
    · constructor <;> simp
  · intro factor hf
    refine (h.valid_factor factor hf).congr fun w hw => ?_
    simp only [sizeAt, hold w (h.lt_of_mem_neighborsOf hf hw)]
  · have hnew : ∀ var ∈ g.vars, var.name ≠ name := by
      intro var hvar
      obtain ⟨i, hi, rfl⟩ := Array.mem_iff_getElem.1 hvar
      simp only [Array.any_eq_true, decide_eq_true_eq, not_exists] at hname
      exact hname i hi
    rw [Array.toList_push, List.map_append]
    refine List.nodup_append.2 ⟨h.names_nodup, by simp, ?_⟩
    intro a ha b hb
    obtain ⟨var, hvar, rfl⟩ := List.mem_map.1 ha
    rw [List.mem_singleton.1 hb]
    exact hnew var (Array.mem_toList_iff.1 hvar)

/-- A new factor over distinct variables whose domains suit it. -/
theorem attach (h : g.WellFormed) {potential : Potential E} {operands : List Nat}
    (hlt : ∀ v ∈ operands, v < g.vars.size) (hn : operands.Nodup)
    (hs : potential.Suits (operands.map g.sizeAt)) :
    (g.attach potential operands).2.WellFormed := by
  refine ⟨?_, ?_, ?_, ?_, ?_⟩
  · intro id hid
    rw [edges_attach, Array.toList_append, linksAlong_append, Array.length_toList, Nat.zero_add]
    cases id with
    | var w =>
      simp only [HasNode, size_vars_attach] at hid
      rw [linksAt_attach_var _ _ _ hid, h.linksAt_eq (.var w) hid]
    | factor f =>
      simp only [HasNode, factors_attach, Array.size_push] at hid
      rw [linksAt_attach_factor]
      rcases Nat.lt_succ_iff_lt_or_eq.1 hid with hf | rfl
      · rw [if_neg (Nat.ne_of_lt hf), linksAlong_otherFactor (Nat.ne_of_gt hf), List.append_nil,
          h.linksAt_eq (.factor f) hf]
      · rw [if_pos rfl, linksAlong_newFactor,
          h.linksAlong_eq_nil (.factor g.factors.size) (Nat.lt_irrefl _), List.nil_append]
  · intro edge he
    simp only [edges_attach, Array.mem_append, List.mem_toArray, List.mem_map] at he
    simp only [size_vars_attach, factors_attach, Array.size_push]
    rcases he with he | ⟨v, hv, rfl⟩
    · have := h.ends edge he
      omega
    · exact ⟨hlt v hv, Nat.lt_succ_self _⟩
  · intro var hvar
    obtain ⟨w, hw⟩ := Array.mem_iff_getElem?.1 hvar
    rw [getElem?_vars_attach] at hw
    obtain ⟨old, hold, rfl⟩ := Option.map_eq_some_iff.1 hw
    have := h.valid_variable old (Array.mem_of_getElem? hold)
    exact ⟨this.length_input, this.admissible, this.fixed⟩
  · intro factor hf
    rw [factors_attach] at hf
    rcases Array.mem_push.1 hf with hf | rfl
    · exact (h.valid_factor factor hf).congr fun v _ => sizeAt_attach g potential operands v
    · refine ⟨?_, ⟨g.edges.size, ?_⟩, ?_⟩
      · rwa [neighborsOf_newLinks]
      · rw [edgesOf_newLinks, newLinks, List.length_mapIdx]
      · rw [neighborsOf_newLinks, List.map_congr_left fun v _ => sizeAt_attach g _ _ v]
        exact hs
  · have : (g.attach potential operands).2.vars.toList.map (·.name) =
        g.vars.toList.map (·.name) := by
      apply List.ext_getElem?
      intro w
      simp only [List.getElem?_map, Array.getElem?_toList, getElem?_vars_attach, Option.map_map]
      rfl
    rw [this]
    exact h.names_nodup

end WellFormed

end MinSum.Graph
