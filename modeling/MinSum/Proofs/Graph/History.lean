import Mathlib.Data.List.Nodup
import MinSum.CustomFactor.Equality
import MinSum.Energy.Double
import MinSum.Proofs.Graph.Reachable

/-! Any sequence of changes of a model graph, refused ones included. Whatever the sequence, the
three records of the adjacency agree, and the graph still tells how each factor was added. -/
namespace MinSum.Graph

/-- What can be asked of a model graph, other than to read from it. -/
inductive Change (E : Type) [Energy E] where
  | addVariable (name : String) (domain : Domain)
  | addTable (table : Table E) (built : table.Built) (operands : List Nat)
  | addCustom (custom : CustomFactor E) (operands : List Nat)
  | setInput (v : Nat) (input : Option (Message E))
  | setInputProbabilities (v : Nat) (p : List E)
  | fixValue (v : Nat) (fixed : Option Nat)
  | fixValueOf (v : Nat) (value : Value)

variable {E : Type}

section

variable [LogEnergy E]

/-- The graph after a change, the same one if the change is refused. -/
def perform (g : Graph E) : Change E → Graph E
  | .addVariable name domain => g.orSame ((g.addVariable name domain).map Prod.snd)
  | .addTable table _ operands => g.orSame ((g.addTable table operands).map Prod.snd)
  | .addCustom custom operands => g.orSame ((g.addCustom custom operands).map Prod.snd)
  | .setInput v input => g.orSame (g.setInput v input)
  | .setInputProbabilities v p => g.orSame (g.setInputProbabilities v p)
  | .fixValue v fixed => g.orSame (g.fixValue v fixed)
  | .fixValueOf v value => g.orSame (g.fixValueOf v value)

/-- The number that a factor is given when a change adds it, with its operands. -/
def addition (g : Graph E) : Change E → List (Nat × List Nat)
  | .addTable table _ operands =>
    match g.addTable table operands with
    | .ok (f, _) => [(f, operands)]
    | .error _ => []
  | .addCustom custom operands =>
    match g.addCustom custom operands with
    | .ok (f, _) => [(f, operands)]
    | .error _ => []
  | _ => []

/-- The factors that a sequence of changes adds, in order. -/
def additions (g : Graph E) : List (Change E) → List (Nat × List Nat)
  | [] => []
  | c :: changes => g.addition c ++ (g.perform c).additions changes

theorem Reachable.perform {g : Graph E} (h : g.Reachable) (c : Change E) :
    (g.perform c).Reachable := by
  cases c with
  | addVariable name domain =>
    exact orSame_grown_keeps h fun _ _ hg => .addVariable name domain h hg
  | addTable table built operands =>
    exact orSame_grown_keeps h fun _ _ hg => .addTable table built operands h hg
  | addCustom custom operands =>
    exact orSame_grown_keeps h fun _ _ hg => .addCustom custom operands h hg
  | setInput v input => exact orSame_keeps h fun _ hg => .setInput v input h hg
  | setInputProbabilities v p => exact orSame_keeps h fun _ hg => .setInputProbabilities v p h hg
  | fixValue v fixed => exact orSame_keeps h fun _ hg => .fixValue v fixed h hg
  | fixValueOf v value => exact orSame_keeps h fun _ hg => .fixValueOf v value h hg

theorem Reachable.foldl_perform {g : Graph E} (h : g.Reachable) (changes : List (Change E)) :
    (changes.foldl Graph.perform g).Reachable := by
  induction changes generalizing g with
  | nil => exact h
  | cons c changes ih => exact ih (h.perform c)

end

def operandLists (g : Graph E) : List (Nat × List Nat) :=
  g.factors.toList.mapIdx fun f factor => (f, neighborsOf factor.links)

/-- One factor after the other, the edges are numbered without a gap. -/
def Gapless (g : Graph E) : Prop :=
  g.factors.toList.flatMap (fun factor => edgesOf factor.links) = List.range g.edges.size

/-- What a change does to factors and edges: it adds one factor with its edges, or nothing. -/
inductive Extends (g g' : Graph E) : List (Nat × List Nat) → Prop where
  | factor {operands : List Nat} (potential : Potential E)
      (factors : g'.factors = g.factors.push ⟨potential, newLinks g.edges.size operands⟩)
      (edges : g'.edges = g.edges ++ (operands.map (Edge.mk · g.factors.size)).toArray) :
      Extends g g' [(g.factors.size, operands)]
  | nothing (factors : g'.factors = g.factors) (edges : g'.edges = g.edges) : Extends g g' []

namespace Extends

variable {g g' : Graph E} {added : List (Nat × List Nat)}

theorem attach (g : Graph E) (potential : Potential E) (operands : List Nat) :
    g.Extends (g.attach potential operands).2 [(g.factors.size, operands)] :=
  .factor potential (factors_attach g potential operands) (edges_attach g potential operands)

theorem operandLists_eq (h : g.Extends g' added) :
    g'.operandLists = g.operandLists ++ added := by
  cases h with
  | factor potential hf he =>
    simp [operandLists, hf, List.mapIdx_concat, neighborsOf_newLinks]
  | nothing hf he => simp [operandLists, hf]

theorem gapless (h : g.Extends g' added) (hg : g.Gapless) : g'.Gapless := by
  unfold Gapless at hg ⊢
  cases h with
  | @factor operands potential hf he =>
    have hsize : g'.edges.size = g.edges.size + operands.length := by simp [he]
    rw [hf, Array.toList_push, List.flatMap_append, hg, hsize, List.range_add,
      List.flatMap_singleton, edgesOf_newLinks, List.range'_eq_map_range]
  | nothing hf he => rw [hf, he, hg]

end Extends

section

variable [LogEnergy E] {g : Graph E}

theorem WellFormed.extends_perform (hg : g.WellFormed) (c : Change E) :
    g.Extends (g.perform c) (g.addition c) := by
  have hsame : g.Extends g [] := .nothing rfl rfl
  have hinput : ∀ {v : Nat} {r : Except (GraphError E) (Graph E)},
      (∀ g', r = .ok g' → g.ChangesInput v g') → g.Extends (g.orSame r) [] := fun hr =>
    orSame_keeps (P := fun g' => g.Extends g' []) hsame fun g' hg' =>
      .nothing (hr g' hg').factors_eq (hr g' hg').edges_eq
  cases c with
  | addVariable name domain =>
    refine orSame_grown_keeps (P := fun g' => g.Extends g' []) hsame fun v g' hadd => ?_
    unfold Graph.addVariable at hadd
    split at hadd
    · contradiction
    · simp only [Except.ok.injEq, Prod.mk.injEq] at hadd
      obtain ⟨-, rfl⟩ := hadd
      exact .nothing rfl rfl
  | addTable table built operands =>
    simp only [Graph.perform, addition]
    cases hadd : g.addTable table operands with
    | error e => exact hsame
    | ok x =>
      obtain ⟨-, -, -, shared, tables, -, he⟩ := addTable_eq_ok hadd
      obtain rfl : x = _ := he
      exact .factor _ rfl (edges_attach _ _ _)
  | addCustom custom operands =>
    simp only [Graph.perform, addition]
    cases hadd : g.addCustom custom operands with
    | error e => exact hsame
    | ok x =>
      obtain ⟨-, -, -, he⟩ := addCustom_eq_ok hadd
      obtain rfl : x = _ := he
      exact .attach g _ operands
  | setInput v input => exact hinput fun _ => changesInput_of_setInput hg
  | setInputProbabilities v p => exact hinput fun _ => changesInput_of_setInputProbabilities hg
  | fixValue v fixed => exact hinput fun _ => changesInput_of_fixValue hg
  | fixValueOf v value => exact hinput fun _ => changesInput_of_fixValueOf hg

/-- The factors are the ones that were added, with their operands in the order given then. -/
theorem Reachable.operandLists_foldl (h : g.Reachable) (changes : List (Change E)) :
    (changes.foldl Graph.perform g).operandLists = g.operandLists ++ g.additions changes := by
  induction changes generalizing g with
  | nil => simp [additions]
  | cons c changes ih =>
    rw [List.foldl_cons, ih (h.perform c), (h.wellFormed.extends_perform c).operandLists_eq,
      additions, List.append_assoc]

theorem Reachable.gapless_foldl (h : g.Reachable) (hg : g.Gapless) (changes : List (Change E)) :
    (changes.foldl Graph.perform g).Gapless := by
  induction changes generalizing g with
  | nil => exact hg
  | cons c changes ih =>
    exact ih (h.perform c) ((h.wellFormed.extends_perform c).gapless hg)

end

/-- The edge by which a list of links leads to a neighbor. -/
def edgeTo (links : List Link) (n : Nat) : Option Nat :=
  (links.find? (·.neighbor = n)).map (·.edge)

theorem edgeTo_eq_some {links : List Link}
    (hu : ∀ l ∈ links, ∀ l' ∈ links, l.neighbor = l'.neighbor → l = l') {n e : Nat} :
    edgeTo links n = some e ↔ ⟨n, e⟩ ∈ links := by
  unfold edgeTo
  constructor
  · intro h
    obtain ⟨l, hl, rfl⟩ := Option.map_eq_some_iff.1 h
    have hn : l.neighbor = n := by simpa using List.find?_some hl
    exact hn ▸ List.mem_of_find?_eq_some hl
  · intro hmem
    obtain ⟨l, hl⟩ : ∃ l, links.find? (·.neighbor = n) = some l :=
      Option.isSome_iff_exists.1 (List.find?_isSome.2 ⟨_, hmem, by simp⟩)
    have hn : l.neighbor = n := by simpa using List.find?_some hl
    rw [hl, hu l (List.mem_of_find?_eq_some hl) _ hmem hn]
    rfl

theorem edgeAt_eq_ok {g : Graph E} {e : Nat} {edge : Edge} :
    g.edgeAt e = .ok edge ↔ g.edges[e]? = some edge := by
  unfold edgeAt
  cases g.edges[e]? <;> simp

theorem edgeBetween_eq_ok {g : Graph E} {v f e : Nat} :
    g.edgeBetween v f = .ok e ↔ edgeTo (g.linksAt (.var v)) f = some e := by
  cases hv : g.vars[v]? with
  | none => simp [edgeBetween, variableAt, edgeTo, linksAt, hv]
  | some var =>
    simp only [edgeBetween, variableAt, edgeTo, linksAt, hv, Option.map_some, Option.getD_some]
    cases var.links.find? (·.neighbor = f) <;> simp

namespace WellFormed

variable [Energy E] {g : Graph E} (h : g.WellFormed)

include h

theorem mem_linksAt_var {v f e : Nat} :
    (⟨f, e⟩ : Link) ∈ g.linksAt (.var v) ↔ g.edges[e]? = some ⟨v, f⟩ := by
  simp only [h.mem_linksAt, Edge.far, Option.ite_none_right_eq_some, Option.some.injEq]
  constructor
  · rintro ⟨edge, hedge, rfl, rfl⟩
    exact hedge
  · exact fun he => ⟨_, he, rfl, rfl⟩

theorem mem_linksAt_factor {v f e : Nat} :
    (⟨v, e⟩ : Link) ∈ g.linksAt (.factor f) ↔ g.edges[e]? = some ⟨v, f⟩ := by
  simp only [h.mem_linksAt, Edge.far, Option.ite_none_right_eq_some, Option.some.injEq]
  constructor
  · rintro ⟨edge, hedge, rfl, rfl⟩
    exact hedge
  · exact fun he => ⟨_, he, rfl, rfl⟩

theorem link_unique_factor {f : Nat} {l l' : Link} (hl : l ∈ g.linksAt (.factor f))
    (hl' : l' ∈ g.linksAt (.factor f)) (hn : l.neighbor = l'.neighbor) : l = l' := by
  have hf : f < g.factors.size := hasNode_of_mem_linksAt hl
  have hlinks : g.linksAt (.factor f) = g.factors[f].links := by simp [linksAt, hf]
  rw [hlinks] at hl hl'
  exact List.inj_on_of_nodup_map (h.valid_factor _ (Array.getElem_mem hf)).nodup hl hl' hn

/-- A node has at most one edge to each neighbor. For a variable this follows from the factors,
whose operands are distinct. -/
theorem link_unique {id : NodeId} {l l' : Link} (hl : l ∈ g.linksAt id) (hl' : l' ∈ g.linksAt id)
    (hn : l.neighbor = l'.neighbor) : l = l' := by
  cases id with
  | factor f => exact h.link_unique_factor hl hl' hn
  | var v =>
    obtain ⟨f, e⟩ := l
    obtain ⟨f', e'⟩ := l'
    obtain rfl : f = f' := hn
    have he := h.mem_linksAt_factor.2 (h.mem_linksAt_var.1 hl)
    have he' := h.mem_linksAt_factor.2 (h.mem_linksAt_var.1 hl')
    simpa using h.link_unique_factor he he' rfl

theorem edgeBetween_eq_ok_iff {v f e : Nat} :
    g.edgeBetween v f = .ok e ↔ g.edgeAt e = .ok ⟨v, f⟩ := by
  rw [edgeBetween_eq_ok, edgeTo_eq_some fun _ hl _ hl' => h.link_unique hl hl',
    h.mem_linksAt_var, edgeAt_eq_ok]

theorem edgeTo_factor_iff {v f e : Nat} :
    (∃ factor, g.factorAt f = .ok factor ∧ edgeTo factor.links v = some e) ↔
      g.edgeAt e = .ok ⟨v, f⟩ := by
  have hto : edgeTo (g.linksAt (.factor f)) v = some e ↔ g.edges[e]? = some ⟨v, f⟩ := by
    rw [edgeTo_eq_some fun _ hl _ hl' => h.link_unique hl hl', h.mem_linksAt_factor]
  rw [edgeAt_eq_ok, ← hto]
  unfold factorAt
  cases hf : g.factors[f]? <;> simp [linksAt, hf, edgeTo]

/-- The name of a variable and its number tell each other. -/
theorem idOf_eq_ok_iff {name : String} {v : Nat} :
    g.idOf name = .ok v ↔ v < g.vars.size ∧ g.nameOf v = name := by
  have hname : ∀ {i : Nat} (hi : i < g.vars.size), g.nameOf i = (g.vars[i]).name := by
    intro i hi
    simp [nameOf, hi]
  have hunique : ∀ {i j : Nat} (hi : i < g.vars.size) (hj : j < g.vars.size),
      (g.vars[i]).name = (g.vars[j]).name → i = j := by
    intro i j hi hj hij
    have hi' : i < (g.vars.toList.map (·.name)).length := by simpa using hi
    have hj' : j < (g.vars.toList.map (·.name)).length := by simpa using hj
    have hget : (g.vars.toList.map (·.name))[i] = (g.vars.toList.map (·.name))[j] := by
      simpa using hij
    exact h.names_nodup.getElem_inj_iff.1 hget
  unfold idOf
  cases hf : g.vars.findIdx? (·.name = name) with
  | none =>
    simp only [reduceCtorEq, false_iff, not_and]
    intro hv hn
    rw [hname hv] at hn
    simpa [hn] using Array.findIdx?_eq_none_iff.1 hf _ (Array.getElem_mem hv)
  | some i =>
    obtain ⟨hi, hin, -⟩ := Array.findIdx?_eq_some_iff_getElem.1 hf
    have hin : (g.vars[i]).name = name := by simpa using hin
    simp only [Except.ok.injEq]
    constructor
    · rintro rfl
      exact ⟨hi, (hname hi).trans hin⟩
    · rintro ⟨hv, hn⟩
      exact hunique hi hv (hin.trans ((hname hv).symm.trans hn).symm)

theorem domainSizes_table {factor : Factor E} (hf : factor ∈ g.factors)
    {t : Shared (Table E)} (ht : factor.potential = .table t) :
    g.domainSizes (neighborsOf factor.links) = .ok t.content.sizes := by
  have hs := (h.valid_factor factor hf).suits
  rw [ht] at hs
  rw [hs.2]
  exact domainSizes_of_lt fun v hv => h.lt_of_mem_neighborsOf hf hv

/-- An input that is there has one energy per value, none of them `bot` or invalid. -/
theorem input_admissible {var : Variable E} (hv : var ∈ g.vars) {m : Message E}
    (hm : var.input = some m) : m.length = var.domain.content.size ∧
      ∀ x ∈ m, Energy.isNaN x = false ∧ x ≠ Energy.bot := by
  have hvalid := h.valid_variable var hv
  refine ⟨hvalid.length_input m hm, fun x hx => ?_⟩
  simpa [Energy.isAdmissible] using hvalid.admissible m hm x hx

theorem pairwise_edgesOf {var : Variable E} (hv : var ∈ g.vars) :
    (edgesOf var.links).Pairwise (· < ·) := by
  obtain ⟨v, hv⟩ := Array.mem_iff_getElem?.1 hv
  have hp := h.pairwise_incident (.var v)
  simpa [incident, linksAt, hv] using hp

end WellFormed

variable [LogEnergy E]

/-- In every graph that changes make of the empty one, refused changes included, an edge number
stands for the same pair of nodes in the list of edges, at the variable and at the factor. Edges
are numbered without a gap in the order of the factors, the factors list their operands as they
were added, and sizes, inputs, fixed values and names are as the domains and the names require. -/
theorem history_consistent (changes : List (Change E)) :
    let g := changes.foldl Graph.perform ({} : Graph E)
    (∀ v f e, (g.edgeAt e = .ok ⟨v, f⟩ ↔ g.edgeBetween v f = .ok e) ∧
      (g.edgeAt e = .ok ⟨v, f⟩ ↔
        ∃ factor, g.factorAt f = .ok factor ∧ edgeTo factor.links v = some e)) ∧
    ((∀ e, (∃ edge, g.edgeAt e = .ok edge) ↔ e < g.edges.size) ∧
      g.factors.toList.flatMap (fun factor => edgesOf factor.links) = List.range g.edges.size) ∧
    (g.factors.toList.mapIdx (fun f factor => (f, neighborsOf factor.links)) =
      ({} : Graph E).additions changes) ∧
    (∀ factor ∈ g.factors, (neighborsOf factor.links).Nodup ∧
      (∃ start, edgesOf factor.links = List.range' start factor.links.length) ∧
      ∀ t, factor.potential = .table t →
        g.domainSizes (neighborsOf factor.links) = .ok t.content.sizes) ∧
    (∀ var ∈ g.vars, (edgesOf var.links).Pairwise (· < ·) ∧
      (∀ m, var.input = some m → m.length = var.domain.content.size ∧
        ∀ x ∈ m, Energy.isNaN x = false ∧ x ≠ Energy.bot) ∧
      ∀ i, var.fixed = some i → i < var.domain.content.size) ∧
    ∀ name v, g.idOf name = .ok v ↔ v < g.vars.size ∧ g.nameOf v = name := by
  intro g
  have hr : g.Reachable := Reachable.empty.foldl_perform changes
  have h := hr.wellFormed
  refine ⟨fun v f e => ⟨h.edgeBetween_eq_ok_iff.symm, h.edgeTo_factor_iff.symm⟩, ⟨?_, ?_⟩, ?_, ?_,
    ?_, fun name v => h.idOf_eq_ok_iff⟩
  · intro e
    simp only [edgeAt_eq_ok, Array.getElem?_eq_some_iff, exists_comm (α := Edge)]
    simp
  · exact Reachable.empty.gapless_foldl rfl changes
  · have hlists := Reachable.empty.operandLists_foldl changes
    simpa [operandLists] using hlists
  · intro factor hf
    have hvalid := h.valid_factor factor hf
    exact ⟨hvalid.nodup, hvalid.consecutive, fun t ht => h.domainSizes_table hf ht⟩
  · intro var hv
    exact ⟨h.pairwise_edgesOf hv, fun m hm => h.input_admissible hv hm,
      (h.valid_variable var hv).fixed⟩

/-- Two bits tied by one factor and one of them under another; the refused changes repeat a name,
an operand, and name a variable that is not there. -/
private def tied : List (Change Float) :=
  [.addVariable "x" .bit, .addVariable "y" .bit, .addVariable "x" .bit,
    .addCustom .equality [1, 0], .addCustom .equality [0, 0], .fixValue 0 (some 1),
    .fixValue 0 (some 2), .setInput 1 (some [0.5, 0]), .addCustom .equality [1],
    .setInput 7 none]

theorem history_consistent_tied : let g := tied.foldl Graph.perform ({} : Graph Float)
    g.edgeBetween 0 0 = .ok 1 ∧ g.edgeAt 1 = .ok ⟨0, 0⟩ ∧
      g.operandLists = [(0, [1, 0]), (1, [1])] ∧ g.idOf "y" = .ok 1 ∧ g.nameOf 1 = "y" := by
  intro g
  obtain ⟨hadj, -, hops, -, -, hname⟩ := history_consistent tied
  have he : g.edgeBetween 0 0 = .ok 1 := by decide +kernel
  have hid : g.idOf "y" = .ok 1 := by decide +kernel
  have hadded : ({} : Graph Float).additions tied = [(0, [1, 0]), (1, [1])] := by decide +kernel
  exact ⟨he, (hadj 0 0 1).1.2 he, hops.trans hadded, hid, ((hname "y" 1).1 hid).2⟩

end MinSum.Graph
