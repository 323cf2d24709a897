import MinSum.Proofs.Graph.History
import MinSum.Proofs.Graph.Sharing
import MinSum.Proofs.Interning.Content

/-! Which domains and tables a model graph shares after any sequence of changes, refused ones
included: those of the same content. A table can stay interned although its factor was refused, and
is shared with the factors that are given it later. -/
namespace MinSum.Graph

variable {E : Type}

def heldDomain (g : Graph E) (v : Nat) : Option (Shared Domain) := g.vars[v]?.map (·.domain)

def Potential.table? : Potential E → Option (Shared (Table E))
  | .table t => some t
  | .custom _ => none

def heldTable (g : Graph E) (f : Nat) : Option (Shared (Table E)) :=
  g.factors[f]?.bind (·.potential.table?)

def domainKey (g : Graph E) (v : Nat) : Option Nat := (g.heldDomain v).map (·.key)

def tableKey (g : Graph E) (f : Nat) : Option Nat := (g.heldTable f).map (·.key)

theorem heldDomain_attach (g : Graph E) (potential : Potential E) (operands : List Nat) (v : Nat) :
    (g.attach potential operands).2.heldDomain v = g.heldDomain v := by
  rw [heldDomain, getElem?_vars_attach, Option.map_map]
  rfl

theorem heldTable_attach (g : Graph E) (potential : Potential E) (operands : List Nat) (f : Nat) :
    (g.attach potential operands).2.heldTable f =
      if f = g.factors.size then potential.table? else g.heldTable f := by
  rw [heldTable, factors_attach, Array.getElem?_push]
  split <;> rfl

theorem heldDomain_size (g : Graph E) : g.heldDomain g.vars.size = none := by
  simp [heldDomain]

theorem heldTable_size (g : Graph E) : g.heldTable g.factors.size = none := by
  simp [heldTable]

section

variable [LogEnergy E]

/-- The tables that are interned when the operands of a change are compared with each other. By then
a table has been found to suit their domains. -/
def tablesAfter (g : Graph E) : Change E → Interner (Table E)
  | .addTable table _ operands =>
    if table.portCount = operands.length ∧ g.checkPorts operands table.sizes = .ok () then
      (g.tables.intern table).2
    else g.tables
  | _ => g.tables

/-- The graph after a change. What has been interned by then is either kept in any case, or only if
the change is not refused. -/
def undergo (keeps : Bool) (g : Graph E) (c : Change E) : Graph E :=
  if keeps then { g.perform c with tables := g.tablesAfter c } else g.perform c

/-- The number of the variable or factor that a change adds. -/
def numberOf (g : Graph E) : Change E → Option Nat
  | .addVariable name domain => ((g.addVariable name domain).map Prod.fst).toOption
  | .addTable table _ operands => ((g.addTable table operands).map Prod.fst).toOption
  | .addCustom custom operands => ((g.addCustom custom operands).map Prod.fst).toOption
  | _ => none

/-- What becomes of a graph by a change, and the number of what is added. -/
inductive Undergoes (g : Graph E) : Change E → Option Nat → Graph E → Prop where
  | addsVariable (name : String) (domain : Domain) :
    Undergoes g (.addVariable name domain) (some g.vars.size)
      { g with
        vars := g.vars.push { name, domain := (g.domains.intern domain).1 }
        domains := (g.domains.intern domain).2 }
  | addsTable (table : Table E) (built : table.Built) (operands : List Nat) :
    Undergoes g (.addTable table built operands) (some g.factors.size)
      (({ g with tables := (g.tables.intern table).2 } : Graph E).attach
        (.table (g.tables.intern table).1) operands).2
  | addsCustom (custom : CustomFactor E) (operands : List Nat) :
    Undergoes g (.addCustom custom operands) (some g.factors.size)
      (g.attach (.custom custom) operands).2
  | setsInput {c : Change E} {v : Nat} {g' : Graph E} (h : g.ChangesInput v g') :
    Undergoes g c none g'
  | refused (c : Change E) : Undergoes g c none g
  | keepsTable (table : Table E) (built : table.Built) (operands : List Nat) :
    Undergoes g (.addTable table built operands) none
      { g with tables := (g.tables.intern table).2 }

theorem undergoes_of_result {g : Graph E} {c : Change E} {r : Except (GraphError E) (Nat × Graph E)}
    (hr : ∀ n g', r = .ok (n, g') → g.Undergoes c (some n) g') :
    g.Undergoes c (r.map Prod.fst).toOption (g.orSame (r.map Prod.snd)) := by
  cases r with
  | error e => exact .refused c
  | ok x => exact hr x.1 x.2 rfl

theorem undergoes_of_input {g : Graph E} {v : Nat} {r : Except (GraphError E) (Graph E)}
    (hr : ∀ g', r = .ok g' → g.ChangesInput v g') (c : Change E) :
    g.Undergoes c none (g.orSame r) := by
  cases r with
  | error e => exact .refused c
  | ok g' => exact .setsInput (hr g' rfl)

theorem WellFormed.undergoes_perform {g : Graph E} (hg : g.WellFormed) (c : Change E) :
    g.Undergoes c (g.numberOf c) (g.perform c) := by
  cases c with
  | addVariable name domain =>
    refine undergoes_of_result fun v g' ha => ?_
    unfold Graph.addVariable at ha
    split at ha
    · contradiction
    · obtain ⟨rfl, rfl⟩ := Prod.mk.inj (Except.ok.inj ha)
      exact .addsVariable name domain
  | addTable table built operands =>
    refine undergoes_of_result fun f g' ha => ?_
    obtain ⟨-, -, -, he⟩ := addTable_eq_attach ha
    obtain ⟨rfl, rfl⟩ := Prod.mk.inj he
    exact .addsTable table built operands
  | addCustom custom operands =>
    refine undergoes_of_result fun f g' ha => ?_
    obtain ⟨-, -, -, he⟩ := addCustom_eq_ok ha
    obtain ⟨rfl, rfl⟩ := Prod.mk.inj he
    exact .addsCustom custom operands
  | setInput v input => exact undergoes_of_input (fun _ => changesInput_of_setInput hg) _
  | setInputProbabilities v p =>
    exact undergoes_of_input (fun _ => changesInput_of_setInputProbabilities hg) _
  | fixValue v fixed => exact undergoes_of_input (fun _ => changesInput_of_fixValue hg) _
  | fixValueOf v value => exact undergoes_of_input (fun _ => changesInput_of_fixValueOf hg) _

/-- An accepted table is interned in any case, a refused one may be. -/
theorem undergoes_addTable_keeping (g : Graph E) (table : Table E) (built : table.Built)
    (operands : List Nat) : g.Undergoes (.addTable table built operands)
      (g.numberOf (.addTable table built operands))
      (g.undergo true (.addTable table built operands)) := by
  rw [undergo, if_pos rfl, tablesAfter, numberOf, Graph.perform]
  cases ha : g.addTable table operands with
  | error e =>
    split
    · exact .keepsTable table built operands
    · exact .refused _
  | ok x =>
    obtain ⟨hcount, hports, -, he⟩ := addTable_eq_attach ha
    obtain rfl : x = _ := he
    rw [if_pos ⟨hcount, hports⟩]
    exact .addsTable table built operands

theorem Undergoes.tables_eq {g g' : Graph E} {c : Change E} {n : Option Nat}
    (h : g.Undergoes c n g') (hc : ∀ table built operands, c ≠ .addTable table built operands) :
    g'.tables = g.tables := by
  cases h with
  | addsTable table built operands => exact absurd rfl (hc table built operands)
  | keepsTable table built operands => exact absurd rfl (hc table built operands)
  | setsInput h =>
    obtain ⟨_, _, _, -, -, rfl⟩ := h
    rfl
  | addsVariable | addsCustom | refused => rfl

/-- Nothing else can become of a graph. -/
theorem WellFormed.undergoes {g : Graph E} (hg : g.WellFormed) (keeps : Bool) (c : Change E) :
    g.Undergoes c (g.numberOf c) (g.undergo keeps c) := by
  have hperform := hg.undergoes_perform c
  cases keeps with
  | false => exact hperform
  | true =>
    cases c with
    | addTable table built operands => exact g.undergoes_addTable_keeping table built operands
    | _ =>
      have htables := hperform.tables_eq (by simp)
      rw [undergo, if_pos rfl, tablesAfter, ← htables]
      · exact hperform
      · simp

theorem WellFormed.perform {g : Graph E} (hg : g.WellFormed) (c : Change E) :
    (g.perform c).WellFormed := by
  cases c with
  | addVariable name domain => exact orSame_grown_keeps hg fun _ _ => hg.addVariable
  | addTable table built operands => exact orSame_grown_keeps hg fun _ _ => hg.addTable built
  | addCustom custom operands => exact orSame_grown_keeps hg fun _ _ => hg.addCustom
  | setInput v input =>
    exact orSame_keeps hg fun _ h => (changesInput_of_setInput hg h).wellFormed hg
  | setInputProbabilities v p =>
    exact orSame_keeps hg fun _ h => (changesInput_of_setInputProbabilities hg h).wellFormed hg
  | fixValue v fixed =>
    exact orSame_keeps hg fun _ h => (changesInput_of_fixValue hg h).wellFormed hg
  | fixValueOf v value =>
    exact orSame_keeps hg fun _ h => (changesInput_of_fixValueOf hg h).wellFormed hg

theorem WellFormed.undergo {g : Graph E} (hg : g.WellFormed) (keeps : Bool) (c : Change E) :
    (g.undergo keeps c).WellFormed := by
  cases keeps with
  | false => exact hg.perform c
  | true => exact (hg.perform c).withTables _

end

/-- A graph and the changes that it has undergone, in order, each with the number of what it has
added. -/
structure History (E : Type) [Energy E] where
  graph : Graph E := {}
  log : List (Change E × Option Nat) := []

namespace History

section

variable [Energy E]

def AskedDomain (h : History E) (v : Nat) (domain : Domain) : Prop :=
  ∃ name, (.addVariable name domain, some v) ∈ h.log

def AskedTable (h : History E) (f : Nat) (table : Table E) : Prop :=
  ∃ built operands, (.addTable table built operands, some f) ∈ h.log

/-- What variables and factors hold is what they were added with, kept under its key. -/
structure Accounted (h : History E) : Prop where
  domains : h.graph.domains.Provides h.AskedDomain h.graph.heldDomain
  tables : h.graph.tables.Provides h.AskedTable h.graph.heldTable
  built : ∀ t ∈ h.graph.tables.contents, t.Built

theorem accounted_empty : Accounted ({} : History E) := by
  refine ⟨Interner.Provides.empty.congr ?_ ?_, Interner.Provides.empty.congr ?_ ?_, by simp⟩ <;>
    simp [AskedDomain, AskedTable, heldDomain, heldTable]

end

variable [LogEnergy E] {h : History E} {c : Change E} {n : Option Nat} {g : Graph E}

theorem askedDomain_concat (g : Graph E) (v : Nat) (domain : Domain) :
    AskedDomain ⟨g, h.log ++ [(c, n)]⟩ v domain ↔
      h.AskedDomain v domain ∨ n = some v ∧ ∃ name, c = .addVariable name domain := by
  simp only [AskedDomain, List.mem_append, List.mem_singleton, Prod.mk.injEq, exists_or,
    exists_and_right, and_comm (a := n = some v), eq_comm]

theorem askedTable_concat (g : Graph E) (f : Nat) (table : Table E) :
    AskedTable ⟨g, h.log ++ [(c, n)]⟩ f table ↔
      h.AskedTable f table ∨ n = some f ∧ ∃ built operands, c = .addTable table built operands := by
  simp only [AskedTable, List.mem_append, List.mem_singleton, Prod.mk.injEq, exists_or,
    exists_and_right, and_comm (a := n = some f), eq_comm]

namespace Accounted

theorem domains_undergoes (ha : h.Accounted) (hs : h.graph.Undergoes c n g) :
    g.domains.Provides (AskedDomain ⟨g, h.log ++ [(c, n)]⟩) g.heldDomain := by
  cases hs with
  | addsVariable name domain =>
    refine ha.domains.hand h.graph.heldDomain_size (x := domain) (fun v d => ?_) fun v => ?_
    · simp [askedDomain_concat, eq_comm]
    · rw [heldDomain, Array.getElem?_push]
      split <;> rfl
  | addsTable table built operands =>
    exact ha.domains.congr (by simp [askedDomain_concat]) fun v => heldDomain_attach _ _ _ v
  | addsCustom custom operands =>
    exact ha.domains.congr (by simp [askedDomain_concat]) fun v => heldDomain_attach _ _ _ v
  | setsInput hinput =>
    have hheld : ∀ v, g.heldDomain v = h.graph.heldDomain v :=
      hinput.map_vars (·.domain) fun _ _ _ => rfl
    obtain ⟨_, _, _, -, -, rfl⟩ := hinput
    exact ha.domains.congr (by simp [askedDomain_concat]) hheld
  | refused c => exact ha.domains.congr (by simp [askedDomain_concat]) fun _ => rfl
  | keepsTable table built operands =>
    exact ha.domains.congr (by simp [askedDomain_concat]) fun _ => rfl

theorem tables_undergoes (ha : h.Accounted) (hs : h.graph.Undergoes c n g) :
    g.tables.Provides (AskedTable ⟨g, h.log ++ [(c, n)]⟩) g.heldTable := by
  cases hs with
  | addsVariable name domain =>
    exact ha.tables.congr (by simp [askedTable_concat]) fun _ => rfl
  | addsTable table built operands =>
    refine ha.tables.hand h.graph.heldTable_size (x := table) (fun f t => ?_)
      fun f => heldTable_attach _ _ _ f
    rw [askedTable_concat]
    refine or_congr_right ⟨?_, ?_⟩
    · rintro ⟨hf, _, _, hc⟩
      exact ⟨(Option.some.inj hf).symm, (Change.addTable.inj hc).1.symm⟩
    · rintro ⟨rfl, rfl⟩
      exact ⟨rfl, built, operands, rfl⟩
  | addsCustom custom operands =>
    refine ha.tables.congr (by simp [askedTable_concat]) fun f => ?_
    rw [heldTable_attach]
    split
    · rename_i hf
      rw [hf, heldTable_size]
      rfl
    · rfl
  | setsInput hinput =>
    obtain ⟨_, _, _, -, -, rfl⟩ := hinput
    exact ha.tables.congr (by simp [askedTable_concat]) fun _ => rfl
  | refused c => exact ha.tables.congr (by simp [askedTable_concat]) fun _ => rfl
  | keepsTable table built operands =>
    exact (ha.tables.intern table).congr (by simp [askedTable_concat]) fun _ => rfl

theorem built_undergoes (ha : h.Accounted) (hs : h.graph.Undergoes c n g) :
    ∀ t ∈ g.tables.contents, t.Built := by
  have hintern : ∀ table : Table E, table.Built →
      ∀ t ∈ (h.graph.tables.intern table).2.contents, t.Built := by
    intro table built t ht
    rcases Interner.mem_contents_intern.1 ht with ht | rfl
    · exact ha.built t ht
    · exact built
  cases hs with
  | addsTable table built operands => exact hintern table built
  | keepsTable table built operands => exact hintern table built
  | setsInput hinput =>
    obtain ⟨_, _, _, -, -, rfl⟩ := hinput
    exact ha.built
  | addsVariable | addsCustom | refused => exact ha.built

end Accounted

def next (keeps : Bool) (h : History E) (c : Change E) : History E :=
  ⟨h.graph.undergo keeps c, h.log ++ [(c, h.graph.numberOf c)]⟩

variable (keeps : Bool)

theorem Accounted.next (ha : h.Accounted) (hg : h.graph.WellFormed) (c : Change E) :
    (h.next keeps c).Accounted :=
  have hs := hg.undergoes keeps c
  ⟨ha.domains_undergoes hs, ha.tables_undergoes hs, ha.built_undergoes hs⟩

theorem Accounted.foldl_next (ha : h.Accounted) (hg : h.graph.WellFormed)
    (changes : List (Change E)) : (changes.foldl (History.next keeps) h).Accounted := by
  induction changes generalizing h with
  | nil => exact ha
  | cons c changes ih => exact ih (ha.next keeps hg c) (hg.undergo keeps c)

/-- The log leaves no change out. -/
theorem log_foldl_next (h : History E) (changes : List (Change E)) :
    (changes.foldl (next keeps) h).log.map Prod.fst = h.log.map Prod.fst ++ changes := by
  induction changes generalizing h with
  | nil => simp
  | cons c changes ih => simp [ih, next]

/-- Variables share a domain exactly if they were added with domains of one kind and of the same
values in the same order. Factors share a table exactly if they were added with tables whose sizes
are the same and whose rows come to the same, bit by bit. -/
structure SharesEqual (h : History Float) : Prop where
  domain_asked : ∀ v domain,
    h.AskedDomain v domain ↔ ∃ d, h.graph.heldDomain v = some d ∧ d.content = domain
  domainKey_eq_iff : ∀ v v' domain domain', h.AskedDomain v domain → h.AskedDomain v' domain' →
    (h.graph.domainKey v = h.graph.domainKey v' ↔
      domain.kind = domain'.kind ∧ domain.values.toList = domain'.values.toList)
  search_domain : ∀ hash domain, h.graph.domains.search Domain.content Domain.hashed hash domain =
    h.graph.domains.contents.findIdx? (· = domain)
  table_asked : ∀ f table,
    h.AskedTable f table ↔ ∃ t, h.graph.heldTable f = some t ∧ t.content = table
  tableKey_eq_iff : ∀ f f' table table', h.AskedTable f table → h.AskedTable f' table' →
    ∀ sizes sizes' rows rows', Table.ofRows sizes rows = .ok table →
      Table.ofRows sizes' rows' = .ok table' →
        (h.graph.tableKey f = h.graph.tableKey f' ↔ sizes = sizes' ∧
          (listed rows).map Row.bits = (listed rows').map Row.bits)
  search_table : ∀ hash table, table.Built →
    h.graph.tables.search Table.content Table.hashed hash table =
      h.graph.tables.contents.findIdx? (· = table)

theorem Accounted.sharesEqual {h : History Float} (ha : h.Accounted) : h.SharesEqual where
  domain_asked := ha.domains.asked_iff
  domainKey_eq_iff v v' domain domain' hv hv' := by
    rw [domainKey, domainKey, ha.domains.key_eq_iff hv hv', ← Domain.content_inj]
    exact Prod.ext_iff
  search_domain hash domain := Domain.search_eq _ _ hash domain
  table_asked := ha.tables.asked_iff
  tableKey_eq_iff f f' table table' hf hf' sizes sizes' rows rows' hok hok' := by
    have hbuilt : table.Built := ⟨sizes, rows, hok⟩
    have hbuilt' : table'.Built := ⟨sizes', rows', hok'⟩
    rw [tableKey, tableKey, ha.tables.key_eq_iff hf hf', ← Table.Built.content_inj hbuilt hbuilt',
      Table.content_eq_iff_listed hok hok']
  search_table hash table hbuilt := Table.search_eq ha.built _ hash hbuilt

/-- Equal contents are shared, and nothing else is: in every graph that changes make of the empty
one, whether refused tables stay interned or not, and by interners of domains and of tables on their
own, in whatever order they are used. -/
theorem shares_equal_contents (keeps : Bool) (changes : List (Change Float)) (domains : List Domain)
    (tables : List (Table Float)) (built : ∀ t ∈ tables, t.Built) :
    (changes.foldl (next keeps) ({} : History Float)).log.map Prod.fst = changes ∧
      (changes.foldl (next keeps) ({} : History Float)).SharesEqual ∧
      Interner.Serves Domain.content Domain.hashed (fun _ => True) domains
        (Interner.internAll {} domains).1 (Interner.internAll {} domains).2 ∧
      Interner.Serves Table.content Table.hashed Table.Built tables
        (Interner.internAll {} tables).1 (Interner.internAll {} tables).2 := by
  have ha : (changes.foldl (next keeps) ({} : History Float)).Accounted :=
    accounted_empty.foldl_next keeps wellFormed_empty changes
  refine ⟨log_foldl_next keeps {} changes, ha.sharesEqual, ?_, ?_⟩
  · exact Interner.serves_internAll (fun _ _ _ _ => Domain.content_inj.1) fun _ _ => trivial
  · exact Interner.serves_internAll (fun _ _ hx hy => (Table.Built.content_inj hx hy).1) built

private def swapped : Domain := .ofStored .enumerated [.int 1, .int 0]

/-- The first row is kept without its sign and the last one left out. -/
private def crossedRows : List (Row Float) := [⟨[0, 1], -0.0⟩, ⟨[1, 0], 0.5⟩, ⟨[0, 0], Energy.top⟩]

private def repeatedRows : List (Row Float) := [⟨[0, 1], 0.0⟩, ⟨[1, 0], 0.5⟩, ⟨[0, 1], -0.0⟩]

private def crossed : Table Float := .assemble [2, 2] #[⟨[0, 1], 0⟩, ⟨[1, 0], 0.5⟩]

private def backward : Table Float := .assemble [2, 2] #[⟨[1, 0], 0.5⟩, ⟨[0, 1], 0⟩]

private theorem crossed_eq : Table.ofRows [2, 2] crossedRows = .ok crossed := by decide +kernel

private theorem repeated_eq : Table.ofRows [2, 2] repeatedRows = .ok crossed := by decide +kernel

private theorem backward_eq : Table.ofRows [2, 2] crossedRows.reverse = .ok backward := by
  decide +kernel

/-- A name and an operand are repeated. The table whose operand is repeated is interned first. -/
private def retried : List (Change Float) :=
  [.addVariable "x" .bit, .addVariable "y" swapped, .addVariable "x" swapped,
    .addVariable "z" (.ofStored .enumerated [.int 0, .int 1, .int 0]),
    .addTable crossed ⟨_, _, crossed_eq⟩ [0, 0], .addTable backward ⟨_, _, backward_eq⟩ [0, 1],
    .addTable crossed ⟨_, _, crossed_eq⟩ [2, 1], .addCustom .equality [0, 2],
    .addTable crossed ⟨_, _, repeated_eq⟩ [1, 0]]

theorem shares_equal_contents_retried :
    let h := retried.foldl (next true) ({} : History Float)
    (h.graph.domainKey 0 = h.graph.domainKey 2 ∧ h.graph.domainKey 0 ≠ h.graph.domainKey 1) ∧
      (h.graph.tableKey 1 = h.graph.tableKey 3 ∧ h.graph.tableKey 0 ≠ h.graph.tableKey 1 ∧
        h.graph.heldTable 0 = some ⟨1, backward⟩) ∧
      (Interner.internAll {} [Domain.bit, swapped, .bit]).2.size = 2 ∧
      (Interner.internAll {} [crossed, backward, crossed]).2.size = 2 := by
  intro h
  have hbuilt : ∀ t ∈ [crossed, backward, crossed], t.Built := by
    simp only [List.mem_cons, List.not_mem_nil, or_false]
    rintro t (rfl | rfl | rfl)
    · exact ⟨_, _, crossed_eq⟩
    · exact ⟨_, _, backward_eq⟩
    · exact ⟨_, _, crossed_eq⟩
  obtain ⟨-, hshares, hdomains, htables⟩ :=
    shares_equal_contents true retried [.bit, swapped, .bit] [crossed, backward, crossed] hbuilt
  have hx : h.AskedDomain 0 .bit := (hshares.domain_asked _ _).2 ⟨⟨0, .bit⟩, by decide +kernel, rfl⟩
  have hy : h.AskedDomain 1 swapped :=
    (hshares.domain_asked _ _).2 ⟨⟨1, swapped⟩, by decide +kernel, rfl⟩
  have hz : h.AskedDomain 2 .bit := (hshares.domain_asked _ _).2 ⟨⟨0, .bit⟩, by decide +kernel, rfl⟩
  have hheld : h.graph.heldTable 0 = some ⟨1, backward⟩ := by decide +kernel
  have hbackward : h.AskedTable 0 backward := (hshares.table_asked _ _).2 ⟨_, hheld, rfl⟩
  have hcrossed : h.AskedTable 1 crossed :=
    (hshares.table_asked _ _).2 ⟨⟨0, crossed⟩, by decide +kernel, rfl⟩
  have hrepeated : h.AskedTable 3 crossed :=
    (hshares.table_asked _ _).2 ⟨⟨0, crossed⟩, by decide +kernel, rfl⟩
  refine ⟨⟨?_, ?_⟩, ⟨?_, ?_, hheld⟩, ?_, ?_⟩
  · exact (hshares.domainKey_eq_iff _ _ _ _ hx hz).2 ⟨rfl, rfl⟩
  · rw [ne_eq, hshares.domainKey_eq_iff _ _ _ _ hx hy]
    decide +kernel
  · exact (hshares.tableKey_eq_iff _ _ _ _ hcrossed hrepeated _ _ _ _ crossed_eq repeated_eq).2
      ⟨rfl, by decide +kernel⟩
  · rw [ne_eq, hshares.tableKey_eq_iff _ _ _ _ hbackward hcrossed _ _ _ _ backward_eq crossed_eq]
    decide +kernel
  · rw [hdomains.size_eq]
    decide +kernel
  · rw [htables.size_eq]
    decide +kernel

end History

end MinSum.Graph
