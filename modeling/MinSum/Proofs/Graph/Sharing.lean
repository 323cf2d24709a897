import MinSum.Proofs.Graph.Reachable

/-! Which factors share a table: those whose tables have the same content. -/
namespace MinSum.Graph

variable {E : Type} {g g' : Graph E}

/-- The graph keeps the table of each factor under its key. -/
def Keyed (g : Graph E) : Prop :=
  ∀ factor ∈ g.factors, ∀ t, factor.potential = .table t →
    g.tables.contents[t.key]? = some t.content

/-- The factors are given by one table, not only by equal ones. -/
def Shares (g : Graph E) (f f' : Nat) : Prop :=
  ∃ t, g.factors[f]?.map (·.potential) = some (.table t) ∧
    g.factors[f']?.map (·.potential) = some (.table t)

def tableOf (g : Graph E) (f : Nat) : Option (Table E) :=
  match g.factors[f]?.map Factor.potential with
  | some (.table t) => some t.content
  | _ => none

theorem tableOf_eq_some {f : Nat} {table : Table E} : g.tableOf f = some table ↔
    ∃ t, g.factors[f]?.map (·.potential) = some (.table t) ∧ t.content = table := by
  unfold tableOf
  split
  · rename_i t ht
    simp [ht]
  · rename_i hno
    constructor
    · intro h
      contradiction
    · rintro ⟨t, ht, -⟩
      exact absurd ht (hno t)

namespace Keyed

theorem empty : ({} : Graph E).Keyed := by
  intro factor hf
  simp at hf

theorem congr (h : g.Keyed) (hf : g'.factors = g.factors) (ht : g'.tables = g.tables) :
    g'.Keyed := by
  intro factor hmem
  rw [ht]
  exact h factor (hf ▸ hmem)

theorem intern [DecidableEq E] (h : g.Keyed) (table : Table E) :
    ({ g with tables := (g.tables.intern table).2 } : Graph E).Keyed :=
  fun factor hf t ht => Interner.getElem?_intern (h factor hf t ht)

theorem attach (h : g.Keyed) {potential : Potential E} (operands : List Nat)
    (hp : ∀ t, potential = .table t → g.tables.contents[t.key]? = some t.content) :
    (g.attach potential operands).2.Keyed := by
  intro factor hf
  rw [factors_attach] at hf
  rcases Array.mem_push.1 hf with hf | rfl
  · exact h factor hf
  · exact hp

/-- Tables are shared exactly where they are equal. -/
theorem shares_iff (h : g.Keyed) (f f' : Nat) :
    g.Shares f f' ↔ ∃ table, g.tableOf f = some table ∧ g.tableOf f' = some table := by
  have hkept : ∀ {f : Nat} {t : Shared (Table E)},
      g.factors[f]?.map (·.potential) = some (.table t) →
        g.tables.contents[t.key]? = some t.content := by
    intro f t hf
    obtain ⟨factor, hfac, hp⟩ := Option.map_eq_some_iff.1 hf
    exact h factor (Array.mem_of_getElem? hfac) t hp
  constructor
  · rintro ⟨t, hf, hf'⟩
    exact ⟨t.content, tableOf_eq_some.2 ⟨t, hf, rfl⟩, tableOf_eq_some.2 ⟨t, hf', rfl⟩⟩
  · rintro ⟨table, hf, hf'⟩
    obtain ⟨⟨key, content⟩, ht, rfl⟩ := tableOf_eq_some.1 hf
    obtain ⟨⟨key', content'⟩, ht', hc⟩ := tableOf_eq_some.1 hf'
    obtain rfl : content' = content := hc
    obtain rfl : key' = key := Interner.key_unique (hkept ht') (hkept ht)
    exact ⟨_, ht, ht'⟩

end Keyed

theorem keyed_addVariable (h : g.Keyed) {name : String} {domain : Domain} {v : Nat}
    (ha : g.addVariable name domain = .ok (v, g')) : g'.Keyed := by
  unfold addVariable at ha
  split at ha
  · contradiction
  · obtain ⟨-, rfl⟩ := Prod.mk.inj (Except.ok.inj ha)
    exact h.congr rfl rfl

theorem keyed_addTable [DecidableEq E] (h : g.Keyed) {table : Table E} {operands : List Nat}
    {f : Nat} (ha : g.addTable table operands = .ok (f, g')) : g'.Keyed := by
  obtain ⟨-, -, -, he⟩ := addTable_eq_attach ha
  obtain rfl : g' = _ := congrArg Prod.snd he
  refine (h.intern table).attach operands ?_
  rintro _ ⟨rfl⟩
  exact g.tables.getElem?_key_intern table

theorem keyed_addCustom (h : g.Keyed) {custom : CustomFactor E} {operands : List Nat} {f : Nat}
    (ha : g.addCustom custom operands = .ok (f, g')) : g'.Keyed := by
  obtain ⟨-, -, -, he⟩ := addCustom_eq_ok ha
  obtain rfl : g' = _ := congrArg Prod.snd he
  refine h.attach operands ?_
  intro t ht
  contradiction

theorem keyed_setInput [Energy E] (h : g.Keyed) {v : Nat} {input : Option (Message E)}
    (hs : g.setInput v input = .ok g') : g'.Keyed := by
  unfold setInput at hs
  simp only at hs
  split at hs
  · contradiction
  split at hs
  · contradiction
  obtain rfl := Except.ok.inj hs
  exact h.congr rfl rfl

theorem keyed_fixValue (h : g.Keyed) {v : Nat} {fixed : Option Nat}
    (hs : g.fixValue v fixed = .ok g') : g'.Keyed := by
  unfold fixValue at hs
  split at hs
  · contradiction
  split at hs
  · contradiction
  obtain rfl := Except.ok.inj hs
  exact h.congr rfl rfl

theorem keyed_setInputProbabilities {E : Type} [LogEnergy E] {g g' : Graph E} (h : g.Keyed)
    {v : Nat} {p : List E} (hs : g.setInputProbabilities v p = .ok g') : g'.Keyed := by
  unfold setInputProbabilities at hs
  split at hs
  · contradiction
  · exact keyed_setInput h hs

theorem keyed_fixValueOf (h : g.Keyed) {v : Nat} {value : Value}
    (hs : g.fixValueOf v value = .ok g') : g'.Keyed := by
  unfold fixValueOf at hs
  split at hs
  · contradiction
  split at hs
  · contradiction
  · exact keyed_fixValue h hs

theorem Reachable.keyed {E : Type} [LogEnergy E] {g : Graph E} (h : g.Reachable) : g.Keyed := by
  induction h with
  | empty => exact .empty
  | addVariable _ _ _ hg ih => exact keyed_addVariable ih hg
  | addTable _ _ _ _ hg ih => exact keyed_addTable ih hg
  | addCustom _ _ _ hg ih => exact keyed_addCustom ih hg
  | setInput _ _ _ hg ih => exact keyed_setInput ih hg
  | setInputProbabilities _ _ _ hg ih => exact keyed_setInputProbabilities ih hg
  | fixValue _ _ _ hg ih => exact keyed_fixValue ih hg
  | fixValueOf _ _ _ hg ih => exact keyed_fixValueOf ih hg

end MinSum.Graph
