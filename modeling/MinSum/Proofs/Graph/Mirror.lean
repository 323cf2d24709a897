import Mathlib.Data.List.Forall2
import MinSum.Proofs.Graph.Change

/-! Two graphs that differ in how their factors are given and in nothing else. Changes succeed or
fail alike on both, and keep them so. -/
namespace MinSum

/-- Both fail with the same error, or both succeed with related values. -/
def Agree {ε α β : Type} (R : α → β → Prop) (a : Except ε α) (b : Except ε β) : Prop :=
  (∃ e, a = .error e ∧ b = .error e) ∨ ∃ x y, a = .ok x ∧ b = .ok y ∧ R x y

structure Matched {α β : Type} (R : α → β → Prop) (as : Array α) (bs : Array β) : Prop where
  size : bs.size = as.size
  rel : ∀ (i : Nat) a b, as[i]? = some a → bs[i]? = some b → R a b

namespace Matched

variable {α β : Type} {R : α → β → Prop} {as : Array α} {bs : Array β}

theorem refl {R : α → α → Prop} (h : ∀ a, R a a) (as : Array α) : Matched R as as :=
  ⟨rfl, fun _ a _ ha hb => Option.some.inj (ha.symm.trans hb) ▸ h a⟩

theorem of_forall₂ {l : List α} {l' : List β} (h : List.Forall₂ R l l') :
    Matched R l.toArray l'.toArray := by
  refine ⟨h.length_eq.symm, fun i a b ha hb => ?_⟩
  rw [List.getElem?_toArray] at ha hb
  obtain ⟨hi, rfl⟩ := List.getElem?_eq_some_iff.1 ha
  obtain ⟨hi', rfl⟩ := List.getElem?_eq_some_iff.1 hb
  exact h.get hi hi'

variable (h : Matched R as bs)

include h

theorem getElem? (i : Nat) : (as[i]? = none ∧ bs[i]? = none) ∨
    ∃ a b, as[i]? = some a ∧ bs[i]? = some b ∧ R a b := by
  rcases Nat.lt_or_ge i as.size with hi | hi
  · have ha := Array.getElem?_eq_getElem hi
    have hb := Array.getElem?_eq_getElem (h.size ▸ hi : i < bs.size)
    exact .inr ⟨_, _, ha, hb, h.rel i _ _ ha hb⟩
  · exact .inl ⟨Array.getElem?_eq_none hi, Array.getElem?_eq_none (h.size ▸ hi)⟩

theorem imp {R' : α → β → Prop}
    (hR : ∀ (i : Nat) a b, as[i]? = some a → bs[i]? = some b → R a b → R' a b) :
    Matched R' as bs :=
  ⟨h.size, fun i a b ha hb => hR i a b ha hb (h.rel i a b ha hb)⟩

theorem map {γ δ : Type} {R' : γ → δ → Prop} {f : α → γ} {g : β → δ}
    (hfg : ∀ a b, R a b → R' (f a) (g b)) : Matched R' (as.map f) (bs.map g) := by
  refine ⟨by simp [h.size], fun i c d hc hd => ?_⟩
  rw [Array.getElem?_map, Option.map_eq_some_iff] at hc hd
  obtain ⟨a, ha, rfl⟩ := hc
  obtain ⟨b, hb, rfl⟩ := hd
  exact hfg a b (h.rel i a b ha hb)

theorem map_eq {γ : Type} {f : α → γ} {g : β → γ} (hfg : ∀ a b, R a b → g b = f a) :
    bs.toList.map g = as.toList.map f := by
  apply List.ext_getElem?
  intro i
  simp only [List.getElem?_map, Array.getElem?_toList]
  rcases h.getElem? i with ⟨ha, hb⟩ | ⟨a, b, ha, hb, hab⟩
  · rw [ha, hb]
    rfl
  · rw [ha, hb]
    exact congrArg some (hfg a b hab)

theorem setIfInBounds {a : α} {b : β} (hab : R a b) (i : Nat) :
    Matched R (as.setIfInBounds i a) (bs.setIfInBounds i b) := by
  refine ⟨by simp [h.size], fun j a' b' ha hb => ?_⟩
  rw [Array.getElem?_setIfInBounds] at ha hb
  split at ha
  · rename_i heq
    rw [if_pos heq, h.size] at hb
    split at ha
    · rename_i hi
      rw [if_pos hi] at hb
      obtain rfl := Option.some.inj ha
      obtain rfl := Option.some.inj hb
      exact hab
    · contradiction
  · rename_i hne
    rw [if_neg hne] at hb
    exact h.rel j a' b' ha hb

theorem push {a : α} {b : β} (hab : R a b) : Matched R (as.push a) (bs.push b) := by
  refine ⟨by simp [h.size], fun j a' b' ha hb => ?_⟩
  rw [Array.getElem?_push] at ha hb
  rw [h.size] at hb
  split at ha
  · rename_i heq
    rw [if_pos heq] at hb
    obtain rfl := Option.some.inj ha
    obtain rfl := Option.some.inj hb
    exact hab
  · rename_i hne
    rw [if_neg hne] at hb
    exact h.rel j a' b' ha hb

theorem modify {f : α → α} {g : β → β} (hfg : ∀ a b, R a b → R (f a) (g b)) (i : Nat) :
    Matched R (as.modify i f) (bs.modify i g) := by
  refine ⟨by simp [h.size], fun j a' b' ha hb => ?_⟩
  rw [Array.getElem?_modify] at ha hb
  split at ha
  · rename_i heq
    rw [if_pos heq] at hb
    obtain ⟨a, ha', rfl⟩ := Option.map_eq_some_iff.1 ha
    obtain ⟨b, hb', rfl⟩ := Option.map_eq_some_iff.1 hb
    exact hfg a b (h.rel j a b ha' hb')
  · rename_i hne
    rw [if_neg hne] at hb
    exact h.rel j a' b' ha hb

end Matched

namespace Graph

variable {E : Type} {Q : Potential E → Potential E → Prop}

/-- The potentials have the same content. Its place among the shared tables does not matter. -/
inductive Potential.Same : Potential E → Potential E → Prop where
  | table {t t' : Shared (Table E)} (h : t'.content = t.content) : Same (.table t) (.table t')
  | custom (c : CustomFactor E) : Same (.custom c) (.custom c)

theorem Potential.Same.refl (p : Potential E) : p.Same p := by
  cases p with
  | table t => exact .table rfl
  | custom c => exact .custom c

/-- The graphs differ in the potentials of factors, which are related by `Q`, and nowhere else. -/
structure Mirrors (Q : Potential E → Potential E → Prop) (g g' : Graph E) : Prop where
  vars : g'.vars = g.vars
  edges : g'.edges = g.edges
  domains : g'.domains = g.domains
  factors : Matched (fun a b : Factor E => b.links = a.links ∧ Q a.potential b.potential)
    g.factors g'.factors

namespace Mirrors

variable {g g' : Graph E} (h : g.Mirrors Q g')

theorem refl (hQ : ∀ p, Q p p) (g : Graph E) : g.Mirrors Q g :=
  ⟨rfl, rfl, rfl, .refl (fun a => ⟨rfl, hQ a.potential⟩) g.factors⟩

include h

theorem variableAt (v : Nat) : g'.variableAt v = g.variableAt v := by
  rw [Graph.variableAt, Graph.variableAt, h.vars]

theorem edgeAt (e : Nat) : g'.edgeAt e = g.edgeAt e := by
  rw [Graph.edgeAt, Graph.edgeAt, h.edges]

theorem nameOf (v : Nat) : g'.nameOf v = g.nameOf v := by
  rw [Graph.nameOf, Graph.nameOf, h.vars]

theorem domainSizeAt (v : Nat) : g'.domainSizeAt v = g.domainSizeAt v := by
  rw [Graph.domainSizeAt, Graph.domainSizeAt, h.variableAt]

theorem sizeAt (v : Nat) : g'.sizeAt v = g.sizeAt v := by
  rw [Graph.sizeAt, Graph.sizeAt, h.vars]

theorem edgeSize (e : Nat) : g'.edgeSize e = g.edgeSize e := by
  rw [Graph.edgeSize, Graph.edgeSize, h.edges]
  congr 2
  funext edge
  exact h.sizeAt edge.var

theorem domainSizes (vs : List Nat) : g'.domainSizes vs = g.domainSizes vs := by
  induction vs with
  | nil => rfl
  | cons v vs ih => simp only [Graph.domainSizes, h.domainSizeAt, ih]

theorem checkPorts (operands sizes : List Nat) :
    g'.checkPorts operands sizes = g.checkPorts operands sizes := by
  induction operands generalizing sizes with
  | nil => simp only [Graph.checkPorts]
  | cons v operands ih =>
    cases sizes with
    | nil => simp only [Graph.checkPorts]
    | cons size sizes => simp only [Graph.checkPorts, h.variableAt, ih]

theorem checkOperands (operands : List Nat) :
    g'.checkOperands operands = g.checkOperands operands := by
  simp only [Graph.checkOperands, h.nameOf]

theorem factorAt (f : Nat) : Agree (fun a b : Factor E => b.links = a.links ∧ Q a.potential
    b.potential) (g.factorAt f) (g'.factorAt f) := by
  rcases h.factors.getElem? f with ⟨ha, hb⟩ | ⟨a, b, ha, hb, hab⟩
  · exact .inl ⟨_, by rw [Graph.factorAt, ha], by rw [Graph.factorAt, hb]⟩
  · exact .inr ⟨a, b, by rw [Graph.factorAt, ha], by rw [Graph.factorAt, hb], hab⟩

/-! Changes -/

theorem withVars (vars : Array (Variable E)) :
    ({ g with vars } : Graph E).Mirrors Q { g' with vars } :=
  ⟨rfl, h.edges, h.domains, h.factors⟩

theorem addVariable (name : String) (domain : Domain) :
    Agree (fun x y : Nat × Graph E => y.1 = x.1 ∧ x.2.Mirrors Q y.2)
      (g.addVariable name domain) (g'.addVariable name domain) := by
  simp only [Graph.addVariable, h.vars, h.domains]
  split
  · exact .inl ⟨_, rfl, rfl⟩
  · exact .inr ⟨_, _, rfl, rfl, rfl, rfl, h.edges, rfl, h.factors⟩

theorem attach {p p' : Potential E} (hp : Q p p') (operands : List Nat) :
    (g'.attach p' operands).1 = (g.attach p operands).1 ∧
      (g.attach p operands).2.Mirrors Q (g'.attach p' operands).2 := by
  simp only [Graph.attach, h.vars, h.edges, h.factors.size, true_and]
  exact ⟨rfl, rfl, h.domains, h.factors.push ⟨rfl, hp⟩⟩

theorem addTable [DecidableEq E] (hQ : ∀ p p', Potential.Same p p' → Q p p') (table : Table E)
    (operands : List Nat) : Agree (fun x y : Nat × Graph E => y.1 = x.1 ∧ x.2.Mirrors Q y.2)
      (g.addTable table operands) (g'.addTable table operands) := by
  simp only [Graph.addTable, h.checkPorts, h.checkOperands]
  split
  · exact .inl ⟨_, rfl, rfl⟩
  cases g.checkPorts operands table.sizes with
  | error e => exact .inl ⟨_, rfl, rfl⟩
  | ok _ =>
    cases g.checkOperands operands with
    | error e => exact .inl ⟨_, rfl, rfl⟩
    | ok _ =>
      refine .inr ⟨_, _, rfl, rfl, ?_⟩
      have ht : ({ g with tables := (g.tables.intern table).2 } : Graph E).Mirrors Q
          { g' with tables := (g'.tables.intern table).2 } :=
        ⟨h.vars, h.edges, h.domains, h.factors⟩
      refine ht.attach (hQ _ _ (.table ?_)) operands
      rw [Interner.content_intern, Interner.content_intern]

theorem addCustom (hQ : ∀ p p', Potential.Same p p' → Q p p') (custom : CustomFactor E)
    (operands : List Nat) : Agree (fun x y : Nat × Graph E => y.1 = x.1 ∧ x.2.Mirrors Q y.2)
      (g.addCustom custom operands) (g'.addCustom custom operands) := by
  simp only [Graph.addCustom, h.domainSizes, h.checkOperands]
  cases g.domainSizes operands with
  | error e => exact .inl ⟨_, rfl, rfl⟩
  | ok sizes =>
    simp only
    split
    · exact .inl ⟨_, rfl, rfl⟩
    cases g.checkOperands operands with
    | error e => exact .inl ⟨_, rfl, rfl⟩
    | ok _ => exact .inr ⟨_, _, rfl, rfl, h.attach (hQ _ _ (.custom custom)) operands⟩

theorem setInput [Energy E] (v : Nat) (input : Option (Message E)) :
    Agree (Mirrors Q) (g.setInput v input) (g'.setInput v input) := by
  simp only [Graph.setInput, h.variableAt, h.vars]
  cases g.variableAt v with
  | error e => exact .inl ⟨_, rfl, rfl⟩
  | ok var =>
    simp only
    split
    · exact .inl ⟨_, rfl, rfl⟩
    · exact .inr ⟨_, _, rfl, rfl, h.withVars _⟩

theorem fixValue (v : Nat) (fixed : Option Nat) :
    Agree (Mirrors Q) (g.fixValue v fixed) (g'.fixValue v fixed) := by
  simp only [Graph.fixValue, h.variableAt, h.vars]
  cases g.variableAt v with
  | error e => exact .inl ⟨_, rfl, rfl⟩
  | ok var =>
    simp only
    split
    · exact .inl ⟨_, rfl, rfl⟩
    · exact .inr ⟨_, _, rfl, rfl, h.withVars _⟩

end Mirrors

theorem Mirrors.setInputProbabilities [LogEnergy E] {g g' : Graph E} (h : g.Mirrors Q g') (v : Nat)
    (p : List E) :
    Agree (Mirrors Q) (g.setInputProbabilities v p) (g'.setInputProbabilities v p) := by
  simp only [Graph.setInputProbabilities, h.nameOf]
  split
  · exact .inl ⟨_, rfl, rfl⟩
  · exact h.setInput v _

end Graph

end MinSum
