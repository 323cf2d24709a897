import MinSum.Proofs.Graph.Cost
import MinSum.Proofs.Node.Deliver
import MinSum.Proofs.Node.Sends

/-! What a node sends in exact energies: on each edge, for each value, the least energy of an
assignment with that value, at the node itself plus what the node hears on its other edges. -/
namespace MinSum

/-- The prior in force is that of the graph. -/
theorem Node.Tracks.prior_eq {E : Type} [Energy E] {g : Graph E} {settings : Settings E}
    {id : NodeId} {n : Node E} (h : n.Tracks g settings id) (hi : n.binding.initialized = true)
    {m : VariableNode E} (hn : n = .var m) : id = .var m.var ∧ m.prior = g.priorOf m.var := by
  subst hn
  obtain ⟨var, hv, hm⟩ := (h.bound hi).loaded m rfl
  have hid : id = .var m.var := h.id_eq.symm
  refine ⟨hid, ?_⟩
  rw [hm, Graph.priorOf]
  simp [VariableNode.load, hv]

variable {K : Type} [Field K] [LinearOrder K]

def EdgeStore.Proper (store : EdgeStore (Extended K)) : Prop :=
  ∀ e side, (Side.outgoing side (store.stateOf e)).Proper

def EdgeStore.Finite (store : EdgeStore (Extended K)) : Prop :=
  ∀ e side, (Side.outgoing side (store.stateOf e)).Finite

theorem EdgeStore.Proper.said {store : EdgeStore (Extended K)} (h : store.Proper) (id : NodeId)
    (e : Nat) : (store.said id e).Proper := h e id.side

theorem EdgeStore.Proper.heard {store : EdgeStore (Extended K)} (h : store.Proper) (id : NodeId)
    (e : Nat) : (store.heard id e).Proper := by
  cases id with
  | var v => exact h e .factor
  | factor f => exact h e .variable

namespace Graph

/-- A table, or the equality of all operands. -/
def Potential.Exact {E : Type} [Energy E] (p : Potential E) : Prop :=
  match p with
  | .table _ => True
  | .custom c => c = .equality

/-- The custom factors make admissible messages from admissible ones. -/
def Admissible (g : Graph (Extended K)) : Prop :=
  ∀ factor ∈ g.factors, ∀ c, factor.potential = .custom c → c.Admissible

def Exact {E : Type} [Energy E] (g : Graph E) : Prop := ∀ factor ∈ g.factors, factor.potential.Exact

/-- What holds of all potentials, by their list. -/
theorem forall_potential {E : Type} [Energy E] {g : Graph E} {ps : List (Potential E)}
    (hg : g.factors.toList.map (·.potential) = ps) {P : Potential E → Prop} (hp : ∀ p ∈ ps, P p) :
    ∀ factor ∈ g.factors, P factor.potential := by
  intro factor hf
  apply hp
  rw [← hg]
  exact List.mem_map.2 ⟨factor, Array.mem_toList_iff.2 hf, rfl⟩

theorem Exact.admissible {g : Graph (Extended K)} (h : g.Exact) : g.Admissible := by
  intro factor hf c hc
  have := h factor hf
  rw [hc] at this
  obtain rfl : c = .equality := this
  exact CustomFactor.admissible_equality

/-- What a node hears on an edge about the value of an assignment. -/
def inflow (g : Graph (Extended K)) (store : EdgeStore (Extended K)) (id : NodeId)
    (b : Nat → Nat) (e : Nat) : WithTop K := (store.heard id e).valueAt (b (g.varOf e))

/-- The energy of an assignment at a node and on its edges other than `e`. -/
def costBut (g : Graph (Extended K)) (store : EdgeStore (Extended K)) (id : NodeId) (e : Nat)
    (b : Nat → Nat) : WithTop K :=
  g.cost id b + ∑ e' ∈ (g.incident id).toFinset.erase e, g.inflow store id b e'

/-- The message is what the node has to say on the edge, given what it hears on the others. -/
structure Says (g : Graph (Extended K)) (store : EdgeStore (Extended K)) (id : NodeId) (e : Nat)
    (m : Message (Extended K)) : Prop where
  proper : m.Proper
  isMinOver : ∀ x < g.edgeSize e, IsMinOver (fun b : Nat → Nat => b (g.varOf e) = x)
    (g.costBut store id e) (m.valueAt x)

end Graph

/-- Values for distinct names can be given by a function. -/
theorem exists_map_eq {vs indices : List Nat} (hd : vs.Nodup) (hl : indices.length = vs.length) :
    ∃ b : Nat → Nat, vs.map b = indices := by
  refine ⟨fun v => indices.getD (vs.idxOf v) 0, List.ext_getElem (by simp [hl]) fun i h₁ h₂ => ?_⟩
  rw [List.getElem_map, hd.idxOf_getElem, List.getD_eq_getElem _ _ h₂]

namespace Graph

variable {g : Graph (Extended K)} (hg : g.WellFormed) {store : EdgeStore (Extended K)}
  {id : NodeId} {p e : Nat} {m : Message (Extended K)}

include hg

theorem says_prior {v : Nat} (hid : id = .var v) (hp : (g.incident id)[p]? = some e)
    (h : Prior.Sends (g.priorOf v) ((g.incident id).map (store.heard id)) p m) :
    g.Says store id e m := by
  subst hid
  refine ⟨h.proper, fun x _ => ?_⟩
  have hvar := hg.varOf_of_mem_incident (List.mem_of_getElem? hp)
  have hval : ∀ b : Nat → Nat, b v = x → g.costBut store (.var v) e b = m.valueAt x := by
    intro b hb
    rw [h.valueAt, List.eraseIdx_map, List.map_map, sum_eraseIdx (hg.nodup_incident _) hp, costBut,
      cost, hb]
    refine congrArg _ (Finset.sum_congr rfl fun e' he' => ?_)
    have he' := List.mem_toFinset.1 (Finset.mem_of_mem_erase he')
    simp only [inflow, hg.varOf_of_mem_incident he', hb, Function.comp_apply]
  rw [hvar]
  exact ⟨fun b hb => (hval b hb).ge, fun _ => ⟨fun _ => x, rfl, hval _ rfl⟩⟩

/-- The domain sizes of the operands of a factor are those of its edges. -/
theorem sizes_operands {f : Nat} {factor : Factor (Extended K)}
    (hf : g.factors[f]? = some factor) :
    (neighborsOf factor.links).map g.sizeAt = (g.incident (.factor f)).map g.edgeSize := by
  rw [hg.sizes_factor, linksAt_factor hf]

/-- A table takes the least over its rows. -/
theorem says_table {f : Nat} {factor : Factor (Extended K)} (hid : id = .factor f)
    (hf : g.factors[f]? = some factor) {t : Shared (Table (Extended K))}
    (ht : factor.potential = .table t) (hp : (g.incident id)[p]? = some e)
    (h : t.content.Sends ((g.incident id).map (store.heard id)) p m) : g.Says store id e m := by
  subst hid
  refine ⟨h.proper, fun x _ => ?_⟩
  have hs := (hg.valid_factor factor (Array.mem_of_getElem? hf)).suits
  rw [ht, sizes_operands hg hf] at hs
  have hcost : ∀ b : Nat → Nat, g.costBut store (.factor f) e b =
      t.content.restCost ((g.incident (.factor f)).map (store.heard (.factor f))) p
        ((g.incident (.factor f)).map fun e => b (g.varOf e)) := by
    intro b
    have hc : g.cost (.factor f) b = (t.content.energyOf
        ((g.incident (.factor f)).map fun e => b (g.varOf e))).value := by
      simp [cost, hf, ht, Potential.energy]
    rw [Table.restCost, Table.received_map, List.eraseIdx_map, List.map_map,
      sum_eraseIdx (hg.nodup_incident _) hp, costBut, hc]
    rfl
  have hvalue : ∀ b : Nat → Nat,
      ((g.incident (.factor f)).map fun e => b (g.varOf e))[p]? = some (b (g.varOf e)) := by
    intro b
    rw [List.getElem?_map, hp]
    rfl
  refine (h.isMinOver x).transfer ?_ ?_
  · intro b hb _
    exact ⟨_, by rw [hvalue, hb], (hcost b).ge⟩
  · intro indices hi hne
    -- Only rows have an energy, and a row has one index for each operand.
    obtain ⟨r, hr, rfl⟩ := Table.exists_of_restCost_ne_top hne
    have hlen : r.indices.length = ((g.incident (.factor f)).map g.varOf).length := by
      rw [(hs.1.sound.fits r hr).length, hs.2, List.length_map, List.length_map]
    obtain ⟨b, hb⟩ := exists_map_eq (hg.nodup_map_varOf hf) hlen
    rw [List.map_map] at hb
    have hb' : ((g.incident (.factor f)).map fun e => b (g.varOf e)) = r.indices := hb
    refine ⟨b, ?_, (hcost b).trans (by rw [hb'])⟩
    have := hvalue b
    rw [hb', hi] at this
    exact (Option.some.inj this).symm

/-- An equality passes on what it hears on the other edges. -/
theorem says_equality {f size : Nat} {factor : Factor (Extended K)} (hid : id = .factor f)
    (hf : g.factors[f]? = some factor) (hq : factor.potential = .custom .equality)
    (hsize : g.edgeSize e = size) (hp : (g.incident id)[p]? = some e)
    (h : Prior.Sends (Message.uniform size) ((g.incident id).map (store.heard id)) p m) :
    g.Says store id e m := by
  subst hid
  refine ⟨h.proper, fun x hx => ?_⟩
  have hmem := List.mem_of_getElem? hp
  have hval : ∀ b : Nat → Nat, (∀ e' ∈ g.incident (.factor f), b (g.varOf e') = x) →
      g.costBut store (.factor f) e b = m.valueAt x := by
    intro b hb
    have hc : g.cost (.factor f) b = 0 := by
      have hall : ∀ i ∈ (g.incident (.factor f)).map fun e => b (g.varOf e), i = x := by
        intro i hi
        obtain ⟨e', he', rfl⟩ := List.mem_map.1 hi
        exact hb e' he'
      simp only [cost, hf, hq, Option.map_some, Option.getD_some, Potential.energy,
        CustomFactor.equality, Equality.energy_of_agree hall]
      rfl
    rw [h.valueAt, Message.valueAt_uniform (hsize ▸ hx), zero_add, List.eraseIdx_map,
      List.map_map, sum_eraseIdx (hg.nodup_incident _) hp, costBut, hc, zero_add]
    refine Finset.sum_congr rfl fun e' he' => ?_
    simp only [inflow, hb e' (List.mem_toFinset.1 (Finset.mem_of_mem_erase he')),
      Function.comp_apply]
  have hagree : ∀ b : Nat → Nat, b (g.varOf e) = x → g.costBut store (.factor f) e b ≠ ⊤ →
      ∀ e' ∈ g.incident (.factor f), b (g.varOf e') = x := by
    intro b hb ht e' he'
    have hc : g.cost (.factor f) b ≠ ⊤ := (WithTop.add_ne_top.1 ht).1
    simp only [cost, hf, hq, Option.map_some, Option.getD_some, Potential.energy,
      CustomFactor.equality] at hc
    have henergy : Equality.energy ((g.incident (.factor f)).map fun e => b (g.varOf e)) ≠
        (Energy.top : Extended K) := fun he => hc (by rw [he]; rfl)
    rw [← hb]
    exact Equality.eq_of_energy_ne_top henergy (List.mem_map.2 ⟨e', he', rfl⟩)
      (List.mem_map.2 ⟨e, hmem, rfl⟩)
  refine ⟨fun b hb => ?_, fun _ => ⟨fun _ => x, rfl, hval _ fun _ _ => rfl⟩⟩
  by_cases ht : g.costBut store (.factor f) e b = ⊤
  · rw [ht]
    exact le_top
  · exact (hval b (hagree b hb ht)).ge

end Graph

theorem Graph.WellFormed.proper_priorOf {g : Graph (Extended K)} (hg : g.WellFormed) (v : Nat) :
    (g.priorOf v).Proper := by
  rw [Graph.priorOf]
  cases hv : g.vars[v]? with
  | none => simp [Message.Proper]
  | some var =>
    have hvalid := hg.valid_variable var (Array.mem_of_getElem? hv)
    simp only [Option.map_some, Option.getD_some, Graph.Variable.prior]
    split
    · intro x hx
      rcases List.mem_or_eq_of_mem_set hx with hx | rfl
      · rw [(List.mem_replicate.1 hx).2]
        exact Extended.proper_top
      · exact Extended.proper_zero
    · rename_i m _ hm
      exact hvalid.admissible m hm
    · exact Message.proper_uniform _

namespace Node.Tracks

variable {g : Graph (Extended K)} {settings : Settings (Extended K)} {id : NodeId}
  {n : Node (Extended K)} {store : EdgeStore (Extended K)} (h : n.Tracks g settings id)
  (hi : n.binding.initialized = true) (hg : g.WellFormed) (hs : store.Fits g)

include h hi

theorem getElem?_sizes {p e : Nat} (hp : n.binding.edges[p]? = some e) :
    n.binding.sizes[p]? = some (g.edgeSize e) := by
  rw [h.sizes_eq hi, List.getElem?_map, hp]
  rfl

include hg

theorem serves (ha : g.Admissible) : n.rule.Serves n.binding.sizes := by
  have hfits := h.fits hg hi
  cases n with
  | var m =>
    rw [rule] at hfits ⊢
    refine ⟨?_, hfits⟩
    rw [(h.prior_eq hi rfl).2]
    exact hg.proper_priorOf _
  | factor m =>
    obtain ⟨factor, hf, hp⟩ := Option.map_eq_some_iff.1 (h.potential m rfl)
    have hsuits := (hg.valid_factor factor (Array.mem_of_getElem? hf)).suits
    have hcustom := ha factor (Array.mem_of_getElem? hf)
    have hsizes : (Node.factor m).binding.sizes = (g.incident (.factor m.factor)).map g.edgeSize :=
      (h.bound hi).sizes
    rw [Graph.sizes_operands hg hf, hp, ← hsizes] at hsuits
    rw [hp] at hcustom
    rw [rule] at hfits ⊢
    cases hpot : m.potential with
    | table t =>
      rw [hpot] at hsuits
      exact ⟨hsuits.1.sound, hsuits.2⟩
    | custom c =>
      rw [hpot] at hsuits
      exact ⟨hcustom c hpot, hsuits⟩

/-- What the rule of a node sends is what the node has to say. -/
theorem says_of_sends (hx : g.Exact) {p e : Nat} {m : Message (Extended K)}
    (hp : n.binding.edges[p]? = some e)
    (hm : n.rule.Sends (g.edgeSize e) ((g.incident id).map (store.heard id)) p m) :
    g.Says store id e m := by
  rw [h.edges_eq hi] at hp
  cases n with
  | var m' =>
    obtain ⟨hid, hprior⟩ := h.prior_eq hi rfl
    rw [rule, hprior] at hm
    exact Graph.says_prior hg hid hp hm
  | factor m' =>
    obtain ⟨factor, hf, hpot⟩ := Option.map_eq_some_iff.1 (h.potential m' rfl)
    have hexact := hx factor (Array.mem_of_getElem? hf)
    rw [hpot] at hexact
    rw [rule] at hm
    cases hq : m'.potential with
    | table t =>
      rw [hq] at hm
      exact Graph.says_table hg h.id_eq.symm hf (hpot.trans hq) hp hm
    | custom c =>
      rw [hq] at hm hexact
      obtain rfl : c = .equality := hexact
      exact Graph.says_equality hg h.id_eq.symm hf (hpot.trans hq) rfl hp (hm.2 rfl)

include hs

theorem map_length_heard : ((g.incident id).map (store.heard id)).map List.length =
    n.binding.sizes := by
  rw [← h.map_incoming hi]
  exact EdgeMessages.HasSize.lengths_incoming (h.ready hg hi hs).sizes n.side

theorem map_length_said : ((g.incident id).map (store.said id)).map List.length =
    n.binding.sizes := by
  rw [← h.map_outgoing hi]
  exact EdgeMessages.HasSize.lengths_outgoing (h.ready hg hi hs).sizes n.side

variable (hm : store.Proper)

include hm

omit h hi hg hs in
theorem proper_heard : (∀ m ∈ (g.incident id).map (store.heard id), m.Proper) ∧
    ∀ m ∈ (g.incident id).map (store.said id), m.Proper := by
  constructor
  · intro m hmem
    obtain ⟨e, -, rfl⟩ := List.mem_map.1 hmem
    exact hm.heard id e
  · intro m hmem
    obtain ⟨e, -, rfl⟩ := List.mem_map.1 hmem
    exact hm.said id e

/-- An update computes what the rule of the node is to send on each of its edges. -/
theorem sends_raw (ha : g.Admissible) {p e : Nat} (hp : n.binding.edges[p]? = some e) :
    ∃ m, (n.raw (n.binding.edges.map store.stateOf))[p]? = some m ∧ m.length = g.edgeSize e ∧
      n.rule.Sends (g.edgeSize e) ((g.incident id).map (store.heard id)) p m := by
  obtain ⟨m, hget, hsend⟩ := Rule.sends_raw (h.serves hi hg ha) (proper_heard hm).1
    (h.map_length_heard hi hg hs) (h.getElem?_sizes hi hp) (h.map_length_said hi hg hs)
    (proper_heard hm).2
  have hraw : (n.raw (n.binding.edges.map store.stateOf))[p]? = some m := by
    rw [raw, h.map_incoming hi, h.map_outgoing hi]
    exact hget
  have hlen : ((n.raw (n.binding.edges.map store.stateOf)).map List.length)[p]? =
      some (g.edgeSize e) := by
    rw [(h.ready hg hi hs).lengths_raw]
    exact h.getElem?_sizes hi hp
  rw [List.getElem?_map, hraw] at hlen
  exact ⟨m, hraw, Option.some.inj hlen, hsend⟩

theorem sends_rawPort (ha : g.Admissible) {p e : Nat} (hp : n.binding.edges[p]? = some e) :
    (n.rawPort (n.binding.edges.map store.stateOf) p).length = g.edgeSize e ∧
      n.rule.Sends (g.edgeSize e) ((g.incident id).map (store.heard id)) p
        (n.rawPort (n.binding.edges.map store.stateOf) p) := by
  have hpe : (g.incident id)[p]? = some e := h.edges_eq hi ▸ hp
  have hget : ((g.incident id).map (store.said id)).getD p [] = store.said id e := by
    simp [hpe]
  have hlen : (store.said id e).length = g.edgeSize e :=
    (hs.states e (hs.size ▸ hg.lt_of_mem_incident (List.mem_of_getElem? hpe))).outgoing _
  have hsizes := h.getElem?_sizes hi hp
  rw [rawPort, h.map_incoming hi, h.map_outgoing hi, hget]
  refine ⟨?_, Rule.sends_rawPort (h.serves hi hg ha) (proper_heard hm).1
    (h.map_length_heard hi hg hs) hsizes hlen (hm.said id e)⟩
  rw [Rule.length_rawPort (h.fits hg hi) _ _ (hlen ▸ List.mem_of_getElem? hsizes), hlen]

end Node.Tracks

end MinSum
