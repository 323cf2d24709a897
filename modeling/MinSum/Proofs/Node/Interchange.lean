import MinSum.Proofs.Node.Says
import MinSum.Proofs.Solver.Twin
import MinSum.Proofs.Table.Equality

/-! Factors that can be exchanged for one another in exact energies: an equality and its table. They
give the same energies and compute the same messages, all at once and one by one. -/
namespace MinSum

variable {K : Type} [Field K] [LinearOrder K]

namespace Rule

variable {arity size : Nat} {t : Table (Extended K)} (h : Table.equality arity size = .ok t)
  {inputs : List (Message (Extended K))} (hm : ∀ m ∈ inputs, m.Proper)
  (hl : inputs.map List.length = List.replicate arity size)

include h

theorem serves_equality :
    Serves (K := K) (.custom .equality) (List.replicate arity size) ∧
      Serves (.table t) (List.replicate arity size) := by
  have hc : MinSum.Equality.checkDomains (List.replicate arity size) = .ok () := by
    obtain ⟨k, hk⟩ := Nat.exists_eq_succ_of_ne_zero (Table.pos_of_equality h).1.ne'
    rw [hk, List.replicate_succ, MinSum.Equality.checkDomains, if_pos]
    simp
  refine ⟨⟨CustomFactor.admissible_equality, hc⟩, Table.sound_of_equality h, ?_⟩
  rw [Table.eq_assemble_of_equality h]
  rfl

include hm hl

/-- An update of all ports computes the same messages by either rule. -/
theorem raw_equality {previous : List (Message (Extended K))}
    (hlp : previous.map List.length = List.replicate arity size)
    (hpp : ∀ m ∈ previous, m.Proper) :
    raw (.table t) inputs previous = raw (.custom .equality) inputs previous := by
  obtain ⟨hs, hs'⟩ := serves_equality h
  have hlen : inputs.length = previous.length := by
    simpa using congrArg List.length (hl.trans hlp.symm)
  have harity : inputs.length = arity := by simpa using congrArg List.length hl
  have hlengths : ∀ rule : Rule (Extended K), ∀ (p : Nat) m,
      (rule.raw inputs previous)[p]? = some m → p < arity ∧ m.length = size := by
    intro rule p m hp
    have hget : ((rule.raw inputs previous).map List.length)[p]? = some m.length := by
      rw [List.getElem?_map, hp]
      rfl
    rw [rule.lengths_raw hlen, hlp, List.getElem?_replicate, Option.ite_none_right_eq_some] at hget
    exact ⟨hget.1, (Option.some.inj hget.2).symm⟩
  apply List.ext_getElem?
  intro p
  by_cases hp : p < arity
  · have hsize : (List.replicate arity size)[p]? = some size := by
      rw [List.getElem?_replicate, if_pos hp]
    obtain ⟨m, hget, hsend⟩ := sends_raw hs hm hl hsize hlp hpp
    obtain ⟨m', hget', hsend'⟩ := sends_raw hs' hm hl hsize hlp hpp
    rw [hget, hget', Table.Sends.eq_of_equality h harity hp (hlengths _ p m hget).2
      (hlengths _ p m' hget').2 (hsend.2 rfl) hsend']
  · have hnone : ∀ rule : Rule (Extended K), (rule.raw inputs previous)[p]? = none := fun rule =>
      Option.eq_none_iff_forall_ne_some.2 fun m hget => hp (hlengths rule p m hget).1
    rw [hnone, hnone]

theorem rawPort_equality {port : Nat} (hp : port < arity) {old : Message (Extended K)}
    (ho : old.length = size) (hop : old.Proper) :
    rawPort (.table t) inputs port old = rawPort (.custom .equality) inputs port old := by
  obtain ⟨hs, hs'⟩ := serves_equality h
  have harity : inputs.length = arity := by simpa using congrArg List.length hl
  have hsize : (List.replicate arity size)[port]? = some size := by
    rw [List.getElem?_replicate, if_pos hp]
  have hmem : old.length ∈ List.replicate arity size := ho.symm ▸ List.mem_of_getElem? hsize
  have hlength : ∀ {rule : Rule (Extended K)}, rule.Fits (List.replicate arity size) →
      (rule.rawPort inputs port old).length = size := fun hf =>
    (length_rawPort hf inputs port hmem).trans ho
  have hsend := sends_rawPort hs hm hl hsize ho hop
  exact Table.Sends.eq_of_equality h harity hp (hlength trivial) (hlength hs'.2) (hsend.2 rfl)
    (sends_rawPort hs' hm hl hsize ho hop)

end Rule

/-- The same content, or an equality in the first place and its table in the second. -/
inductive Graph.Potential.Interchangeable :
    Graph.Potential (Extended K) → Graph.Potential (Extended K) → Prop where
  | same {p p' : Graph.Potential (Extended K)} (h : p.Same p') : Interchangeable p p'
  | equality {arity size : Nat} {t : Shared (Table (Extended K))}
      (h : Table.equality arity size = .ok t.content) :
      Interchangeable (.custom .equality) (.table t)

/-- On assignments of their ports the two nodes give the same energies. -/
theorem FactorNode.Mirrors.score_eq {m m' : FactorNode (Extended K)}
    (h : m.Mirrors Graph.Potential.Interchangeable m') {sizes : List Nat}
    (hs : m'.potential.Suits sizes) {indices : List Nat}
    (hi : List.Forall₂ (fun i size => 0 < size → i < size) indices sizes) :
    m'.score indices = m.score indices := by
  obtain ⟨potential, rfl, hp⟩ := h
  generalize hq : m.potential = p at hp
  cases hp with
  | same h =>
    subst hq
    exact (score_eq_of_same h indices : ({ m with potential } : FactorNode _).score indices = _)
  | @equality arity size t h =>
    simp only [score, hq]
    obtain rfl : sizes = List.replicate arity size := by
      rw [← hs.2, Table.eq_assemble_of_equality h]
      rfl
    refine Table.energyOf_equality h (by simpa using hi.length_eq) fun i hmem => ?_
    obtain ⟨p, hp, rfl⟩ := List.mem_iff_getElem.1 hmem
    have := hi.get hp (hi.length_eq ▸ hp)
    simpa using this (by simpa using (Table.pos_of_equality h).2)

namespace Node.Mirrors

variable {n n' : Node (Extended K)} (h : n.Mirrors Graph.Potential.Interchangeable n')

include h

theorem rule_cases : n'.rule = n.rule ∨ ∃ arity size t, Table.equality arity size = .ok t ∧
    n.rule = .custom .equality ∧ n'.rule = .table t := by
  cases h with
  | var hm =>
    obtain ⟨sums, rfl⟩ := hm
    exact .inl rfl
  | @factor m _ hm =>
    obtain ⟨potential, rfl, hp⟩ := hm
    generalize hq : m.potential = p at hp
    cases hp with
    | same hp => exact .inl (Node.rule_eq_of_same (hq ▸ hp))
    | equality he => exact .inr ⟨_, _, _, he, by simp only [rule, hq], rfl⟩

/-- From admissible messages the two nodes compute the same. -/
theorem echoes {g : Graph (Extended K)} {settings : Settings (Extended K)} {id : NodeId}
    (ht : n.Tracks g settings id) (hi : n.binding.initialized = true) (hg : g.WellFormed)
    {store : EdgeStore (Extended K)} (hs : store.Fits g) (hm : store.Proper)
    (hf : n'.rule.Fits n.binding.sizes) :
    n.Echoes n' (n.binding.edges.map store.stateOf) := by
  rcases h.rule_cases with hr | ⟨arity, size, t, he, hr, hr'⟩
  · exact ⟨by simp only [raw, hr, h.side_eq],
      fun port _ => by simp only [rawPort, hr, h.side_eq]⟩
  have hsizes : n.binding.sizes = List.replicate arity size := by
    rw [hr', Table.eq_assemble_of_equality he] at hf
    exact Eq.symm hf
  have hheard := hsizes ▸ ht.map_length_heard hi hg hs
  have hsaid := hsizes ▸ ht.map_length_said hi hg hs
  obtain ⟨hph, hps⟩ : (∀ m ∈ (g.incident id).map (store.heard id), m.Proper) ∧
      ∀ m ∈ (g.incident id).map (store.said id), m.Proper := Node.Tracks.proper_heard hm
  refine ⟨?_, fun port hp => ?_⟩
  · simp only [raw, hr, hr', h.side_eq, ht.map_incoming hi, ht.map_outgoing hi]
    exact Rule.raw_equality he hph hheard hsaid hps
  · have harity : n.binding.edges.length = arity := by
      have := congrArg List.length hsizes
      rwa [ht.sizes_eq hi, List.length_map, List.length_replicate] at this
    simp only [rawPort, hr, hr', h.side_eq, ht.map_incoming hi, ht.map_outgoing hi]
    have hlt : port < ((g.incident id).map (store.said id)).length := by
      rwa [List.length_map, ← ht.edges_eq hi]
    have hmem := List.getElem_mem hlt
    rw [List.getD_eq_getElem _ _ hlt]
    exact Rule.rawPort_equality he hph hheard (harity ▸ hp)
      (List.eq_of_mem_replicate (hsaid ▸ List.mem_map_of_mem hmem)) (hps _ hmem)

end Node.Mirrors

end MinSum
