import MinSum.Proofs.Solver.Updates

/-! Nodes of one kind do not see what the others of their kind send: each reads and writes only
its own edges. So what they leave on the edges, and what they report, is told by who took part,
and the order in which they ran does not matter. -/
namespace MinSum

open Scratch

variable {E : Type}

namespace EdgeStore

theorem ext_stateOf {a b : EdgeStore E} (hs : a.size = b.size)
    (h : ∀ e, a.stateOf e = b.stateOf e) : a = b := by
  obtain ⟨as⟩ := a
  obtain ⟨bs⟩ := b
  refine congrArg EdgeStore.mk (Array.ext hs fun e he hb => ?_)
  have := h e
  simpa [stateOf, he, hb] using this

/-- An edge on which two stores agree before the same writes is one on which they agree after. -/
theorem stateOf_write_congr {a b : EdgeStore E} (hs : b.size = a.size) {edges : List Nat}
    (hlt : ∀ e ∈ edges, e < a.size) (states : List (EdgeMessages E)) {e : Nat}
    (h : b.stateOf e = a.stateOf e) :
    (b.write edges states).stateOf e = (a.write edges states).stateOf e := by
  induction edges generalizing a b states with
  | nil => exact h
  | cons edge edges ih =>
    cases states with
    | nil => exact h
    | cons s states =>
      have hedge : edge < a.size := hlt edge List.mem_cons_self
      rw [write_cons, write_cons]
      refine ih (by simp [hs]) (fun x hx => ?_) states ?_
      · simpa using hlt x (List.mem_cons_of_mem _ hx)
      · rw [stateOf_set _ _ _ (hs ▸ hedge), stateOf_set _ _ _ hedge, h]

end EdgeStore

namespace Phase

structure Apart (nodes : List (Node E)) (size : Nat) : Prop where
  nodup : (nodes.flatMap (·.binding.edges)).Nodup
  lt : ∀ n ∈ nodes, ∀ e ∈ n.binding.edges, e < size

theorem Apart.perm {nodes nodes' : List (Node E)} {size : Nat} (h : Apart nodes size)
    (hp : nodes.Perm nodes') : Apart nodes' size where
  nodup := ((hp.flatMap_right _).nodup_iff).1 h.nodup
  lt n hn := h.lt n (hp.mem_iff.2 hn)

/-- All edges of such nodes can be taken. -/
theorem Apart.reserveEdges_eq {nodes : List (Node E)} {size : Nat} (h : Apart nodes size) :
    reserveEdges (E := E) (Array.replicate size true) (nodes.flatMap (·.binding.edges)) =
      .ok () := by
  refine reserveEdges_eq_ok h.nodup fun e he => ?_
  obtain ⟨n, hn, he⟩ := List.mem_flatMap.1 he
  rw [Array.getElem?_replicate, if_pos (h.lt n hn e he)]

namespace Apart

variable {n : Node E} {nodes : List (Node E)} {size : Nat} (h : Apart (n :: nodes) size)

include h

theorem tail : Apart nodes size where
  nodup := by
    have := h.nodup
    rw [List.flatMap_cons, List.nodup_append] at this
    exact this.2.1
  lt n' hn := h.lt n' (List.mem_cons_of_mem _ hn)

/-- The first node shares no edge with the others. -/
theorem notMem {n' : Node E} (hn : n' ∈ nodes) {e : Nat} (he : e ∈ n'.binding.edges) :
    e ∉ n.binding.edges := by
  have := h.nodup
  rw [List.flatMap_cons, List.nodup_append] at this
  intro he'
  exact this.2.2 e he' e (List.mem_flatMap.2 ⟨n', hn, he⟩) rfl

end Apart

theorem filterMap_getElem?_range {α : Type} (l : List α) :
    (List.range l.length).filterMap (l[·]?) = l := by
  induction l with
  | nil => rfl
  | cons a l ih =>
    rw [List.length_cons, List.range_succ_eq_map, List.filterMap_cons, List.filterMap_map]
    exact congrArg (a :: ·) ih

def Covers (plan : Plan E) (count : Nat) : Prop := (plan.map (·.1)).Perm (List.range count)

/-- The nodes in the order in which a plan runs them. -/
def planned (nodes : Array (Node E)) (plan : Plan E) : List (Node E) :=
  plan.filterMap fun step => nodes[step.1]?

theorem Covers.planned_perm {nodes : Array (Node E)} {plan : Plan E}
    (h : Covers plan nodes.size) : (planned nodes plan).Perm nodes.toList := by
  have hp : planned nodes plan = (plan.map (·.1)).filterMap (nodes[·]?) := by
    rw [planned, List.filterMap_map]
    rfl
  have hr := filterMap_getElem?_range nodes.toList
  simp only [Array.length_toList, Array.getElem?_toList] at hr
  rw [hp, ← hr]
  exact h.filterMap _

theorem gather_eq {nodes : List (Node E)} {answers : List (Option (Answer E))}
    {ports : Node E → List Nat}
    (h : ∀ (i : Nat) n, nodes[i]? = some n → answers[i]? = some (some (.ok (ports n)))) :
    gather nodes answers = .ok (nodes.map fun n => (n.id, ports n)) := by
  induction nodes generalizing answers with
  | nil => cases answers <;> rfl
  | cons n nodes ih =>
    cases answers with
    | nil => simpa using h 0 n rfl
    | cons a answers =>
      obtain rfl : a = some (.ok (ports n)) := by simpa using h 0 n rfl
      rw [gather, ih fun i n hn => by simpa using h (i + 1) n (by simpa using hn)]
      rfl

end Phase

variable [Energy E]

namespace Node

@[simp] theorem size_deliver (n : Node E) (store : EdgeStore E) :
    (n.deliver store).size = store.size := EdgeStore.size_write _ _ _

section

variable {n : Node E} {store store' : EdgeStore E}
  (h : ∀ e ∈ n.binding.edges, store'.stateOf e = store.stateOf e)

include h

/-- A node reports what it finds on its own edges. -/
theorem reported_congr : n.reported store' = n.reported store := by
  rw [reported, reported, List.map_congr_left h]

/-- It delivers to them what it finds on them. -/
theorem stateOf_deliver_congr (hs : store'.size = store.size)
    (hlt : ∀ e ∈ n.binding.edges, e < store.size) {e : Nat} (he : e ∈ n.binding.edges) :
    (n.deliver store').stateOf e = (n.deliver store).stateOf e := by
  simp only [deliver, List.map_congr_left h]
  exact EdgeStore.stateOf_write_congr hs hlt _ (h e he)

end

end Node

namespace Phase

/-- The others find on their edges what was there before the first node ran. -/
theorem Apart.stateOf_deliver {n : Node E} {nodes : List (Node E)} {store : EdgeStore E}
    (h : Apart (n :: nodes) store.size) {n' : Node E} (hn : n' ∈ nodes) :
    ∀ e ∈ n'.binding.edges, (n.deliver store).stateOf e = store.stateOf e :=
  fun _ he => n.stateOf_deliver_of_notMem store (h.lt n List.mem_cons_self) (h.notMem hn he)

/-- Each node delivered once, from what was on the edges at the start. -/
structure Delivered (nodes : List (Node E)) (store store' : EdgeStore E) : Prop where
  size : store'.size = store.size
  own : ∀ n ∈ nodes, ∀ e ∈ n.binding.edges, store'.stateOf e = (n.deliver store).stateOf e
  other : ∀ e, (∀ n ∈ nodes, e ∉ n.binding.edges) → store'.stateOf e = store.stateOf e

namespace Delivered

variable {nodes nodes' : List (Node E)} {store a b : EdgeStore E}

theorem nil (store : EdgeStore E) : Delivered [] store store where
  size := rfl
  own := by simp
  other _ _ := rfl

/-- What is delivered depends only on who delivers. -/
theorem unique (ha : Delivered nodes store a) (hb : Delivered nodes store b) : a = b := by
  refine EdgeStore.ext_stateOf (ha.size.trans hb.size.symm) fun e => ?_
  by_cases he : ∃ n ∈ nodes, e ∈ n.binding.edges
  · obtain ⟨n, hn, he⟩ := he
    exact (ha.own n hn e he).trans (hb.own n hn e he).symm
  · have he : ∀ n ∈ nodes, e ∉ n.binding.edges := by simpa using he
    exact (ha.other e he).trans (hb.other e he).symm

theorem perm (h : Delivered nodes store a) (hp : nodes.Perm nodes') :
    Delivered nodes' store a where
  size := h.size
  own n hn := h.own n (hp.mem_iff.2 hn)
  other e he := h.other e fun n hn => he n (hp.mem_iff.1 hn)

/-- One node runs, and then the others. -/
theorem cons {n : Node E} (h : Apart (n :: nodes) store.size)
    (ha : Delivered nodes (n.deliver store) a) : Delivered (n :: nodes) store a where
  size := ha.size.trans (n.size_deliver store)
  own n' hn e he := by
    rcases List.mem_cons.1 hn with rfl | hn
    · exact ha.other e fun n hn he' => h.notMem hn he' he
    · rw [ha.own n' hn e he]
      exact Node.stateOf_deliver_congr (h.stateOf_deliver hn) (n.size_deliver store)
        (h.tail.lt n' hn) he
  other e he := by
    rw [ha.other e fun n hn => he n (List.mem_cons_of_mem _ hn)]
    exact n.stateOf_deliver_of_notMem store (h.lt n List.mem_cons_self) (he n List.mem_cons_self)

end Delivered

/-- The contradictions that the nodes find, in their order. -/
def log (nodes : List (Node E)) (store : EdgeStore E) : List Contradiction :=
  nodes.flatMap fun n => (n.reported store).map (Contradiction.mk n.id)

theorem log_congr {nodes : List (Node E)} {store store' : EdgeStore E}
    (h : ∀ n ∈ nodes, ∀ e ∈ n.binding.edges, store'.stateOf e = store.stateOf e) :
    log nodes store' = log nodes store := by
  rw [log, log, List.flatMap_def, List.flatMap_def]
  refine congrArg List.flatten (List.map_congr_left fun n hn => ?_)
  rw [Node.reported_congr (h n hn)]

/-- Nodes that share no edge each deliver once, and answer what they find at the start. -/
theorem runPlan_delivered {nodes : Array (Node E)} {P : EdgeStore E → Prop} (h : Runs nodes P)
    {store : EdgeStore E} (hs : P store) (answers : Array (Option (Answer E))) {plan : Plan E}
    (hd : (plan.map (·.1)).Nodup) (ha : Apart (planned nodes plan) store.size) :
    Delivered (planned nodes plan) store (runPlan nodes store answers plan).2 ∧
      (∀ i n, i ∈ plan.map (·.1) → nodes[i]? = some n → i < answers.size →
        (runPlan nodes store answers plan).1[i]? = some (some (.ok (n.reported store)))) ∧
      ∀ i, i ∉ plan.map (·.1) →
        (runPlan nodes store answers plan).1[i]? = answers[i]? := by
  induction plan generalizing store answers with
  | nil => exact ⟨.nil store, by simp, fun _ _ => rfl⟩
  | cons step plan ih =>
    obtain ⟨i, pool⟩ := step
    rw [List.map_cons, List.nodup_cons] at hd
    rw [runPlan]
    cases hn : nodes[i]? with
    | none =>
      have hp : planned nodes ((i, pool) :: plan) = planned nodes plan := by
        simp [planned, hn]
      rw [hp] at ha ⊢
      obtain ⟨hstore, hown, hother⟩ := ih hs answers hd.2 ha
      refine ⟨hstore, fun j n hj hnj => ?_, fun j hj => ?_⟩
      · refine hown j n ((List.mem_cons.1 hj).resolve_left ?_) hnj
        rintro rfl
        simp [hn] at hnj
      · exact hother j (List.not_mem_of_not_mem_cons hj)
    | some n =>
      have hp : planned nodes ((i, pool) :: plan) = n :: planned nodes plan := by
        simp [planned, hn]
      have hmem : n ∈ nodes := Array.mem_of_getElem? hn
      rw [hp] at ha ⊢
      simp only [h.runNode n hmem store hs pool]
      obtain ⟨hstore, hown, hother⟩ := ih (h.deliver n hmem store hs)
        (answers.setIfInBounds i (some (.ok (n.reported store)))) hd.2
        (by simpa using ha.tail)
      refine ⟨hstore.cons ha, fun j n' hj hnj hlt => ?_, fun j hj => ?_⟩
      · rcases List.mem_cons.1 hj with rfl | hj
        · obtain rfl : n = n' := Option.some.inj (hn.symm.trans hnj)
          rw [hother j hd.1, Array.getElem?_setIfInBounds, if_pos rfl, if_pos hlt]
        · rw [hown j n' hj hnj (by simpa using hlt)]
          have hn' : n' ∈ planned nodes plan := by
            obtain ⟨step, hstep, rfl⟩ := List.mem_map.1 hj
            exact List.mem_filterMap.2 ⟨step, hstep, hnj⟩
          rw [Node.reported_congr (ha.stateOf_deliver hn')]
      · rw [List.map_cons, List.mem_cons, not_or] at hj
        rw [hother j hj.2, Array.getElem?_setIfInBounds, if_neg (Ne.symm hj.1)]

/-- A phase has one outcome, in whatever order its nodes run. -/
theorem run_eq {nodes : Array (Node E)} {P : EdgeStore E → Prop} (h : Runs nodes P)
    (hi : ∀ n ∈ nodes, n.binding.initialized = true) {store : EdgeStore E} (hs : P store)
    (ha : Apart nodes.toList store.size) {plan : Plan E} (hp : Covers plan nodes.size) :
    ∃ store', Delivered nodes.toList store store' ∧ run nodes store plan =
      (.ok (nodes.toList.map fun n => (n.id, n.reported store)), store') := by
  have hready : checkReady nodes.toList = .ok () := checkReady_eq_ok_iff.2 (by simpa using hi)
  obtain ⟨hstore, hown, -⟩ := runPlan_delivered h hs (Array.replicate nodes.size none)
    (hp.nodup_iff.2 List.nodup_range) (ha.perm hp.planned_perm.symm)
  refine ⟨_, hstore.perm hp.planned_perm, ?_⟩
  simp only [run, hready, ha.reserveEdges_eq]
  refine congrArg (·, _) (gather_eq fun i n hn => ?_)
  have hlt : i < nodes.size := by
    obtain ⟨hlt, -⟩ := List.getElem?_eq_some_iff.1 hn
    simpa using hlt
  rw [Array.getElem?_toList] at hn ⊢
  exact hown i n (hp.mem_iff.2 (List.mem_range.2 hlt)) hn (by simpa using hlt)

end Phase

end MinSum
