import MinSum.Proofs.Solver.WellFormed

/-! Parallel phases. Whatever the order of execution, every node runs on a store that fits the
graph, and the reports come from the nodes of the phase. -/
namespace MinSum

open Scratch

variable {E : Type}

namespace Phase

theorem checkReady_eq_ok_iff {nodes : List (Node E)} :
    checkReady nodes = .ok () ↔ ∀ n ∈ nodes, n.binding.initialized = true := by
  induction nodes with
  | nil => simp [checkReady]
  | cons n nodes ih =>
    rw [checkReady, List.forall_mem_cons, Binding.checkReady]
    cases n.binding.initialized <;> simp [ih]

theorem reserveEdges_eq_ok {free : Array Bool} {edges : List Nat} (hd : edges.Nodup)
    (hf : ∀ e ∈ edges, free[e]? = some true) : reserveEdges (E := E) free edges = .ok () := by
  induction edges generalizing free with
  | nil => rfl
  | cons e edges ih =>
    rw [List.nodup_cons] at hd
    rw [reserveEdges, hf e (by simp)]
    refine ih hd.2 fun x hx => ?_
    have hne : e ≠ x := fun h => hd.1 (h ▸ hx)
    rw [Array.getElem?_setIfInBounds, if_neg hne]
    exact hf x (by simp [hx])

theorem gather_eq_ok {nodes : List (Node E)} {answers : List (Option (Answer E))}
    (h : ∀ (i : Nat) (a : Answer E), answers[i]? = some (some a) → ∃ ports, a = .ok ports) :
    ∃ reports, gather nodes answers = .ok reports := by
  induction nodes generalizing answers with
  | nil => exact ⟨[], by cases answers <;> rfl⟩
  | cons n nodes ih =>
    cases answers with
    | nil => exact ⟨[], rfl⟩
    | cons a answers =>
      obtain ⟨reports, hr⟩ := ih fun i a ha => h (i + 1) a ha
      cases a with
      | none => exact ⟨reports, hr⟩
      | some a =>
        obtain ⟨ports, rfl⟩ := h 0 a rfl
        exact ⟨(n.id, ports) :: reports, by simp [gather, hr]⟩

/-- Every report is the answer of its node. -/
theorem mem_of_gather {nodes : List (Node E)} {answers : List (Option (Answer E))}
    {reports : List (NodeId × List Nat)} (h : gather nodes answers = .ok reports)
    {id : NodeId} {ports : List Nat} (hm : (id, ports) ∈ reports) :
    ∃ (i : Nat) (n : Node E), nodes[i]? = some n ∧ n.id = id ∧
      answers[i]? = some (some (.ok ports)) := by
  induction nodes generalizing answers reports with
  | nil =>
    obtain rfl : reports = [] := by cases answers <;> exact (Except.ok.inj h).symm
    simp at hm
  | cons n nodes ih =>
    rcases answers with _ | ⟨_ | a, answers⟩
    · obtain rfl : reports = [] := (Except.ok.inj h).symm
      simp at hm
    · obtain ⟨i, n', hn', hid, ha⟩ := ih h hm
      exact ⟨i + 1, n', hn', hid, ha⟩
    · cases a with
      | error e => simp [gather] at h
      | ok ports' =>
      cases hr : gather nodes answers with
      | error e => simp [gather, hr] at h
      | ok reports' =>
      simp only [gather, hr, Except.ok.injEq] at h
      subst h
      rcases List.mem_cons.1 hm with heq | hm
      · obtain ⟨rfl, rfl⟩ := Prod.mk.inj heq
        exact ⟨0, n, rfl, rfl, rfl⟩
      · obtain ⟨i, n', hn', hid, ha⟩ := ih hr hm
        exact ⟨i + 1, n', hn', hid, ha⟩

variable [Energy E]

/-- The nodes of a phase succeed on the stores that satisfy `P`, and `P` is kept. -/
structure Runs (nodes : Array (Node E)) (P : EdgeStore E → Prop) : Prop where
  runNode : ∀ n ∈ nodes, ∀ store, P store → ∀ pool,
    runNode store n pool = (.ok (n.reported store), n.deliver store)
  deliver : ∀ n ∈ nodes, ∀ store, P store → P (n.deliver store)

/-- The answer reports the contradictory ports that its node had at some point of the run. -/
def Reports (P : EdgeStore E → Prop) (n : Node E) (a : Answer E) : Prop :=
  ∃ store, P store ∧ a = .ok (n.reported store)

theorem runPlan_keeps {nodes : Array (Node E)} {P : EdgeStore E → Prop} (h : Runs nodes P)
    {store : EdgeStore E} (hs : P store) (answers : Array (Option (Answer E))) (plan : Plan E)
    (ha : ∀ (i : Nat) (a : Answer E), answers[i]? = some (some a) →
      ∃ n, nodes[i]? = some n ∧ Reports P n a) :
    P (runPlan nodes store answers plan).2 ∧
      ∀ (i : Nat) (a : Answer E), (runPlan nodes store answers plan).1[i]? = some (some a) →
        ∃ n, nodes[i]? = some n ∧ Reports P n a := by
  induction plan generalizing store answers with
  | nil => exact ⟨hs, ha⟩
  | cons step plan ih =>
    obtain ⟨i, pool⟩ := step
    rw [runPlan]
    cases hn : nodes[i]? with
    | none => exact ih hs answers ha
    | some n =>
      have hmem : n ∈ nodes := Array.mem_of_getElem? hn
      simp only [h.runNode n hmem store hs pool]
      refine ih (h.deliver n hmem store hs) _ fun j a hj => ?_
      rw [Array.getElem?_setIfInBounds] at hj
      split at hj
      · rename_i hij
        subst hij
        split at hj
        · obtain rfl := Option.some.inj (Option.some.inj hj)
          exact ⟨n, hn, store, hs, rfl⟩
        · contradiction
      · exact ha j a hj

/-- A phase keeps `P` even if it fails, and reports only what its nodes report. -/
theorem run_keeps {nodes : Array (Node E)} {P : EdgeStore E → Prop}
    (h : (∀ n ∈ nodes, n.binding.initialized = true) → Runs nodes P) {store : EdgeStore E}
    (hs : P store) (plan : Plan E) :
    P (run nodes store plan).2 ∧ ∀ reports, (run nodes store plan).1 = .ok reports →
      ∀ id ports, (id, ports) ∈ reports →
        ∃ n ∈ nodes, n.id = id ∧ n.binding.initialized = true ∧
          ∃ store, P store ∧ ports = n.reported store := by
  unfold run
  split
  · exact ⟨hs, by simp⟩
  rename_i hready
  have hi : ∀ n ∈ nodes, n.binding.initialized = true := by
    simpa using checkReady_eq_ok_iff.1 hready
  split
  · exact ⟨hs, by simp⟩
  obtain ⟨hstore, hans⟩ := runPlan_keeps (h hi) hs (Array.replicate nodes.size none) plan
    (by simp [Array.getElem?_replicate])
  refine ⟨hstore, fun reports hr id ports hm => ?_⟩
  obtain ⟨i, n, hn, hid, ha⟩ := mem_of_gather hr hm
  obtain ⟨n', hn', st, hst, hp⟩ := hans i _ (by simpa using ha)
  obtain rfl : n = n' := by simpa [hn'] using hn.symm
  have hmem : n ∈ nodes := Array.mem_of_getElem? hn'
  exact ⟨n, hmem, hid, hi n hmem, st, hst, Except.ok.inj hp⟩

/-- A phase over initialized nodes with distinct edges succeeds. -/
theorem run_isOk {nodes : Array (Node E)} {P : EdgeStore E → Prop} (h : Runs nodes P)
    (hi : ∀ n ∈ nodes, n.binding.initialized = true) {store : EdgeStore E} (hs : P store)
    (hd : (nodes.toList.flatMap (·.binding.edges)).Nodup)
    (hlt : ∀ n ∈ nodes, ∀ e ∈ n.binding.edges, e < store.size) (plan : Plan E) :
    ∃ reports, (run nodes store plan).1 = .ok reports := by
  have hready : checkReady nodes.toList = .ok () := checkReady_eq_ok_iff.2 (by simpa using hi)
  have hreserve : reserveEdges (E := E) (Array.replicate store.size true)
      (nodes.toList.flatMap (·.binding.edges)) = .ok () := by
    refine reserveEdges_eq_ok hd fun e he => ?_
    obtain ⟨n, hn, he⟩ := List.mem_flatMap.1 he
    rw [Array.getElem?_replicate, if_pos (hlt n (by simpa using hn) e he)]
  simp only [run, hready, hreserve]
  obtain ⟨-, hans⟩ := runPlan_keeps h hs (Array.replicate nodes.size none) plan
    (by simp [Array.getElem?_replicate])
  refine gather_eq_ok fun i a ha => ?_
  obtain ⟨n, -, st, -, rfl⟩ := hans i a (by simpa using ha)
  exact ⟨_, rfl⟩

end Phase

end MinSum
