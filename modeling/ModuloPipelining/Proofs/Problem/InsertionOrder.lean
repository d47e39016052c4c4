import ModuloPipelining.Proofs.Problem.LoopProblem

/-!
# Operations and dependences in first-insertion order

A problem lists its operations and its dependences in the order they were first inserted, each
once, whatever sequence of calls built it (`Problem.run_lists_first_insertions`). An operation is
inserted by `insertOperation`, by linking it, and as an endpoint of a dependence, source first; a
dependence by `insertDependence`. Inserting again changes nothing, and the other calls leave
both lists alone. So each list is what the calls inserted with repeats erased (`List.eraseDups`
keeps first occurrences): an operation's program index is its position there, and the
dependences into an operation are the insertions into it, repeats erased.

The step is one equation: erasing repeats from a list with one element appended appends that
element unless it was there (`eraseDups_append_singleton`).
-/

namespace ModuloPipelining

/-! ### Erasing repeats -/

section FirstOccurrences

variable {β : Type} [DecidableEq β]

theorem eraseDups_append_singleton (xs : List β) (y : β) :
    (xs ++ [y]).eraseDups = if y ∈ xs then xs.eraseDups else xs.eraseDups ++ [y] := by
  rw [List.eraseDups_append]
  by_cases hy : y ∈ xs
  · simp [hy, List.removeAll]
  · simp [hy, List.removeAll, List.eraseDups_cons]

theorem nodup_eraseDups (xs : List β) : xs.eraseDups.Nodup := by
  induction xs using List.reverseRecOn with
  | nil => exact List.nodup_nil
  | append_singleton xs y ih =>
    rw [eraseDups_append_singleton]
    split
    · exact ih
    · rename_i hy
      exact nodup_append_singleton ih (by rwa [List.mem_eraseDups])

/-- Erasing repeats commutes with keeping the elements of a kind. -/
theorem eraseDups_filter (P : β → Bool) (xs : List β) :
    (xs.filter P).eraseDups = xs.eraseDups.filter P := by
  induction xs using List.reverseRecOn with
  | nil => rfl
  | append_singleton xs y ih =>
    rw [List.filter_append, eraseDups_append_singleton, List.filter_singleton]
    by_cases hP : P y = true
    · simp only [hP, cond_true]
      rw [eraseDups_append_singleton, ih]
      by_cases hy : y ∈ xs <;> simp [hy, hP]
    · simp only [hP, cond_false, List.append_nil, ih]
      split <;> simp [hP]

theorem eraseDups_of_nodup {xs : List β} (h : xs.Nodup) : xs.eraseDups = xs := by
  induction xs using List.reverseRecOn with
  | nil => rfl
  | append_singleton xs y ih =>
    have hy : y ∉ xs := fun hy => List.disjoint_of_nodup_append h hy (List.mem_singleton_self y)
    rw [eraseDups_append_singleton, if_neg hy, ih (h.sublist (List.sublist_append_left xs [y]))]

theorem length_eraseDups (xs : List β) : xs.eraseDups.length = xs.toFinset.card := by
  rw [← List.toFinset_card_of_nodup (nodup_eraseDups xs)]
  congr 1
  ext x
  simp

end FirstOccurrences

namespace Problem

variable {α : Type} [DecidableEq α] {p : Problem α}

/-! ### One insertion -/

section Insert

variable {xs : List α} {ds : List (Dependence α)}

theorem insertOperation_eraseDups (hops : p.operations = xs.eraseDups) (op : α) :
    (p.insertOperation op).operations = (xs ++ [op]).eraseDups := by
  rw [insertOperation_operations, eraseDups_append_singleton, hops]
  simp only [List.mem_eraseDups]

/-- A dependence inserts its source, then its destination. -/
theorem insertDependence_eraseDups (hops : p.operations = xs.eraseDups) (d : Dependence α) :
    (p.insertDependence d).operations = (xs ++ [d.source, d.destination]).eraseDups := by
  rw [insertDependence_operations,
    insertOperation_eraseDups (insertOperation_eraseDups hops d.source) d.destination,
    List.append_assoc, List.singleton_append]

theorem insertDependence_dependences_eraseDups (hdeps : p.dependences = ds.eraseDups)
    (d : Dependence α) : (p.insertDependence d).dependences = (ds ++ [d]).eraseDups := by
  have hmem : d ∈ p.dependences ↔ d ∈ ds := by rw [hdeps, List.mem_eraseDups]
  rw [eraseDups_append_singleton, ← hdeps]
  unfold insertDependence
  simp only [insertOperation_dependences, List.elem_eq_mem, decide_eq_true_eq, hmem]
  split
  · rw [insertOperation_dependences, insertOperation_dependences]
  · rfl

theorem foldl_insertOperation_eraseDups :
    ∀ {p : Problem α} {xs : List α} (ys : List α), p.operations = xs.eraseDups →
      (ys.foldl insertOperation p).operations = (xs ++ ys).eraseDups
  | p, xs, [], hops => by rw [List.foldl_nil, List.append_nil, hops]
  | p, xs, y :: ys, hops => by
    rw [List.foldl_cons, foldl_insertOperation_eraseDups ys (insertOperation_eraseDups hops y),
      List.append_assoc, List.singleton_append]

/-- Dependences between registered operations register nothing. -/
theorem foldl_insertDependence_operations :
    ∀ {p : Problem α} (ds : List (Dependence α)),
      (∀ d ∈ ds, d.source ∈ p.operations ∧ d.destination ∈ p.operations) →
      (ds.foldl insertDependence p).operations = p.operations
  | p, [], _ => rfl
  | p, d :: ds, hends => by
    have hstep : (p.insertDependence d).operations = p.operations := by
      rw [insertDependence_operations, insertOperation_of_mem (hends d List.mem_cons_self).1,
        insertOperation_of_mem (hends d List.mem_cons_self).2]
    rw [List.foldl_cons, foldl_insertDependence_operations ds fun d' hd' => by
      rw [hstep]
      exact hends d' (List.mem_cons_of_mem d hd'), hstep]

end Insert

/-! ### Calls and what they insert -/

/-- The operations a call inserts, in the order it inserts them: linking registers the
operation, and a dependence its source and then its destination. -/
def Action.insertedOperations : Action α → List α
  | .insertOperation op => [op]
  | .link op _ => [op]
  | .insertDependence d => [d.source, d.destination]
  | _ => []

/-- The dependences a call inserts. -/
def Action.insertedDependences : Action α → List (Dependence α)
  | .insertDependence d => [d]
  | _ => []

/-- One call appends to the operations and the dependences what it inserts that is new. -/
theorem Action.apply_eraseDups {q : Problem α} {xs : List α} {ds : List (Dependence α)}
    (hops : p.operations = xs.eraseDups) (hdeps : p.dependences = ds.eraseDups) (a : Action α)
    (h : a.apply p = .ok q) :
    q.operations = (xs ++ a.insertedOperations).eraseDups ∧
      q.dependences = (ds ++ a.insertedDependences).eraseDups := by
  have hkeep : q.operations = p.operations → q.dependences = p.dependences →
      q.operations = (xs ++ []).eraseDups ∧ q.dependences = (ds ++ []).eraseDups := by
    intro h₁ h₂
    rw [List.append_nil, List.append_nil, h₁, h₂]
    exact ⟨hops, hdeps⟩
  cases a with
  | insertOperation op =>
    cases h
    refine ⟨insertOperation_eraseDups hops op, ?_⟩
    rw [insertOperation_dependences]
    exact (List.append_nil ds).symm ▸ hdeps
  | insertOperatorType name =>
    cases h
    exact hkeep (insertOperatorType_operations name) (insertOperatorType_dependences name)
  | setLatency type latency =>
    cases h
    exact hkeep (setLatency_operations type latency) (setLatency_dependences type latency)
  | link op type =>
    cases h
    refine ⟨insertOperation_eraseDups hops op, ?_⟩
    rw [link_dependences]
    exact (List.append_nil ds).symm ▸ hdeps
  | insertDependence d =>
    cases h
    exact ⟨insertDependence_eraseDups hops d, insertDependence_dependences_eraseDups hdeps d⟩
  | setStartTime op start =>
    cases h
    exact hkeep rfl rfl
  | setInitiationInterval ii =>
    cases h
    exact hkeep rfl rfl
  | check =>
    simp only [Action.apply] at h
    split at h
    · rename_i q' hcheck
      cases h
      obtain ⟨-, rfl⟩ := check_eq_ok hcheck
      exact hkeep rfl rfl
    · cases h
      exact hkeep rfl rfl
  | verify =>
    cases h
    exact hkeep rfl rfl
  | schedule cfg =>
    simp only [Action.apply] at h
    cases hsolve : p.solve cfg with
    | error e =>
      rw [hsolve] at h
      cases h
    | ok result =>
      rw [hsolve] at h
      cases h
      exact hkeep (solve_retimed cfg hsolve).operations (solve_retimed cfg hsolve).dependences

/-- A sequence of calls appends, call after call, what each inserts that is new. -/
theorem foldlM_apply_eraseDups :
    ∀ {actions : List (Action α)} {p q : Problem α} {xs : List α} {ds : List (Dependence α)},
      p.operations = xs.eraseDups → p.dependences = ds.eraseDups →
      actions.foldlM (fun p a => a.apply p) p = .ok q →
      q.operations = (xs ++ actions.flatMap Action.insertedOperations).eraseDups ∧
        q.dependences = (ds ++ actions.flatMap Action.insertedDependences).eraseDups
  | [], p, q, xs, ds, hops, hdeps, h => by
    cases h
    simpa using ⟨hops, hdeps⟩
  | a :: rest, p, q, xs, ds, hops, hdeps, h => by
    rw [List.foldlM_cons] at h
    cases hstep : a.apply p with
    | error e =>
      rw [hstep] at h
      cases h
    | ok p₁ =>
      rw [hstep] at h
      obtain ⟨hops₁, hdeps₁⟩ := Action.apply_eraseDups hops hdeps a hstep
      rw [List.flatMap_cons, List.flatMap_cons, ← List.append_assoc, ← List.append_assoc]
      exact foldlM_apply_eraseDups hops₁ hdeps₁ h

/-- With distinct operations, the program index of an operation is its position. -/
theorem programIndex?_eq_some_iff (hnodup : p.operations.Nodup) {op : α} {i : Nat} :
    p.programIndex? op = some i ↔ p.operations[i]? = some op := by
  constructor
  · intro h
    obtain ⟨hi, heq, -⟩ := List.idxOf?_eq_some_iff.1 h
    rw [List.getElem?_eq_getElem hi, heq]
  · intro h
    obtain ⟨j, hj, hget⟩ := programIndex?_of_mem (List.mem_of_getElem? h)
    have hi : i < p.operations.length := (List.getElem?_eq_some_iff.1 h).1
    rw [hj, (List.getElem?_inj hi hnodup).1 (h.trans hget.symm)]

/-- Whatever calls built a problem, it lists each operation ever inserted once, in the order of
first insertion, directly, by linking or as an endpoint of a dependence, and gives each its
position there as program index; it lists each distinct dependence ever inserted once, in the
order of first insertion, so their number is the number of distinct insertions; and the
dependences into an operation are the insertions into it, in the same order, repeats erased. -/
theorem run_lists_first_insertions {actions : List (Action α)} (h : run actions = .ok p) :
    p.operations = (actions.flatMap Action.insertedOperations).eraseDups ∧ p.operations.Nodup ∧
      (∀ op i, p.programIndex? op = some i ↔ p.operations[i]? = some op) ∧
      p.dependences = (actions.flatMap Action.insertedDependences).eraseDups ∧
      p.dependences.length = (actions.flatMap Action.insertedDependences).toFinset.card ∧
      ∀ op, p.dependencesOf op =
        ((actions.flatMap Action.insertedDependences).filter (·.destination == op)).eraseDups := by
  obtain ⟨hops, hdeps⟩ := foldlM_apply_eraseDups
    (show (Problem.empty : Problem α).operations = ([] : List α).eraseDups from rfl)
    (show (Problem.empty : Problem α).dependences = ([] : List (Dependence α)).eraseDups from
      rfl) h
  rw [List.nil_append] at hops hdeps
  have hnodup : p.operations.Nodup := hops ▸ nodup_eraseDups _
  refine ⟨hops, hnodup, fun op i => programIndex?_eq_some_iff hnodup, hdeps, ?_, fun op => ?_⟩
  · rw [hdeps, length_eraseDups]
  · rw [dependencesOf, eraseDups_filter, hdeps]

/-- Operations 7 and 3 inserted, 7 again, then a dependence from 3 to 5 twice and once more at
another distance, then 7 linked. -/
def repeatedInsertions : List (Action Nat) :=
  [.insertOperation 7, .insertOperation 3, .insertOperation 7,
    .insertDependence ⟨3, 5, 0, .data⟩, .insertDependence ⟨3, 5, 0, .data⟩,
    .insertDependence ⟨3, 5, 1, .data⟩, .link 7 0]

/-- The problem those calls build: operations 7, 3 and 5, and two dependences. -/
def repeatedInsertionsProblem : Problem Nat :=
  ⟨[7, 3, 5], [], [(7, 0)], [⟨3, 5, 0, .data⟩, ⟨3, 5, 1, .data⟩], [], none, false⟩

theorem repeatedInsertions_listed :
    run repeatedInsertions = .ok repeatedInsertionsProblem ∧
      (repeatedInsertionsProblem.operations =
          (repeatedInsertions.flatMap Action.insertedOperations).eraseDups ∧
        repeatedInsertionsProblem.operations.Nodup ∧
        (∀ op i, repeatedInsertionsProblem.programIndex? op = some i ↔
          repeatedInsertionsProblem.operations[i]? = some op) ∧
        repeatedInsertionsProblem.dependences =
          (repeatedInsertions.flatMap Action.insertedDependences).eraseDups ∧
        repeatedInsertionsProblem.dependences.length =
          (repeatedInsertions.flatMap Action.insertedDependences).toFinset.card ∧
        ∀ op, repeatedInsertionsProblem.dependencesOf op =
          ((repeatedInsertions.flatMap Action.insertedDependences).filter
            (·.destination == op)).eraseDups) :=
  have hrun : run repeatedInsertions = .ok repeatedInsertionsProblem := rfl
  ⟨hrun, run_lists_first_insertions hrun⟩

end Problem

/-! ### The problem of a loop -/

namespace Loop

variable {l : Loop}

/-- The problem of a loop lists the body operations in program order, repeats erased, then the
increment: the dependences it derives join these and register nothing new. -/
theorem problem_operations {p : Problem OpRef} (h : l.problem = .ok p) :
    p.operations = (l.operations.map (OpRef.body ·.id) ++ [OpRef.increment]).eraseDups := by
  unfold problem at h
  cases hmem : l.memoryDependences with
  | error e =>
    simp only [hmem] at h
    cases h
  | ok memory =>
    simp only [hmem] at h
    cases h
    set init := (l.operations.map (fun o : Operation => OpRef.body o.id) ++
      [OpRef.increment]).foldl Problem.insertOperation Problem.empty
    have hinit :
        init.operations = (l.operations.map (OpRef.body ·.id) ++ [OpRef.increment]).eraseDups :=
      Problem.foldl_insertOperation_eraseDups _
        (show Problem.empty.operations = ([] : List OpRef).eraseDups from rfl)
    have hnative : ∀ op, l.isForeign op = false → op ∈ init.operations := by
      intro op hop
      rw [hinit, List.mem_eraseDups]
      rcases (l.isForeign_eq_false_iff).1 hop with rfl | ⟨o, ho, rfl⟩
      · exact List.mem_append_right _ (List.mem_singleton_self _)
      · exact List.mem_append_left _ (List.mem_map_of_mem ho)
    have hdata : (l.dataDependences.foldl Problem.insertDependence init).operations =
        init.operations :=
      Problem.foldl_insertDependence_operations _ fun d hd =>
        ⟨hnative _ (l.dataDependences_native d hd).1,
          hnative _ (l.dataDependences_native d hd).2⟩
    rw [Problem.foldl_insertDependence_operations, hdata, hinit]
    intro d hd
    rw [hdata]
    exact ⟨hnative _ (l.memoryDependences_native hmem d hd).1,
      hnative _ (l.memoryDependences_native hmem d hd).2⟩

end Loop

end ModuloPipelining
