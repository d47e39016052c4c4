import ModuloPipelining.Proofs.Problem.MemoryOrder
import ModuloPipelining.Proofs.Problem.FirstViolation

/-!
# Dependences within one iteration run forward

In the dependence problem of a loop whose operations read the results only of operations that
stand before them, every distance-0 dependence runs from an operation to a later one in program
order (`Loop.ReadsEarlier.problem_sameIteration_forward`). Each source of dependences keeps to
this:

* a result read directly joins an earlier operation within the iteration;
* a value read through an iteration argument or the induction variable comes from an earlier
  iteration (`Loop.valueDependence_distance`), so the increment has no distance-0 dependence;
* two memory accesses are ordered within one iteration only from the earlier to the later,
  whether their indices are `iv + c` with no iterations between the conflicting instances or
  not of that form (`Access.dependences_sameIteration`).

Program order then ranks every distance-0 dependence upwards, so they close no walk, and the
check of the problem, linked to operator types, never reports a cycle of them.
-/

namespace ModuloPipelining

section Lists

variable {β γ : Type}

/-- In a list without repeats, an element before another has the smaller position. -/
theorem idxOf_lt_of_sublist [DecidableEq β] {l : List β} {a b : β} (hnodup : l.Nodup)
    (h : [a, b].Sublist l) : l.idxOf a < l.idxOf b := by
  obtain ⟨r₁, r₂, rfl, ha, hb⟩ := List.cons_sublist_iff.1 h
  have hb₂ : b ∈ r₂ := List.singleton_sublist.1 hb
  have hb₁ : b ∉ r₁ := fun hb₁ => (List.nodup_append.1 hnodup).2.2 b hb₁ b hb₂ rfl
  rw [List.idxOf_append, if_pos ha, List.idxOf_append, if_neg hb₁]
  have hlt := List.idxOf_lt_length_of_mem ha
  omega

/-- Keeping some elements, each mapped as a full map would map it, gives part of the full map. -/
theorem filterMap_sublist_map {f : β → Option γ} {g : β → γ} (h : ∀ x y, f x = some y → y = g x) :
    ∀ xs : List β, (xs.filterMap f).Sublist (xs.map g)
  | [] => List.Sublist.slnil
  | x :: xs => by
    cases hx : f x with
    | none =>
      rw [List.filterMap_cons_none hx, List.map_cons]
      exact (filterMap_sublist_map h xs).cons _
    | some y =>
      rw [List.filterMap_cons_some hx, List.map_cons, h x y hx]
      exact (filterMap_sublist_map h xs).cons_cons _

end Lists

namespace Problem

variable {α : Type} [DecidableEq α]

/-- Every step that keeps a problem well formed keeps it so over a whole fold. -/
theorem WellFormed.foldl {β : Type} {f : Problem α → β → Problem α}
    (hf : ∀ q x, WellFormed q → WellFormed (f q x)) :
    ∀ (xs : List β) {p : Problem α}, WellFormed p → WellFormed (xs.foldl f p)
  | [], _, h => h
  | x :: xs, _, h => WellFormed.foldl hf xs (hf _ x h)

end Problem

namespace Loop

/-- A loop whose body operations have distinct identities and read the result of a body
operation only when that operation stands before them. -/
@[mk_iff]
structure ReadsEarlier (l : Loop) : Prop where
  nodup : (l.operations.map (·.id)).Nodup
  before : ∀ o ∈ l.operations, ∀ id ∈ o.operands.filterMap Value.resultId?, l.hasOp id = true →
    ∃ q ∈ l.operations, q.id = id ∧ [q, o].Sublist l.operations

instance (l : Loop) : Decidable l.ReadsEarlier :=
  decidable_of_iff _ (readsEarlier_iff l).symm

variable {l : Loop} {p : Problem OpRef}

/-! ### Data dependences -/

section Data

variable {consumer : OpRef} {v : Value} {d : Nat} {r : Dependence OpRef}

/-- A value read through the yields or the induction variable comes from an earlier iteration:
only a result read directly keeps the distance the search starts from. -/
theorem valueDependence_distance {fuel : Nat} (h : l.valueDependence consumer fuel v d = some r) :
    d ≤ r.distance ∧
      (r.distance = d → ∃ id, v = .result id ∧ l.hasOp id = true ∧ r.source = .body id) := by
  induction fuel generalizing v d with
  | zero => cases h
  | succ fuel ih =>
    cases v with
    | result id =>
      simp only [valueDependence] at h
      split at h <;> rename_i hop
      · cases h
        exact ⟨le_refl d, fun _ => ⟨id, rfl, hop, rfl⟩⟩
      · cases h
    | inductionVar =>
      cases h
      exact ⟨Nat.le_succ d, fun hd => absurd hd (Nat.succ_ne_self d)⟩
    | iterArg i =>
      simp only [valueDependence] at h
      cases hy : l.yields[i]? with
      | none =>
        rw [hy] at h
        cases h
      | some w =>
        rw [hy] at h
        have hfar := (ih h).1
        exact ⟨by omega, fun hd => by omega⟩
    | constant _ _ => cases h
    | argument _ => cases h

/-- A data dependence within one iteration joins an operation to a later one that reads its
result. -/
theorem ReadsEarlier.dataDependences_forward (hl : l.ReadsEarlier) {d : Dependence OpRef}
    (hd : d ∈ l.dataDependences) (hzero : d.distance = 0) :
    ∃ i j, d.source = .body i ∧ d.destination = .body j ∧
      [i, j].Sublist (l.operations.map (·.id)) := by
  rcases List.mem_append.1 hd with hd | hd
  · obtain ⟨o, ho, hd⟩ := List.mem_flatMap.1 hd
    obtain ⟨v, hv, hdep⟩ := List.mem_filterMap.1 hd
    obtain ⟨id, rfl, hop, hsource⟩ := (valueDependence_distance hdep).2 hzero
    obtain ⟨q, -, hqid, hq⟩ := hl.before o ho id (Value.mem_filterMap_resultId?.2 hv) hop
    subst hqid
    exact ⟨q.id, o.id, hsource, (valueDependence_eq_some hdep).1, hq.map _⟩
  · obtain ⟨_, hiv, -⟩ := (valueDependence_distance (Option.mem_toList.1 hd)).2 hzero
    cases hiv

end Data

/-! ### Memory dependences -/

/-- The accesses are those of body operations, in program order. -/
theorem accesses_ops_sublist {accs : List Access} (h : l.accesses = .ok accs) :
    (accs.map (·.op)).Sublist (l.operations.map (·.id)) := by
  unfold accesses at h
  have hops : accs.map (·.op) =
      (l.operations.filterMap fun op => op.memoryAccess?.map (op.id, ·)).map Prod.fst := by
    refine map_of_mapM_eq_ok (fun x y hxy => ?_) h
    obtain ⟨offset, -, hxy⟩ := bind_eq_ok hxy
    cases hxy
    rfl
  rw [hops, List.map_filterMap]
  refine filterMap_sublist_map (fun o y hy => ?_) _
  obtain ⟨pair, hpair, rfl⟩ := Option.map_eq_some_iff.1 hy
  obtain ⟨m, -, rfl⟩ := Option.map_eq_some_iff.1 hpair
  rfl

end Loop

/-- Two accesses are ordered within one iteration only from the earlier to the later: an `iv + c`
pair orders backward only across a positive number of iterations, any other pair backward across
one. -/
theorem Access.dependences_sameIteration {step : Option Int} {tripCount : Option Nat}
    {x y : Access} {ds : List (Dependence OpRef)}
    (h : Access.dependences step tripCount x y = .ok ds) {d : Dependence OpRef} (hd : d ∈ ds)
    (hzero : d.distance = 0) : d.source = .body x.op ∧ d.destination = .body y.op := by
  unfold Access.dependences at h
  split at h
  · cases h
    cases hd
  · split at h
    · dsimp only at h
      split_ifs at h with hfit hmin hmod hfar hsign <;> cases h <;>
        simp only [List.mem_singleton, List.not_mem_nil] at hd <;> subst hd
      · exact ⟨rfl, rfl⟩
      · simp only [Int.natAbs_eq_zero] at hzero
        omega
    · cases h
      simp only [List.mem_cons, List.not_mem_nil, or_false] at hd
      rcases hd with rfl | rfl
      · exact ⟨rfl, rfl⟩
      · cases hzero

namespace Loop

variable {l : Loop} {p : Problem OpRef}

/-- An ordering of memory accesses within one iteration runs forward in program order. -/
theorem memoryDependences_forward {ds : List (Dependence OpRef)} (h : l.memoryDependences = .ok ds)
    {d : Dependence OpRef} (hd : d ∈ ds) (hzero : d.distance = 0) :
    ∃ i j, d.source = .body i ∧ d.destination = .body j ∧
      [i, j].Sublist (l.operations.map (·.id)) := by
  unfold memoryDependences at h
  obtain ⟨accs, hacc, h⟩ := bind_eq_ok h
  obtain ⟨x, y, dxy, hxy, hdxy, hd⟩ := Access.mem_pairDependences h d hd
  obtain ⟨hsource, hdest⟩ := Access.dependences_sameIteration hdxy hd hzero
  exact ⟨x.op, y.op, hsource, hdest, (hxy.map Access.op).trans (accesses_ops_sublist hacc)⟩

/-! ### The problem -/

/-- The problem built from a loop registers each operation once and the ends of every
dependence. -/
theorem problem_wellFormed (hp : l.problem = .ok p) : p.WellFormed := by
  unfold problem at hp
  obtain ⟨memory, -, hp⟩ := bind_eq_ok hp
  cases hp
  have hinsert : ∀ (q : Problem OpRef) (d : Dependence OpRef), q.WellFormed →
      (q.insertDependence d).WellFormed := fun _ d hq => hq.insertDependence d
  refine Problem.WellFormed.foldl hinsert memory (Problem.WellFormed.foldl hinsert _ ?_)
  exact Problem.WellFormed.foldl (fun _ op hq => hq.insertOperation op) _ Problem.WellFormed.empty

theorem ReadsEarlier.problem_forward (hl : l.ReadsEarlier) (hp : l.problem = .ok p)
    {d : Dependence OpRef} (hd : d ∈ p.dependences) (hzero : d.distance = 0) :
    ∃ i j, d.source = .body i ∧ d.destination = .body j ∧
      [i, j].Sublist (l.operations.map (·.id)) := by
  obtain ⟨memory, hmem⟩ := memoryDependences_of_problem hp
  rcases (mem_problem_dependences hp hmem).1 hd with hd | hd
  · exact hl.dataDependences_forward hd hzero
  · exact memoryDependences_forward hmem hd hzero

/-- Distance-0 dependences that all run forward in program order close no walk. -/
theorem ReadsEarlier.zeroDistanceAcyclic (hl : l.ReadsEarlier) (hp : l.problem = .ok p) :
    p.ZeroDistanceAcyclic := by
  intro x w hw
  -- rank each operation by its place in program order
  have hrank : ∀ e ∈ p.dependences.filter (fun d => d.distance = 0),
      ((l.operations.map (·.id)).map OpRef.body).idxOf e.source <
        ((l.operations.map (·.id)).map OpRef.body).idxOf e.destination := by
    intro e he
    obtain ⟨hmem, hzero⟩ := List.mem_filter.1 he
    obtain ⟨i, j, hi, hj, hij⟩ := hl.problem_forward hp hmem (of_decide_eq_true hzero)
    rw [hi, hj]
    exact idxOf_lt_of_sublist (hl.nodup.map fun _ _ h => OpRef.body.inj h) (hij.map OpRef.body)
  by_contra hne
  exact lt_irrefl _
    (Walk.rank_lt (fun x => ((l.operations.map (·.id)).map OpRef.body).idxOf x) hrank hw hne)

/-- In the dependence problem of a loop whose operations read the results only of operations
before them, every distance-0 dependence runs from an operation to a later one in program order,
so none touches the increment. These dependences close no walk, and the check of the problem,
linked to the operator types of any library, never reports a cycle of them. -/
theorem ReadsEarlier.problem_sameIteration_forward (hl : l.ReadsEarlier) (hp : l.problem = .ok p) :
    (∀ d ∈ p.dependences, d.distance = 0 → ∃ i j, d.source = .body i ∧ d.destination = .body j ∧
      [i, j].Sublist (l.operations.map (·.id))) ∧
    p.ZeroDistanceAcyclic ∧
    ∀ lib op, (p.linkLoop lib l).1.check ≠ .error (.intraIterationCycle op) := by
  have hacyclic := hl.zeroDistanceAcyclic hp
  refine ⟨fun _ hd hzero => hl.problem_forward hp hd hzero, hacyclic, fun lib op => ?_⟩
  obtain ⟨hops, hdeps⟩ := (problem_problemOf hp).linkLoop_graph lib
  have hwf := problem_wellFormed hp
  refine Problem.check_ne_intraIterationCycle (hops ▸ hwf.nodup)
    (fun d hd => hops ▸ hwf.source_mem d (hdeps ▸ hd))
    (fun d hd => hops ▸ hwf.destination_mem d (hdeps ▸ hd)) ?_ op
  intro x w hw
  exact hacyclic x w (hdeps ▸ hw)

end Loop

/-- `s = s + a[iv]; b[iv] = s; t = b[iv]`: a running sum carried in an iteration argument,
stored and read back within the iteration. -/
def runningStore : Loop :=
  ⟨0, .constant 0, .constant 16, .constant 1, .slt, [.constant 0 .i32], [.i32],
    [.op ⟨0, .load "a", [.inductionVar], some .i32⟩,
      .op ⟨1, .addi, [.iterArg 0, .result 0], some .i32⟩,
      .op ⟨2, .store "b", [.result 1, .inductionVar], none⟩,
      .op ⟨3, .load "b", [.inductionVar], some .i32⟩], [.result 1]⟩

/-- The dependence problem of `runningStore`: the sum reads the previous iteration's sum, and the
store is ordered before the load within the iteration. -/
def runningStoreProblem : Problem OpRef :=
  ⟨[.body 0, .body 1, .body 2, .body 3, .increment], [], [],
    [⟨.increment, .body 0, 1, .data⟩, ⟨.body 1, .body 1, 1, .data⟩, ⟨.body 0, .body 1, 0, .data⟩,
      ⟨.body 1, .body 2, 0, .data⟩, ⟨.increment, .body 2, 1, .data⟩,
      ⟨.increment, .body 3, 1, .data⟩, ⟨.increment, .increment, 1, .data⟩,
      ⟨.body 2, .body 3, 0, .auxiliary⟩], [], none, false⟩

theorem runningStore_sameIteration_forward :
    runningStore.ReadsEarlier ∧ runningStore.problem = .ok runningStoreProblem ∧
    (∀ d ∈ runningStoreProblem.dependences, d.distance = 0 → ∃ i j, d.source = .body i ∧
      d.destination = .body j ∧ [i, j].Sublist (runningStore.operations.map (·.id))) ∧
    runningStoreProblem.ZeroDistanceAcyclic ∧
    ∀ lib op, (runningStoreProblem.linkLoop lib runningStore).1.check ≠
      .error (.intraIterationCycle op) :=
  ⟨by decide, rfl, Loop.ReadsEarlier.problem_sameIteration_forward (by decide) rfl⟩

end ModuloPipelining
