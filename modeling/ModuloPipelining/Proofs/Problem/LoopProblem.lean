import ModuloPipelining.Proofs.Schedule.Optimal
import ModuloPipelining.Problem.FromLoop
import ModuloPipelining.Problem.Link
import ModuloPipelining.Pipeline.Construct
import Mathlib.Data.Finset.Card

/-!
# The dependence problem of a loop

`Loop.problem` registers the loop's own operations and its increment, nothing else, and holds
every data dependence of the loop (`Loop.problem_problemOf`). Linking the operations to operator
types keeps this and, once every operation is registered, changes neither the operations nor
the dependences (`Problem.linkLoop_operations`, `Problem.linkLoop_dependences`).

A value read through iteration arguments is found by following the yields, one iteration
further back per step. The search is given one step more than there are yields. That is enough
for every chain that ends at a producer, since such a chain never visits an argument twice: the
distance at which a chain reaches its producer fixes where the chain started
(`Loop.valueDependence_short`).
-/

namespace ModuloPipelining

/-! ### Traversals that succeed -/

section Traversal

variable {ε β γ : Type}

theorem mem_of_mapM_eq_ok {f : β → Except ε γ} :
    ∀ {xs : List β} {ys : List γ}, xs.mapM f = .ok ys → ∀ y ∈ ys, ∃ x ∈ xs, f x = .ok y
  | [], ys, h => by
    cases h
    simp
  | x :: xs, ys, h => by
    rw [List.mapM_cons] at h
    cases hx : f x with
    | error e =>
      rw [hx] at h
      cases h
    | ok y =>
      cases hrest : xs.mapM f with
      | error e =>
        rw [hx, hrest] at h
        cases h
      | ok rest =>
        rw [hx, hrest] at h
        cases h
        intro z hz
        rcases List.mem_cons.1 hz with rfl | hz
        · exact ⟨x, List.mem_cons_self, hx⟩
        · obtain ⟨x', hx', hfx'⟩ := mem_of_mapM_eq_ok hrest z hz
          exact ⟨x', List.mem_cons_of_mem _ hx', hfx'⟩

theorem mem_of_flatMapM_eq_ok {f : β → Except ε (List γ)} :
    ∀ {xs : List β} {ys : List γ}, xs.flatMapM f = .ok ys →
      ∀ y ∈ ys, ∃ x ∈ xs, ∃ zs, f x = .ok zs ∧ y ∈ zs
  | [], ys, h => by
    cases h
    simp
  | x :: xs, ys, h => by
    rw [List.flatMapM_cons] at h
    cases hx : f x with
    | error e =>
      rw [hx] at h
      cases h
    | ok zs =>
      cases hrest : xs.flatMapM f with
      | error e =>
        rw [hx, hrest] at h
        cases h
      | ok rest =>
        rw [hx, hrest] at h
        cases h
        intro y hy
        rcases List.mem_append.1 hy with hy | hy
        · exact ⟨x, List.mem_cons_self, zs, hx, hy⟩
        · obtain ⟨x', hx', zs', hfx', hy'⟩ := mem_of_flatMapM_eq_ok hrest y hy
          exact ⟨x', List.mem_cons_of_mem _ hx', zs', hfx', hy'⟩

theorem mapM_eq_ok_map {f : β → Except ε γ} {g : β → γ} :
    ∀ {xs : List β}, (∀ x ∈ xs, f x = .ok (g x)) → xs.mapM f = .ok (xs.map g)
  | [], _ => rfl
  | x :: xs, h => by
    rw [List.mapM_cons, h x List.mem_cons_self,
      mapM_eq_ok_map fun y hy => h y (List.mem_cons_of_mem _ hy)]
    rfl

/-- A fold whose step ignores the element and always succeeds iterates the step. -/
theorem foldlM_eq_ok_iterate {δ : Type} {g : γ → Except ε γ} {h : γ → γ}
    (hg : ∀ acc, g acc = .ok (h acc)) :
    ∀ (xs : List δ) (init : γ), xs.foldlM (fun acc _ => g acc) init = .ok (h^[xs.length] init)
  | [], _ => rfl
  | _ :: xs, init => by
    rw [List.foldlM_cons, hg init, List.length_cons, Function.iterate_succ_apply]
    exact foldlM_eq_ok_iterate hg xs (h init)

end Traversal

/-! ### Registering operations and dependences -/

namespace Problem

variable {α : Type} [DecidableEq α] {p : Problem α}

theorem mem_insertOperation {op x : α} :
    x ∈ (p.insertOperation op).operations ↔ x ∈ p.operations ∨ x = op := by
  rw [insertOperation_operations]
  split <;> rename_i h
  · exact ⟨Or.inl, fun hx => hx.elim id fun e => e ▸ h⟩
  · simp

theorem insertOperation_of_mem {op : α} (h : op ∈ p.operations) : p.insertOperation op = p := by
  unfold insertOperation
  rw [if_pos (List.elem_iff.2 h)]

@[simp] theorem insertOperation_dependences (op : α) :
    (p.insertOperation op).dependences = p.dependences := by
  unfold insertOperation
  split <;> rfl

@[simp] theorem insertDependence_operations (d : Dependence α) :
    (p.insertDependence d).operations =
      ((p.insertOperation d.source).insertOperation d.destination).operations := by
  unfold insertDependence
  dsimp only
  split <;> rfl

theorem mem_insertDependence_dependences {d x : Dependence α} :
    x ∈ (p.insertDependence d).dependences ↔ x ∈ p.dependences ∨ x = d := by
  unfold insertDependence
  dsimp only
  split <;> rename_i h
  · simp only [insertOperation_dependences] at h ⊢
    exact ⟨Or.inl, fun hx => hx.elim id fun e => e ▸ List.elem_iff.1 h⟩
  · simp

theorem mem_foldl_insertOperation {x : α} :
    ∀ {ops : List α} {p : Problem α},
      x ∈ (ops.foldl insertOperation p).operations ↔ x ∈ p.operations ∨ x ∈ ops
  | [], p => by simp
  | op :: ops, p => by
    rw [List.foldl_cons, mem_foldl_insertOperation, mem_insertOperation, List.mem_cons]
    tauto

theorem foldl_insertOperation_dependences :
    ∀ {ops : List α} {p : Problem α}, (ops.foldl insertOperation p).dependences = p.dependences
  | [], _ => rfl
  | op :: ops, p => by
    rw [List.foldl_cons, foldl_insertOperation_dependences, insertOperation_dependences]

theorem mem_foldl_insertDependence {x : α} :
    ∀ {ds : List (Dependence α)} {p : Problem α},
      x ∈ (ds.foldl insertDependence p).operations ↔
        x ∈ p.operations ∨ ∃ d ∈ ds, x = d.source ∨ x = d.destination
  | [], p => by simp
  | d :: ds, p => by
    rw [List.foldl_cons, mem_foldl_insertDependence, insertDependence_operations,
      mem_insertOperation, mem_insertOperation]
    simp only [List.mem_cons, exists_eq_or_imp, or_assoc]

theorem mem_foldl_insertDependence_dependences {x : Dependence α} :
    ∀ {ds : List (Dependence α)} {p : Problem α},
      x ∈ p.dependences ∨ x ∈ ds → x ∈ (ds.foldl insertDependence p).dependences
  | [], _, h => by simpa using h
  | d :: ds, p, h => by
    rw [List.foldl_cons]
    apply mem_foldl_insertDependence_dependences
    rw [mem_insertDependence_dependences]
    rcases h with h | h
    · exact Or.inl (Or.inl h)
    · rcases List.mem_cons.1 h with rfl | h
      · exact Or.inl (Or.inr rfl)
      · exact Or.inr h

end Problem

/-! ### Values carried across iterations -/

namespace Loop

variable (l : Loop)

/-- Starting the search further back only shifts the distance found. -/
theorem valueDependence_shift (consumer : OpRef) (fuel : Nat) (v : Value) (d k : Nat) :
    l.valueDependence consumer fuel v (d + k) =
      (l.valueDependence consumer fuel v d).map fun x => { x with distance := x.distance + k } := by
  induction fuel generalizing v d with
  | zero => rfl
  | succ fuel ih =>
    cases v with
    | result id =>
      simp only [valueDependence]
      split <;> rfl
    | inductionVar =>
      simp only [valueDependence, Option.map_some]
      rw [Nat.add_right_comm]
    | iterArg i =>
      simp only [valueDependence]
      cases l.yields[i]? with
      | none => rfl
      | some w =>
        dsimp only
        rw [Nat.add_right_comm]
        exact ih w (d + 1)
    | constant _ _ => rfl
    | argument _ => rfl

variable {l} {consumer : OpRef} {v : Value} {d : Nat} {r : Dependence OpRef}

theorem valueDependence_succ {fuel : Nat} (h : l.valueDependence consumer fuel v d = some r) :
    l.valueDependence consumer (fuel + 1) v d = some r := by
  induction fuel generalizing v d with
  | zero => cases h
  | succ fuel ih =>
    cases v with
    | iterArg i =>
      simp only [valueDependence] at h ⊢
      cases hy : l.yields[i]? with
      | none =>
        rw [hy] at h
        cases h
      | some w =>
        rw [hy] at h
        exact ih h
    | result _ => exact h
    | inductionVar => exact h
    | constant _ _ => exact h
    | argument _ => exact h

theorem valueDependence_le {fuel fuel' : Nat} (hle : fuel ≤ fuel')
    (h : l.valueDependence consumer fuel v d = some r) :
    l.valueDependence consumer fuel' v d = some r := by
  induction hle with
  | refl => exact h
  | step _ ih => exact valueDependence_succ ih

/-- A value found through the yields is a data dependence into the reader on the loop's own
operations. -/
theorem valueDependence_eq_some {fuel : Nat} (h : l.valueDependence consumer fuel v d = some r) :
    r.destination = consumer ∧ r.kind = .data ∧ l.isForeign r.source = false := by
  induction fuel generalizing v d with
  | zero => cases h
  | succ fuel ih =>
    cases v with
    | result id =>
      simp only [valueDependence] at h
      split at h <;> rename_i hop
      · cases h
        exact ⟨rfl, rfl, by simp [isForeign, hop]⟩
      · cases h
    | inductionVar =>
      cases h
      exact ⟨rfl, rfl, rfl⟩
    | iterArg i =>
      simp only [valueDependence] at h
      cases hy : l.yields[i]? with
      | none =>
        rw [hy] at h
        cases h
      | some w =>
        rw [hy] at h
        exact ih h
    | constant _ _ => cases h
    | argument _ => cases h

/-- The distance at which a search reaches a dependence fixes the distance it started from. -/
theorem valueDependence_start_eq {fuel fuel' e e' : Nat}
    (h : l.valueDependence consumer fuel v e = some r)
    (h' : l.valueDependence consumer fuel' v e' = some r) : e = e' := by
  have h₁ := valueDependence_le (Nat.le_add_right fuel fuel') h
  have h₂ := valueDependence_le (Nat.le_add_left fuel' fuel) h'
  rw [← Nat.zero_add e, valueDependence_shift] at h₁
  rw [← Nat.zero_add e', valueDependence_shift] at h₂
  obtain ⟨x, hx, hxr⟩ := Option.map_eq_some_iff.1 h₁
  obtain ⟨x', hx', hxr'⟩ := Option.map_eq_some_iff.1 h₂
  rw [hx] at hx'
  cases hx'
  have hdist := congrArg Dependence.distance (hxr.trans hxr'.symm)
  simp only at hdist
  omega

/-- A search that reaches a dependence visits distinct iteration arguments, each of which reaches
the same dependence from a later start. -/
theorem valueDependence_visits :
    ∀ {fuel : Nat} {v : Value} {d : Nat}, l.valueDependence consumer fuel v d = some r →
      ∃ visited : List Nat, visited.Nodup ∧
        (∀ i ∈ visited, i < l.yields.length ∧
          ∃ fuel' e, d ≤ e ∧ l.valueDependence consumer fuel' (.iterArg i) e = some r) ∧
        l.valueDependence consumer (visited.length + 1) v d = some r
  | 0, _, _, h => by cases h
  | fuel + 1, .iterArg i, d, h => by
    have hstart := h
    simp only [valueDependence] at h
    cases hy : l.yields[i]? with
    | none =>
      rw [hy] at h
      cases h
    | some w =>
      rw [hy] at h
      obtain ⟨visited, hnodup, hmem, hrun⟩ := valueDependence_visits h
      -- coming back to `i` would reach `r` from `i` at two different starts
      have hfresh : i ∉ visited := by
        intro hi
        obtain ⟨-, fuel', e, hle, he⟩ := hmem i hi
        have := valueDependence_start_eq hstart he
        omega
      refine ⟨i :: visited, List.nodup_cons.2 ⟨hfresh, hnodup⟩, fun j hj => ?_, ?_⟩
      · rcases List.mem_cons.1 hj with rfl | hj
        · exact ⟨(List.getElem?_eq_some_iff.1 hy).1, fuel + 1, d, le_refl d, hstart⟩
        · obtain ⟨hlt, fuel', e, hle, he⟩ := hmem j hj
          exact ⟨hlt, fuel', e, by omega, he⟩
      · simp only [List.length_cons, valueDependence, hy]
        exact hrun
  | _ + 1, .result _, _, h => ⟨[], List.nodup_nil, by simp, h⟩
  | _ + 1, .inductionVar, _, h => ⟨[], List.nodup_nil, by simp, h⟩
  | _ + 1, .constant _ _, _, h => by cases h
  | _ + 1, .argument _, _, h => by cases h

/-- One step more than there are yields finds every dependence a longer search finds. -/
theorem valueDependence_short {fuel : Nat} (h : l.valueDependence consumer fuel v d = some r) :
    l.valueDependence consumer (l.yields.length + 1) v d = some r := by
  obtain ⟨visited, hnodup, hmem, hrun⟩ := valueDependence_visits h
  have hlen : visited.length ≤ l.yields.length :=
    calc visited.length = visited.toFinset.card := (List.toFinset_card_of_nodup hnodup).symm
      _ ≤ (Finset.range l.yields.length).card :=
        Finset.card_le_card fun i hi => Finset.mem_range.2 (hmem i (List.mem_toFinset.1 hi)).1
      _ = l.yields.length := Finset.card_range _
  exact valueDependence_le (by omega) hrun

/-! ### The operations and dependences of the problem -/

variable (l)

theorem isForeign_eq_false_iff {op : OpRef} :
    l.isForeign op = false ↔ op = .increment ∨ ∃ o ∈ l.operations, op = .body o.id := by
  cases op with
  | increment => simp [isForeign]
  | body id =>
    rw [isForeign, Bool.not_eq_false', hasOp_iff]
    simp [eq_comm]

theorem isForeign_body {o : Operation} (h : o ∈ l.operations) : l.isForeign (.body o.id) = false :=
  (l.isForeign_eq_false_iff).2 (Or.inr ⟨o, h, rfl⟩)

/-- Data dependences join the loop's own operations. -/
theorem dataDependences_native :
    ∀ d ∈ l.dataDependences, l.isForeign d.source = false ∧ l.isForeign d.destination = false := by
  intro d hd
  rcases List.mem_append.1 hd with hd | hd
  · obtain ⟨o, ho, hd⟩ := List.mem_flatMap.1 hd
    obtain ⟨v, -, hv⟩ := List.mem_filterMap.1 hd
    obtain ⟨hdest, -, hsource⟩ := valueDependence_eq_some hv
    exact ⟨hsource, hdest ▸ l.isForeign_body ho⟩
  · obtain ⟨hdest, -, hsource⟩ := valueDependence_eq_some (Option.mem_toList.1 hd)
    exact ⟨hsource, hdest ▸ rfl⟩

theorem accesses_hasOp {accesses : List Access} (h : l.accesses = .ok accesses) :
    ∀ a ∈ accesses, l.hasOp a.op = true := by
  intro a ha
  obtain ⟨⟨id, access⟩, hx, hf⟩ := mem_of_mapM_eq_ok h a ha
  obtain ⟨o, ho, hmap⟩ := List.mem_filterMap.1 hx
  obtain ⟨_, -, hpair⟩ := Option.map_eq_some_iff.1 hmap
  cases hpair
  cases hoff : l.offsetOf? (l.operations.length + 1) access.index with
  | error e =>
    simp only [hoff] at hf
    cases hf
  | ok offset =>
    simp only [hoff] at hf
    cases hf
    exact (l.hasOp_iff _).2 ⟨o, ho, rfl⟩

end Loop

theorem Access.dependences_ends {step : Option Int} {tripCount : Option Nat}
    {earlier later : Access} {ds : List (Dependence OpRef)}
    (h : Access.dependences step tripCount earlier later = .ok ds) :
    ∀ d ∈ ds, (d.source = .body earlier.op ∨ d.source = .body later.op) ∧
      (d.destination = .body earlier.op ∨ d.destination = .body later.op) := by
  unfold Access.dependences at h
  intro d hd
  split at h
  · cases h
    cases hd
  · split at h
    · dsimp only at h
      split_ifs at h <;> cases h <;> simp at hd <;> subst hd <;> simp
    · cases h
      simp only [List.mem_cons, List.not_mem_nil, or_false] at hd
      rcases hd with rfl | rfl <;> simp

theorem Access.pairDependences_ends {step : Option Int} {tripCount : Option Nat} :
    ∀ {accesses : List Access} {ds : List (Dependence OpRef)},
      Access.pairDependences step tripCount accesses = .ok ds →
      ∀ d ∈ ds, (∃ a ∈ accesses, d.source = .body a.op) ∧ ∃ a ∈ accesses, d.destination = .body a.op
  | [], ds, h => by
    cases h
    simp
  | earlier :: rest, ds, h => by
    unfold Access.pairDependences at h
    cases hhere : rest.flatMapM (Access.dependences step tripCount earlier) with
    | error e =>
      simp only [hhere] at h
      cases h
    | ok here =>
      cases hlater : Access.pairDependences step tripCount rest with
      | error e =>
        simp only [hhere, hlater] at h
        cases h
      | ok later =>
        simp only [hhere, hlater] at h
        cases h
        intro d hd
        rcases List.mem_append.1 hd with hd | hd
        · obtain ⟨a, ha, zs, hz, hdz⟩ := mem_of_flatMapM_eq_ok hhere d hd
          obtain ⟨hs, hd⟩ := Access.dependences_ends hz d hdz
          have hmem : ∀ x, x = OpRef.body earlier.op ∨ x = OpRef.body a.op →
              ∃ b ∈ earlier :: rest, x = .body b.op := by
            rintro x (rfl | rfl)
            · exact ⟨earlier, List.mem_cons_self, rfl⟩
            · exact ⟨a, List.mem_cons_of_mem _ ha, rfl⟩
          exact ⟨hmem _ hs, hmem _ hd⟩
        · obtain ⟨⟨a, ha, hs⟩, ⟨b, hb, hd⟩⟩ := Access.pairDependences_ends hlater d hd
          exact ⟨⟨a, List.mem_cons_of_mem _ ha, hs⟩, ⟨b, List.mem_cons_of_mem _ hb, hd⟩⟩

namespace Loop

variable (l : Loop)

/-- Memory dependences join the loop's own operations. -/
theorem memoryDependences_native {ds : List (Dependence OpRef)} (h : l.memoryDependences = .ok ds) :
    ∀ d ∈ ds, l.isForeign d.source = false ∧ l.isForeign d.destination = false := by
  unfold memoryDependences at h
  cases hacc : l.accesses with
  | error e =>
    simp only [hacc] at h
    cases h
  | ok accesses =>
    simp only [hacc] at h
    have hnative : ∀ a ∈ accesses, l.isForeign (.body a.op) = false := fun a ha => by
      simp [isForeign, l.accesses_hasOp hacc a ha]
    intro d hd
    obtain ⟨⟨a, ha, hs⟩, ⟨b, hb, hd⟩⟩ := Access.pairDependences_ends h d hd
    rw [hs, hd]
    exact ⟨hnative a ha, hnative b hb⟩

/-- A problem of loop `l`: it registers the loop's own operations and its increment, nothing
else, and holds every data dependence of the loop. -/
structure ProblemOf (p : Problem OpRef) : Prop where
  native : ∀ op ∈ p.operations, l.isForeign op = false
  body : ∀ o ∈ l.operations, OpRef.body o.id ∈ p.operations
  increment : OpRef.increment ∈ p.operations
  data : ∀ d ∈ l.dataDependences, d ∈ p.dependences

variable {l}

theorem ProblemOf.of_graph {p q : Problem OpRef} (h : l.ProblemOf p)
    (hops : q.operations = p.operations) (hdeps : q.dependences = p.dependences) :
    l.ProblemOf q :=
  ⟨fun op hop => h.native op (hops ▸ hop), fun o ho => hops ▸ h.body o ho, hops ▸ h.increment,
    fun d hd => hdeps ▸ h.data d hd⟩

/-- The problem built from a loop is a problem of that loop. -/
theorem problem_problemOf {p : Problem OpRef} (h : l.problem = .ok p) : l.ProblemOf p := by
  unfold problem at h
  cases hmem : l.memoryDependences with
  | error e =>
    simp only [hmem] at h
    cases h
  | ok memory =>
    simp only [hmem] at h
    cases h
    have hinit : ∀ op, op ∈ ((l.operations.map (OpRef.body ·.id) ++ [OpRef.increment]).foldl
        Problem.insertOperation Problem.empty).operations ↔
          op ∈ l.operations.map (OpRef.body ·.id) ++ [OpRef.increment] := fun op => by
      rw [Problem.mem_foldl_insertOperation]
      simp [Problem.empty]
    have hkept : ∀ op, op ∈ l.operations.map (OpRef.body ·.id) ++ [OpRef.increment] →
        op ∈ (memory.foldl Problem.insertDependence (l.dataDependences.foldl Problem.insertDependence
          ((l.operations.map (OpRef.body ·.id) ++ [OpRef.increment]).foldl
            Problem.insertOperation Problem.empty))).operations := fun op hop => by
      rw [Problem.mem_foldl_insertDependence, Problem.mem_foldl_insertDependence, hinit]
      exact Or.inl (Or.inl hop)
    refine ⟨fun op hop => ?_, fun o ho => hkept _ ?_, hkept _ (by simp), fun d hd => ?_⟩
    · rw [Problem.mem_foldl_insertDependence, Problem.mem_foldl_insertDependence, hinit] at hop
      rcases hop with (hop | ⟨d, hd, hends⟩) | ⟨d, hd, hends⟩
      · rcases List.mem_append.1 hop with hop | hop
        · obtain ⟨o, ho, rfl⟩ := List.mem_map.1 hop
          exact l.isForeign_body ho
        · rw [List.mem_singleton.1 hop]
          rfl
      · rcases hends with rfl | rfl
        · exact (l.dataDependences_native d hd).1
        · exact (l.dataDependences_native d hd).2
      · rcases hends with rfl | rfl
        · exact (l.memoryDependences_native hmem d hd).1
        · exact (l.memoryDependences_native hmem d hd).2
    · exact List.mem_append_left _ (List.mem_map_of_mem ho)
    · apply Problem.mem_foldl_insertDependence_dependences
      left
      exact Problem.mem_foldl_insertDependence_dependences (Or.inr hd)

end Loop

/-! ### Linking, checking and scheduling keep the operations and dependences -/

namespace Problem

variable {α : Type} {p : Problem α}

@[simp] theorem setLatency_operations (t : Nat) (latency : Int) :
    (p.setLatency t latency).operations = p.operations := by
  unfold setLatency
  split <;> rfl

@[simp] theorem setLatency_dependences (t : Nat) (latency : Int) :
    (p.setLatency t latency).dependences = p.dependences := by
  unfold setLatency
  split <;> rfl

@[simp] theorem insertOperatorType_operations (name : String) :
    (p.insertOperatorType name).1.operations = p.operations := by
  unfold insertOperatorType
  split <;> rfl

@[simp] theorem insertOperatorType_dependences (name : String) :
    (p.insertOperatorType name).1.dependences = p.dependences := by
  unfold insertOperatorType
  split <;> rfl

variable [DecidableEq α]

@[simp] theorem link_operations (op : α) (t : Nat) :
    (p.link op t).operations = (p.insertOperation op).operations := rfl

@[simp] theorem link_dependences (op : α) (t : Nat) : (p.link op t).dependences = p.dependences :=
  insertOperation_dependences op

/-- A checked problem gives every operation a non-negative latency. -/
theorem latencyOf?_of_check {q : Problem α} (h : p.check = .ok q) :
    ∀ op ∈ p.operations, ∃ t, p.latencyOf? op = some t ∧ 0 ≤ t := by
  intro op hop
  obtain ⟨hlink, htypes, -⟩ := violation?_eq_none_parts (check_eq_ok h).1
  obtain ⟨i, hi, hlt⟩ := linked_of_linkViolation?_eq_none hlink hop
  obtain ⟨t, ht, hnonneg⟩ :=
    latency_of_violation?_eq_none (List.findSome?_eq_none_iff.1 htypes _ (List.getElem_mem hlt))
  exact ⟨t, latencyOf?_of_linked hi hlt ht, hnonneg⟩

end Problem

namespace Linking

variable (lib : Library)

theorem typeFor_graph (s : Linking) (c : Category) :
    (s.typeFor lib c).1.problem.operations = s.problem.operations ∧
      (s.typeFor lib c).1.problem.dependences = s.problem.dependences := by
  unfold typeFor
  split
  · exact ⟨rfl, rfl⟩
  · dsimp only
    split <;> simp

theorem linkTo_graph (s : Linking) {op : OpRef} (hop : op ∈ s.problem.operations) (c : Category) :
    (s.linkTo lib op c).problem.operations = s.problem.operations ∧
      (s.linkTo lib op c).problem.dependences = s.problem.dependences := by
  obtain ⟨hops, hdeps⟩ := typeFor_graph lib s c
  unfold linkTo
  rw [Problem.link_operations, Problem.link_dependences, Problem.insertOperation_of_mem (hops ▸ hop)]
  exact ⟨hops, hdeps⟩

/-- Linking registered operations changes neither operations nor dependences. -/
theorem linkOperations_graph (loop : Nat) :
    ∀ (ops : List Operation) (s : Linking), (∀ o ∈ ops, OpRef.body o.id ∈ s.problem.operations) →
      (linkOperations lib loop s ops).1.problem.operations = s.problem.operations ∧
        (linkOperations lib loop s ops).1.problem.dependences = s.problem.dependences
  | [], _, _ => ⟨rfl, rfl⟩
  | o :: ops, s, h => by
    unfold linkOperations
    split
    · exact ⟨rfl, rfl⟩
    · rename_i c _
      obtain ⟨hops, hdeps⟩ := linkTo_graph lib s (h o List.mem_cons_self) c
      obtain ⟨hops', hdeps'⟩ := linkOperations_graph loop ops (s.linkTo lib (.body o.id) c)
        fun o' ho' => hops ▸ h o' (List.mem_cons_of_mem _ ho')
      exact ⟨hops'.trans hops, hdeps'.trans hdeps⟩

end Linking

namespace Loop

variable {l : Loop} {p q : Problem OpRef}

/-- Linking a problem of a loop to operator types leaves a problem of the loop with the same
operations and dependences. -/
theorem ProblemOf.linkLoop_graph (h : l.ProblemOf p) (lib : Library) :
    (p.linkLoop lib l).1.operations = p.operations ∧
      (p.linkLoop lib l).1.dependences = p.dependences := by
  unfold Problem.linkLoop
  obtain ⟨hops, hdeps⟩ := Linking.linkOperations_graph lib l.id l.operations ⟨p, []⟩ h.body
  split
  · rename_i s e hs
    rw [hs] at hops hdeps
    exact ⟨hops, hdeps⟩
  · rename_i s hs
    rw [hs] at hops hdeps
    obtain ⟨hops', hdeps'⟩ := Linking.linkTo_graph lib s (hops ▸ h.increment) .combinational
    exact ⟨hops'.trans hops, hdeps'.trans hdeps⟩

theorem ProblemOf.linkLoop (h : l.ProblemOf p) (lib : Library) : l.ProblemOf (p.linkLoop lib l).1 :=
  h.of_graph (h.linkLoop_graph lib).1 (h.linkLoop_graph lib).2

theorem ProblemOf.check (h : l.ProblemOf p) (hc : p.check = .ok q) : l.ProblemOf q := by
  obtain ⟨-, rfl⟩ := Problem.check_eq_ok hc
  exact h.of_graph rfl rfl

theorem ProblemOf.retimed (h : l.ProblemOf p) (hr : Problem.Retimed p q) : l.ProblemOf q :=
  h.of_graph hr.operations hr.dependences

end Loop

end ModuloPipelining
