import ModuloPipelining.Proofs.Problem.InsertionOrder
import ModuloPipelining.Proofs.Problem.FirstViolation

/-!
# Operator types of a loop, and what its check reports

Linking the problem of a loop (`Problem.linkLoop`) walks the body operations in program order and
stops at the first one that no category covers, having linked exactly the operations before it
(`Linking.linkOperations_snd`, `Linking.Done.linkOperations`). A category's operator type is
registered when the category is first used, with the library's latency for it when the library
has one. So the types are the categories in order of first use, the increment's combinational
type counting as the last use (`Loop.categoriesInUse`).

The check agrees with the walk (`Loop.linkLoop_classifies`). When the walk stops, the operations
before the unsupported one are linked and it is not; the problem lists the operations in program
order, so the check names it as the first unlinked operation. When the walk links all, every
operation is linked to a registered type, and the check reports the first used category without
a latency that is not negative, in order of first use.

The walk's invariant is `Linking.Done`: after linking the pairs `done` of operation and category,
the problem's operator types are the categories of `done` in order of first use, each operation
of `done` is linked to its category's type, and no other operation is linked.
-/

namespace ModuloPipelining

/-- The operator type a library gives a category: named for the category, with the library's
latency for it. -/
def Library.typeOf (lib : Library) (c : Category) : OperatorType := ⟨c.operatorName, lib.latency c⟩

theorem Category.operatorName_injective : Function.Injective Category.operatorName := by
  intro c c' h
  cases c <;> cases c' <;> simp_all [Category.operatorName]

/-- The operator categories a loop uses, in order of first use: those of its body operations in
program order, then the increment's, which is combinational. -/
def Loop.categoriesInUse (l : Loop) : List Category :=
  (l.operations.filterMap (fun o : Operation => o.kind.category?) ++
    [Category.combinational]).eraseDups

/-- A violation of an operator type's latency: missing, or negative. -/
def ProblemError.IsLatency {α : Type} : ProblemError α → Prop
  | .missingLatency _ | .negativeLatency _ _ => True
  | _ => False

/-! ### Registering operator types -/

namespace Problem

variable {α : Type} {p : Problem α}

@[simp] theorem setLatency_links (t : Nat) (latency : Int) :
    (p.setLatency t latency).links = p.links := by
  unfold setLatency
  split <;> rfl

@[simp] theorem insertOperatorType_links (name : String) :
    (p.insertOperatorType name).1.links = p.links := by
  unfold insertOperatorType
  split <;> rfl

@[simp] theorem setLatency_startTimes (t : Nat) (latency : Int) :
    (p.setLatency t latency).startTimes = p.startTimes := by
  unfold setLatency
  split <;> rfl

@[simp] theorem insertOperatorType_startTimes (name : String) :
    (p.insertOperatorType name).1.startTimes = p.startTimes := by
  unfold insertOperatorType
  split <;> rfl

/-- Setting the latency of the last operator type changes only that type. -/
theorem setLatency_last {ts : List OperatorType} {t : OperatorType}
    (htypes : p.operatorTypes = ts ++ [t]) (latency : Int) :
    (p.setLatency ts.length latency).operatorTypes =
      ts ++ [{ t with latency := some latency }] := by
  unfold setLatency
  rw [if_pos (by simp [htypes])]
  dsimp only
  rw [htypes, List.mapIdx_concat, if_pos rfl]
  congr 1
  rw [List.mapIdx_eq_iff]
  intro i
  cases hi : ts[i]? with
  | none => rfl
  | some x =>
    have hlt : i < ts.length := (List.getElem?_eq_some_iff.1 hi).1
    simp [if_neg (Nat.ne_of_lt hlt)]

variable [DecidableEq α]

@[simp] theorem insertOperation_operatorTypes (op : α) :
    (p.insertOperation op).operatorTypes = p.operatorTypes := by
  unfold insertOperation
  split <;> rfl

@[simp] theorem insertOperation_links (op : α) : (p.insertOperation op).links = p.links := by
  unfold insertOperation
  split <;> rfl

@[simp] theorem insertDependence_operatorTypes (d : Dependence α) :
    (p.insertDependence d).operatorTypes = p.operatorTypes := by
  unfold insertDependence
  dsimp only
  split <;> simp

@[simp] theorem insertDependence_links (d : Dependence α) :
    (p.insertDependence d).links = p.links := by
  unfold insertDependence
  dsimp only
  split <;> simp

@[simp] theorem insertOperation_startTimes (op : α) :
    (p.insertOperation op).startTimes = p.startTimes := by
  unfold insertOperation
  split <;> rfl

@[simp] theorem insertDependence_startTimes (d : Dependence α) :
    (p.insertDependence d).startTimes = p.startTimes := by
  unfold insertDependence
  dsimp only
  split <;> simp

@[simp] theorem link_startTimes (op : α) (t : Nat) : (p.link op t).startTimes = p.startTimes := by
  simp [link]

@[simp] theorem link_operatorTypes (op : α) (t : Nat) :
    (p.link op t).operatorTypes = p.operatorTypes :=
  insertOperation_operatorTypes op

theorem linkOf?_link (op : α) (t : Nat) (op' : α) :
    (p.link op t).linkOf? op' = if op' = op then some t else p.linkOf? op' := by
  unfold link linkOf?
  dsimp only
  rw [insertOperation_links]
  split
  · rename_i h
    rw [h, lookup_setEntry]
  · exact lookup_setEntry_ne _ _ _ ‹_›

theorem linked_of_operatorTypeOf? {op : α} {t : OperatorType} (h : p.operatorTypeOf? op = some t) :
    p.Linked op := by
  unfold operatorTypeOf? at h
  cases hl : p.linkOf? op with
  | none => simp [hl] at h
  | some i =>
    rw [hl] at h
    exact ⟨i, hl, (List.getElem?_eq_some_iff.1 h).1⟩

/-- Registering more operator types after the ones an operation's link names keeps its type. -/
theorem operatorTypeOf?_of_prefix {q : Problem α} {op : α} {t : OperatorType}
    (hlink : q.linkOf? op = p.linkOf? op) (htypes : p.operatorTypes <+: q.operatorTypes)
    (h : p.operatorTypeOf? op = some t) : q.operatorTypeOf? op = some t := by
  unfold operatorTypeOf? at h ⊢
  rw [hlink]
  cases hl : p.linkOf? op with
  | none => simp [hl] at h
  | some i =>
    rw [hl] at h
    obtain ⟨rest, hrest⟩ := htypes
    show q.operatorTypes[i]? = some t
    rw [← hrest, List.getElem?_append_left (List.getElem?_eq_some_iff.1 h).1]
    exact h

/-- With every operation linked, a check fails for a latency exactly at the first operator type
without a latency that is not negative. -/
theorem check_latency_iff (hlink : ∀ op ∈ p.operations, p.Linked op) (e : ProblemError α) :
    p.check = .error e ∧ e.IsLatency ↔ ∃ pre t post, p.operatorTypes = pre ++ t :: post ∧
      (∀ s ∈ pre, s.HasLatency) ∧ ¬ t.HasLatency ∧ e = match t.latency with
        | none => .missingLatency t.name
        | some latency => .negativeLatency t.name latency := by
  rw [check_eq_error_iff]
  unfold violation?
  rw [linkViolation?_eq_none_iff.2 hlink]
  dsimp only
  constructor
  · rintro ⟨he, hlat⟩
    cases htypes : p.operatorTypes.findSome? OperatorType.violation? with
    | none =>
      -- with no type to report, the violation would be a cycle's
      rw [htypes] at he
      obtain ⟨op, -, rfl⟩ := Option.map_eq_some_iff.1 he
      exact hlat.elim
    | some e' =>
      rw [htypes] at he
      cases he
      obtain ⟨pre, t, post, hsplit, ht, hpre⟩ := List.findSome?_eq_some_iff.1 htypes
      have hbad : ¬ t.HasLatency := fun h => by
        rw [OperatorType.violation?_eq_none_iff.2 h] at ht
        cases ht
      refine ⟨pre, t, post, hsplit, fun s hs => OperatorType.violation?_eq_none_iff.1 (hpre s hs),
        hbad, ?_⟩
      rw [OperatorType.violation?_of_not_hasLatency hbad] at ht
      exact (Option.some.inj ht).symm
  · rintro ⟨pre, t, post, hsplit, hpre, ht, rfl⟩
    rw [findSome?_eq_of_first hsplit
      (fun s hs => OperatorType.violation?_eq_none_iff.2 (hpre s hs))
      (OperatorType.violation?_of_not_hasLatency ht)]
    refine ⟨rfl, ?_⟩
    split <;> trivial

/-- The same, for operator types that a library gives categories: the first category whose type
has no latency that is not negative is reported. -/
theorem check_latency_iff_categories {lib : Library} {cats : List Category}
    (hlink : ∀ op ∈ p.operations, p.Linked op) (htypes : p.operatorTypes = cats.map lib.typeOf)
    (e : ProblemError α) :
    p.check = .error e ∧ e.IsLatency ↔ ∃ pre c post, cats = pre ++ c :: post ∧
      (∀ c' ∈ pre, (lib.typeOf c').HasLatency) ∧ ¬ (lib.typeOf c).HasLatency ∧
      e = match lib.latency c with
        | none => .missingLatency c.operatorName
        | some latency => .negativeLatency c.operatorName latency := by
  rw [check_latency_iff hlink, htypes]
  constructor
  · rintro ⟨pre, t, post, hsplit, hpre, ht, rfl⟩
    obtain ⟨cpre, crest, rfl, rfl, hrest⟩ := List.map_eq_append_iff.1 hsplit
    obtain ⟨c, cpost, rfl, rfl, -⟩ := List.map_eq_cons_iff.1 hrest
    exact ⟨cpre, c, cpost, rfl, fun c' hc' => hpre _ (List.mem_map_of_mem hc'), ht, rfl⟩
  · rintro ⟨pre, c, post, rfl, hpre, hc, rfl⟩
    refine ⟨pre.map lib.typeOf, lib.typeOf c, post.map lib.typeOf, by simp, ?_, hc, rfl⟩
    intro t ht
    obtain ⟨c', hc', rfl⟩ := List.mem_map.1 ht
    exact hpre c' hc'

end Problem

/-- A fold whose every step keeps a view keeps it. -/
theorem foldl_keeps {β γ δ : Type} (f : γ → β → γ) (view : γ → δ)
    (h : ∀ x b, view (f x b) = view x) : ∀ (xs : List β) (x : γ), view (xs.foldl f x) = view x
  | [], _ => rfl
  | b :: bs, x => by rw [List.foldl_cons, foldl_keeps f view h bs, h]

/-- The position of an element in a list extended by one element not in it. -/
theorem idxOf?_append_singleton {β : Type} [DecidableEq β] {xs : List β} {y : β} (hy : y ∉ xs)
    (x : β) : (xs ++ [y]).idxOf? x = if x = y then some xs.length else xs.idxOf? x := by
  induction xs with
  | nil =>
    by_cases hx : x = y
    · simp [hx]
    · simp [hx, Ne.symm hx]
  | cons z xs ih =>
    rw [List.mem_cons, not_or] at hy
    rw [List.cons_append, List.idxOf?_cons, List.idxOf?_cons, ih hy.2]
    by_cases hz : z = x
    · subst hz
      simp [Ne.symm hy.1]
    · by_cases hx : x = y <;> simp [hz, hx, Ne.symm hy.1]

/-- The problem of a loop has no operator types, links nothing and stores no start time. -/
theorem Loop.problem_unlinked {l : Loop} {p : Problem OpRef} (h : l.problem = .ok p) :
    p.operatorTypes = [] ∧ p.links = [] ∧ p.startTimes = [] := by
  unfold Loop.problem at h
  cases hmem : l.memoryDependences with
  | error e =>
    simp only [hmem] at h
    cases h
  | ok memory =>
    simp only [hmem] at h
    cases h
    refine ⟨?_, ?_, ?_⟩
    · rw [foldl_keeps _ _ (fun _ d => Problem.insertDependence_operatorTypes d),
        foldl_keeps _ _ (fun _ d => Problem.insertDependence_operatorTypes d),
        foldl_keeps _ _ (fun _ op => Problem.insertOperation_operatorTypes op)]
      rfl
    · rw [foldl_keeps _ _ (fun _ d => Problem.insertDependence_links d),
        foldl_keeps _ _ (fun _ d => Problem.insertDependence_links d),
        foldl_keeps _ _ (fun _ op => Problem.insertOperation_links op)]
      rfl
    · rw [foldl_keeps _ _ (fun _ d => Problem.insertDependence_startTimes d),
        foldl_keeps _ _ (fun _ d => Problem.insertDependence_startTimes d),
        foldl_keeps _ _ (fun _ op => Problem.insertOperation_startTimes op)]
      rfl

namespace Linking

variable (lib : Library) (p : Problem OpRef)

/-! ### The walk over the operations -/

/-- The pairs of operation and category that linking the operations `ops` links, in order: those
before the first operation of no category. -/
def linkedPairs : List Operation → List (OpRef × Category)
  | [] => []
  | o :: rest =>
    match o.kind.category? with
    | none => []
    | some c => (.body o.id, c) :: linkedPairs rest

/-- The walk stops exactly at the first operation of no category, and reports it. -/
theorem linkOperations_snd (loop : Nat) :
    ∀ (s : Linking) (ops : List Operation), (linkOperations lib loop s ops).2 =
      (ops.find? (·.kind.category?.isNone)).map fun o => ⟨loop, o.id, o.kind.mnemonic⟩
  | s, [] => rfl
  | s, o :: rest => by
    unfold linkOperations
    cases hc : o.kind.category? with
    | none => simp [hc]
    | some c => simp [hc, linkOperations_snd loop _ rest]

@[simp] theorem typeFor_startTimes (s : Linking) (c : Category) :
    (s.typeFor lib c).1.problem.startTimes = s.problem.startTimes := by
  unfold typeFor
  split
  · rfl
  · dsimp only
    split <;> simp

@[simp] theorem linkTo_startTimes (s : Linking) (op : OpRef) (c : Category) :
    (s.linkTo lib op c).problem.startTimes = s.problem.startTimes := by
  simp [linkTo]

/-- Linking sets no start time. -/
theorem linkOperations_startTimes (loop : Nat) :
    ∀ (ops : List Operation) (s : Linking),
      (linkOperations lib loop s ops).1.problem.startTimes = s.problem.startTimes
  | [], _ => rfl
  | o :: ops, s => by
    unfold linkOperations
    split
    · rfl
    · rw [linkOperations_startTimes loop ops, linkTo_startTimes]

/-- What linking has done from problem `p`, which has no operator types, once it has linked the
pairs `done`: the same operations and dependences; the categories of `done` registered in order
of first use, each under the index of its first use; each operation of `done` linked to its
category's type, and every other operation as in `p`. -/
structure Done (done : List (OpRef × Category)) (s : Linking) : Prop where
  operations : s.problem.operations = p.operations
  dependences : s.problem.dependences = p.dependences
  operatorTypes : s.problem.operatorTypes = (done.map (·.2)).eraseDups.map lib.typeOf
  types : ∀ c, s.types.lookup c = (done.map (·.2)).eraseDups.idxOf? c
  linked : ∀ e ∈ done, s.problem.operatorTypeOf? e.1 = some (lib.typeOf e.2)
  unlinked : ∀ op, op ∉ done.map (·.1) → s.problem.linkOf? op = p.linkOf? op

variable {lib p}

theorem done_nil (htypes : p.operatorTypes = []) : Done lib p [] ⟨p, []⟩ where
  operations := rfl
  dependences := rfl
  operatorTypes := htypes
  types _ := rfl
  linked _ h := absurd h List.not_mem_nil
  unlinked _ _ := rfl

theorem typeFor_of_lookup {s : Linking} {c : Category} {t : Nat} (h : s.types.lookup c = some t) :
    s.typeFor lib c = (s, t) := by
  unfold typeFor
  rw [h]

/-- A category first used, with no type of its name yet, gets the library's type for it,
registered last. -/
theorem typeFor_of_lookup_none (lib : Library) {s : Linking} {c : Category}
    (h : s.types.lookup c = none) (hname : s.problem.typeIndex? c.operatorName = none) :
    (s.typeFor lib c).1.problem.operatorTypes = s.problem.operatorTypes ++ [lib.typeOf c] ∧
      (s.typeFor lib c).1.problem.links = s.problem.links ∧
      (s.typeFor lib c).1.types = (c, s.problem.operatorTypes.length) :: s.types ∧
      (s.typeFor lib c).2 = s.problem.operatorTypes.length := by
  unfold typeFor Problem.insertOperatorType
  rw [h, hname]
  dsimp only
  cases hl : lib.latency c with
  | none => simp [Library.typeOf, hl]
  | some latency =>
    refine ⟨?_, by simp, rfl, rfl⟩
    rw [Problem.setLatency_last rfl]
    simp [Library.typeOf, hl]

/-- Finding the type of a category keeps the operations, dependences and links, registers the
category if it is new, and gives the index of its first use. -/
theorem Done.typeFor {done : List (OpRef × Category)} {s : Linking} (hd : Done lib p done s)
    (c : Category) :
    (s.typeFor lib c).1.problem.operations = p.operations ∧
      (s.typeFor lib c).1.problem.dependences = p.dependences ∧
      (s.typeFor lib c).1.problem.links = s.problem.links ∧
      (s.typeFor lib c).1.problem.operatorTypes =
        (done.map (·.2) ++ [c]).eraseDups.map lib.typeOf ∧
      (∀ c', (s.typeFor lib c).1.types.lookup c' = (done.map (·.2) ++ [c]).eraseDups.idxOf? c') ∧
      (done.map (·.2) ++ [c]).eraseDups[(s.typeFor lib c).2]? = some c ∧
      s.problem.operatorTypes <+: (s.typeFor lib c).1.problem.operatorTypes := by
  obtain ⟨hops, hdeps⟩ := typeFor_graph lib s c
  rw [hd.operations] at hops
  rw [hd.dependences] at hdeps
  refine ⟨hops, hdeps, ?_⟩
  have hused : c ∈ (done.map (·.2)).eraseDups ↔ c ∈ done.map (·.2) := List.mem_eraseDups
  rw [eraseDups_append_singleton]
  cases hlook : s.types.lookup c with
  | some t =>
    have hidx : (done.map (·.2)).eraseDups.idxOf? c = some t := (hd.types c).symm.trans hlook
    have hmem : c ∈ done.map (·.2) := hused.1 (List.isSome_idxOf?.1 (by rw [hidx]; rfl))
    rw [if_pos hmem, typeFor_of_lookup hlook]
    obtain ⟨ht, hget, -⟩ := List.idxOf?_eq_some_iff.1 hidx
    exact ⟨rfl, hd.operatorTypes, hd.types, by rw [List.getElem?_eq_getElem ht, hget],
      List.prefix_refl _⟩
  | none =>
    have hnot : c ∉ done.map (·.2) := by
      rw [← hused, ← List.idxOf?_eq_none_iff, ← hd.types, hlook]
    have hname : s.problem.typeIndex? c.operatorName = none := by
      unfold Problem.typeIndex?
      rw [List.findIdx?_eq_none_iff, hd.operatorTypes]
      intro t ht
      obtain ⟨c', hc', rfl⟩ := List.mem_map.1 ht
      rw [beq_eq_false_iff_ne]
      intro heq
      exact hnot (hused.1 (Category.operatorName_injective heq ▸ hc'))
    obtain ⟨htypes, hlinks, hnew, hindex⟩ := typeFor_of_lookup_none lib hlook hname
    rw [if_neg hnot, htypes, hlinks, hnew, hindex, hd.operatorTypes, List.length_map]
    refine ⟨rfl, by rw [List.map_append, List.map_singleton], fun c' => ?_, by simp,
      List.prefix_append _ _⟩
    rw [idxOf?_append_singleton (mt hused.1 hnot), List.lookup_cons, hd.types]
    by_cases hc' : c' = c
    · simp [hc']
    · simp [hc', beq_eq_false_iff_ne.2 hc']

theorem linkTo_problem (s : Linking) (op : OpRef) (c : Category) :
    (s.linkTo lib op c).problem = (s.typeFor lib c).1.problem.link op (s.typeFor lib c).2 := rfl

/-- Linking a registered operation that is not linked yet adds its pair to what is done. -/
theorem Done.linkTo {done : List (OpRef × Category)} {s : Linking} (hd : Done lib p done s)
    {op : OpRef} (hop : op ∈ p.operations) (hnew : op ∉ done.map (·.1)) (c : Category) :
    Done lib p (done ++ [(op, c)]) (s.linkTo lib op c) := by
  obtain ⟨hops, hdeps, hlinks, htypes, hlookup, hindex, hprefix⟩ := hd.typeFor c
  have hsnd : (done ++ [(op, c)]).map (·.2) = done.map (·.2) ++ [c] := by simp
  have hlinkOf : ∀ op', (s.linkTo lib op c).problem.linkOf? op' =
      if op' = op then some (s.typeFor lib c).2 else s.problem.linkOf? op' := by
    intro op'
    rw [linkTo_problem, Problem.linkOf?_link]
    simp only [Problem.linkOf?, hlinks]
  constructor
  · rw [linkTo_problem, Problem.link_operations, Problem.insertOperation_of_mem (hops ▸ hop), hops]
  · rw [linkTo_problem, Problem.link_dependences, hdeps]
  · rw [linkTo_problem, Problem.link_operatorTypes, htypes, hsnd]
  · rw [hsnd]
    exact hlookup
  · intro e he
    rcases List.mem_append.1 he with hold | hlast
    · have hne : e.1 ≠ op := fun h => hnew (h ▸ List.mem_map_of_mem hold)
      refine Problem.operatorTypeOf?_of_prefix ?_ ?_ (hd.linked e hold)
      · rw [hlinkOf, if_neg hne]
      · rw [linkTo_problem, Problem.link_operatorTypes]
        exact hprefix
    · obtain rfl := List.mem_singleton.1 hlast
      have hget : (s.linkTo lib op c).problem.operatorTypes[(s.typeFor lib c).2]? =
          some (lib.typeOf c) := by
        rw [linkTo_problem, Problem.link_operatorTypes, htypes, List.getElem?_map, hindex]
        rfl
      simp [Problem.operatorTypeOf?, hlinkOf, hget]
  · intro op' hop'
    rw [List.map_append, List.mem_append, not_or, List.map_singleton, List.mem_singleton] at hop'
    rw [hlinkOf, if_neg hop'.2, hd.unlinked op' hop'.1]

/-- Each pair the walk links is a body operation's reference with the operation's category. -/
theorem mem_linkedPairs {ops : List Operation} {e : OpRef × Category} (he : e ∈ linkedPairs ops) :
    ∃ o ∈ ops, e.1 = .body o.id ∧ o.kind.category? = some e.2 := by
  induction ops with
  | nil => exact absurd he List.not_mem_nil
  | cons o ops ih =>
    unfold linkedPairs at he
    cases hc : o.kind.category? with
    | none =>
      simp only [hc] at he
      exact absurd he List.not_mem_nil
    | some c =>
      simp only [hc, List.mem_cons] at he
      rcases he with rfl | hrest
      · exact ⟨o, List.mem_cons_self, rfl, hc⟩
      · obtain ⟨o', ho', hfst, hsnd⟩ := ih hrest
        exact ⟨o', List.mem_cons_of_mem _ ho', hfst, hsnd⟩

/-- The walk links nothing from the first operation of no category on. -/
theorem linkedPairs_of_unclassified {pre post : List Operation} {o : Operation}
    (ho : o.kind.category? = none) : linkedPairs (pre ++ o :: post) = linkedPairs pre := by
  induction pre with
  | nil => simp [linkedPairs, ho]
  | cons o' pre ih =>
    cases hc : o'.kind.category? with
    | none => simp [linkedPairs, hc]
    | some c => simp [linkedPairs, hc, ih]

/-- When every operation has a category, the walk links each, in order, to its category. -/
theorem linkedPairs_of_classified {ops : List Operation}
    (h : ∀ o ∈ ops, o.kind.category? ≠ none) :
    linkedPairs ops = ops.filterMap fun o => o.kind.category?.map ((OpRef.body o.id, ·)) := by
  induction ops with
  | nil => rfl
  | cons o ops ih =>
    obtain ⟨c, hc⟩ := Option.ne_none_iff_exists'.1 (h o List.mem_cons_self)
    simp [linkedPairs, hc, ih fun o' ho' => h o' (List.mem_cons_of_mem _ ho')]

theorem mem_linkedPairs_of_classified {ops : List Operation}
    (h : ∀ o ∈ ops, o.kind.category? ≠ none) {o : Operation} (ho : o ∈ ops) {c : Category}
    (hc : o.kind.category? = some c) : (OpRef.body o.id, c) ∈ linkedPairs ops := by
  rw [linkedPairs_of_classified h, List.mem_filterMap]
  exact ⟨o, ho, by rw [hc]; rfl⟩

theorem linkedPairs_categories {ops : List Operation} (h : ∀ o ∈ ops, o.kind.category? ≠ none) :
    (linkedPairs ops).map (·.2) = ops.filterMap (·.kind.category?) := by
  rw [linkedPairs_of_classified h, List.map_filterMap]
  congr 1
  funext o
  cases o.kind.category? <;> rfl

/-- The walk keeps the invariant: linking registered operations of distinct ids, none linked
before, links the pairs `linkedPairs` names. -/
theorem Done.linkOperations (loop : Nat) :
    ∀ (ops : List Operation) {done : List (OpRef × Category)} {s : Linking}, Done lib p done s →
      (∀ o ∈ ops, OpRef.body o.id ∈ p.operations) → (ops.map (·.id)).Nodup →
      (∀ o ∈ ops, OpRef.body o.id ∉ done.map (·.1)) →
      Done lib p (done ++ linkedPairs ops) (Linking.linkOperations lib loop s ops).1
  | [], _, _, hd, _, _, _ => by
    rw [linkedPairs, List.append_nil]
    exact hd
  | o :: ops, done, s, hd, hmem, hids, hfresh => by
    rw [List.map_cons, List.nodup_cons] at hids
    unfold Linking.linkOperations linkedPairs
    cases hc : o.kind.category? with
    | none =>
      rw [List.append_nil]
      exact hd
    | some c =>
      dsimp only
      have hstep := hd.linkTo (hmem o List.mem_cons_self) (hfresh o List.mem_cons_self) c
      have hfresh' : ∀ o' ∈ ops, OpRef.body o'.id ∉ (done ++ [(OpRef.body o.id, c)]).map (·.1) := by
        intro o' ho'
        rw [List.map_append, List.mem_append, not_or, List.map_singleton, List.mem_singleton]
        refine ⟨hfresh o' (List.mem_cons_of_mem _ ho'), fun h => ?_⟩
        exact hids.1 (OpRef.body.inj h ▸ List.mem_map_of_mem ho')
      have hrest := Done.linkOperations loop ops hstep
        (fun o' ho' => hmem o' (List.mem_cons_of_mem _ ho')) hids.2 hfresh'
      rwa [List.append_assoc, List.singleton_append] at hrest

end Linking

@[simp] theorem Problem.linkLoop_startTimes (lib : Library) (l : Loop) (p : Problem OpRef) :
    (p.linkLoop lib l).1.startTimes = p.startTimes := by
  have hwalk := Linking.linkOperations_startTimes lib l.id l.operations ⟨p, []⟩
  unfold Problem.linkLoop
  split
  · rename_i s e hs
    rw [hs] at hwalk
    exact hwalk
  · rename_i s hs
    rw [hs] at hwalk
    rw [Linking.linkTo_startTimes]
    exact hwalk

/-! ### The problem of a loop, linked and checked -/

namespace Loop

variable {l : Loop} {p : Problem OpRef}

/-- With distinct ids, the problem of a loop lists its body operations in program order, then
the increment. -/
theorem problem_operations_of_nodup (hids : (l.operations.map (·.id)).Nodup)
    (hp : l.problem = .ok p) :
    p.operations = l.operations.map (OpRef.body ·.id) ++ [OpRef.increment] := by
  rw [problem_operations hp]
  apply eraseDups_of_nodup
  apply nodup_append_singleton
  · rw [show (fun o : Operation => OpRef.body o.id) = OpRef.body ∘ (·.id) from rfl, ← List.map_map]
    exact hids.map fun _ _ h => OpRef.body.inj h
  · simp

/-- Linking reports the first operation, in program order, of no category. -/
theorem linkLoop_snd (lib : Library) (l : Loop) (p : Problem OpRef) :
    (p.linkLoop lib l).2 = (l.operations.find? (·.kind.category?.isNone)).map
      fun o => ⟨l.id, o.id, o.kind.mnemonic⟩ := by
  rw [← Linking.linkOperations_snd lib l.id ⟨p, []⟩]
  unfold Problem.linkLoop
  cases Linking.linkOperations lib l.id ⟨p, []⟩ l.operations with
  | mk s r => cases r <;> rfl

/-- A walk stopped at operation `o`, having linked the operations before it: the check reports
`o` as the first operation not linked. -/
theorem check_of_stop {lib : Library} {s : Linking} {pre post : List Operation} {o : Operation}
    (hids : ((pre ++ o :: post).map (·.id)).Nodup)
    (hops : p.operations = (pre ++ o :: post).map (OpRef.body ·.id) ++ [OpRef.increment])
    (hlinks : p.links = []) (hpre : ∀ o' ∈ pre, o'.kind.category? ≠ none)
    (hd : Linking.Done lib p (Linking.linkedPairs pre) s) :
    s.problem.check = .error (.unlinkedOperation (.body o.id)) := by
  have hsplit : s.problem.operations = pre.map (OpRef.body ·.id) ++
      OpRef.body o.id :: (post.map (OpRef.body ·.id) ++ [OpRef.increment]) := by
    rw [hd.operations, hops]
    simp
  have hlinked : ∀ x ∈ pre.map (OpRef.body ·.id), s.problem.Linked x := by
    intro x hx
    obtain ⟨o', ho', rfl⟩ := List.mem_map.1 hx
    obtain ⟨c, hc⟩ := Option.ne_none_iff_exists'.1 (hpre o' ho')
    exact Problem.linked_of_operatorTypeOf?
      (hd.linked _ (Linking.mem_linkedPairs_of_classified hpre ho' hc))
  have hnew : OpRef.body o.id ∉ (Linking.linkedPairs pre).map (·.1) := by
    intro hmem
    obtain ⟨e, he, hfst⟩ := List.mem_map.1 hmem
    obtain ⟨o', ho', hid, -⟩ := Linking.mem_linkedPairs he
    rw [hid] at hfst
    rw [List.map_append, List.nodup_append] at hids
    exact hids.2.2 _ (List.mem_map_of_mem ho') _ (List.mem_map_of_mem List.mem_cons_self)
      (OpRef.body.inj hfst)
  have hunlinked : s.problem.linkOf? (OpRef.body o.id) = none := by
    rw [hd.unlinked _ hnew, Problem.linkOf?, hlinks]
    rfl
  rw [Problem.check_eq_error_iff]
  unfold Problem.violation?
  rw [Problem.linkViolation?_of_first hsplit hlinked fun ⟨i, hi, _⟩ => by simp [hunlinked] at hi]
  unfold Problem.linkError
  rw [hunlinked]

/-- Linking stops exactly at the first operation in program order that no category covers. -/
theorem linkLoop_snd_eq_some_iff (lib : Library) (l : Loop) (p : Problem OpRef)
    (e : ClassificationError) :
    (p.linkLoop lib l).2 = some e ↔ ∃ pre o post, l.operations = pre ++ o :: post ∧
      (∀ o' ∈ pre, o'.kind.category? ≠ none) ∧ o.kind.category? = none ∧
      e = ⟨l.id, o.id, o.kind.mnemonic⟩ := by
  rw [linkLoop_snd, Option.map_eq_some_iff]
  constructor
  · rintro ⟨o, hfind, rfl⟩
    obtain ⟨hnone, pre, post, hsplit, hpre⟩ := List.find?_eq_some_iff_append.1 hfind
    refine ⟨pre, o, post, hsplit, fun o' ho' => ?_, by simpa using hnone, rfl⟩
    simpa [Option.isSome_iff_ne_none] using hpre o' ho'
  · rintro ⟨pre, o, post, hsplit, hpre, hnone, rfl⟩
    refine ⟨o, List.find?_eq_some_iff_append.2 ⟨by simpa using hnone, pre, post, hsplit, ?_⟩, rfl⟩
    intro o' ho'
    simpa [Option.isSome_iff_ne_none] using hpre o' ho'

/-- The walk over the problem of a loop with distinct operation ids links the pairs
`linkedPairs` names. -/
theorem linkOperations_done (hids : (l.operations.map (·.id)).Nodup) (hp : l.problem = .ok p)
    (lib : Library) :
    Linking.Done lib p (Linking.linkedPairs l.operations)
      (Linking.linkOperations lib l.id ⟨p, []⟩ l.operations).1 := by
  have hbody : ∀ o ∈ l.operations, OpRef.body o.id ∈ p.operations := by
    intro o ho
    rw [problem_operations_of_nodup hids hp]
    exact List.mem_append_left _ (List.mem_map_of_mem ho)
  have hstart : Linking.Done lib p [] ⟨p, []⟩ := Linking.done_nil (problem_unlinked hp).1
  have hdone := Linking.Done.linkOperations l.id l.operations hstart hbody hids
    fun _ _ => List.not_mem_nil
  rwa [List.nil_append] at hdone

/-- When linking stops, the check reports the operation it stopped at as not linked. -/
theorem check_of_linkLoop_stop (hids : (l.operations.map (·.id)).Nodup) (hp : l.problem = .ok p)
    {lib : Library} {e : ClassificationError} (he : (p.linkLoop lib l).2 = some e) :
    (p.linkLoop lib l).1.check = .error (.unlinkedOperation (.body e.op)) := by
  obtain ⟨pre, o, post, hsplit, hpre, hnone, rfl⟩ := (linkLoop_snd_eq_some_iff lib l p e).1 he
  have hdone := linkOperations_done hids hp lib
  unfold Problem.linkLoop at he ⊢
  generalize Linking.linkOperations lib l.id ⟨p, []⟩ l.operations = w at hdone he ⊢
  obtain ⟨s, _ | e'⟩ := w
  · cases he
  · rw [hsplit, Linking.linkedPairs_of_unclassified hnone] at hdone
    exact check_of_stop (hsplit ▸ hids) (hsplit ▸ problem_operations_of_nodup hids hp)
      (problem_unlinked hp).2.1 hpre hdone

/-- When linking covers every operation, the operator types are the library's types of the
categories in use, in order of first use; every operation is linked to its category's type; and
the check fails for a latency exactly at the first category in use without a latency that is not
negative. -/
theorem linkLoop_of_classified (hids : (l.operations.map (·.id)).Nodup) (hp : l.problem = .ok p)
    (lib : Library) (hnone : (p.linkLoop lib l).2 = none) :
    (p.linkLoop lib l).1.operatorTypes = l.categoriesInUse.map lib.typeOf ∧
      (∀ o ∈ l.operations, (p.linkLoop lib l).1.operatorTypeOf? (.body o.id) =
        o.kind.category?.map lib.typeOf) ∧
      (p.linkLoop lib l).1.operatorTypeOf? .increment = some (lib.typeOf .combinational) ∧
      ∀ e, (p.linkLoop lib l).1.check = .error e ∧ e.IsLatency ↔
        ∃ pre c post, l.categoriesInUse = pre ++ c :: post ∧
          (∀ c' ∈ pre, (lib.typeOf c').HasLatency) ∧ ¬ (lib.typeOf c).HasLatency ∧
          e = match lib.latency c with
            | none => .missingLatency c.operatorName
            | some latency => .negativeLatency c.operatorName latency := by
  have hops := problem_operations_of_nodup hids hp
  have hdone := linkOperations_done hids hp lib
  have hall : ∀ o ∈ l.operations, o.kind.category? ≠ none := by
    rw [linkLoop_snd, Option.map_eq_none_iff, List.find?_eq_none] at hnone
    intro o ho
    simpa using hnone o ho
  have hwalk : (Linking.linkOperations lib l.id ⟨p, []⟩ l.operations).2 = none := by
    rw [Linking.linkOperations_snd, List.find?_eq_none.2 fun o ho => by simpa using hall o ho]
    rfl
  unfold Problem.linkLoop
  generalize Linking.linkOperations lib l.id ⟨p, []⟩ l.operations = w at hdone hwalk
  obtain ⟨s, _ | e⟩ := w
  swap
  · cases hwalk
  dsimp only
  have hinc : OpRef.increment ∈ p.operations := by
    rw [hops]
    exact List.mem_append_right _ (List.mem_singleton_self _)
  have hfresh : OpRef.increment ∉ (Linking.linkedPairs l.operations).map (·.1) := by
    intro hmem
    obtain ⟨e, he, hfst⟩ := List.mem_map.1 hmem
    obtain ⟨o, -, hid, -⟩ := Linking.mem_linkedPairs he
    rw [hid] at hfst
    cases hfst
  have hfin := hdone.linkTo hinc hfresh .combinational
  have htypes : (s.linkTo lib .increment .combinational).problem.operatorTypes =
      l.categoriesInUse.map lib.typeOf := by
    rw [hfin.operatorTypes, List.map_append, Linking.linkedPairs_categories hall]
    rfl
  have hbodyType : ∀ o ∈ l.operations,
      (s.linkTo lib .increment .combinational).problem.operatorTypeOf? (.body o.id) =
        o.kind.category?.map lib.typeOf := by
    intro o ho
    obtain ⟨c, hc⟩ := Option.ne_none_iff_exists'.1 (hall o ho)
    rw [hc]
    exact hfin.linked _
      (List.mem_append_left _ (Linking.mem_linkedPairs_of_classified hall ho hc))
  have hincType : (s.linkTo lib .increment .combinational).problem.operatorTypeOf? .increment =
      some (lib.typeOf .combinational) :=
    hfin.linked _ (List.mem_append_right _ (List.mem_singleton_self _))
  have hlinked : ∀ op ∈ (s.linkTo lib .increment .combinational).problem.operations,
      (s.linkTo lib .increment .combinational).problem.Linked op := by
    intro op hop
    rw [hfin.operations, hops, List.mem_append, List.mem_singleton] at hop
    rcases hop with hop | rfl
    · obtain ⟨o, ho, rfl⟩ := List.mem_map.1 hop
      obtain ⟨c, hc⟩ := Option.ne_none_iff_exists'.1 (hall o ho)
      exact Problem.linked_of_operatorTypeOf? (hc ▸ hbodyType o ho)
    · exact Problem.linked_of_operatorTypeOf? hincType
  exact ⟨htypes, hbodyType, hincType, Problem.check_latency_iff_categories hlinked htypes⟩

/-- Linking the problem of a loop with distinct operation ids stops exactly at the first
operation in program order that no category covers, and the check then reports that operation
as not linked. Otherwise the operator types are the library's types of the categories in use,
in order of first use; every operation is linked to its category's type; and the check fails for
a latency exactly when a category in use has no latency that is not negative, naming the first
such category in order of first use. -/
theorem linkLoop_classifies (hids : (l.operations.map (·.id)).Nodup) (hp : l.problem = .ok p)
    (lib : Library) :
    (∀ e, (p.linkLoop lib l).2 = some e ↔ ∃ pre o post, l.operations = pre ++ o :: post ∧
      (∀ o' ∈ pre, o'.kind.category? ≠ none) ∧ o.kind.category? = none ∧
      e = ⟨l.id, o.id, o.kind.mnemonic⟩) ∧
    (∀ e, (p.linkLoop lib l).2 = some e →
      (p.linkLoop lib l).1.check = .error (.unlinkedOperation (.body e.op))) ∧
    ((p.linkLoop lib l).2 = none →
      (p.linkLoop lib l).1.operatorTypes = l.categoriesInUse.map lib.typeOf ∧
      (∀ o ∈ l.operations, (p.linkLoop lib l).1.operatorTypeOf? (.body o.id) =
        o.kind.category?.map lib.typeOf) ∧
      (p.linkLoop lib l).1.operatorTypeOf? .increment = some (lib.typeOf .combinational) ∧
      ∀ e, (p.linkLoop lib l).1.check = .error e ∧ e.IsLatency ↔
        ∃ pre c post, l.categoriesInUse = pre ++ c :: post ∧
          (∀ c' ∈ pre, (lib.typeOf c').HasLatency) ∧ ¬ (lib.typeOf c).HasLatency ∧
          e = match lib.latency c with
            | none => .missingLatency c.operatorName
            | some latency => .negativeLatency c.operatorName latency) :=
  ⟨linkLoop_snd_eq_some_iff lib l p, fun _ he => check_of_linkLoop_stop hids hp he,
    linkLoop_of_classified hids hp lib⟩

end Loop

/-- `b[i] = a[i] / 3`: a load, a constant, a division and a store. No category covers the
division. -/
def divideCopy : Loop :=
  ⟨0, .constant 0, .constant 8, .constant 1, .slt, [], [],
    [.op ⟨0, .load "a", [.inductionVar], some .i32⟩, .op ⟨1, .constant 3, [], some .i32⟩,
      .op ⟨2, .divsi, [.result 0, .result 1], some .i32⟩,
      .op ⟨3, .store "b", [.result 2, .inductionVar], none⟩], []⟩

/-- The dependence problem of `divideCopy`: its data dependences; the two buffers differ, so no
memory dependence orders the load and the store. -/
def divideCopyProblem : Problem OpRef :=
  ⟨[.body 0, .body 1, .body 2, .body 3, .increment], [], [],
    [⟨.increment, .body 0, 1, .data⟩, ⟨.body 0, .body 2, 0, .data⟩, ⟨.body 1, .body 2, 0, .data⟩,
      ⟨.body 2, .body 3, 0, .data⟩, ⟨.increment, .body 3, 1, .data⟩,
      ⟨.increment, .increment, 1, .data⟩], [], none, false⟩

/-- Linking `divideCopy` stops at the division, and the check reports the division as the first
operation not linked. -/
theorem divideCopy_stops_at_division :
    (divideCopy.operations.map (·.id)).Nodup ∧ divideCopy.problem = .ok divideCopyProblem ∧
      (divideCopyProblem.linkLoop .standard divideCopy).2 = some ⟨0, 2, "divsi"⟩ ∧
      (divideCopyProblem.linkLoop .standard divideCopy).1.check =
        .error (.unlinkedOperation (.body 2)) := by
  have hids : (divideCopy.operations.map (·.id)).Nodup := by decide
  have hp : divideCopy.problem = .ok divideCopyProblem := rfl
  have hclassifies := Loop.linkLoop_classifies hids hp .standard
  have hstop : (divideCopyProblem.linkLoop .standard divideCopy).2 = some ⟨0, 2, "divsi"⟩ :=
    (hclassifies.1 _).2 ⟨[⟨0, .load "a", [.inductionVar], some .i32⟩,
      ⟨1, .constant 3, [], some .i32⟩], ⟨2, .divsi, [.result 0, .result 1], some .i32⟩,
      [⟨3, .store "b", [.result 2, .inductionVar], none⟩], rfl, by decide, rfl, rfl⟩
  exact ⟨hids, hp, hstop, hclassifies.2.1 _ hstop⟩

end ModuloPipelining
