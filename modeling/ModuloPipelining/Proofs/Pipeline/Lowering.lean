import ModuloPipelining.Proofs.Pipeline.Assembly
import ModuloPipelining.Proofs.Pipeline.Captures

/-!
# Lowering a well-scoped loop

`Loop.construct` succeeds on every pipelining candidate that is well scoped, under every verified
schedule of a problem of the loop whose latencies are not negative (`Loop.construct_eq_ok`).
Well scoped (`Loop.WellScoped`) means: body operations have distinct identities, an operand
reads the result of a body operation only if that operation stands before it, and operands and
yields read only iteration arguments the loop has.

The proof follows the construction. The schedule gives every operation of the loop a start
cycle, and every data dependence is met (`Loop.Timed`). Entries are placed by start cycle and
then by position (`Loop.entryLe`), so when an operation is placed, the producer of each result
it reads is already placed: it starts no later and stands before it. An iteration argument is
read no earlier than its capture stage (`Loop.Timed.capture_le`). Every placement therefore
succeeds and keeps the assembly sound, the terminator finds its registers
(`Loop.run_succeeds`), and the pipeline passes its verification
(`Assembly.verify_of_sound`).
-/

namespace ModuloPipelining

/-! ### Traversals that succeed -/

section Traversal

variable {ε β γ : Type}

theorem ok_bind (x : β) (f : β → Except ε γ) : (Except.ok x >>= f) = f x := rfl

theorem bind_eq_ok {x : Except ε β} {f : β → Except ε γ} {y : γ} (h : (x >>= f) = .ok y) :
    ∃ b, x = .ok b ∧ f b = .ok y := by
  cases hx : x with
  | error e =>
    rw [hx] at h
    cases h
  | ok b =>
    rw [hx] at h
    exact ⟨b, rfl, h⟩

theorem bind_eq_error {x : Except ε β} {f : β → Except ε γ} {e : ε} (h : (x >>= f) = .error e) :
    x = .error e ∨ ∃ b, x = .ok b ∧ f b = .error e := by
  cases x with
  | error e' =>
    cases h
    exact .inl rfl
  | ok b => exact .inr ⟨b, rfl, h⟩

theorem eq_ok_of_forM_eq_ok {f : β → Except ε Unit} :
    ∀ {xs : List β}, xs.forM f = .ok () → ∀ x ∈ xs, f x = .ok ()
  | [], _, _, hx => absurd hx List.not_mem_nil
  | y :: rest, h, x, hx => by
    obtain ⟨_, hy, hrest⟩ := bind_eq_ok (show (f y >>= fun _ => rest.forM f) = .ok () from h)
    rcases List.mem_cons.1 hx with rfl | hx
    · exact hy
    · exact eq_ok_of_forM_eq_ok hrest x hx

/-- A traversal whose every step keeps a view of its element keeps that view of the list. -/
theorem map_of_mapM_eq_ok {δ : Type} {f : β → Except ε γ} {k : γ → δ} {j : β → δ}
    (hf : ∀ x y, f x = .ok y → k y = j x) :
    ∀ {xs : List β} {ys : List γ}, xs.mapM f = .ok ys → ys.map k = xs.map j
  | [], ys, h => by
    cases h
    rfl
  | x :: xs, ys, h => by
    rw [List.mapM_cons] at h
    obtain ⟨y, hy, h⟩ := bind_eq_ok h
    obtain ⟨rest, hrest, h⟩ := bind_eq_ok h
    cases h
    rw [List.map_cons, List.map_cons, hf x y hy, map_of_mapM_eq_ok hf hrest]

theorem length_of_mapM_eq_ok {f : β → Except ε γ} {xs : List β} {ys : List γ}
    (h : xs.mapM f = .ok ys) : ys.length = xs.length := by
  have hunits := map_of_mapM_eq_ok
    (fun _ _ _ => rfl : ∀ x y, f x = .ok y → (fun _ => ()) y = (fun _ => ()) x) h
  simpa using congrArg List.length hunits

/-- A traversal fails with the failure of one of its steps. -/
theorem exists_of_mapM_eq_error {f : β → Except ε γ} {e : ε} :
    ∀ {xs : List β}, xs.mapM f = .error e → ∃ x ∈ xs, f x = .error e
  | [], h => by cases h
  | x :: xs, h => by
    rw [List.mapM_cons] at h
    rcases bind_eq_error h with hx | ⟨_, -, h⟩
    · exact ⟨x, List.mem_cons_self, hx⟩
    rcases bind_eq_error h with hrest | ⟨_, -, h⟩
    · obtain ⟨y, hy, hfy⟩ := exists_of_mapM_eq_error hrest
      exact ⟨y, List.mem_cons_of_mem _ hy, hfy⟩
    · cases h

/-- A fold fails with the failure of one of its steps. -/
theorem exists_of_foldlM_eq_error {f : γ → β → Except ε γ} {e : ε} :
    ∀ {xs : List β} {init : γ}, xs.foldlM f init = .error e → ∃ x ∈ xs, ∃ acc, f acc x = .error e
  | [], _, h => by cases h
  | x :: xs, init, h => by
    rw [List.foldlM_cons] at h
    rcases bind_eq_error h with hx | ⟨acc, -, h⟩
    · exact ⟨x, List.mem_cons_self, init, hx⟩
    · obtain ⟨y, hy, acc', hfy⟩ := exists_of_foldlM_eq_error h
      exact ⟨y, List.mem_cons_of_mem _ hy, acc', hfy⟩

/-- A fold keeps what each of its steps keeps. -/
theorem foldlM_eq_ok_of_step {f : γ → β → Except ε γ} (inv : γ → Prop)
    (hf : ∀ acc x acc', inv acc → f acc x = .ok acc' → inv acc') :
    ∀ {xs : List β} {init r : γ}, inv init → xs.foldlM f init = .ok r → inv r
  | [], _, _, hinit, h => by
    cases h
    exact hinit
  | x :: xs, init, r, hinit, h => by
    rw [List.foldlM_cons] at h
    obtain ⟨acc, hacc, h⟩ := bind_eq_ok h
    exact foldlM_eq_ok_of_step inv hf (hf init x acc hinit hacc) h

theorem getD_le_of_forall_le {xs : List Nat} {m : Nat} (h : ∀ k ∈ xs, k ≤ m) (i : Nat) :
    xs.getD i 0 ≤ m := by
  rw [List.getD_eq_getElem?_getD]
  cases hx : xs[i]? with
  | none => exact Nat.zero_le m
  | some k => exact h k (List.mem_of_getElem? hx)

end Traversal

/-! ### What a verified schedule gives -/

namespace Problem

section Verified

variable {α : Type} [DecidableEq α] {p : Problem α}

/-- A dependence that verifies is met by the stored start times and its source's latency. -/
theorem met_of_verifyDependence {ii : Nat} {d : Dependence α}
    (h : p.verifyDependence ii d = .ok ()) :
    ∃ s t lat, p.startTime? d.source = some s ∧ p.startTime? d.destination = some t ∧
      p.latencyOf? d.source = some lat ∧ (s : Int) + lat ≤ t + ii * d.distance := by
  unfold verifyDependence at h
  split at h
  · next s hs =>
    split at h
    · next t ht =>
      split at h
      · next lat hl =>
        refine ⟨s, t, lat, hs, ht, hl, ?_⟩
        dsimp only at h
        split at h
        · cases h
        · omega
      · cases h
    · cases h
  · cases h

/-- A verified problem has a positive interval, a start time for every operation, and meets
every dependence under that interval. -/
theorem schedule_of_verify (h : p.verify = .ok ()) :
    ∃ ii, p.initiationInterval = some ii ∧ 0 < ii ∧
      (∀ op ∈ p.operations, (p.startTime? op).isSome) ∧
      ∀ d ∈ p.dependences, ∃ s t lat, p.startTime? d.source = some s ∧
        p.startTime? d.destination = some t ∧ p.latencyOf? d.source = some lat ∧
        (s : Int) + lat ≤ t + ii * d.distance := by
  unfold verify at h
  dsimp only at h
  split at h
  · next ii hii =>
    split at h
    · next hpos =>
      rw [pure_bind] at h
      obtain ⟨_, hops, hdeps⟩ := bind_eq_ok h
      refine ⟨ii, hii, hpos, fun op hop => ?_, fun d hd =>
        met_of_verifyDependence (eq_ok_of_forM_eq_ok hdeps d hd)⟩
      have hstart := eq_ok_of_forM_eq_ok hops op hop
      split at hstart
      · assumption
      · cases hstart
    · cases h
  · cases h

end Verified

/-- The start cycle a problem stores for an operation, zero when it stores none. -/
def start (q : Problem OpRef) (op : OpRef) : Nat := (q.startTime? op).getD 0

/-- The cycle, relative to its iteration, at which an operation's result is ready. -/
def ready (q : Problem OpRef) (op : OpRef) : Int := q.start op + (q.latencyOf? op).getD 0

end Problem

/-! ### Well-scoped loops -/

namespace Value

/-- The body operation whose result a value reads, if it reads one. -/
def resultId? : Value → Option Nat
  | .result id => some id
  | _ => none

/-- The iteration argument a value reads, if it reads one. -/
def iterArgIndex? : Value → Option Nat
  | .iterArg i => some i
  | _ => none

theorem mem_filterMap_resultId? {vs : List Value} {id : Nat} :
    id ∈ vs.filterMap resultId? ↔ Value.result id ∈ vs := by
  rw [List.mem_filterMap]
  constructor
  · rintro ⟨v, hv, h⟩
    cases v <;> simp only [resultId?, Option.some.injEq, reduceCtorEq] at h
    exact h ▸ hv
  · exact fun h => ⟨_, h, rfl⟩

theorem mem_filterMap_iterArgIndex? {vs : List Value} {i : Nat} :
    i ∈ vs.filterMap iterArgIndex? ↔ Value.iterArg i ∈ vs := by
  rw [List.mem_filterMap]
  constructor
  · rintro ⟨v, hv, h⟩
    cases v <;> simp only [iterArgIndex?, Option.some.injEq, reduceCtorEq] at h
    exact h ▸ hv
  · exact fun h => ⟨_, h, rfl⟩

end Value

namespace Loop

/-- A loop whose operands name only what exists where they are read: body operations have
distinct identities, an operand reads a body operation's result only if that operation stands
before it, and operands and yields read only iteration arguments the loop has. -/
@[mk_iff]
structure WellScoped (l : Loop) : Prop where
  nodup : (l.operations.map (·.id)).Nodup
  results : ∀ k (hk : k < l.operations.length),
    ∀ id ∈ l.operations[k].operands.filterMap Value.resultId?, l.hasOp id = true →
      id ∈ (l.operations.take k).map (·.id)
  iterArgs : ∀ o ∈ l.operations, ∀ i ∈ o.operands.filterMap Value.iterArgIndex?,
    i < l.iterInits.length
  yields : ∀ i ∈ l.yields.filterMap Value.iterArgIndex?, i < l.iterInits.length

instance (l : Loop) : Decidable l.WellScoped :=
  decidable_of_iff _ (wellScoped_iff l).symm

variable {l : Loop}

/-- The producer of a result a well-scoped operation reads stands before it. -/
theorem WellScoped.producer_before (hl : l.WellScoped) {k : Nat} {o : Operation}
    (hk : l.operations[k]? = some o) {id : Nat} (hv : Value.result id ∈ o.operands)
    (hop : l.hasOp id = true) : ∃ j < k, ∃ p, l.operations[j]? = some p ∧ p.id = id := by
  obtain ⟨hlt, rfl⟩ := List.getElem?_eq_some_iff.1 hk
  have hmem := hl.results k hlt id (Value.mem_filterMap_resultId?.2 hv) hop
  obtain ⟨p, hp, rfl⟩ := List.mem_map.1 hmem
  obtain ⟨j, hj, rfl⟩ := List.mem_iff_getElem.1 hp
  rw [List.length_take] at hj
  exact ⟨j, by omega, _, by rw [List.getElem_take]; exact List.getElem?_eq_getElem _, rfl⟩

theorem WellScoped.iterArg_lt (hl : l.WellScoped) {o : Operation} (ho : o ∈ l.operations)
    {i : Nat} (hv : Value.iterArg i ∈ o.operands) : i < l.iterInits.length :=
  hl.iterArgs o ho i (Value.mem_filterMap_iterArgIndex?.2 hv)

theorem WellScoped.yield_lt (hl : l.WellScoped) :
    ∀ v ∈ l.yields, ∀ i, v = .iterArg i → i < l.iterInits.length := by
  rintro v hv i rfl
  exact hl.yields i (Value.mem_filterMap_iterArgIndex?.2 hv)

/-- With distinct identities, looking an operation up by its identity finds it. -/
theorem findOp?_of_nodup (hids : (l.operations.map (·.id)).Nodup) {o : Operation}
    (ho : o ∈ l.operations) : l.findOp? o.id = some o := by
  unfold findOp?
  obtain ⟨p, hp⟩ : ∃ p, l.operations.find? (·.id == o.id) = some p :=
    Option.isSome_iff_exists.1 (List.find?_isSome.2 ⟨o, ho, by simp⟩)
  have hpid : p.id = o.id := by simpa using List.find?_some hp
  rw [hp, List.inj_on_of_nodup_map hids (List.mem_of_find?_eq_some hp) ho hpid]

theorem WellScoped.findOp?_eq (hl : l.WellScoped) {o : Operation} (ho : o ∈ l.operations) :
    l.findOp? o.id = some o :=
  findOp?_of_nodup hl.nodup ho

/-- A pipelining candidate has one yield and one result type per iteration argument. -/
theorem candidateBounds_arity {bounds : LoopBounds} (h : l.candidateBounds = .ok bounds) :
    l.yields.length = l.iterInits.length ∧ l.resultTypes.length = l.iterInits.length := by
  by_contra hne
  have harity : l.iterInits.length ≠ l.yields.length ∨
      l.iterInits.length ≠ l.resultTypes.length := by omega
  unfold candidateBounds at h
  simp only [if_pos harity] at h
  split at h
  · cases h
  · obtain ⟨_, -, h⟩ := bind_eq_ok h
    obtain ⟨_, -, h⟩ := bind_eq_ok h
    obtain ⟨_, -, h⟩ := bind_eq_ok h
    split at h
    · cases h
    · split at h <;> cases h

theorem mem_dataDependences {o : Operation} (ho : o ∈ l.operations) {v : Value}
    (hv : v ∈ o.operands) {d : Dependence OpRef}
    (h : l.valueDependence (.body o.id) (l.yields.length + 1) v 0 = some d) :
    d ∈ l.dataDependences :=
  List.mem_append_left _ (List.mem_flatMap.2 ⟨o, ho, List.mem_filterMap.2 ⟨v, hv, h⟩⟩)

theorem mem_dataDependences_increment {d : Dependence OpRef}
    (h : l.valueDependence .increment (l.yields.length + 1) .inductionVar 0 = some d) :
    d ∈ l.dataDependences :=
  List.mem_append_right _ (by rw [h]; exact List.mem_singleton_self d)


/-! ### The schedule a verified problem gives -/

variable {q : Problem OpRef} {ii : Nat}

/-- A schedule of the loop under interval `ii`, read off a problem: every operation of the loop
has a start cycle, its result is ready no earlier, and every data dependence of the loop is
met. -/
structure Timed (l : Loop) (q : Problem OpRef) (ii : Nat) : Prop where
  start : ∀ op, l.isForeign op = false → q.startTime? op = some (q.start op)
  start_le_ready : ∀ op, l.isForeign op = false → (q.start op : Int) ≤ q.ready op
  meets : ∀ d ∈ l.dataDependences, q.ready d.source ≤ q.start d.destination + ii * d.distance

theorem ProblemOf.mem_operations (hq : l.ProblemOf q) {op : OpRef}
    (h : l.isForeign op = false) : op ∈ q.operations := by
  rcases l.isForeign_eq_false_iff.1 h with rfl | ⟨o, ho, rfl⟩
  · exact hq.increment
  · exact hq.body o ho

/-- A verified problem of the loop, with latencies that are not negative, schedules the loop. -/
theorem ProblemOf.timed (hq : l.ProblemOf q)
    (hlat : ∀ op ∈ q.operations, ∃ t, q.latencyOf? op = some t ∧ 0 ≤ t)
    (hverify : q.verify = .ok ()) : ∃ ii, q.initiationInterval = some ii ∧ l.Timed q ii := by
  obtain ⟨ii, hii, -, hstarts, hdeps⟩ := q.schedule_of_verify hverify
  have hstart : ∀ op, l.isForeign op = false → q.startTime? op = some (q.start op) := by
    intro op hop
    obtain ⟨s, hs⟩ := Option.isSome_iff_exists.1 (hstarts op (hq.mem_operations hop))
    simp [Problem.start, hs]
  refine ⟨ii, hii, hstart, fun op hop => ?_, fun d hd => ?_⟩
  · obtain ⟨t, ht, hnonneg⟩ := hlat op (hq.mem_operations hop)
    simp only [Problem.ready, ht, Option.getD_some]
    omega
  · obtain ⟨s, t, lat, hs, ht, hl, hle⟩ := hdeps d (hq.data d hd)
    simpa only [Problem.ready, Problem.start, hs, ht, hl, Option.getD_some] using hle

theorem Timed.startOf (ht : l.Timed q ii) (c : Lowering) (hc : c.problem = q) {op : OpRef}
    (hop : l.isForeign op = false) : c.startOf op = .ok (q.start op) := by
  simp [Lowering.startOf, hc, ht.start op hop]

theorem Timed.readyTime (ht : l.Timed q ii) (c : Lowering) (hc : c.problem = q) {op : OpRef}
    (hop : l.isForeign op = false) : c.readyTime op = .ok (q.ready op) := by
  simp only [Lowering.readyTime, ht.startOf c hc hop, Problem.ready, hc]
  rfl

/-- A reader of slot `k` starts no earlier than the slot's capture stage, when the dependence
the search finds for its read is a data dependence of the loop. -/
theorem Timed.capture_le (ht : l.Timed q ii) {fuel : Nat} {captures : List Nat}
    (hsup : l.Supported q.ready ii fuel captures) {k : Nat} (hk : k < l.iterInits.length + 1)
    {consumer : OpRef}
    (hreads : ∀ d, l.valueDependence consumer (l.yields.length + 1) (slotValue k) 0 = some d →
      d ∈ l.dataDependences) :
    captures.getD k 0 ≤ q.start consumer :=
  Loop.capture_le hsup hk fun _ _ h => ht.meets _ (hreads _ h)

/-! ### Entries in placement order -/

/-- The placement order: by start cycle, then by position in the body. -/
def entryLe (a b : Nat × Nat × OpRef) : Bool :=
  decide (a.1 < b.1) || (a.1 == b.1 && decide (a.2.1 ≤ b.2.1))

theorem entryLe_trans (a b d : Nat × Nat × OpRef) :
    entryLe a b → entryLe b d → entryLe a d := by
  simp only [entryLe, Bool.or_eq_true, Bool.and_eq_true, decide_eq_true_eq, beq_iff_eq]
  omega

theorem entryLe_total (a b : Nat × Nat × OpRef) : (entryLe a b || entryLe b a) = true := by
  simp only [entryLe, Bool.or_eq_true, Bool.and_eq_true, decide_eq_true_eq, beq_iff_eq]
  omega

/-- In a list in placement order, an entry that does not come after `x` comes before it. -/
theorem mem_before_of_not_entryLe {pre post : List (Nat × Nat × OpRef)} {x y : Nat × Nat × OpRef}
    (hsorted : (pre ++ x :: post).Pairwise fun a b => entryLe a b)
    (hy : y ∈ pre ++ x :: post) (hxy : entryLe x y = false) : y ∈ pre := by
  rcases List.mem_append.1 hy with hy | hy
  · exact hy
  rcases List.mem_cons.1 hy with rfl | hy
  · simp [entryLe] at hxy
  have hle := List.rel_of_pairwise_cons (List.pairwise_append.1 hsorted).2.1 hy
  rw [hxy] at hle
  cases hle

/-- In a list in placement order, an entry that starts no later than `x` and stands before it in
the body comes before `x`. -/
theorem mem_before_of_pairwise {pre post : List (Nat × Nat × OpRef)} {x y : Nat × Nat × OpRef}
    (hsorted : (pre ++ x :: post).Pairwise fun a b => entryLe a b)
    (hy : y ∈ pre ++ x :: post) (hstart : y.1 ≤ x.1) (hpos : y.2.1 < x.2.1) : y ∈ pre :=
  mem_before_of_not_entryLe hsorted hy (by simp [entryLe]; omega)

/-- In a list in placement order, an entry that starts earlier than `x` comes before `x`. -/
theorem mem_before_of_lt {pre post : List (Nat × Nat × OpRef)} {x y : Nat × Nat × OpRef}
    (hsorted : (pre ++ x :: post).Pairwise fun a b => entryLe a b)
    (hy : y ∈ pre ++ x :: post) (hstart : y.1 < x.1) : y ∈ pre :=
  mem_before_of_not_entryLe hsorted hy (by simp [entryLe]; omega)

/-- The entries the lowering places under the stored start times: each body operation with its
position, then the increment after all of them. -/
def entries (l : Loop) (q : Problem OpRef) : List (Nat × Nat × OpRef) :=
  l.operations.zipIdx.map (fun x => (q.start (.body x.1.id), x.2, OpRef.body x.1.id)) ++
    [(q.start .increment, l.operations.length, .increment)]

theorem mem_entries {e : Nat × Nat × OpRef} :
    e ∈ l.entries q ↔
      (∃ k o, l.operations[k]? = some o ∧ e = (q.start (.body o.id), k, .body o.id)) ∨
        e = (q.start .increment, l.operations.length, .increment) := by
  simp only [entries, List.mem_append, List.mem_map, List.mem_singleton, Prod.exists,
    List.mk_mem_zipIdx_iff_getElem?]
  constructor
  · rintro (⟨o, k, hk, rfl⟩ | h)
    · exact Or.inl ⟨k, o, hk, rfl⟩
    · exact Or.inr h
  · rintro (⟨k, o, hk, rfl⟩ | h)
    · exact Or.inl ⟨o, k, hk, rfl⟩
    · exact Or.inr h

/-- Every entry is an operation of the loop at its start cycle. -/
theorem native_of_mem_entries {e : Nat × Nat × OpRef} (h : e ∈ l.entries q) :
    l.isForeign e.2.2 = false ∧ e.1 = q.start e.2.2 := by
  rcases mem_entries.1 h with ⟨k, o, hk, rfl⟩ | rfl
  · exact ⟨l.isForeign_body (List.mem_of_getElem? hk), rfl⟩
  · exact ⟨rfl, rfl⟩

/-- Every operation of the loop has an entry. -/
theorem exists_entry {op : OpRef} (h : l.isForeign op = false) :
    ∃ e ∈ l.entries q, e.2.2 = op := by
  rcases l.isForeign_eq_false_iff.1 h with rfl | ⟨o, ho, rfl⟩
  · exact ⟨_, mem_entries.2 (Or.inr rfl), rfl⟩
  · obtain ⟨k, hk⟩ := List.mem_iff_getElem?.1 ho
    exact ⟨_, mem_entries.2 (Or.inl ⟨k, o, hk, rfl⟩), rfl⟩

theorem map_entries : (l.entries q).map (·.2.2) =
    (l.operations.map (·.id)).map OpRef.body ++ [.increment] := by
  conv_rhs => rw [← List.zipIdx_map_fst 0 l.operations]
  simp only [entries, List.map_append, List.map_map, List.map_cons, List.map_nil]
  rfl

/-- With distinct identities, the entries name each operation once, and the increment once. -/
theorem nodup_entries (hids : (l.operations.map (·.id)).Nodup) :
    ((l.entries q).map (·.2.2)).Nodup := by
  rw [map_entries, List.nodup_append]
  refine ⟨hids.map fun _ _ h => OpRef.body.inj h, List.nodup_singleton _, ?_⟩
  simp

theorem count_increment_entries : ((l.entries q).map (·.2.2)).count .increment = 1 := by
  rw [map_entries, List.count_append, List.count_singleton_self, (List.count_eq_zero).2]
  simp

theorem le_foldl_max_of_mem {xs : List Nat} {x : Nat} (h : x ∈ xs) : x ≤ xs.foldl max 0 := by
  rw [List.foldl_max_eq_max (List.ne_nil_of_mem h)]
  exact le_max_of_le_right (List.le_max_of_mem h)

/-! ### Placing the entries -/

variable {c : Lowering} {fuel last : Nat} {a : Assembly}

/-- When an entry comes up in placement order, with the entries before it placed, the operation
can be placed: the producers of the results it reads are placed and their results ready, and the
iteration arguments it reads are captured. -/
theorem placeable (hl : c.loop.WellScoped) (ht : c.loop.Timed c.problem ii)
    (hsup : c.loop.Supported c.problem.ready ii fuel c.captures)
    (hcaptures : c.captures.length = c.loop.iterInits.length + 1)
    {pre post : List (Nat × Nat × OpRef)} {x : Nat × Nat × OpRef}
    (hperm : (pre ++ x :: post).Perm (c.loop.entries c.problem))
    (hsorted : (pre ++ x :: post).Pairwise fun a b => entryLe a b)
    (hplaced : a.placed = (pre.map (·.2.2)).reverse) :
    Assembly.Placeable c a x.1 x.2.2 := by
  have hx : x ∈ c.loop.entries c.problem :=
    hperm.subset (List.mem_append_right _ List.mem_cons_self)
  have hinduction : ∀ consumer, (∀ d, c.loop.valueDependence consumer
      (c.loop.yields.length + 1) .inductionVar 0 = some d → d ∈ c.loop.dataDependences) →
      Assembly.Available c a (c.problem.start consumer) .inductionVar :=
    fun consumer hreads => ⟨by omega, ht.capture_le hsup (by omega) hreads⟩
  rcases mem_entries.1 hx with ⟨k, o, hk, rfl⟩ | rfl
  · have ho : o ∈ c.loop.operations := List.mem_of_getElem? hk
    refine ⟨o, hl.findOp?_eq ho, fun v hv => ?_⟩
    cases v with
    | result id =>
      intro hop
      obtain ⟨j, hj, p, hp, rfl⟩ := hl.producer_before hk hv hop
      have hnative : c.loop.isForeign (.body p.id) = false :=
        c.loop.isForeign_body (List.mem_of_getElem? hp)
      have hdep : c.loop.valueDependence (.body o.id) (c.loop.yields.length + 1) (.result p.id) 0 =
          some ⟨.body p.id, .body o.id, 0, .data⟩ := by
        simp [valueDependence, hop]
      have hready : c.problem.ready (.body p.id) ≤ c.problem.start (.body o.id) := by
        simpa using ht.meets _ (mem_dataDependences ho hv hdep)
      have hstart := ht.start_le_ready _ hnative
      refine ⟨_, _, ht.startOf c rfl hnative, ht.readyTime c rfl hnative, hready, by omega, ?_⟩
      -- the producer starts no later and stands before, so it is placed already
      have hy := hperm.symm.subset (mem_entries.2 (Or.inl ⟨j, p, hp, rfl⟩))
      have hbefore := mem_before_of_pairwise hsorted hy (by dsimp only; omega) hj
      rw [hplaced, List.mem_reverse]
      exact List.mem_map_of_mem hbefore
    | inductionVar => exact hinduction _ fun _ h => mem_dataDependences ho hv h
    | iterArg i =>
      have hi := hl.iterArg_lt ho hv
      exact ⟨hi, by omega,
        ht.capture_le hsup (show i + 1 < _ by omega) fun _ h => mem_dataDependences ho hv h⟩
    | constant _ _ => trivial
    | argument _ => trivial
  · exact hinduction .increment fun _ h => mem_dataDependences_increment h

/-- Placing the entries in placement order and then building the terminator succeeds, and
leaves a sound assembly holding each entry once, with a terminator that reads what exists at
the end. -/
theorem run_succeeds (hl : c.loop.WellScoped) (ht : c.loop.Timed c.problem ii)
    (hsup : c.loop.Supported c.problem.ready ii fuel c.captures)
    (hcaptures : c.captures.length = c.loop.iterInits.length + 1)
    (hcaptureLe : ∀ k ∈ c.captures, k ≤ last)
    {sorted : List (Nat × Nat × OpRef)} (hperm : sorted.Perm (c.loop.entries c.problem))
    (hsorted : sorted.Pairwise fun a b => entryLe a b)
    (hlast : ∀ e ∈ c.loop.entries c.problem, e.1 ≤ last) :
    Assembly.Succeeds ((sorted.forM fun x => Assembly.placeAt (x.1, x.2.2)) >>=
        fun _ => Assembly.terminator) c (Assembly.initial last)
      fun t a => Assembly.Sound c last a ∧
        a.placed.Perm ((c.loop.entries c.problem).map (·.2.2)) ∧
        t.iterArgs.length = c.loop.yields.length + 1 ∧ t.results.length = c.loop.yields.length ∧
        ∀ x ∈ t.iterArgs ++ t.results, Assembly.EndReads a x := by
  -- the invariant of the placements: sound, with the entries done placed
  refine Assembly.Succeeds.bind (Assembly.Succeeds.forM sorted
      (fun done a => Assembly.Sound c last a ∧ a.placed = (done.map (·.2.2)).reverse) ?_
      [] sorted _ rfl ⟨Assembly.sound_initial c last, rfl⟩) fun _ a₁ ⟨hsound₁, hplaced₁⟩ => ?_
  · rintro pre x post a hsplit ⟨hsound, hplaced⟩
    rw [hsplit] at hperm hsorted
    have hx := hperm.subset (List.mem_append_right _ List.mem_cons_self)
    obtain ⟨hnative, hstart⟩ := native_of_mem_entries hx
    refine (Assembly.placeAt_spec hsound (by rw [hstart]; exact ht.startOf c rfl hnative)
      (hlast x hx) (placeable hl ht hsup hcaptures hperm hsorted hplaced)).mono
      fun _ a' ⟨hsound', hplaced'⟩ => ⟨hsound', ?_⟩
    rw [hplaced', hplaced]
    simp
  · have hperm₁ : a₁.placed.Perm ((c.loop.entries c.problem).map (·.2.2)) := by
      rw [hplaced₁]
      exact (List.reverse_perm _).trans (hperm.map _)
    refine (Assembly.terminator_spec hsound₁ (fun op hop => ?_) hcaptures
      (getD_le_of_forall_le hcaptureLe) hl.yield_lt).mono
      fun t a₂ ⟨hsound₂, hframe, hargs, hres, hend⟩ => ⟨hsound₂, hframe.placed ▸ hperm₁, hargs, hres, hend⟩
    obtain ⟨e, he, rfl⟩ := exists_entry hop
    obtain ⟨hnative, hstart⟩ := native_of_mem_entries he
    exact ⟨e.1, by rw [hstart]; exact ht.startOf c rfl hnative, hlast e he,
      hperm₁.symm.subset (List.mem_map_of_mem he)⟩


/-! ### Lowering succeeds -/

/-- Lowering a well-scoped pipelining candidate succeeds under every verified schedule of a
problem of the loop whose latencies are not negative. -/
theorem construct_eq_ok {bounds : LoopBounds} (hl : l.WellScoped)
    (hb : l.candidateBounds = .ok bounds) (hq : l.ProblemOf q)
    (hlat : ∀ op ∈ q.operations, ∃ t, q.latencyOf? op = some t ∧ 0 ≤ t)
    (hverify : q.verify = .ok ()) : ∃ pipe, l.construct bounds q = .ok pipe := by
  obtain ⟨hlen, hresults⟩ := candidateBounds_arity hb
  obtain ⟨ii, hii, ht⟩ := hq.timed hlat hverify
  have hfind : q.operations.find? l.isForeign = none :=
    List.find?_eq_none.2 fun op hop => by simp [hq.native op hop]
  have hbody : ∀ x ∈ l.operations.zipIdx, l.isForeign (.body x.1.id) = false :=
    fun x hx => l.isForeign_body (List.mem_of_getElem? (List.mem_zipIdx_iff_getElem?.1 hx))
  unfold construct
  simp only [hii, hfind]
  rw [@mapM_eq_ok_map _ _ _ _
      (fun x : Operation × Nat => (q.start (.body x.1.id), x.2, OpRef.body x.1.id)) _ ?_,
    ok_bind, ht.startOf ⟨l, bounds, q, []⟩ rfl rfl, ok_bind,
    Lowering.captureStages_eq ⟨l, bounds, q, []⟩ q.ready ii _
      (fun _ hop => ht.readyTime _ rfl hop) hlen hl.yield_lt, ok_bind]
  · apply Assembly.Succeeds.run_bind
    · refine run_succeeds hl ht (supported_iterate _ hlen hl.yield_lt _)
        (length_iterate_nextCaptures _ hlen _ _) (fun _ hk => le_last_of_mem_iterate_nextCaptures _ hk)
        (List.mergeSort_perm _ _) (List.pairwise_mergeSort entryLe_trans entryLe_total _)
        fun e he => le_foldl_max_of_mem (List.mem_map_of_mem he)
    · rintro t a ⟨hsound, hperm, hargs, hres, hend⟩
      split
      · next e heq =>
        rw [Assembly.verify_of_sound hsound rfl rfl ?_ ?_ ?_ rfl (hperm.nodup_iff.2 (nodup_entries hl.nodup))
          (hperm.count_eq _ ▸ count_increment_entries) ?_ ?_ hend] at heq
        · cases heq
        · exact length_iterate_nextCaptures _ hlen _ _
        · exact fun _ hk => le_last_of_mem_iterate_nextCaptures _ hk
        · simp [hresults]
        · simp [hargs, hlen]
        · simp [hres, hlen, hresults]
      · exact ⟨_, rfl⟩
  · intro x hx
    rw [ht.startOf _ rfl (hbody x hx)]
    rfl

end Loop

end ModuloPipelining
