import ModuloPipelining.Proofs.Pipeline.Checks
import ModuloPipelining.Proofs.Pass.Run
import ModuloPipelining.Proofs.Problem.Classification
import ModuloPipelining.Proofs.Schedule.Traps

/-!
# Where lowering places the operations

Lowering places each operation of the loop's problem once, in the stage of its start time.
Entries are sorted by start and then by position in the body, the increment last, and placed in
that order, each at the end of its stage; registers are added on the way, and nothing else
changes the stages. So stage `k` is numbered `k` and holds the operations that start at cycle
`k`, in program order with the increment last (`Loop.construct_laid`), and there is one stage per
cycle up to the largest start. The invariant of the placements is `Assembly.Laid`; every other
step of the assembly keeps `Assembly.Frame` (`Assembly.Framed`).

A pipeline is returned only once it verifies, and a verified pipeline names each operation once
(`Pipeline.verify_nodup`); so the loop's operations have distinct identities, and its problem
lists them in program order.

For a loop whose problem is built, linked, checked and solved, the scheduler stores a start time
for each operation of the loop and for nothing else, and reports as its stage count the largest
of them plus one (`Loop.solved_schedule`, `Loop.maxStartTime?_entries`): the two counts agree
(`Loop.construct_places_by_start`).
-/

namespace ModuloPipelining

namespace Assembly

/-! ### Steps that only add registers -/

section Framed

variable {β γ : Type}

/-- Every run of `x` that returns keeps the stages' numbers and operations and the operations
placed, and only adds registers. -/
def Framed (x : AssemblyM β) : Prop :=
  ∀ c a, Ensures x c a fun _ a' => Frame a a'

theorem Framed.pure (r : β) : Framed (Pure.pure r : AssemblyM β) :=
  fun _ a => Ensures.pure (Frame.refl a)

theorem Framed.bind {x : AssemblyM β} {f : β → AssemblyM γ} (hx : Framed x)
    (hf : ∀ r, Framed (f r)) : Framed (x >>= f) := fun c a =>
  Ensures.bind (hx c a) fun r a₁ h₁ => (hf r c a₁).mono fun _ _ h₂ => h₁.trans h₂

theorem Framed.read_bind {f : Lowering → AssemblyM β} (hf : ∀ c, Framed (f c)) :
    Framed (read >>= f) :=
  fun c a => Ensures.bind_of_run rfl (hf c c a)

theorem Framed.get_bind {f : Assembly → AssemblyM β} (hf : ∀ a, Framed (f a)) :
    Framed (get >>= f) :=
  fun c a => Ensures.bind_of_run rfl (hf a c a)

theorem Framed.lift_bind {x : Except ConstructionError β} {f : β → AssemblyM γ}
    (hf : ∀ r, Framed (f r)) : Framed (lift x >>= f) :=
  fun c a => Ensures.lift_bind fun r _ => hf r c a

theorem Framed.lift_error {e : ConstructionError} : Framed (lift (.error e) : AssemblyM β) :=
  fun _ _ => Ensures.lift_error

theorem Framed.mapM {δ : Type} {f : δ → AssemblyM β} (hf : ∀ x, Framed (f x)) :
    ∀ xs : List δ, Framed (xs.mapM f)
  | [] => Framed.pure []
  | x :: xs => by
    rw [List.mapM_cons]
    exact Framed.bind (hf x) fun _ => Framed.bind (Framed.mapM hf xs) fun _ => Framed.pure _

theorem Framed.foldlM {δ : Type} {f : β → δ → AssemblyM β} (hf : ∀ acc x, Framed (f acc x)) :
    ∀ (xs : List δ) (init : β), Framed (xs.foldlM f init)
  | [], _ => Framed.pure _
  | x :: xs, init => by
    rw [List.foldlM_cons]
    exact Framed.bind (hf init x) fun acc => Framed.foldlM hf xs acc

end Framed

theorem frame_addRegister (a : Assembly) (stage : Nat) (key : RouteKey) (operand : StageOperand) :
    Frame a (a.addRegister stage key operand) := by
  have hat : ∀ k, (a.addRegister stage key operand).stageAt k =
      if stage = k ∧ k < a.stages.size then
        { a.stageAt k with registers := (a.stageAt k).registers ++ [operand] }
      else a.stageAt k := fun k => getD_modify _ _ _ _
  refine ⟨Array.size_modify, fun k => ?_, fun k => ?_, fun k => ?_, rfl⟩
  · rw [hat]
    split <;> rfl
  · rw [hat]
    split <;> rfl
  · rw [hat]
    split
    · exact List.prefix_append _ _
    · exact List.prefix_refl _

theorem register_framed (stage : Nat) (key : RouteKey) (operand : StageOperand) :
    Framed (register stage key operand) := by
  intro c a slot a' hrun
  rw [register_run] at hrun
  split at hrun
  · obtain ⟨rfl, rfl⟩ := Prod.mk.inj (Except.ok.inj hrun)
    exact Frame.refl a
  · obtain ⟨rfl, rfl⟩ := Prod.mk.inj (Except.ok.inj hrun)
    exact frame_addRegister a stage key operand

theorem route_framed (key : RouteKey) (first : StageOperand) (origin stage : Nat) :
    Framed (route key first origin stage) :=
  Framed.foldlM (fun _ through =>
    Framed.bind (register_framed through key _) fun _ => Framed.pure _) _ _

theorem iterArg_framed (slot : Nat) (consumer : OpRef) (stage : Nat) :
    Framed (iterArg slot consumer stage) := by
  unfold iterArg
  refine Framed.read_bind fun c => ?_
  dsimp only
  split
  · exact Framed.lift_error
  · exact route_framed _ _ _ _

theorem operand_framed (consumer : OpRef) (stage : Nat) : ∀ v, Framed (operand consumer stage v)
  | .constant _ _ | .argument _ => Framed.pure _
  | .result id => by
    unfold operand
    refine Framed.read_bind fun c => ?_
    dsimp only
    split
    · refine Framed.lift_bind fun origin => Framed.lift_bind fun ready => ?_
      refine Framed.get_bind fun a => ?_
      split
      · exact Framed.lift_error
      · exact route_framed _ _ _ _
    · exact Framed.pure _
  | .inductionVar => iterArg_framed 0 consumer stage
  | .iterArg _ => Framed.read_bind fun _ => Framed.lift_bind fun slot =>
    iterArg_framed slot consumer stage

theorem place_framed (stage : Nat) : ∀ op, Framed (place stage op)
  | .increment => Framed.bind (operand_framed _ _ _) fun _ =>
    Framed.read_bind fun _ => Framed.pure _
  | .body id => by
    unfold place
    refine Framed.read_bind fun c => ?_
    split
    · exact Framed.lift_error
    · exact Framed.bind (Framed.mapM (operand_framed _ _) _) fun _ => Framed.pure _

theorem produced_framed (producer : OpRef) : Framed (produced producer) :=
  Framed.read_bind fun _ => Framed.lift_bind fun _ =>
    Framed.bind (register_framed _ _ _) fun _ => Framed.pure _

theorem captured_framed (slot : Nat) : Framed (captured slot) :=
  Framed.read_bind fun _ => Framed.bind (register_framed _ _ _) fun _ => Framed.pure _

theorem terminator_framed : Framed terminator := by
  unfold terminator
  refine Framed.read_bind fun c => Framed.bind (produced_framed _) fun _ => ?_
  refine Framed.bind (Framed.mapM (fun v => ?_) _) fun _ => Framed.pure _
  cases v with
  | result id =>
    dsimp only
    split
    · exact produced_framed _
    · exact Framed.pure _
  | inductionVar => exact captured_framed 0
  | iterArg i => exact Framed.lift_bind fun slot => captured_framed slot
  | constant _ _ | argument _ => exact Framed.pure _

theorem Ensures.and {β : Type} {x : AssemblyM β} {c : Lowering} {a : Assembly}
    {post post' : β → Assembly → Prop} (h : Ensures x c a post) (h' : Ensures x c a post') :
    Ensures x c a fun r a' => post r a' ∧ post' r a' :=
  fun r a' hrun => ⟨h r a' hrun, h' r a' hrun⟩

end Assembly

/-! ### Placing the entries -/

/-- The placed form of an operation keeps what the loop says of it: a body operation its kind and
result type, and the increment is an `addi` of index type of a counter and the step. -/
def Lowering.Shaped (c : Lowering) (x : StageOp) : Prop :=
  match x.id with
  | .body id => ∃ o, c.loop.findOp? id = some o ∧ x.kind = o.kind ∧ x.result = o.result
  | .increment => x.kind = .addi ∧ x.result = some .index ∧
      ∃ counter, x.operands = [counter, .constant c.bounds.step .index]

namespace Assembly

variable {c : Lowering} {last : Nat}

/-- A placed operation is the operation asked for, in its shape. -/
theorem place_shaped (stage : Nat) (a : Assembly) :
    ∀ op, Ensures (place stage op) c a fun x _ => x.id = op ∧ c.Shaped x
  | .increment => Ensures.bind (Ensures.const trivial) fun counter _ _ =>
    Ensures.bind_of_run rfl (Ensures.pure ⟨rfl, rfl, rfl, counter, rfl⟩)
  | .body id => by
    unfold place
    refine Ensures.bind_of_run rfl ?_
    split
    · exact Ensures.lift_error
    · next o hfind =>
      exact Ensures.bind (Ensures.const trivial) fun _ _ _ =>
        Ensures.pure ⟨rfl, o, hfind, rfl, rfl⟩

/-- An assembly with stages `0 … last` after the entries `done` are placed in order: stage `k` is
numbered `k` and holds, in the order placed, the operations of the entries of start `k`, each in
its shape. -/
structure Laid (c : Lowering) (last : Nat) (done : List (Nat × Nat × OpRef)) (a : Assembly) :
    Prop where
  size : a.stages.size = last + 1
  index : ∀ k, (a.stageAt k).index = k
  operations : ∀ k, Pipeline.ids (a.stageAt k).operations =
    (done.filter (·.1 == k)).map (·.2.2)
  shaped : ∀ k, ∀ x ∈ (a.stageAt k).operations, c.Shaped x

theorem laid_initial (c : Lowering) (last : Nat) : Laid c last [] (initial last) where
  size := by simp [initial]
  index k := by rw [stageAt_initial]
  operations k := by rw [stageAt_initial]; rfl
  shaped k x hx := by simp [stageAt_initial] at hx

theorem Laid.frame {done : List (Nat × Nat × OpRef)} {a a' : Assembly} (h : Laid c last done a)
    (hf : Frame a a') : Laid c last done a' where
  size := hf.size.trans h.size
  index k := (hf.index k).trans (h.index k)
  operations k := by rw [hf.operations]; exact h.operations k
  shaped k x hx := h.shaped k x (hf.operations k ▸ hx)

/-- Placing an entry whose stage exists puts its operation at the end of that stage. -/
theorem placeAt_laid {done : List (Nat × Nat × OpRef)} {a : Assembly} (h : Laid c last done a)
    {e : Nat × Nat × OpRef} (he : e.1 ≤ last) :
    Ensures (placeAt (e.1, e.2.2)) c a fun _ a' => Laid c last (done ++ [e]) a' := by
  unfold placeAt
  refine Ensures.bind ((place_framed e.1 e.2.2 c a).and (place_shaped e.1 a e.2.2))
    fun x a₁ ⟨hframe, hid, hshaped⟩ => Ensures.modify ?_
  have h₁ := h.frame hframe
  have hlt : e.1 < a₁.stages.size := by rw [h₁.size]; omega
  have hat := stageAt_modify hlt (fun s => { s with operations := s.operations ++ [x] }) a₁.slots
    (e.2.2 :: a₁.placed)
  refine ⟨by simp [h₁.size], fun k => ?_, fun k => ?_, fun k y hy => ?_⟩
  · rw [hat]
    split <;> exact h₁.index k
  · rw [hat, List.filter_append, List.map_append, ← h₁.operations k]
    split
    · next hk =>
      subst hk
      simp [Pipeline.ids, hid]
    · next hk =>
      simp [hk]
  · rw [hat] at hy
    split at hy
    · rcases List.mem_append.1 hy with hy | hy
      · exact h₁.shaped _ y hy
      · rw [List.mem_singleton.1 hy]
        exact hshaped
    · exact h₁.shaped k y hy

/-- Placing sorted entries whose stages exist, then building the terminator, lays the entries out
stage by stage. -/
theorem run_laid {sorted : List (Nat × Nat × OpRef)} (hlast : ∀ e ∈ sorted, e.1 ≤ last) :
    Ensures ((sorted.forM fun x => placeAt (x.1, x.2.2)) >>= fun _ => terminator) c
      (initial last) fun _ a => Laid c last sorted a := by
  refine Ensures.bind (Ensures.forM_done sorted (fun done a => Laid c last done a)
    (fun pre x post a hsplit hlaid => placeAt_laid hlaid (hlast x (by rw [hsplit]; simp)))
    [] sorted _ rfl (laid_initial c last)) fun _ a₁ h₁ => ?_
  exact (terminator_framed c a₁).mono fun _ _ hframe => h₁.frame hframe

end Assembly

/-! ### The schedule a solve stores for a loop -/

namespace Problem

variable {α : Type} [DecidableEq α] {p : Problem α}

/-- Storing start times keys them by the operations they are stored for. -/
theorem storeStarts_keys {q : Problem α} {timed : List (α × Int)} {stopped : Option α}
    (h : p.storeStarts timed = (q, stopped)) {k : α} (hk : k ∈ q.startTimes.map Prod.fst) :
    k ∈ p.startTimes.map Prod.fst ∨ k ∈ timed.map Prod.fst := by
  induction timed generalizing p with
  | nil =>
    cases h
    exact .inl hk
  | cons entry rest ih =>
    obtain ⟨op, t⟩ := entry
    simp only [storeStarts] at h
    split at h
    · rcases ih h with hset | hrest
      · rw [setStartTime, keys_setEntry] at hset
        split at hset
        · exact .inl hset
        · rcases List.mem_append.1 hset with hold | hnew
          · exact .inl hold
          · exact .inr (by simp_all)
      · exact .inr (List.mem_cons_of_mem _ hrest)
    · cases h
      exact .inl hk

/-- A solve that returns a schedule stores start times only for operations of the problem, and
its summary gives the stage count of the schedule it stored. -/
theorem solve_stores {cfg : SchedulerConfig} {q : Problem α} {s : Summary}
    (h : p.solve cfg = .ok (q, .ok s)) :
    (∀ k ∈ q.startTimes.map Prod.fst, k ∈ p.startTimes.map Prod.fst ∨ k ∈ p.operations) ∧
      q.stageCount = .ok s.stageCount := by
  unfold solve at h
  dsimp only at h
  split at h
  · cases h
  split at h
  · cases h
  split at h
  · cases h
  split at h
  · cases h
  rename_i hstore
  split at h
  · cases h
  obtain ⟨stages, hstages, h⟩ := bind_eq_ok h
  cases h
  refine ⟨fun k hk => ?_, hstages⟩
  rcases storeStarts_keys hstore hk with hold | htimed
  · exact .inl hold
  · obtain ⟨e, he, rfl⟩ := List.mem_map.1 htimed
    exact .inr (List.of_mem_zip he).1

end Problem

/-- Lists with the same members have the same largest member. -/
theorem max?_eq_of_mem_iff {xs ys : List Nat} (h : ∀ x, x ∈ xs ↔ x ∈ ys) : xs.max? = ys.max? := by
  cases hy : ys.max? with
  | none =>
    rw [List.max?_eq_none_iff] at hy ⊢
    subst hy
    exact List.eq_nil_iff_forall_not_mem.2 fun x hx => List.not_mem_nil ((h x).1 hx)
  | some m =>
    rw [List.max?_eq_some_iff] at hy ⊢
    exact ⟨(h m).2 hy.1, fun b hb => hy.2 b ((h b).1 hb)⟩

namespace Loop

variable {l : Loop} {lib : Library} {cfg : SchedulerConfig} {p p₁ p₂ q : Problem OpRef}
  {s : Summary}

/-- The problem the scheduler leaves for a loop whose problem is linked with every operation
supported, checked, and solved with a summary: it has the operations of the loop's problem and
latencies that are not negative; it stores one start time for each operation of the loop and
none for anything else; and the summary's stage count is that of the stored schedule. -/
theorem solved_schedule (hp : l.problem = .ok p) (hlink : p.linkLoop lib l = (p₁, none))
    (hcheck : p₁.check = .ok p₂) (hsolve : p₂.solve cfg = .ok (q, .ok s)) :
    q.operations = p.operations ∧ (∀ op t, q.latencyOf? op = some t → 0 ≤ t) ∧
      (∀ op, l.isForeign op = false → q.startTime? op = some (q.start op)) ∧
      (∀ k ∈ q.startTimes.map Prod.fst, l.isForeign k = false) ∧
      (q.startTimes.map Prod.fst).Nodup ∧ q.stageCount = .ok s.stageCount := by
  have hretimed := Problem.solve_retimed cfg hsolve
  have hlinked : l.ProblemOf p₁ := by
    simpa [hlink] using (l.problem_problemOf hp).linkLoop lib
  have hq : l.ProblemOf q := (hlinked.check hcheck).retimed hretimed
  have hgraph := (l.problem_problemOf hp).linkLoop_graph lib
  rw [hlink] at hgraph
  have hunset : p₁.startTimes = [] := by
    rw [← (problem_unlinked hp).2.2, ← Problem.linkLoop_startTimes lib l p, hlink]
  obtain ⟨hnone, rfl⟩ := Problem.check_eq_ok hcheck
  obtain ⟨hkeys, hstages⟩ := Problem.solve_stores hsolve
  have hlat : ∀ op t, q.latencyOf? op = some t → 0 ≤ t := by
    intro op t ht
    obtain ⟨ty, hty, hlatency⟩ := Problem.exists_type_of_latencyOf? ht
    obtain ⟨-, htypes, -⟩ := Problem.violation?_eq_none_parts hnone
    obtain ⟨t', ht', hnonneg⟩ := Problem.latency_of_violation?_eq_none
      (List.findSome?_eq_none_iff.1 htypes ty (hretimed.operatorTypes ▸ hty))
    rw [hlatency, Option.some.injEq] at ht'
    exact ht' ▸ hnonneg
  have hlatops : ∀ op ∈ q.operations, ∃ t, q.latencyOf? op = some t ∧ 0 ≤ t := by
    intro op hop
    rw [hretimed.latencyOf?_eq]
    exact Problem.latencyOf?_of_check hcheck op (hretimed.operations ▸ hop)
  obtain ⟨ii, -, htimed⟩ := hq.timed hlatops (Problem.verify_of_solve hsolve)
  refine ⟨hretimed.operations.trans hgraph.1, hlat, htimed.start, fun k hk => ?_,
    hretimed.keys_nodup (by simp [hunset]), hstages⟩
  rcases hkeys k hk with hold | hop
  · simp [hunset] at hold
  · exact hq.native k (hretimed.operations ▸ hop)

/-- When the problem stores a start time for each operation of the loop and for nothing else, its
largest start time is the largest start of an entry. -/
theorem maxStartTime?_entries
    (hstart : ∀ op, l.isForeign op = false → q.startTime? op = some (q.start op))
    (hkeys : ∀ k ∈ q.startTimes.map Prod.fst, l.isForeign k = false)
    (hnodup : (q.startTimes.map Prod.fst).Nodup) :
    q.maxStartTime? = some (((l.entries q).map (·.1)).foldl max 0) := by
  have hmem : ∀ x, x ∈ q.startTimes.map (·.2) ↔ x ∈ (l.entries q).map (·.1) := by
    intro x
    rw [List.mem_map, List.mem_map]
    constructor
    · rintro ⟨e, he, rfl⟩
      have hnative := hkeys e.1 (List.mem_map_of_mem he)
      obtain ⟨entry, hentry, hop⟩ := exists_entry (q := q) hnative
      refine ⟨entry, hentry, ?_⟩
      have hlookup : q.startTime? e.1 = some e.2 := lookup_of_mem hnodup he
      rw [(native_of_mem_entries hentry).2, hop]
      simpa [hlookup] using (hstart e.1 hnative).symm
    · rintro ⟨e, he, rfl⟩
      obtain ⟨hnative, hstart'⟩ := native_of_mem_entries he
      rw [hstart']
      exact ⟨_, mem_of_lookup_eq_some (hstart _ hnative), rfl⟩
  have hne : (l.entries q).map (·.1) ≠ [] := by simp [entries]
  rw [Problem.maxStartTime?, max?_eq_of_mem_iff hmem, List.max?_eq_some_max hne,
    List.foldl_max_eq_max hne, Nat.zero_max]

end Loop

/-! ### Verified pipelines name each operation once -/

namespace Pipeline

variable {p : Pipeline}

/-- Operations the check accepts have identities new to those seen before; afterwards the seen
identities are theirs, latest first, and then the earlier ones. -/
theorem checkOperations_seen {stage : Nat} :
    ∀ {ops : List StageOp} {seen defined : List OpRef} {increments : Nat}
      {r : List OpRef × List OpRef × Nat},
      p.checkOperations stage seen defined increments ops = .ok r → seen.Nodup →
        r.1 = (ids ops).reverse ++ seen ∧ r.1.Nodup
  | [], _, _, _, _, h, hseen => by
    cases h
    exact ⟨rfl, hseen⟩
  | o :: rest, seen, defined, increments, r, h, hseen => by
    unfold checkOperations at h
    obtain ⟨_, -, h⟩ := bind_eq_ok h
    dsimp only at h
    split at h
    · obtain ⟨_, hthrow, -⟩ := bind_eq_ok h
      cases hthrow
    · rename_i hfresh
      obtain ⟨hr, hnodup⟩ := checkOperations_seen h
        (List.nodup_cons.2 ⟨by simpa using hfresh, hseen⟩)
      exact ⟨by simp [hr, ids], hnodup⟩

/-- Stages the check accepts name no operation twice, nor one seen before them. -/
theorem checkStages_nodup :
    ∀ {stages : List Stage} {position : Nat} {seen : List OpRef} {increments n : Nat},
      p.checkStages position seen increments stages = .ok n → seen.Nodup →
        (stages.flatMap (ids ·.operations) ++ seen).Nodup
  | [], _, _, _, _, _, hseen => hseen
  | s :: rest, position, seen, increments, n, h, hseen => by
    unfold checkStages at h
    dsimp only at h
    split at h
    · obtain ⟨_, hthrow, -⟩ := bind_eq_ok h
      cases hthrow
    · obtain ⟨r, hops, h⟩ := bind_eq_ok (by simpa using h)
      obtain ⟨hr, hnodup⟩ := checkOperations_seen hops hseen
      obtain ⟨_, -, h⟩ := bind_eq_ok h
      have hrest := checkStages_nodup h (hr ▸ hnodup)
      have hperm : (ids s.operations ++ rest.flatMap (ids ·.operations) ++ seen).Perm
          (rest.flatMap (ids ·.operations) ++ ((ids s.operations).reverse ++ seen)) := by
        refine (List.perm_append_comm.append_right seen).trans ?_
        rw [List.append_assoc]
        exact ((List.reverse_perm _).symm.append_right _).append_left _
      rw [List.flatMap_cons, hperm.nodup_iff]
      exact hr ▸ hrest

/-- A pipeline that verifies names each operation once. -/
theorem verify_nodup (h : p.verify = .ok ()) : (ids p.operations).Nodup := by
  unfold verify at h
  dsimp only at h
  iterate 5
    split at h
    · obtain ⟨_, hthrow, -⟩ := bind_eq_ok h
      cases hthrow
  obtain ⟨_, hstages, -⟩ := bind_eq_ok h
  have hnodup := checkStages_nodup hstages List.nodup_nil
  rwa [List.append_nil, ← List.map_flatMap] at hnodup

/-- The operations of a stage are among the pipeline's. -/
theorem stage_sublist {k : Nat} (hk : k < p.stages.length) :
    p.stages[k].operations.Sublist p.operations := by
  rw [operations, List.flatMap_def]
  exact List.sublist_flatten_of_mem (List.mem_map_of_mem (List.getElem_mem hk))

/-- An operation of a pipeline is in one of its stages. -/
theorem exists_stage_of_mem {x : StageOp} (hx : x ∈ p.operations) :
    ∃ k, ∃ hk : k < p.stages.length, x ∈ p.stages[k].operations := by
  obtain ⟨s, hs, hxs⟩ := List.mem_flatMap.1 hx
  obtain ⟨k, hk, rfl⟩ := List.getElem_of_mem hs
  exact ⟨k, hk, hxs⟩

end Pipeline

/-! ### The stages of a lowered loop -/

namespace Loop

variable {l : Loop} {q : Problem OpRef} {bounds : LoopBounds} {pipe : Pipeline}

/-- The entries stand at positions `0 … n`, the increment's last. -/
theorem entries_positions :
    (l.entries q).map (·.2.1) = List.range (l.operations.length + 1) := by
  rw [List.range_succ, List.range_eq_range', ← List.zipIdx_map_snd 0 l.operations]
  simp only [entries, List.map_append, List.map_map, List.map_cons, List.map_nil]
  rfl

/-- Sorting by start and then by position keeps the entries of one start in body order. -/
theorem filter_mergeSort_entries (k : Nat) :
    ((l.entries q).mergeSort entryLe).filter (·.1 == k) = (l.entries q).filter (·.1 == k) := by
  have hpos : (l.entries q).Pairwise fun e e' => e.2.1 < e'.2.1 := by
    rw [← List.pairwise_map, entries_positions]
    exact List.pairwise_lt_range
  -- the entries of start `k`, in body order, are sorted already, so sorting keeps their order
  have hsorted : ((l.entries q).filter (·.1 == k)).Pairwise fun e e' => entryLe e e' := by
    refine (hpos.filter _).imp_of_mem fun he he' hlt => ?_
    rw [List.mem_filter, beq_iff_eq] at he he'
    simp [entryLe, he.2, he'.2, Nat.le_of_lt hlt]
  have hsub := (List.sublist_mergeSort entryLe_trans entryLe_total hsorted
    List.filter_sublist).filter (·.1 == k)
  simp only [List.filter_filter, Bool.and_self] at hsub
  exact (hsub.eq_of_length ((List.mergeSort_perm _ _).filter _).length_eq.symm).symm

/-- What a lowering that returns did: it sorted the loop's entries under the stored start times by
start and position, placed them in that order into stages `0 … last`, `last` the largest start,
and built the terminator; the pipeline keeps the stages so built. -/
theorem construct_placed (h : l.construct bounds q = .ok pipe) :
    ∃ a, ((((l.entries q).mergeSort entryLe).forM fun x => Assembly.placeAt (x.1, x.2.2)) >>=
        fun _ => Assembly.terminator) ⟨l, bounds, q, pipe.captureStages⟩
        (Assembly.initial (((l.entries q).map (·.1)).foldl max 0)) = .ok (pipe.terminator, a) ∧
      pipe.stages = a.stages.toList := by
  unfold construct at h
  split at h
  · split at h
    · cases h
    · obtain ⟨body, hbody, h⟩ := bind_eq_ok h
      obtain ⟨inc, hinc, h⟩ := bind_eq_ok h
      obtain ⟨captures, -, h⟩ := bind_eq_ok h
      obtain ⟨⟨term, a⟩, hrun, h⟩ := bind_eq_ok h
      dsimp only at h
      split at h
      · cases h
      · cases h
        obtain ⟨hentries, -⟩ := entries_of_startOf hbody hinc
        rw [hentries] at hrun
        exact ⟨a, hrun, rfl⟩
  · cases h

/-- In a pipeline that lowering returns, there is a stage for every cycle up to the largest
start; stage `k` is numbered `k` and holds, in body order with the increment last, the operations
of the entries that start at `k`, each in its shape. -/
theorem construct_laid (h : l.construct bounds q = .ok pipe) :
    pipe.stageCount = ((l.entries q).map (·.1)).foldl max 0 + 1 ∧
      ∀ k (hk : k < pipe.stages.length), pipe.stages[k].index = k ∧
        Pipeline.ids pipe.stages[k].operations = ((l.entries q).filter (·.1 == k)).map (·.2.2) ∧
        ∀ x ∈ pipe.stages[k].operations, Lowering.Shaped ⟨l, bounds, q, pipe.captureStages⟩ x := by
  obtain ⟨a, hrun, hstages⟩ := construct_placed h
  have hlaid := Assembly.run_laid (fun e he => le_foldl_max_of_mem
    (List.mem_map_of_mem (List.mem_mergeSort.1 he))) _ _ hrun
  refine ⟨by rw [Pipeline.stageCount, hstages, Array.length_toList, hlaid.size], fun k hk => ?_⟩
  rw [Assembly.eq_stageAt_of_getElem? hstages (List.getElem?_eq_getElem hk),
    ← filter_mergeSort_entries]
  exact ⟨hlaid.index k, hlaid.operations k, hlaid.shaped k⟩

/-- In a returned pipeline, an operation is in stage `k` exactly when it has an entry starting
at `k`. -/
theorem mem_construct_stage (h : l.construct bounds q = .ok pipe) {k : Nat}
    (hk : k < pipe.stages.length) {op : OpRef} :
    op ∈ Pipeline.ids pipe.stages[k].operations ↔ ∃ e ∈ l.entries q, e.1 = k ∧ e.2.2 = op := by
  rw [((construct_laid h).2 k hk).2.1]
  simp [List.mem_filter]

/-- Every entry starts at a stage of a returned pipeline. -/
theorem entry_lt_stageCount (h : l.construct bounds q = .ok pipe) {e : Nat × Nat × OpRef}
    (he : e ∈ l.entries q) : e.1 < pipe.stages.length := by
  have hle := le_foldl_max_of_mem (List.mem_map_of_mem (f := (·.1)) he)
  have hcount := (construct_laid h).1
  rw [Pipeline.stageCount] at hcount
  omega

/-- The entries of one start name an operation as often as all entries do, when the start is
the operation's. -/
theorem count_filter_entries (op : OpRef) :
    (((l.entries q).filter (·.1 == q.start op)).map (·.2.2)).count op =
      ((l.entries q).map (·.2.2)).count op := by
  simp only [List.count, List.countP_map, List.countP_filter]
  refine List.countP_congr fun e he => ?_
  have hstart := (native_of_mem_entries he).2
  simp only [Function.comp_apply, Bool.and_eq_true, beq_iff_eq]
  constructor
  · exact fun h => h.1
  · intro h
    exact ⟨h, by rw [hstart, h]⟩

/-- A returned pipeline names each operation once, so the entries name distinct operations. -/
theorem construct_entries_nodup (h : l.construct bounds q = .ok pipe) :
    ((l.entries q).map (·.2.2)).Nodup := by
  have hpipe := Pipeline.verify_nodup (construct_verify h).1
  rw [List.nodup_iff_count_le_one]
  intro op
  rcases Nat.eq_zero_or_pos (((l.entries q).map (·.2.2)).count op) with hzero | hpos
  · omega
  obtain ⟨e, he, rfl⟩ := List.mem_map.1 (List.count_pos_iff.1 hpos)
  have hk := entry_lt_stageCount h he
  rw [← count_filter_entries, ← (native_of_mem_entries he).2, ← ((construct_laid h).2 _ hk).2.1]
  exact List.nodup_iff_count_le_one.1 (hpipe.sublist ((Pipeline.stage_sublist hk).map _)) _

/-- In a returned pipeline, an operation of the loop is first found in the stage of its start. -/
theorem construct_stageOf? (h : l.construct bounds q = .ok pipe) {op : OpRef}
    (hop : l.isForeign op = false) : pipe.stageOf? op = some (q.start op) := by
  obtain ⟨e, he, rfl⟩ := exists_entry (q := q) hop
  have hk := entry_lt_stageCount h he
  have hstart := (native_of_mem_entries he).2
  have hfind : pipe.stages.find? (fun s => s.operations.any (·.id == e.2.2)) =
      some pipe.stages[e.1] := by
    rw [List.find?_eq_some_iff_getElem]
    refine ⟨?_, e.1, hk, rfl, fun j hj => ?_⟩
    · obtain ⟨x, hx, hid⟩ := List.mem_map.1 ((mem_construct_stage h hk).2 ⟨e, he, rfl, rfl⟩)
      exact List.any_eq_true.2 ⟨x, hx, beq_iff_eq.2 hid⟩
    · rw [Bool.not_eq_true', List.any_eq_false]
      intro x hx hid
      obtain ⟨e', he', hj', hop'⟩ := (mem_construct_stage h (by omega)).1
        (List.mem_map.2 ⟨x, hx, beq_iff_eq.1 hid⟩)
      have hstart' := (native_of_mem_entries he').2
      rw [hop', ← hstart] at hstart'
      omega
  rw [Pipeline.stageOf?, hfind, Option.map_some, ((construct_laid h).2 _ hk).1, hstart]

/-- Each operation a returned pipeline places in stage `t` has one operand per value it reads in
the loop, each resolving to the value's source, when no latency is negative. -/
theorem construct_reads (hlat : ∀ op t, q.latencyOf? op = some t → 0 ≤ t)
    (h : l.construct bounds q = .ok pipe) {t : Nat} (ht : t < pipe.stages.length) :
    ∀ x ∈ pipe.stages[t].operations, ∃ vs, l.reads? bounds.step x.id = some vs ∧
      List.Forall₂ (fun v y => pipe.resolve t y = l.source q pipe.captureStages t v)
        vs x.operands := by
  obtain ⟨last, sorted, a, hsorted, hstart, hcaptures, hrun, hstages⟩ := construct_run h
  let c : Lowering := ⟨l, bounds, q, pipe.captureStages⟩
  have hplaced : Assembly.Ensures (sorted.forM fun x => Assembly.placeAt (x.1, x.2.2)) c
      (Assembly.initial last) fun _ a' => Assembly.Routed c last a' :=
    Assembly.Ensures.forM _ (fun x hx a' hr => Assembly.placeAt_routed hr hlat (hsorted x hx) _)
      _ (Assembly.routed_initial c last)
  obtain ⟨hr, -⟩ := Assembly.Ensures.bind hplaced
    (fun _ a' hr => Assembly.terminator_routed hr
      (fun op s hop hs => hstart op s hop (Lowering.startOf_eq_ok.1 hs))
      (getD_le_of_forall_le hcaptures)) _ _ hrun
  intro x hx
  rw [Assembly.eq_stageAt_of_getElem? hstages (List.getElem?_eq_getElem ht)] at hx
  obtain ⟨vs, hvs, hall⟩ := hr.operations t x hx
  exact ⟨vs, hvs, hall.imp fun v y hy => Assembly.resolve_of_conveys hr hstages hy⟩

variable {lib : Library} {cfg : SchedulerConfig} {p p₁ p₂ : Problem OpRef} {s : Summary}

/-- Lowering places each operation of a solved loop once, in the stage of its start time.

Take a loop whose problem is linked with every operation supported, checked and solved with a
summary, and a pipeline lowered from it. The problem lists the body operations in program order
and then the increment. The pipeline has one stage per cycle up to the largest stored start
time, as many as the summary counts. Stage `k` is numbered `k` and holds the operations that
start at `k`, in program order with the increment last; so each operation is placed exactly once,
and it is first found in the stage of its start time. A body operation keeps its kind and result
type and has an operand per operand in the loop; the increment adds the step, as an index
constant, to an operand that resolves to the induction variable. -/
theorem construct_places_by_start (hp : l.problem = .ok p)
    (hlink : p.linkLoop lib l = (p₁, none)) (hcheck : p₁.check = .ok p₂)
    (hsolve : p₂.solve cfg = .ok (q, .ok s)) (hpipe : l.construct bounds q = .ok pipe) :
    q.operations = l.operations.map (OpRef.body ·.id) ++ [.increment] ∧
      (∃ m, q.maxStartTime? = some m ∧ pipe.stageCount = m + 1 ∧ s.stageCount = m + 1) ∧
      (∀ k (hk : k < pipe.stages.length), pipe.stages[k].index = k ∧
        Pipeline.ids pipe.stages[k].operations = q.operations.filter (q.startTime? · == some k)) ∧
      (∀ op ∈ q.operations, (Pipeline.ids pipe.operations).count op = 1 ∧
        pipe.stageOf? op = q.startTime? op) ∧
      (∀ x ∈ pipe.operations, ∀ o ∈ l.operations, x.id = .body o.id →
        x.kind = o.kind ∧ x.result = o.result ∧ x.operands.length = o.operands.length) ∧
      ∀ k (hk : k < pipe.stages.length), ∀ x ∈ pipe.stages[k].operations, x.id = .increment →
        x.kind = .addi ∧ x.result = some .index ∧ ∃ counter,
          x.operands = [counter, .constant bounds.step .index] ∧
          pipe.resolve k counter = (.iterArg 0, pipe.captureStages.getD 0 0) := by
  obtain ⟨hops, hlat, hstart, hkeys, hnodup, hstages⟩ := solved_schedule hp hlink hcheck hsolve
  obtain ⟨hcount, hlaid⟩ := construct_laid hpipe
  have hentries := construct_entries_nodup hpipe
  have hids : (l.operations.map (·.id)).Nodup := by
    rw [map_entries] at hentries
    exact (List.nodup_append.1 hentries).1.of_map _
  have hprogram := hops.trans (problem_operations_of_nodup hids hp)
  have hq : q.operations = (l.entries q).map (·.2.2) := by
    rw [hprogram, map_entries, List.map_map]
    rfl
  have hnative : ∀ op ∈ q.operations, l.isForeign op = false := fun op hop => by
    obtain ⟨e, he, rfl⟩ := List.mem_map.1 (hq ▸ hop)
    exact (native_of_mem_entries he).1
  have hmax := maxStartTime?_entries hstart hkeys hnodup
  refine ⟨hprogram, ⟨_, hmax, hcount, ?_⟩, fun k hk => ⟨(hlaid k hk).1, ?_⟩,
    fun op hop => ⟨?_, ?_⟩, fun x hx o ho hid => ?_, fun k hk x hx hid => ?_⟩
  · simp only [Problem.stageCount, hmax] at hstages
    split at hstages
    · exact (Except.ok.inj hstages).symm
    · cases hstages
  · rw [(hlaid k hk).2.1, hq, List.filter_map]
    congr 1
    refine List.filter_congr fun e he => ?_
    obtain ⟨hforeign, he1⟩ := native_of_mem_entries he
    simp [hstart _ hforeign, he1]
  · obtain ⟨e, he, rfl⟩ := List.mem_map.1 (hq ▸ hop)
    have hk := entry_lt_stageCount hpipe he
    have hmem := ((Pipeline.stage_sublist hk).map (·.id)).subset
      ((mem_construct_stage hpipe hk).2 ⟨e, he, rfl, rfl⟩)
    exact List.count_eq_one_of_mem (Pipeline.verify_nodup (construct_verify hpipe).1) hmem
  · rw [construct_stageOf? hpipe (hnative op hop), hstart op (hnative op hop)]
  · obtain ⟨k, hk, hxk⟩ := Pipeline.exists_stage_of_mem hx
    have hshaped := (hlaid k hk).2.2 x hxk
    obtain ⟨vs, hvs, hall⟩ := construct_reads hlat hpipe hk x hxk
    have hfind := findOp?_of_nodup hids ho
    simp only [Lowering.Shaped, hid, hfind, Option.some.injEq, exists_eq_left'] at hshaped
    simp only [hid, reads?, hfind, Option.map_some, Option.some.injEq] at hvs
    exact ⟨hshaped.1, hshaped.2, (hvs ▸ hall).length_eq.symm⟩
  · have hshaped := (hlaid k hk).2.2 x hx
    obtain ⟨vs, hvs, hall⟩ := construct_reads hlat hpipe hk x hx
    simp only [Lowering.Shaped, hid] at hshaped
    obtain ⟨hkind, hresult, counter, hoperands⟩ := hshaped
    simp only [hid, reads?, Option.some.injEq] at hvs
    rw [← hvs, hoperands] at hall
    exact ⟨hkind, hresult, counter, hoperands, (List.forall₂_cons.1 hall).1⟩

end Loop

/-- `scaleCopy` as the standard library types it and the standard scheduler solves it: interval
1, the load and the increment at cycle 0, the three-cycle multiply at cycle 1 and the store at
cycle 4. -/
def scaleCopySolved : Problem OpRef :=
  ⟨[.body 0, .body 1, .body 2, .increment],
    [⟨"seq", some 1⟩, ⟨"multicycle", some 3⟩, ⟨"comb", some 0⟩],
    [(.body 0, 0), (.body 1, 1), (.body 2, 0), (.increment, 2)], scaleCopy.dataDependences,
    [(.body 0, 0), (.body 1, 1), (.body 2, 4), (.increment, 0)], some 1, true⟩

/-- The checked problem of `scaleCopy`, before it is solved. -/
def scaleCopyChecked : Problem OpRef :=
  { scaleCopySolved with startTimes := [], initiationInterval := none }

/-- Lowering `scaleCopy` under the schedule the pass finds for it gives the five stages the
summary counts, with the store alone in stage 4 and the load and the increment in stage 0. -/
theorem scaleCopy_places_by_start :
    ∃ pipe, scaleCopy.construct ⟨0, 10, 1, 10⟩ scaleCopySolved = .ok pipe ∧
      pipe.stageCount = 5 ∧ pipe.stageOf? (.body 2) = some 4 ∧
      pipe.stageOf? .increment = some 0 ∧ (Pipeline.ids pipe.operations).count (.body 1) = 1 := by
  have hp : scaleCopy.problem =
      .ok { scaleCopyChecked with operatorTypes := [], links := [], checked := false } := rfl
  have hlink : Problem.linkLoop .standard scaleCopy
      { scaleCopyChecked with operatorTypes := [], links := [], checked := false } =
      ({ scaleCopyChecked with checked := false }, none) := rfl
  have hcheck : Problem.check { scaleCopyChecked with checked := false } = .ok scaleCopyChecked :=
    rfl
  have hsolve : scaleCopyChecked.solve .standard = .ok (scaleCopySolved, .ok ⟨1, 1, 1, 5⟩) := rfl
  have hlat : ∀ op ∈ scaleCopySolved.operations,
      ∃ t, scaleCopySolved.latencyOf? op = some t ∧ 0 ≤ t := by
    intro op hop
    simp only [scaleCopySolved, List.mem_cons, List.not_mem_nil, or_false] at hop
    rcases hop with rfl | rfl | rfl | rfl <;> exact ⟨_, rfl, by decide⟩
  obtain ⟨pipe, hpipe⟩ := Loop.construct_eq_ok (by decide)
    (show scaleCopy.candidateBounds = .ok ⟨0, 10, 1, 10⟩ by decide)
    ⟨by decide, by decide, by decide, fun _ hd => hd⟩ hlat (by decide)
  obtain ⟨-, ⟨m, hm, hcount, -⟩, -, hplaced, -, -⟩ :=
    Loop.construct_places_by_start hp hlink hcheck hsolve hpipe
  obtain rfl : m = 4 := Option.some.inj (hm.symm.trans rfl)
  exact ⟨pipe, hpipe, hcount, (hplaced (.body 2) (by decide)).2,
    (hplaced .increment (by decide)).2, (hplaced (.body 1) (by decide)).1⟩

end ModuloPipelining
