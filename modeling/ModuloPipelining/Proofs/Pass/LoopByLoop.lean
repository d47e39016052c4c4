import ModuloPipelining.Proofs.Pass.Run

/-!
# The pass, loop by loop

The pass visits loops by identity, finds each as the first top-level loop with it, and keeps
problems per identity for the whole run. When the top-level loops have distinct identities none
of this shows: a run does what lowering each loop on its own does, walking the items in program
order (`pipeline_lowers_each_loop_alone`).

`Loop.lowerAlone` lowers one loop from a problem built for it alone, and `lowerEachAlone` walks the
items with it, accounting for each loop as the pass reports it. The step that joins the two is
`visitLoop_of_first`: visiting the first loop with an identity, when no problem is kept under it,
lowers the loop on its own (`pipelineLoop_of_lookup_eq_none`, `lowerAlone_eq_pipelineLoop`) and
puts what that gives in the loop's place. The problems kept for the loops before never reach it,
as their identities differ.

With a repeated identity the two part ways: a skipped loop is found again under its identity in
place of the later loop that shares it, and that loop is never visited.
-/

namespace ModuloPipelining

/-! ### Lowering one loop on its own -/

/-- What lowering one loop on its own gives: the loop, the snapshots taken around its solve, and
the pipeline that takes its place or the reason it stays. -/
structure LoopRun where
  loop : Loop
  snapshots : List (SolvePoint × Snapshot)
  outcome : Except PassError Pipeline

namespace LoopRun

variable (r : LoopRun)

/-- The item that stands where the loop stood: its pipeline, or the loop itself. -/
def item : Item :=
  match r.outcome with
  | .ok pipe => .pipeline pipe
  | .error _ => .loop r.loop

/-- Whether the loop was replaced by a pipeline. -/
def pipelined : Bool := r.outcome.isOk

/-- The report on the loop. -/
def report : LoopReport :=
  ⟨r.loop.id, match r.outcome with
    | .ok pipe => .pipelined pipe.initiationInterval pipe.stageCount
    | .error e => .skipped e.message⟩

/-- The warning given for a skipped loop. -/
def warnings : List Warning :=
  match r.outcome with
  | .ok _ => []
  | .error e => [⟨passName, e.message⟩]

/-- The contract violation the lowering ended in, if it did. -/
def violation? : Option PassError :=
  match r.outcome with
  | .error e => if e.isFatal then some e else none
  | .ok _ => none

end LoopRun

/-- Lower a loop on its own, from a problem built for it alone: the loop must be a candidate,
every operation must get an operator type, the problem must check and have a schedule, and the
pipeline is built from the solved problem. -/
def Loop.lowerAlone (cfg : PassConfig) (l : Loop) : Except Fault LoopRun := do
  match l.candidateBounds with
  | .error e => pure ⟨l, [], .error (.ineligible e)⟩
  | .ok bounds =>
    let (p, unsupported) := (← l.problem).linkLoop cfg.library l
    match unsupported with
    | some e => pure ⟨l, [], .error (.classification e)⟩
    | none =>
      match p.check with
      | .error e => pure ⟨l, [], .error (.infeasible l.id (.problem e))⟩
      | .ok p =>
        let (q, outcome) ← p.solve cfg.scheduler
        match outcome with
        | .error e => pure ⟨l, [(.beforeSolve, p.snapshot)], .error (.infeasible l.id e)⟩
        | .ok _ =>
          let snapshots := [(.beforeSolve, p.snapshot), (.afterSolve, q.snapshot)]
          match l.construct bounds q with
          | .error e => pure ⟨l, snapshots, .error (.contractViolation l.id e)⟩
          | .ok pipe => pure ⟨l, snapshots, .ok pipe⟩

/-! ### The pass as a walk over the items -/

/-- What a run of the pass shows its caller: the function, the counters, the reports, warnings
and snapshots, and whether anything changed. -/
structure PassResult where
  func : Func
  stats : PassStats
  reports : List LoopReport
  warnings : List Warning
  snapshots : List (SolvePoint × Snapshot)
  changed : Bool

/-- What a state of the pass shows, beside the problems it keeps. -/
def PassState.result (s : PassState) : PassResult :=
  ⟨s.func, s.stats, s.reports, s.warnings, s.snapshots, s.changed⟩

namespace PassResult

/-- Nothing done yet to function `f`: no item placed, every counter zero. -/
def start (f : Func) : PassResult := ⟨{ f with items := [] }, ⟨0, 0, 0⟩, [], [], [], false⟩

/-- Place the next item of the function. -/
def place (v : PassResult) (item : Item) : PassResult :=
  { v with func := { v.func with items := v.func.items ++ [item] } }

/-- Account for a loop lowered on its own that did not stop the pass: the loop is seen, then
pipelined or skipped, reported, and warned about if skipped; what stands in its place is placed. -/
def addRun (v : PassResult) (r : LoopRun) : PassResult :=
  { v.place r.item with
    stats := ⟨v.stats.loopsSeen + 1, v.stats.pipelined + r.pipelined.toNat,
      v.stats.skipped + (!r.pipelined).toNat⟩
    reports := v.reports ++ [r.report]
    warnings := v.warnings ++ r.warnings
    snapshots := v.snapshots ++ r.snapshots
    changed := v.changed || r.pipelined }

/-- The failure of a pass stopped by the contract violation `e` of loop run `r`: the loop was
seen, and its snapshots were taken. -/
def stop (v : PassResult) (r : LoopRun) (e : PassError) : PassFailure :=
  ⟨e, { v.stats with loopsSeen := v.stats.loopsSeen + 1 }, v.reports,
    v.snapshots ++ r.snapshots⟩

end PassResult

/-- Walk the top-level items in program order after `v`, lowering each loop on its own: the
pipeline or the loop takes the loop's place, every other item keeps its own, and the first
contract violation stops the walk. -/
def lowerEachAlone (cfg : PassConfig) :
    PassResult → List Item → Except Fault (Except PassFailure PassResult)
  | v, [] => pure (.ok v)
  | v, .loop l :: rest => do
    let r ← l.lowerAlone cfg
    match r.violation? with
    | some e => pure (.error (v.stop r e))
    | none => lowerEachAlone cfg (v.addRun r) rest
  | v, item :: rest => lowerEachAlone cfg (v.place item) rest

/-! ### The first loop with an identity -/

namespace Func

variable {f : Func} {done rest : List Item} {l : Loop}

/-- A loop that no item before it shares an identity with is the loop found under it. -/
theorem findLoop?_of_first (hitems : f.items = done ++ .loop l :: rest)
    (hfirst : l.id ∉ done.filterMap Item.loopId?) : f.findLoop? l.id = some l := by
  unfold findLoop?
  rw [hitems, List.findSome?_append, List.findSome?_eq_none_iff.2 fun item hitem => ?_,
    Option.none_or]
  · simp
  · cases item with
    | loop l' =>
      have hne : l'.id ≠ l.id := fun heq =>
        hfirst (List.mem_filterMap.2 ⟨.loop l', hitem, by rw [← heq]; rfl⟩)
      simp [hne]
    | op _ => rfl
    | pipeline _ => rfl

/-- The first loop with an identity is the one replaced. -/
theorem replaceItems_of_first {id : Nat} (p : Pipeline) (hid : l.id = id) (rest : List Item) :
    ∀ {done : List Item}, id ∉ done.filterMap Item.loopId? →
      replaceItems id p (done ++ .loop l :: rest) = some (done ++ .pipeline p :: rest)
  | [], _ => by simp [replaceItems, Item.isLoop, hid]
  | item :: done, hfirst => by
    have hnot : Item.isLoop id item = false := by
      cases item with
      | loop l' =>
        have hne : l'.id ≠ id := fun heq => hfirst (by simp [Item.loopId?, heq])
        simpa [Item.isLoop] using hne
      | op _ => rfl
      | pipeline _ => rfl
    have hrest : id ∉ done.filterMap Item.loopId? := fun hmem =>
      hfirst (((List.sublist_cons_self item done).filterMap _).subset hmem)
    simp only [List.cons_append, replaceItems, hnot, Bool.false_eq_true, if_false,
      replaceItems_of_first p hid rest hrest, Option.map_some]

/-- A verified pipeline of the first loop with its identity takes that loop's place. -/
theorem install_of_first {pipe : Pipeline} (hitems : f.items = done ++ .loop l :: rest)
    (hfirst : l.id ∉ done.filterMap Item.loopId?) (hverify : pipe.verify = .ok ())
    (hid : pipe.loopId = l.id) :
    f.install pipe = .ok { f with items := done ++ .pipeline pipe :: rest } := by
  simp [install, hverify, replaceLoop, hitems,
    replaceItems_of_first pipe hid.symm rest (hid ▸ hfirst)]
  rfl

end Func

/-! ### A loop with no problem kept under its identity -/

theorem setEntry_of_lookup_eq_none {β : Type} {cache : List (Nat × β)} {id : Nat} (p : β)
    (h : cache.lookup id = none) : setEntry id p cache = cache ++ [(id, p)] := by
  induction cache with
  | nil => rfl
  | cons entry rest ih =>
    obtain ⟨key, q⟩ := entry
    have hkey : (id == key) = false := by
      cases hk : id == key
      · rfl
      · rw [List.lookup, hk] at h
        cases h
    rw [List.lookup, hkey] at h
    have hne : key ≠ id := fun heq => by simp [heq] at hkey
    simp [setEntry, hne, ih h]

theorem filter_ne_of_lookup_eq_none {cache : ProblemCache} {id : Nat}
    (h : cache.lookup id = none) : cache.filter (·.1 != id) = cache :=
  List.filter_eq_self.2 fun kv hkv => by
    rw [bne_comm]
    exact List.lookup_eq_none_iff.1 h kv hkv

variable {cfg : PassConfig} {cache : ProblemCache} {l : Loop}

/-- With no problem kept under a loop's identity, solving the loop is solving it afresh; the
problem it keeps goes after those kept before. -/
theorem solveLoop_of_lookup_eq_none (h : cache.lookup l.id = none) :
    solveLoop cfg cache l =
      (fun step => { step with cache := cache ++ step.cache }) <$> solveLoop cfg [] l := by
  have hset : ∀ p, setEntry l.id p cache = cache ++ [(l.id, p)] :=
    fun p => setEntry_of_lookup_eq_none p h
  unfold solveLoop
  rw [h]
  simp only [List.lookup]
  split
  · simp [Functor.map, Except.map, pure, Except.pure]
  · cases l.problem with
    | error e => rfl
    | ok built =>
      simp only [bind, Except.bind, pure, Except.pure]
      split
      · simp [Functor.map, Except.map, hset, setEntry]
      · split
        · simp [Functor.map, Except.map, hset, setEntry]
        · next p _ =>
          cases p.solve cfg.scheduler with
          | error e => rfl
          | ok r =>
            obtain ⟨q, outcome⟩ := r
            cases outcome <;> simp [Functor.map, Except.map, hset, setEntry]

/-- With no problem kept under a loop's identity, solving and lowering the loop is doing so
afresh; the problems kept before stay, and the lowering takes out only what it kept itself. -/
theorem pipelineLoop_of_lookup_eq_none (h : cache.lookup l.id = none) :
    pipelineLoop cfg cache l = (fun r => (cache ++ r.1, r.2)) <$> pipelineLoop cfg [] l := by
  unfold pipelineLoop
  rw [solveLoop_of_lookup_eq_none h]
  cases solveLoop cfg [] l with
  | error e => rfl
  | ok step =>
    simp only [Functor.map, Except.map, bind, Except.bind, pure, Except.pure]
    split
    · rfl
    · rw [List.lookup_append, h, Option.none_or, List.filter_append,
        filter_ne_of_lookup_eq_none h]
      split <;> rfl

/-- Lowering a loop on its own is solving and lowering it with no problem kept. -/
theorem lowerAlone_eq_pipelineLoop :
    l.lowerAlone cfg = (fun r => (⟨l, r.2.1, r.2.2⟩ : LoopRun)) <$> pipelineLoop cfg [] l := by
  unfold pipelineLoop solveLoop Loop.lowerAlone
  simp only [List.lookup]
  cases l.candidateBounds with
  | error e => rfl
  | ok bounds =>
    cases l.problem with
    | error e => rfl
    | ok built =>
      simp only [bind, Except.bind, pure, Except.pure]
      generalize Problem.linkLoop cfg.library l built = linked
      obtain ⟨p, unsupported⟩ := linked
      cases unsupported with
      | some e => rfl
      | none =>
        dsimp only
        cases p.check with
        | error e => rfl
        | ok p =>
          dsimp only
          cases p.solve cfg.scheduler with
          | error e => rfl
          | ok r =>
            obtain ⟨q, outcome⟩ := r
            cases outcome with
            | error e => rfl
            | ok summary =>
              simp only [setEntry, List.lookup, BEq.rfl, Option.getD_some]
              cases l.construct bounds q <;> rfl

/-- A loop lowered on its own keeps a problem under its own identity only. -/
theorem lookup_pipelineLoop_nil
    {r : ProblemCache × List (SolvePoint × Snapshot) × Except PassError Pipeline}
    (h : pipelineLoop cfg [] l = .ok r) {id : Nat} (hid : id ≠ l.id) : r.1.lookup id = none := by
  unfold pipelineLoop at h
  obtain ⟨step, hstep, h⟩ := bind_eq_ok h
  have hkept : step.cache.lookup id = none := by
    rcases (solveLoop_spec (fun _ h => by cases h) hstep).2.1 with hc | ⟨X, hc, -⟩
    · rw [hc]
      rfl
    · rw [hc, lookup_setEntry_ne _ _ _ hid]
      rfl
  split at h
  · cases h
    exact hkept
  · dsimp only at h
    split at h <;> cases h <;> rwa [lookup_filter_ne hid]

/-! ### A run of the pass, loop by loop -/

/-- The result with the function's items set. -/
def PassResult.withItems (v : PassResult) (items : List Item) : PassResult :=
  { v with func := { v.func with items := items } }

namespace PassResult

variable (v : PassResult) (items : List Item)

@[simp] theorem withItems_withItems (items' : List Item) :
    (v.withItems items).withItems items' = v.withItems items' := rfl

@[simp] theorem place_withItems (item : Item) :
    (v.withItems items).place item = v.withItems (items ++ [item]) := rfl

@[simp] theorem addRun_withItems (r : LoopRun) :
    (v.withItems items).addRun r = (v.addRun r).withItems (items ++ [r.item]) := rfl

end PassResult

variable {s : PassState} {done rest : List Item}

/-- Visiting the first loop with its identity, when no problem is kept under it, lowers the loop
on its own: a fault of the lowering is the visit's, a contract violation stops the pass, and any
other outcome puts what the lowering gives in the loop's place, keeping no problem under another
identity. -/
theorem visitLoop_of_first (cfg : PassConfig) (hitems : s.func.items = done ++ .loop l :: rest)
    (hfirst : l.id ∉ done.filterMap Item.loopId?) (hcache : s.cache.lookup l.id = none) :
    match l.lowerAlone cfg with
    | .error fault => visitLoop cfg s l.id = .error fault
    | .ok r =>
      match r.violation? with
      | some e => visitLoop cfg s l.id = .ok (.error (s.result.stop r e))
      | none => ∃ s', visitLoop cfg s l.id = .ok (.ok s') ∧
          s'.result = (s.result.addRun r).withItems (done ++ r.item :: rest) ∧
          ∀ id, id ≠ l.id → s'.cache.lookup id = s.cache.lookup id := by
  have hfind := Func.findLoop?_of_first hitems hfirst
  rw [lowerAlone_eq_pipelineLoop]
  unfold visitLoop
  rw [hfind]
  dsimp only
  rw [pipelineLoop_of_lookup_eq_none hcache]
  cases hrun : pipelineLoop cfg [] l with
  | error fault => rfl
  | ok run =>
    obtain ⟨kept, snapshots, outcome⟩ := run
    have hkept : ∀ id, id ≠ l.id → (s.cache ++ kept).lookup id = s.cache.lookup id :=
      fun id hid => by rw [List.lookup_append, lookup_pipelineLoop_nil hrun hid, Option.or_none]
    dsimp only [Functor.map, Except.map, bind, Except.bind, pure, Except.pure]
    cases outcome with
    | error e =>
      cases hfatal : e.isFatal
      · simp only [LoopRun.violation?, hfatal, Bool.false_eq_true, if_false]
        refine ⟨_, rfl, ?_, hkept⟩
        simp only [PassState.result, PassState.skip, PassResult.addRun, PassResult.withItems,
          PassResult.place, LoopRun.item, LoopRun.pipelined, LoopRun.report, LoopRun.warnings,
          Except.isOk, Except.toBool, ← hitems, Bool.toNat_false, Bool.not_false, Bool.toNat_true,
          Nat.add_zero, Bool.or_false]
      · simp only [LoopRun.violation?, hfatal, if_true]
        rfl
    | ok pipe =>
      obtain ⟨hverify, hid⟩ := verify_of_pipelineLoop hrun
      simp only [LoopRun.violation?]
      rw [Func.install_of_first hitems hfirst hverify hid]
      refine ⟨_, rfl, ?_, hkept⟩
      simp only [PassState.result, PassResult.addRun, PassResult.withItems, PassResult.place,
        LoopRun.item, LoopRun.pipelined, LoopRun.report, LoopRun.warnings, Except.isOk,
        Except.toBool, Bool.toNat_true, Bool.not_true, Bool.toNat_false, Nat.add_zero,
        List.append_nil, Bool.or_true]

theorem loop_of_lowerAlone {r : LoopRun} (h : l.lowerAlone cfg = .ok r) : r.loop = l := by
  rw [lowerAlone_eq_pipelineLoop] at h
  cases hrun : pipelineLoop cfg [] l with
  | error _ =>
    rw [hrun] at h
    cases h
  | ok _ =>
    rw [hrun] at h
    cases h
    rfl

/-- Putting what a run of loop `l` gives in its place keeps the identities of the loops distinct. -/
theorem nodup_loopIds_item {r : LoopRun} (hr : r.loop = l)
    (h : ((done ++ .loop l :: rest).filterMap Item.loopId?).Nodup) :
    ((done ++ r.item :: rest).filterMap Item.loopId?).Nodup := by
  unfold LoopRun.item
  split
  · refine List.Nodup.sublist ?_ h
    simp only [List.filterMap_append, List.filterMap_cons, Item.loopId?]
    exact List.Sublist.append_left (List.sublist_cons_self _ _) _
  · rwa [hr]

/-- Over items whose loops have distinct identities with no problem kept under them, the visits of
those identities do what lowering each loop on its own does, item by item. The induction is on the
items left; `done` are those before them, already in their final form. -/
theorem visitLoops_eq_lowerEachAlone :
    ∀ (todo done : List Item) (s : PassState), s.func.items = done ++ todo →
      s.func.loopIds.Nodup →
      (∀ id ∈ todo.filterMap Item.loopId?, s.cache.lookup id = none) →
      (visitLoops cfg s (todo.filterMap Item.loopId?)).map (·.map PassState.result) =
        lowerEachAlone cfg (s.result.withItems done) todo
  | [], done, s, hitems, _, _ => by
    rw [List.append_nil] at hitems
    simp only [List.filterMap_nil, visitLoops, lowerEachAlone, PassResult.withItems, ← hitems]
    rfl
  | .op o :: rest, done, s, hitems, hids, hcache => by
    simpa [lowerEachAlone, List.filterMap_cons, Item.loopId?] using
      visitLoops_eq_lowerEachAlone rest (done ++ [.op o]) s (by simpa using hitems) hids hcache
  | .pipeline p :: rest, done, s, hitems, hids, hcache => by
    simpa [lowerEachAlone, List.filterMap_cons, Item.loopId?] using
      visitLoops_eq_lowerEachAlone rest (done ++ [.pipeline p]) s (by simpa using hitems) hids
        hcache
  | .loop l :: rest, done, s, hitems, hids, hcache => by
    have hids' := hids
    rw [Func.loopIds_eq_filterMap, hitems, List.filterMap_append, List.filterMap_cons,
      Item.loopId?, List.nodup_middle, List.nodup_cons, List.mem_append, not_or] at hids'
    obtain ⟨⟨hdone, hrest⟩, -⟩ := hids'
    have hstep := visitLoop_of_first cfg hitems hdone (hcache l.id (by simp [Item.loopId?]))
    simp only [List.filterMap_cons, Item.loopId?, visitLoops, lowerEachAlone]
    cases hrun : l.lowerAlone cfg with
    | error fault =>
      rw [hrun] at hstep
      simp only [hstep]
      rfl
    | ok r =>
      rw [hrun] at hstep
      dsimp only at hstep
      cases hv : r.violation? with
      | some e =>
        rw [hv] at hstep
        simp only [hstep, bind, Except.bind, hv]
        rfl
      | none =>
        rw [hv] at hstep
        obtain ⟨s', hvisit, hresult, hkept⟩ := hstep
        have hitems' : s'.func.items = done ++ r.item :: rest := congrArg (·.func.items) hresult
        have ih := visitLoops_eq_lowerEachAlone rest (done ++ [r.item]) s' (by simp [hitems'])
          (by
            rw [Func.loopIds_eq_filterMap, hitems']
            rw [Func.loopIds_eq_filterMap, hitems] at hids
            exact nodup_loopIds_item (loop_of_lowerAlone hrun) hids)
          (fun id hid => by
            rw [hkept id (fun heq => hrest (heq ▸ hid))]
            exact hcache id (by simp only [List.filterMap_cons, Item.loopId?]; exact .tail _ hid))
        rw [hresult, PassResult.withItems_withItems] at ih
        simp only [hvisit, bind, Except.bind, hv, PassResult.addRun_withItems]
        exact ih

/-- A run of the pass over a function whose top-level loops have distinct identities does exactly
what lowering each loop on its own does, walking the items in program order: each loop is
replaced in place by the pipeline of its own fresh lowering, or stays as it was when that lowering
fails short of a contract violation, every other item keeps its place, and no problem passes from
one loop to another. Whatever the identities, a run stops only on a contract violation, and a run
that finishes has seen one loop for each top-level loop, reported each as pipelined or skipped,
warned once for each skipped loop, and changed the function exactly when it pipelined a loop. -/
theorem pipeline_lowers_each_loop_alone (f : Func) (cfg : PassConfig) :
    (f.loopIds.Nodup →
      (f.pipeline cfg).map (·.map PassState.result) = lowerEachAlone cfg (.start f) f.items) ∧
    (∀ failure, f.pipeline cfg = .ok (.error failure) →
      ∃ l e, failure.error = .contractViolation l e) ∧
    ∀ s, f.pipeline cfg = .ok (.ok s) → s.Tallied ∧ s.stats.loopsSeen = f.loopIds.length := by
  have hrun := visitLoops_tallied cfg f.loopIds ⟨f, [], ⟨0, 0, 0⟩, [], [], [], false⟩
    ⟨rfl, rfl, rfl, by simp⟩ (fun _ => le_refl _)
  refine ⟨fun hids => visitLoops_eq_lowerEachAlone f.items [] _ rfl hids fun _ _ => rfl,
    fun failure h => (hrun _ h).1 failure rfl, fun s h => ?_⟩
  obtain ⟨htallied, hseen⟩ := (hrun _ h).2 s rfl
  exact ⟨htallied, by simpa using hseen⟩

/-- A kernel of two loops around a constant: the first divides floats, which no operator type
covers, so it stays; the second copies one buffer into another and is pipelined. -/
def divideThenCopy : Func :=
  ⟨"kernel", [], [
    .loop ⟨0, .constant 0, .constant 16, .constant 1, .slt, [], [],
      [.op ⟨0, .load "x", [.inductionVar], some .f32⟩,
        .op ⟨1, .divf, [.result 0, .result 0], some .f32⟩], []⟩,
    .op ⟨2, .constant 7, [], some .i32⟩,
    .loop ⟨1, .constant 0, .constant 16, .constant 1, .slt, [], [],
      [.op ⟨0, .load "src", [.inductionVar], some .i32⟩,
        .op ⟨1, .store "dst", [.result 0, .inductionVar], none⟩], []⟩]⟩

theorem divideThenCopy_lowered_alone :
    divideThenCopy.loopIds.Nodup ∧
    (divideThenCopy.pipeline .standard).map (·.map PassState.result) =
      lowerEachAlone .standard (.start divideThenCopy) divideThenCopy.items :=
  ⟨by decide, (pipeline_lowers_each_loop_alone divideThenCopy .standard).1 (by decide)⟩

end ModuloPipelining
