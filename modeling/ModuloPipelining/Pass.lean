import ModuloPipelining.Pipeline.Construct
import ModuloPipelining.Problem.FromLoop
import ModuloPipelining.Problem.Link
import ModuloPipelining.Problem.Snapshot
import ModuloPipelining.Schedule.Solve

/-!
# The pipelining pass

The pass visits the top-level loops of a function, by the identities listed before it starts,
looking each up as the first top-level loop with that identity. For each loop it checks the
loop is a candidate, builds its dependence problem, links the operations to operator types,
checks and solves the problem, and lowers the loop into a pipeline that takes its place.

A loop that is no candidate, holds an operation of no category, or has no schedule is skipped:
it stays as it was, and its reason is reported and warned about. A loop whose solved problem
cannot be lowered is a contract violation and stops the pass.

Problems are kept per loop identity for the run. A skipped loop's problem stays, so a later loop
with the same identity, which is the same first loop, is solved again from it; a pipelined
loop's problem is taken out, and the next loop with its identity is then a different one.

Every solve is observed: a snapshot before it, once the problem is checked, and one after it,
once its schedule is verified.
-/

namespace ModuloPipelining

/-- Why a loop was not pipelined. -/
inductive PassError where
  | ineligible (e : EligibilityError)
  | classification (e : ClassificationError)
  | infeasible (loop : Nat) (e : ScheduleError OpRef)
  | contractViolation (loop : Nat) (e : ConstructionError)
  deriving DecidableEq, Repr

namespace PassError

/-- The text of a pass error. -/
def message : PassError → String
  | .ineligible e => e.message
  | .classification e => e.message
  | .infeasible l e => s!"scheduling {loopLabel l} is infeasible: {e.message}"
  | .contractViolation l e => s!"contract violation while lowering {loopLabel l}: {e.message}"

/-- The loop the error is about. -/
def loop : PassError → Nat
  | .ineligible e => e.loop
  | .classification e => e.loop
  | .infeasible l _ | .contractViolation l _ => l

/-- Whether the error stops the pass instead of skipping the loop. -/
def isFatal : PassError → Bool
  | .contractViolation _ _ => true
  | _ => false

end PassError

/-- Latencies and search bounds shared by all loops of a run. -/
structure PassConfig where
  library : Library
  scheduler : SchedulerConfig
  deriving DecidableEq, Repr

/-- The library and bounds used when none are given. -/
def PassConfig.standard : PassConfig := ⟨Library.standard, SchedulerConfig.standard⟩

/-- When a snapshot is taken. -/
inductive SolvePoint where
  | beforeSolve
  | afterSolve
  deriving DecidableEq, Repr

/-- Counters of a run. -/
structure PassStats where
  loopsSeen : Nat
  pipelined : Nat
  skipped : Nat
  deriving DecidableEq, Repr

/-- What happened to a loop. -/
inductive LoopOutcome where
  | pipelined (initiationInterval stageCount : Nat)
  | skipped (reason : String)
  deriving DecidableEq, Repr

/-- The outcome of one visited loop. -/
structure LoopReport where
  loop : Nat
  outcome : LoopOutcome
  deriving DecidableEq, Repr

/-- A warning of the pass. -/
structure Warning where
  passName : String
  message : String
  deriving DecidableEq, Repr

/-- The name under which the pass reports. -/
def passName : String := "loop-pipelining"

/-- The solved schedule of one loop, which is left as it was. -/
structure LoopSchedule where
  loop : Nat
  summary : Summary
  startTimes : List (OpRef × Nat)
  deriving DecidableEq, Repr

/-- Problems kept for a run, by loop identity. -/
abbrev ProblemCache := List (Nat × Problem OpRef)

/-- What solving one loop leaves: the cache, the snapshots taken, and bounds and summary. -/
structure SolveStep where
  cache : ProblemCache
  snapshots : List (SolvePoint × Snapshot)
  result : Except PassError (LoopBounds × Summary)

/-- Check, link, and solve a loop, keeping its problem in the cache. -/
def solveLoop (cfg : PassConfig) (cache : ProblemCache) (l : Loop) : Except Fault SolveStep := do
  match l.candidateBounds with
  | .error e => pure ⟨cache, [], .error (.ineligible e)⟩
  | .ok bounds =>
    let built ← match cache.lookup l.id with
      | some p => pure p
      | none => l.problem
    let (p, unsupported) := built.linkLoop cfg.library l
    match unsupported with
    | some e => pure ⟨setEntry l.id p cache, [], .error (.classification e)⟩
    | none =>
      match p.check with
      | .error e => pure ⟨setEntry l.id p cache, [], .error (.infeasible l.id (.problem e))⟩
      | .ok p =>
        let before := (SolvePoint.beforeSolve, p.snapshot)
        let (q, outcome) ← p.solve cfg.scheduler
        match outcome with
        | .error e => pure ⟨setEntry l.id q cache, [before], .error (.infeasible l.id e)⟩
        | .ok summary =>
          pure ⟨setEntry l.id q cache, [before, (.afterSolve, q.snapshot)], .ok (bounds, summary)⟩

/-- Solve a loop on its own and list its start times, in program order. -/
def scheduleLoop (cfg : PassConfig) (l : Loop) : Except Fault (Except PassError LoopSchedule) := do
  let step ← solveLoop cfg [] l
  match step.result with
  | .error e => pure (.error e)
  | .ok (_, summary) =>
    let p := (step.cache.lookup l.id).getD Problem.empty
    pure (.ok ⟨l.id, summary, p.operations.filterMap fun op => (p.startTime? op).map (op, ·)⟩)

/-- Solve a loop and lower it, taking its problem out of the cache. -/
def pipelineLoop (cfg : PassConfig) (cache : ProblemCache) (l : Loop) :
    Except Fault (ProblemCache × List (SolvePoint × Snapshot) × Except PassError Pipeline) := do
  let step ← solveLoop cfg cache l
  match step.result with
  | .error e => pure (step.cache, step.snapshots, .error e)
  | .ok (bounds, _) =>
    let p := (step.cache.lookup l.id).getD Problem.empty
    let cache := step.cache.filter (·.1 != l.id)
    match l.construct bounds p with
    | .error e => pure (cache, step.snapshots, .error (.contractViolation l.id e))
    | .ok pipeline => pure (cache, step.snapshots, .ok pipeline)

/-- The state of a run between loops. -/
structure PassState where
  func : Func
  cache : ProblemCache
  stats : PassStats
  reports : List LoopReport
  warnings : List Warning
  snapshots : List (SolvePoint × Snapshot)
  changed : Bool

/-- A run that stopped on a contract violation, with what it had done by then. -/
structure PassFailure where
  error : PassError
  stats : PassStats
  reports : List LoopReport
  snapshots : List (SolvePoint × Snapshot)

/-- Record a skipped loop. -/
def PassState.skip (s : PassState) (l : Nat) (e : PassError) : PassState :=
  { s with
    stats := { s.stats with skipped := s.stats.skipped + 1 }
    reports := s.reports ++ [⟨l, .skipped e.message⟩]
    warnings := s.warnings ++ [⟨passName, e.message⟩] }

/-- Stop the run on a fatal error. -/
def PassState.fail (s : PassState) (e : PassError) : PassFailure :=
  ⟨e, s.stats, s.reports, s.snapshots⟩

/-- Visit one loop identity. -/
def visitLoop (cfg : PassConfig) (s : PassState) (id : Nat) :
    Except Fault (Except PassFailure PassState) := do
  match s.func.findLoop? id with
  | none => pure (.ok s)
  | some l =>
    let s := { s with stats := { s.stats with loopsSeen := s.stats.loopsSeen + 1 } }
    let (cache, snapshots, outcome) ← pipelineLoop cfg s.cache l
    let s := { s with cache := cache, snapshots := s.snapshots ++ snapshots }
    match outcome with
    | .ok pipeline =>
      match s.func.install pipeline with
      | .error e => pure (.error (s.fail (.contractViolation id e)))
      | .ok f =>
        pure (.ok { s with
          func := f
          stats := { s.stats with pipelined := s.stats.pipelined + 1 }
          reports := s.reports ++ [⟨id, .pipelined pipeline.initiationInterval pipeline.stageCount⟩]
          changed := true })
    | .error e => pure (if e.isFatal then .error (s.fail e) else .ok (s.skip id e))

/-- Visit loop identities in order, stopping at the first fatal error. -/
def visitLoops (cfg : PassConfig) : PassState → List Nat → Except Fault (Except PassFailure PassState)
  | s, [] => pure (.ok s)
  | s, id :: rest => do
    match ← visitLoop cfg s id with
    | .error failure => pure (.error failure)
    | .ok s => visitLoops cfg s rest

/-- Run the pass over a function. -/
def Func.pipeline (f : Func) (cfg : PassConfig) : Except Fault (Except PassFailure PassState) :=
  visitLoops cfg ⟨f, [], ⟨0, 0, 0⟩, [], [], [], false⟩ f.loopIds

/-- Whether the pass has anything to visit. -/
def Func.canPipeline (f : Func) : Bool := !f.loopIds.isEmpty

/-- The scheduling outcome of one loop of a function. -/
inductive ScheduleReport where
  | scheduled (s : LoopSchedule)
  | skipped (loop : Nat) (reason : String)
  deriving DecidableEq, Repr

/-- Schedule each top-level loop on its own, by the identities in program order, leaving the
function as it is; a fatal error stops the walk. -/
def Func.scheduleLoops (f : Func) (cfg : PassConfig) :
    Except Fault (Except PassError (List ScheduleReport)) :=
  go f.loopIds []
where
  /-- Schedule the loops of the remaining identities after the reports so far. -/
  go : List Nat → List ScheduleReport → Except Fault (Except PassError (List ScheduleReport))
    | [], acc => pure (.ok acc)
    | id :: rest, acc => do
      match f.findLoop? id with
      | none => go rest acc
      | some l =>
        match ← scheduleLoop cfg l with
        | .ok s => go rest (acc ++ [.scheduled s])
        | .error e =>
          if e.isFatal then pure (.error e) else go rest (acc ++ [.skipped id e.message])

end ModuloPipelining
