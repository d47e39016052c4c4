import ModuloPipelining.Pass

/-!
# Plain-text reports

Three listings, each a list of lines joined by newlines with no newline at the end:

* `scheduleListing`: a `function NAME` header, then per loop either its schedule (a summary line
  and one `start` line per operation, the operation padded to eight characters) or the reason it
  was skipped; `  no loops` when there is no loop.
* `pipelineListing`: one pipeline with its initial arguments, condition, stages and terminator.
* `passListing`: the counters of a run, one line per visited loop, and then every pipeline of
  the function, each after an empty line.
-/

namespace ModuloPipelining

/-- A text padded with blanks on the right to at least `width` characters. -/
def padRight (width : Nat) (s : String) : String := s.pushn ' ' (width - s.length)

/-- Texts separated by a comma and a blank. -/
def commaList (items : List String) : String := ", ".intercalate items

/-- The lines of one solved loop. -/
def LoopSchedule.lines (s : LoopSchedule) : List String :=
  let summary := s.summary
  s!"{loopLabel s.loop}: II={summary.initiationInterval} (recurrence bound {summary.recurrenceMii}, {summary.candidatesTried} tried), {summary.stageCount} stages" ::
    s.startTimes.map fun (op, t) => "  " ++ padRight 8 op.label ++ " start " ++ toString t

/-- The lines of one schedule report. -/
def ScheduleReport.lines : ScheduleReport → List String
  | .scheduled s => s.lines
  | .skipped l reason => [s!"{loopLabel l}: skipped: " ++ reason]

/-- The listing of the schedules of a function's loops. -/
def scheduleListing (name : String) (reports : List ScheduleReport) : String :=
  let header := "function " ++ name
  let body := if reports.isEmpty then ["  no loops"] else reports.flatMap ScheduleReport.lines
  "\n".intercalate (header :: body)

/-- The line of a placed operation. -/
def StageOp.line (op : StageOp) : String :=
  let operands := commaList (op.operands.map StageOperand.render)
  match op.result with
  | some ty => s!"    {op.id.label} = {op.kind.mnemonic} {operands} -> {ty.name}"
  | none => s!"    {op.kind.mnemonic} {operands}"

/-- The lines of a stage: its header, its operations, and its registers if it has any. -/
def Stage.lines (s : Stage) : List String :=
  let registers :=
    if s.registers.isEmpty then []
    else
      let entries := s.registers.zipIdx.map fun (o, slot) =>
        (StageOperand.register s.index slot).render ++ " = " ++ o.render
      ["    registers(" ++ commaList entries ++ ")"]
  (s!"  stage {s.index}:" :: s.operations.map StageOp.line) ++ registers

/-- The listing of a pipeline. -/
def pipelineListing (p : Pipeline) : String :=
  let inits := p.iterArgs.zipIdx.map fun (v, i) => s!"iter{i} = " ++ v.render
  let head :=
    [s!"pipeline {loopLabel p.loopId} II={p.initiationInterval} trip_count={p.tripCount}",
      "  iter_args(" ++ commaList inits ++ ")",
      s!"  while iter0 {p.condition.predicate.name} {p.condition.bound}"]
  let next := commaList (p.terminator.iterArgs.map StageOperand.render)
  let results := commaList (p.terminator.results.map StageOperand.render)
  "\n".intercalate (head ++ p.stages.flatMap Stage.lines ++ [s!"  next({next}) results({results})"])

/-- The line of a loop report. -/
def LoopReport.line (r : LoopReport) : String :=
  match r.outcome with
  | .pipelined ii stages => s!"{loopLabel r.loop}: pipelined, II={ii}, {stages} stages"
  | .skipped reason => s!"{loopLabel r.loop}: skipped: " ++ reason

/-- The listing of a run: counters, loop outcomes, and the function's pipelines. -/
def passListing (f : Func) (reports : List LoopReport) (stats : PassStats) : String :=
  let header :=
    s!"function {f.name}: {stats.loopsSeen} loops, {stats.pipelined} pipelined, {stats.skipped} skipped"
  let pipelines := f.pipelines.flatMap fun p => ["", pipelineListing p]
  "\n".intercalate (header :: reports.map LoopReport.line ++ pipelines)

theorem padRight_length (width : Nat) (s : String) :
    (padRight width s).length = max width s.length := by
  simp [padRight]
  omega

example : scheduleListing "empty" [] = "function empty\n  no loops" := by decide

end ModuloPipelining
