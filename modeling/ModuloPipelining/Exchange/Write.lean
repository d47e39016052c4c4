import ModuloPipelining.Pass
import ModuloPipelining.Json.Basic

/-!
# Writing programs, pipelines and reports as JSON

Records are written as objects with their members in field order, every field present and
`null` for an absent optional value. Tagged choices are written as `Json.variant?` reads them:
a case without payload as a bare string, any other case as an object of one member.

Loop reports and schedule reports carry their tag in the record itself: the case name under
`outcome` or `status`, next to the case's fields.
-/

namespace ModuloPipelining

namespace Json

/-- An optional value, `null` when absent. -/
def ofOption {α : Type} (f : α → Json) : Option α → Json
  | some a => f a
  | none => .null

/-- A natural number. -/
def ofNat (n : Nat) : Json := .int n

/-- A list, element by element. -/
def ofList {α : Type} (f : α → Json) (xs : List α) : Json := .arr (xs.map f)

/-- A case with a payload. -/
def tagged (name : String) (payload : Json) : Json := .obj [(name, payload)]

end Json

/-- A scalar type. -/
def ScalarType.toJson (ty : ScalarType) : Json := .str ty.name

/-- A predicate. -/
def Predicate.toJson (p : Predicate) : Json := .str p.name

/-- A constant record `{"value": v, "ty": t}`. -/
def Json.typedConstant (v : Int) (ty : ScalarType) : Json :=
  .obj [("value", .int v), ("ty", ty.toJson)]

/-- A value. -/
def Value.toJson : Value → Json
  | .constant v ty => Json.tagged "constant" (Json.typedConstant v ty)
  | .argument i => Json.tagged "argument" (Json.ofNat i)
  | .result id => Json.tagged "result" (Json.ofNat id)
  | .inductionVar => .str "induction_var"
  | .iterArg i => Json.tagged "iter_arg" (Json.ofNat i)

/-- A loop bound. -/
def Bound.toJson : Bound → Json
  | .constant v => Json.tagged "constant" (.int v)
  | .symbolic name => Json.tagged "symbolic" (.str name)

/-- An operation kind. -/
def OpKind.toJson (k : OpKind) : Json :=
  match k with
  | .constant v => Json.tagged "constant" (.obj [("value", .int v)])
  | .cmpi p => Json.tagged "cmpi" (.obj [("predicate", p.toJson)])
  | .alloca b | .load b | .store b => Json.tagged k.mnemonic (.obj [("buffer", .str b)])
  | .call callee => Json.tagged "call" (.obj [("callee", .str callee)])
  | _ => .str k.mnemonic

/-- An operation. -/
def Operation.toJson (op : Operation) : Json :=
  .obj [("id", Json.ofNat op.id), ("kind", op.kind.toJson),
    ("operands", Json.ofList Value.toJson op.operands),
    ("result", Json.ofOption ScalarType.toJson op.result)]

mutual
/-- A loop. -/
def Loop.toJson : Loop → Json
  | ⟨id, lower, upper, step, predicate, inits, results, body, yields⟩ =>
    .obj [("id", Json.ofNat id), ("lower_bound", lower.toJson), ("upper_bound", upper.toJson),
      ("step", step.toJson), ("predicate", predicate.toJson),
      ("iter_inits", Json.ofList Value.toJson inits),
      ("result_types", Json.ofList ScalarType.toJson results),
      ("body", .arr (BodyItem.listToJson body)),
      ("yields", Json.ofList Value.toJson yields)]

/-- Body items, in order. -/
def BodyItem.listToJson : List BodyItem → List Json
  | [] => []
  | .op o :: rest => Json.tagged "op" o.toJson :: BodyItem.listToJson rest
  | .loop l :: rest => Json.tagged "loop" l.toJson :: BodyItem.listToJson rest
end

/-- A problem operation. -/
def OpRef.toJson : OpRef → Json
  | .body id => Json.tagged "body" (Json.ofNat id)
  | .increment => .str "induction_increment"

/-- A stage operand. -/
def StageOperand.toJson : StageOperand → Json
  | .constant v ty => Json.tagged "constant" (Json.typedConstant v ty)
  | .argument i => Json.tagged "argument" (Json.ofNat i)
  | .outer id => Json.tagged "outer" (Json.ofNat id)
  | .iterArg i => Json.tagged "iter_arg" (Json.ofNat i)
  | .sameStage op => Json.tagged "local" op.toJson
  | .register stage slot =>
    Json.tagged "register" (.obj [("stage", Json.ofNat stage), ("slot", Json.ofNat slot)])

/-- A placed operation. -/
def StageOp.toJson (op : StageOp) : Json :=
  .obj [("id", op.id.toJson), ("kind", op.kind.toJson),
    ("operands", Json.ofList StageOperand.toJson op.operands),
    ("result", Json.ofOption ScalarType.toJson op.result)]

/-- A stage. -/
def Stage.toJson (s : Stage) : Json :=
  .obj [("index", Json.ofNat s.index), ("operations", Json.ofList StageOp.toJson s.operations),
    ("registers", Json.ofList StageOperand.toJson s.registers)]

/-- A pipeline. -/
def Pipeline.toJson (p : Pipeline) : Json :=
  .obj [("loop_id", Json.ofNat p.loopId), ("initiation_interval", Json.ofNat p.initiationInterval),
    ("trip_count", Json.ofNat p.tripCount), ("iter_args", Json.ofList Value.toJson p.iterArgs),
    ("iter_arg_types", Json.ofList ScalarType.toJson p.iterArgTypes),
    ("capture_stages", Json.ofList Json.ofNat p.captureStages),
    ("result_types", Json.ofList ScalarType.toJson p.resultTypes),
    ("condition", .obj [("predicate", p.condition.predicate.toJson),
      ("bound", .int p.condition.bound)]),
    ("stages", Json.ofList Stage.toJson p.stages),
    ("terminator", .obj [("iter_args", Json.ofList StageOperand.toJson p.terminator.iterArgs),
      ("results", Json.ofList StageOperand.toJson p.terminator.results)])]

/-- A top-level item. -/
def Item.toJson : Item → Json
  | .op o => Json.tagged "op" o.toJson
  | .loop l => Json.tagged "loop" l.toJson
  | .pipeline p => Json.tagged "pipeline" p.toJson

/-- A function. -/
def Func.toJson (f : Func) : Json :=
  .obj [("name", .str f.name), ("arguments", Json.ofList ScalarType.toJson f.arguments),
    ("items", Json.ofList Item.toJson f.items)]

/-- A dependence kind. -/
def DependenceKind.toJson : DependenceKind → Json
  | .data => .str "data"
  | .auxiliary => .str "auxiliary"

/-- A dependence, with its operations written by `f`. -/
def Dependence.toJson {α : Type} (f : α → Json) (d : Dependence α) : Json :=
  .obj [("from", f d.source), ("to", f d.destination), ("distance", Json.ofNat d.distance),
    ("kind", d.kind.toJson)]

/-- A snapshot. -/
def Snapshot.toJson (s : Snapshot) : Json :=
  .obj [("initiation_interval", Json.ofOption Json.ofNat s.initiationInterval),
    ("operations", Json.ofList operation s.operations)]
where
  /-- One operation of the snapshot. -/
  operation (v : OperationView) : Json :=
    .obj [("operation", .str v.operation), ("program_index", Json.ofNat v.programIndex),
      ("operator_type", Json.ofOption Json.str v.operatorType),
      ("latency", Json.ofOption Json.int v.latency),
      ("start_time", Json.ofOption Json.ofNat v.startTime),
      ("dependences", Json.ofList dependence v.dependences)]
  /-- One incoming dependence of the snapshot. -/
  dependence (d : DependenceView) : Json :=
    .obj [("from", .str d.source), ("distance", Json.ofNat d.distance), ("kind", d.kind.toJson)]

/-- A schedule summary. -/
def Summary.toJson (s : Summary) : Json :=
  .obj [("recurrence_mii", Json.ofNat s.recurrenceMii),
    ("initiation_interval", Json.ofNat s.initiationInterval),
    ("candidates_tried", Json.ofNat s.candidatesTried), ("stage_count", Json.ofNat s.stageCount)]

/-- The members of a loop schedule. -/
def LoopSchedule.members (s : LoopSchedule) : List (String × Json) :=
  [("loop_id", Json.ofNat s.loop), ("summary", s.summary.toJson),
    ("start_times", Json.ofList (fun (op, t) => .obj [("operation", op.toJson), ("start", Json.ofNat t)])
      s.startTimes)]

/-- A loop schedule. -/
def LoopSchedule.toJson (s : LoopSchedule) : Json := .obj s.members

/-- A schedule report, its status beside its fields. -/
def ScheduleReport.toJson : ScheduleReport → Json
  | .scheduled s => .obj (("status", .str "scheduled") :: s.members)
  | .skipped l reason =>
    .obj [("status", .str "skipped"), ("loop_id", Json.ofNat l), ("reason", .str reason)]

/-- Run counters. -/
def PassStats.toJson (s : PassStats) : Json :=
  .obj [("loops_seen", Json.ofNat s.loopsSeen), ("pipelined", Json.ofNat s.pipelined),
    ("skipped", Json.ofNat s.skipped)]

/-- A loop report, its outcome beside its fields. -/
def LoopReport.toJson (r : LoopReport) : Json :=
  match r.outcome with
  | .pipelined ii stages =>
    .obj [("loop_id", Json.ofNat r.loop), ("outcome", .str "pipelined"),
      ("initiation_interval", Json.ofNat ii), ("stage_count", Json.ofNat stages)]
  | .skipped reason =>
    .obj [("loop_id", Json.ofNat r.loop), ("outcome", .str "skipped"), ("reason", .str reason)]

/-- A warning. -/
def Warning.toJson (w : Warning) : Json :=
  .obj [("pass_name", .str w.passName), ("message", .str w.message)]

/-- How the moment of a snapshot is named. -/
def SolvePoint.name : SolvePoint → String
  | .beforeSolve => "before_solve"
  | .afterSolve => "after_solve"

end ModuloPipelining
