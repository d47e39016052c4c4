import ModuloPipelining.Json.Decode
import ModuloPipelining.Program.Func
import ModuloPipelining.Operator
import ModuloPipelining.Schedule.Solve

/-!
# Reading programs, pipelines and libraries from JSON

The exchange format writes names in lowercase with underscores. Tagged choices follow
`Json.variant?`: a case without payload is a bare string (`"addi"`, `"induction_var"`,
`"induction_increment"`), a case with one is an object of one member (`{"result": 3}`,
`{"load": {"buffer": "a"}}`). Records follow `Json.fields?`.

Fields that may be left out: an operation's `operands` (none) and `result` (none); a loop's
`predicate` (`slt`), `iter_inits`, `result_types` and `yields` (none); a function's
`arguments` (none); a stage's `registers` (none); both fields of a scheduler configuration
(4 and 16). A library lists latencies by category name under `latencies`; a category named
twice takes its last latency.
-/

namespace ModuloPipelining

namespace Json

/-- A case without payload, by name. -/
def unitCase? {α : Type} (ofName : String → Option α) (j : Json) : Option α := do
  let (name, payload) ← j.variant?
  if isUnitPayload payload then ofName name else none

end Json

/-- How a document reaches a reader: straight from its text, or as a tree parsed before.
The two differ in one place: the record of a case (the payload of `{"constant": …}`,
`{"load": …}`, `{"register": …}` and the like) may be written as an array, in field order,
only when read from text; from a tree it must be an object. Records elsewhere may be arrays
either way. -/
inductive Reading where
  | text
  | tree
  deriving DecidableEq, Repr

/-- The fields of a case's record, read as `r` allows. -/
def Json.caseFields? (r : Reading) (names : List String) (j : Json) : Option (List (Option Json)) :=
  match r, j with
  | .tree, .obj _ => j.fields? names
  | .tree, _ => none
  | .text, _ => j.fields? names

/-- A scalar type by name. -/
def ScalarType.ofName? : String → Option ScalarType
  | "i1" => some .i1
  | "i32" => some .i32
  | "i64" => some .i64
  | "index" => some .index
  | "f32" => some .f32
  | "f64" => some .f64
  | _ => none

/-- A scalar type. -/
def ScalarType.ofJson? : Json → Option ScalarType := Json.unitCase? ScalarType.ofName?

/-- A predicate by name. -/
def Predicate.ofName? : String → Option Predicate
  | "eq" => some .eq
  | "ne" => some .ne
  | "slt" => some .slt
  | "sle" => some .sle
  | "sgt" => some .sgt
  | "sge" => some .sge
  | "ult" => some .ult
  | "ule" => some .ule
  | "ugt" => some .ugt
  | "uge" => some .uge
  | _ => none

/-- A predicate. -/
def Predicate.ofJson? : Json → Option Predicate := Json.unitCase? Predicate.ofName?

/-- A record of one integer field, `{"value": v}`. -/
def Json.valueField? (r : Reading) (j : Json) : Option Int := do
  let [v] ← j.caseFields? r ["value"] | none
  Json.required Json.asI64? v

/-- A record of one string field called `name`. -/
def Json.stringField? (r : Reading) (name : String) (j : Json) : Option String := do
  let [v] ← j.caseFields? r [name] | none
  Json.required Json.asString? v

/-- A constant record `{"value": v, "ty": t}`. -/
def Json.typedConstant? (r : Reading) (j : Json) : Option (Int × ScalarType) := do
  let [v, ty] ← j.caseFields? r ["value", "ty"] | none
  pure (← Json.required Json.asI64? v, ← Json.required ScalarType.ofJson? ty)

/-- A value. -/
def Value.ofJson? (r : Reading) (j : Json) : Option Value := do
  let (name, payload) ← j.variant?
  match name, payload with
  | "constant", some inner => do
    let (v, ty) ← inner.typedConstant? r
    pure (.constant v ty)
  | "argument", some inner => (Json.asU64? inner).map .argument
  | "result", some inner => (Json.asU32? inner).map .result
  | "induction_var", p => if Json.isUnitPayload p then some .inductionVar else none
  | "iter_arg", some inner => (Json.asU64? inner).map .iterArg
  | _, _ => none

/-- A loop bound. -/
def Bound.ofJson? (j : Json) : Option Bound := do
  let (name, payload) ← j.variant?
  match name, payload with
  | "constant", some inner => (Json.asI64? inner).map .constant
  | "symbolic", some inner => (Json.asString? inner).map .symbolic
  | _, _ => none

/-- An operation kind without payload, by mnemonic. -/
def OpKind.plain? : String → Option OpKind
  | "addi" => some .addi
  | "subi" => some .subi
  | "muli" => some .muli
  | "divsi" => some .divsi
  | "remsi" => some .remsi
  | "andi" => some .andi
  | "ori" => some .ori
  | "xori" => some .xori
  | "shli" => some .shli
  | "select" => some .select
  | "index_cast" => some .indexCast
  | "addf" => some .addf
  | "subf" => some .subf
  | "mulf" => some .mulf
  | "divf" => some .divf
  | _ => none

/-- An operation kind. -/
def OpKind.ofJson? (r : Reading) (j : Json) : Option OpKind := do
  let (name, payload) ← j.variant?
  match name, payload with
  | "constant", some inner => (inner.valueField? r).map .constant
  | "cmpi", some inner => do
    let [p] ← inner.caseFields? r ["predicate"] | none
    (Json.required Predicate.ofJson? p).map .cmpi
  | "alloca", some inner => (inner.stringField? r "buffer").map .alloca
  | "load", some inner => (inner.stringField? r "buffer").map .load
  | "store", some inner => (inner.stringField? r "buffer").map .store
  | "call", some inner => (inner.stringField? r "callee").map .call
  | other, p => if Json.isUnitPayload p then OpKind.plain? other else none

/-- An operation. -/
def Operation.ofJson? (r : Reading) (j : Json) : Option Operation := do
  let [id, kind, operands, result] ← j.fields? ["id", "kind", "operands", "result"] | none
  pure
    { id := ← Json.required Json.asU32? id
      kind := ← Json.required (OpKind.ofJson? r) kind
      operands := ← Json.withDefault (Json.asList? (Value.ofJson? r)) [] operands
      result := ← Json.optional ScalarType.ofJson? result }

mutual
/-- A loop, with `fuel` bounding the nesting still to read. -/
def Loop.ofJsonWithin (r : Reading) : Nat → Json → Option Loop
  | 0, _ => none
  | fuel + 1, j => do
    let [id, lower, upper, step, predicate, inits, results, body, yields] ←
      j.fields? ["id", "lower_bound", "upper_bound", "step", "predicate", "iter_inits",
        "result_types", "body", "yields"] | none
    let bodyJson ← body
    let items ← match bodyJson with
      | .arr elems => BodyItem.listWithin r fuel elems
      | _ => none
    pure
      { id := ← Json.required Json.asU32? id
        lowerBound := ← Json.required Bound.ofJson? lower
        upperBound := ← Json.required Bound.ofJson? upper
        step := ← Json.required Bound.ofJson? step
        predicate := ← Json.withDefault Predicate.ofJson? .slt predicate
        iterInits := ← Json.withDefault (Json.asList? (Value.ofJson? r)) [] inits
        resultTypes := ← Json.withDefault (Json.asList? ScalarType.ofJson?) [] results
        body := items
        yields := ← Json.withDefault (Json.asList? (Value.ofJson? r)) [] yields }

/-- Body items, with `fuel` bounding the nesting still to read. -/
def BodyItem.listWithin (r : Reading) : Nat → List Json → Option (List BodyItem)
  | _, [] => some []
  | fuel, j :: rest => do
    let (name, payload) ← j.variant?
    let item ← match name, payload, fuel with
      | "op", some inner, _ => (Operation.ofJson? r inner).map .op
      | "loop", some inner, fuel => (Loop.ofJsonWithin r fuel inner).map .loop
      | _, _, _ => none
    let items ← BodyItem.listWithin r fuel rest
    pure (item :: items)
end

/-- A loop; nesting is bounded by the depth of the document. -/
def Loop.ofJson? (r : Reading) (j : Json) : Option Loop := Loop.ofJsonWithin r (j.depth + 1) j

/-- A problem operation. -/
def OpRef.ofJson? (j : Json) : Option OpRef := do
  let (name, payload) ← j.variant?
  match name, payload with
  | "body", some inner => (Json.asU32? inner).map .body
  | "induction_increment", p => if Json.isUnitPayload p then some .increment else none
  | _, _ => none

/-- A stage operand. -/
def StageOperand.ofJson? (r : Reading) (j : Json) : Option StageOperand := do
  let (name, payload) ← j.variant?
  match name, payload with
  | "constant", some inner => do
    let (v, ty) ← inner.typedConstant? r
    pure (.constant v ty)
  | "argument", some inner => (Json.asU64? inner).map .argument
  | "outer", some inner => (Json.asU32? inner).map .outer
  | "iter_arg", some inner => (Json.asU64? inner).map .iterArg
  | "local", some inner => (OpRef.ofJson? inner).map .sameStage
  | "register", some inner => do
    let [stage, slot] ← inner.caseFields? r ["stage", "slot"] | none
    pure (.register (← Json.required Json.asU32? stage) (← Json.required Json.asU64? slot))
  | _, _ => none

/-- A placed operation. -/
def StageOp.ofJson? (r : Reading) (j : Json) : Option StageOp := do
  let [id, kind, operands, result] ← j.fields? ["id", "kind", "operands", "result"] | none
  pure
    { id := ← Json.required OpRef.ofJson? id
      kind := ← Json.required (OpKind.ofJson? r) kind
      operands := ← Json.required (Json.asList? (StageOperand.ofJson? r)) operands
      result := ← Json.optional ScalarType.ofJson? result }

/-- A stage. -/
def Stage.ofJson? (r : Reading) (j : Json) : Option Stage := do
  let [index, operations, registers] ← j.fields? ["index", "operations", "registers"] | none
  pure
    { index := ← Json.required Json.asU32? index
      operations := ← Json.required (Json.asList? (StageOp.ofJson? r)) operations
      registers := ← Json.withDefault (Json.asList? (StageOperand.ofJson? r)) [] registers }

/-- A pipeline condition. -/
def Condition.ofJson? (j : Json) : Option Condition := do
  let [predicate, bound] ← j.fields? ["predicate", "bound"] | none
  pure ⟨← Json.required Predicate.ofJson? predicate, ← Json.required Json.asI64? bound⟩

/-- A pipeline terminator. -/
def Terminator.ofJson? (r : Reading) (j : Json) : Option Terminator := do
  let [iterArgs, results] ← j.fields? ["iter_args", "results"] | none
  pure ⟨← Json.required (Json.asList? (StageOperand.ofJson? r)) iterArgs,
    ← Json.required (Json.asList? (StageOperand.ofJson? r)) results⟩

/-- A pipeline. -/
def Pipeline.ofJson? (r : Reading) (j : Json) : Option Pipeline := do
  let [loopId, ii, tripCount, iterArgs, iterArgTypes, captures, resultTypes, condition, stages,
      terminator] ←
    j.fields? ["loop_id", "initiation_interval", "trip_count", "iter_args", "iter_arg_types",
      "capture_stages", "result_types", "condition", "stages", "terminator"] | none
  pure
    { loopId := ← Json.required Json.asU32? loopId
      initiationInterval := ← Json.required Json.asU32? ii
      tripCount := ← Json.required Json.asU64? tripCount
      iterArgs := ← Json.required (Json.asList? (Value.ofJson? r)) iterArgs
      iterArgTypes := ← Json.required (Json.asList? ScalarType.ofJson?) iterArgTypes
      captureStages := ← Json.required (Json.asList? Json.asU32?) captures
      resultTypes := ← Json.required (Json.asList? ScalarType.ofJson?) resultTypes
      condition := ← Json.required Condition.ofJson? condition
      stages := ← Json.required (Json.asList? (Stage.ofJson? r)) stages
      terminator := ← Json.required (Terminator.ofJson? r) terminator }

/-- A top-level item; nested loops are bounded by the depth of the document. -/
def Item.ofJson? (r : Reading) (j : Json) : Option Item := do
  let (name, payload) ← j.variant?
  match name, payload with
  | "op", some inner => (Operation.ofJson? r inner).map .op
  | "loop", some inner => (Loop.ofJson? r inner).map .loop
  | "pipeline", some inner => (Pipeline.ofJson? r inner).map .pipeline
  | _, _ => none

/-- A function. -/
def Func.ofJson? (r : Reading) (j : Json) : Option Func := do
  let [name, arguments, items] ← j.fields? ["name", "arguments", "items"] | none
  pure
    { name := ← Json.required Json.asString? name
      arguments := ← Json.withDefault (Json.asList? ScalarType.ofJson?) [] arguments
      items := ← Json.required (Json.asList? (Item.ofJson? r)) items }

/-- A category by name. -/
def Category.ofName? : String → Option Category
  | "combinational" => some .combinational
  | "sequential" => some .sequential
  | "multi_cycle" => some .multiCycle
  | _ => none

/-- Latencies by category name, later entries replacing earlier ones. -/
def Library.addLatencies (lib : Library) : List (String × Json) → Option Library
  | [] => some lib
  | (name, v) :: rest => do
    let c ← Category.ofName? name
    let latency ← Json.asI64? v
    (lib.withLatency c latency).addLatencies rest

/-- An operator library. -/
def Library.ofJson? (j : Json) : Option Library := do
  let [latencies] ← j.fields? ["latencies"] | none
  match ← latencies with
  | .obj members => Library.empty.addLatencies members
  | _ => none

/-- A scheduler configuration. -/
def SchedulerConfig.ofJson? (j : Json) : Option SchedulerConfig := do
  let [factor, span] ← j.fields? ["max_ii_factor", "min_search_span"] | none
  pure ⟨← Json.withDefault Json.asU32? 4 factor, ← Json.withDefault Json.asU32? 16 span⟩

end ModuloPipelining
