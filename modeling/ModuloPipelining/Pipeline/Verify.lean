import ModuloPipelining.Pipeline.Basic

/-!
# Well-formed pipelines

`Pipeline.verify` checks that every operand reads a value that exists where it is read. It
reports the first defect in this order:

1. there are no stages;
2. the iteration argument types are not one per iteration argument;
3. the first of them is not `index`;
4. the capture stages are not one per iteration argument;
5. an argument is captured in a stage that does not exist (the first such argument);
6. stage by stage: the stage's number is not its position; an operation reads an unreadable
   operand, or repeats an operation placed before; a register reads an unreadable operand;
7. the pipeline does not have exactly one induction increment;
8. the terminator has not one next value per iteration argument, or not one result per result
   type, or reads an unreadable operand.

Inside stage `s` an operand is readable when it is a constant, an argument or an outer result;
an iteration argument captured in `s`; a result of an operation earlier in `s`; or a register of
stage `s - 1` that exists. The terminator reads constants, arguments, outer results and existing
registers of any stage.
-/

namespace ModuloPipelining

/-- The lists whose lengths a pipeline must match. -/
inductive Arity where
  | iterArgTypes
  | captureStages
  | terminatorIterArgs
  | terminatorResults
  deriving DecidableEq, Repr

/-- How a list is called in messages. -/
def Arity.name : Arity → String
  | .iterArgTypes => "iteration argument types"
  | .captureStages => "capture stages"
  | .terminatorIterArgs => "terminator iteration arguments"
  | .terminatorResults => "terminator results"

/-- Where an operand is read: in a stage or in the terminator. -/
inductive ReadSite where
  | stage (index : Nat)
  | terminator
  deriving DecidableEq, Repr

/-- How a read site is called in messages. -/
def ReadSite.name : ReadSite → String
  | .stage i => "stage " ++ toString i
  | .terminator => "the terminator"

/-- Structural defects of a pipeline. -/
inductive StructureError where
  | noStages
  | stageOutOfOrder (position index : Nat)
  | incrementCount (count : Nat)
  | duplicateOperation (op : OpRef)
  | unreadableOperand (operand : StageOperand) (site : ReadSite)
  | arityMismatch (what : Arity) (expected found : Nat)
  | inductionType
  | captureOutOfRange (slot stage : Nat)
  deriving DecidableEq, Repr

/-- The text of a structural defect. -/
def StructureError.message : StructureError → String
  | .noStages => "pipeline has no stages"
  | .stageOutOfOrder position index => s!"stage at position {position} is numbered {index}"
  | .incrementCount count => s!"pipeline has {count} induction variable increments"
  | .duplicateOperation op => s!"operation {op.label} appears in more than one place"
  | .unreadableOperand operand site =>
    s!"operand {operand.render} is not readable in {site.name}"
  | .arityMismatch what expected found => s!"{what.name}: expected {expected}, found {found}"
  | .inductionType => "iteration argument 0 must be an index"
  | .captureOutOfRange slot stage =>
    s!"iteration argument {slot} is captured in missing stage {stage}"

/-- The first capture stage, with its slot, that is not below `count`. -/
def firstCaptureOutside (count : Nat) : Nat → List Nat → Option (Nat × Nat)
  | _, [] => none
  | slot, s :: rest => if count ≤ s then some (slot, s) else firstCaptureOutside count (slot + 1) rest

namespace Pipeline

/-- Whether stage `stage` may read an operand, given the operations placed before in it. -/
def readableIn (p : Pipeline) (stage : Nat) (defined : List OpRef) : StageOperand → Bool
  | .constant _ _ | .argument _ | .outer _ => true
  | .iterArg i => p.captureStages[i]? == some stage
  | .sameStage op => defined.contains op
  | .register source slot => 0 < stage && source == stage - 1 && p.registerExists source slot

/-- Whether the terminator may read an operand. -/
def readableAtEnd (p : Pipeline) : StageOperand → Bool
  | .constant _ _ | .argument _ | .outer _ => true
  | .iterArg _ | .sameStage _ => false
  | .register stage slot => p.registerExists stage slot

/-- Every operand readable in stage `stage`, or the first that is not. -/
def checkOperands (p : Pipeline) (stage : Nat) (defined : List OpRef) (operands : List StageOperand) :
    Except StructureError Unit :=
  operands.forM fun o =>
    if p.readableIn stage defined o then .ok () else .error (.unreadableOperand o (.stage stage))

/-- The operations of stage `stage` in order; `seen` holds operations of all stages so far and
`defined` those of this stage. Gives the updated `seen` and the increments counted. -/
def checkOperations (p : Pipeline) (stage : Nat) :
    List OpRef → List OpRef → Nat → List StageOp → Except StructureError (List OpRef × List OpRef × Nat)
  | seen, defined, increments, [] => .ok (seen, defined, increments)
  | seen, defined, increments, op :: rest => do
    p.checkOperands stage defined op.operands
    if seen.contains op.id then throw (.duplicateOperation op.id)
    let increments := if op.id == .increment then increments + 1 else increments
    p.checkOperations stage (op.id :: seen) (op.id :: defined) increments rest

/-- The stages from position `position` on. Gives the number of increments found. -/
def checkStages (p : Pipeline) : Nat → List OpRef → Nat → List Stage → Except StructureError Nat
  | _, _, increments, [] => .ok increments
  | position, seen, increments, s :: rest => do
    if s.index ≠ position then throw (.stageOutOfOrder position s.index)
    let (seen, defined, increments) ← p.checkOperations s.index seen [] increments s.operations
    p.checkOperands s.index defined s.registers
    p.checkStages (position + 1) seen increments rest

/-- The terminator's arities and operands. -/
def checkTerminator (p : Pipeline) : Except StructureError Unit := do
  let t := p.terminator
  if t.iterArgs.length ≠ p.iterArgs.length then
    throw (.arityMismatch .terminatorIterArgs p.iterArgs.length t.iterArgs.length)
  if t.results.length ≠ p.resultTypes.length then
    throw (.arityMismatch .terminatorResults p.resultTypes.length t.results.length)
  (t.iterArgs ++ t.results).forM fun o =>
    if p.readableAtEnd o then .ok () else .error (.unreadableOperand o .terminator)

/-- The first structural defect of a pipeline, if any. -/
def verify (p : Pipeline) : Except StructureError Unit := do
  if p.stages.isEmpty then throw .noStages
  if p.iterArgTypes.length ≠ p.iterArgs.length then
    throw (.arityMismatch .iterArgTypes p.iterArgs.length p.iterArgTypes.length)
  if p.iterArgTypes.head? ≠ some .index then throw .inductionType
  if p.captureStages.length ≠ p.iterArgs.length then
    throw (.arityMismatch .captureStages p.iterArgs.length p.captureStages.length)
  if let some (slot, stage) := firstCaptureOutside p.stages.length 0 p.captureStages then
    throw (.captureOutOfRange slot stage)
  let increments ← p.checkStages 0 [] 0 p.stages
  if increments ≠ 1 then throw (.incrementCount increments)
  p.checkTerminator

end Pipeline

end ModuloPipelining
