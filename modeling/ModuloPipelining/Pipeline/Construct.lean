import ModuloPipelining.Pipeline.Verify
import ModuloPipelining.Program.Func
import ModuloPipelining.Program.Eligibility
import ModuloPipelining.Problem.Basic

/-!
# Lowering a scheduled loop into a pipeline

`Loop.construct` turns a loop, its bounds and its solved problem into a pipeline. Stage `k`
receives the operations whose start time is `k`, ordered by program position, the increment
last. A value produced in stage `s` and read in stage `t > s` of the same iteration goes through
a register of every stage from `s` to `t - 1`; a register carries one value per stage, shared by
all its readers.

Iteration arguments carry values across iterations: slot 0 is the induction variable, slot
`i + 1` the loop's argument `i`. An argument whose yielded value is ready at cycle `r` is
captured in stage `clamp(r - II, 0, last stage)`; a value yielded from another argument is ready
when that one is captured. `count` rounds of simultaneous updates from all zeros settle these
capture stages, `count` being the number of slots. A reader before the capture stage is an
error; later readers get the value through registers.

The terminator hands over, for the next iteration, the increment's result and each yielded
value, from a register of the stage that produces it; the results are the yielded values.
The assembled pipeline is verified before it is returned.
-/

namespace ModuloPipelining

/-- Inconsistencies between a solved problem and the loop it is lowered with. -/
inductive ConstructionError where
  | missingInitiationInterval
  | missingStartTime (op : OpRef)
  | unknownOperation (op : OpRef)
  | readBeforeAvailable (producer consumer : OpRef)
  | unknownIterArg (index : Nat)
  | earlyIterArgRead (consumer : OpRef) (slot stage capture : Nat)
  | loopNotFound (loop : Nat)
  | malformed (e : StructureError)
  deriving DecidableEq, Repr

/-- The text of a construction error. -/
def ConstructionError.message : ConstructionError → String
  | .missingInitiationInterval => "problem has no initiation interval"
  | .missingStartTime op => s!"operation {op.label} has no start time"
  | .unknownOperation op => s!"problem operation {op.label} is not part of the loop body"
  | .readBeforeAvailable producer consumer =>
    s!"{consumer.label} reads {producer.label} before it is produced"
  | .unknownIterArg index => s!"iteration argument {index} does not exist"
  | .earlyIterArgRead consumer slot stage capture =>
    s!"{consumer.label} reads iteration argument {slot} in stage {stage}, before its capture stage {capture}"
  | .loopNotFound loop => s!"{loopLabel loop} is not a top-level loop of the function"
  | .malformed e => "malformed pipeline: " ++ e.message

/-- The value a register chain carries: a result or an iteration argument. -/
inductive RouteKey where
  | result (op : OpRef)
  | iterArg (slot : Nat)
  deriving DecidableEq, Repr

/-- What stays fixed while a pipeline is assembled. -/
structure Lowering where
  loop : Loop
  bounds : LoopBounds
  problem : Problem OpRef
  captures : List Nat

/-- The stages assembled so far, the register of each carried value, and the placed operations. -/
structure Assembly where
  stages : Array Stage
  slots : List ((Nat × RouteKey) × Nat)
  placed : List OpRef

/-- Assembling a pipeline: reads the lowering, updates the assembly, may fail. -/
abbrev AssemblyM := ReaderT Lowering (StateT Assembly (Except ConstructionError))

namespace Lowering

/-- The start time of a problem operation. -/
def startOf (c : Lowering) (op : OpRef) : Except ConstructionError Nat :=
  match c.problem.startTime? op with
  | some t => .ok t
  | none => .error (.missingStartTime op)

/-- The cycle, relative to its iteration, at which an operation's result is ready. -/
def readyTime (c : Lowering) (op : OpRef) : Except ConstructionError Int := do
  let start ← c.startOf op
  pure (start + (c.problem.latencyOf? op).getD 0)

/-- The slot of the loop's iteration argument `index`. -/
def slotOf (c : Lowering) (index : Nat) : Except ConstructionError Nat :=
  if index < c.loop.iterInits.length then .ok (index + 1) else .error (.unknownIterArg index)

end Lowering

/-- One round of capture stages from the previous round's. -/
def Lowering.captureRound (c : Lowering) (ii last : Nat) (captures : List Nat) :
    Except ConstructionError (List Nat) := do
  let count := c.loop.iterInits.length + 1
  let first ← c.readyTime .increment
  let rest : List Int ← (c.loop.yields.take (count - 1)).mapM fun
    | .result id => if c.loop.hasOp id then c.readyTime (.body id) else pure 0
    | .inductionVar => pure (captures.getD 0 0 : Int)
    | .iterArg i => do
      let slot ← c.slotOf i
      pure (captures.getD slot 0 : Int)
    | _ => pure 0
  let ready : List Int := (first :: rest) ++ List.replicate (count - (rest.length + 1)) 0
  pure (ready.map fun r => (max 0 (min (r - (ii : Int)) (last : Int))).toNat)

/-- The capture stage of every slot: `count` rounds from all zeros. -/
def Lowering.captureStages (c : Lowering) (ii last : Nat) : Except ConstructionError (List Nat) :=
  let count := c.loop.iterInits.length + 1
  (List.range count).foldlM (fun captures _ => c.captureRound ii last captures)
    (List.replicate count 0)

namespace Assembly

/-- Lift a check on the lowering into the assembly. -/
def lift {β : Type} (x : Except ConstructionError β) : AssemblyM β :=
  fun _ => StateT.lift x

/-- The register of stage `stage` that carries `key`, added with `operand` if missing. -/
def register (stage : Nat) (key : RouteKey) (operand : StageOperand) : AssemblyM Nat := do
  let a ← get
  match a.slots.lookup (stage, key) with
  | some slot => pure slot
  | none =>
    let slot := (a.stages.getD stage ⟨stage, [], []⟩).registers.length
    set { a with
      stages := a.stages.modify stage fun s => { s with registers := s.registers ++ [operand] }
      slots := ((stage, key), slot) :: a.slots }
    pure slot

/-- Carry `first`, readable in stage `origin`, to stage `stage`. -/
def route (key : RouteKey) (first : StageOperand) (origin stage : Nat) : AssemblyM StageOperand :=
  (List.range' origin (stage - origin)).foldlM
    (fun operand through => do
      let slot ← register through key operand
      pure (.register through slot))
    first

/-- Read iteration argument `slot` in stage `stage`. -/
def iterArg (slot : Nat) (consumer : OpRef) (stage : Nat) : AssemblyM StageOperand := do
  let c ← read
  let capture := c.captures.getD slot 0
  if stage < capture then lift (.error (.earlyIterArgRead consumer slot stage capture))
  else route (.iterArg slot) (.iterArg slot) capture stage

/-- The operand through which `consumer`, placed in stage `stage`, reads a value. -/
def operand (consumer : OpRef) (stage : Nat) : Value → AssemblyM StageOperand
  | .constant v ty => pure (.constant v ty)
  | .argument i => pure (.argument i)
  | .result id => do
    let c ← read
    if c.loop.hasOp id then
      let producer : OpRef := .body id
      let origin ← lift (c.startOf producer)
      let ready ← lift (c.readyTime producer)
      let placed := (← get).placed.contains producer
      if ready > stage ∨ (origin = stage ∧ !placed) then
        lift (.error (.readBeforeAvailable producer consumer))
      else route (.result producer) (.sameStage producer) origin stage
    else pure (.outer id)
  | .inductionVar => iterArg 0 consumer stage
  | .iterArg i => do
    let slot ← lift ((← read).slotOf i)
    iterArg slot consumer stage

/-- The placed form of a problem operation in stage `stage`. -/
def place (stage : Nat) : OpRef → AssemblyM StageOp
  | .increment => do
    let counter ← operand .increment stage .inductionVar
    let step := (← read).bounds.step
    pure ⟨.increment, .addi, [counter, .constant step .index], some .index⟩
  | .body id => do
    match (← read).loop.findOp? id with
    | none => lift (.error (.unknownOperation (.body id)))
    | some op => do
      let operands ← op.operands.mapM (operand (.body id) stage)
      pure ⟨.body id, op.kind, operands, op.result⟩

/-- Place an operation at the end of its stage. -/
def placeAt (entry : Nat × OpRef) : AssemblyM Unit := do
  let (stage, op) := entry
  let placed ← place stage op
  modify fun a =>
    { a with
      stages := a.stages.modify stage fun s => { s with operations := s.operations ++ [placed] }
      placed := op :: a.placed }

/-- The register of the stage issuing `producer`, written once it completes. -/
def produced (producer : OpRef) : AssemblyM StageOperand := do
  let stage ← lift ((← read).startOf producer)
  let slot ← register stage (.result producer) (.sameStage producer)
  pure (.register stage slot)

/-- The register of the capture stage of iteration argument `slot`. -/
def captured (slot : Nat) : AssemblyM StageOperand := do
  let stage := (← read).captures.getD slot 0
  let reg ← register stage (.iterArg slot) (.iterArg slot)
  pure (.register stage reg)

/-- The terminator: the increment's result, then each yielded value. -/
def terminator : AssemblyM Terminator := do
  let c ← read
  let next ← produced .increment
  let yielded ← c.loop.yields.mapM fun
    | .constant v ty => pure (.constant v ty)
    | .argument i => pure (.argument i)
    | .result id => if c.loop.hasOp id then produced (.body id) else pure (.outer id)
    | .inductionVar => captured 0
    | .iterArg i => do
      let slot ← lift (c.slotOf i)
      captured slot
  pure ⟨next :: yielded, yielded⟩

end Assembly

/-- Whether a problem operation is foreign to a loop: a body operation the loop lacks. -/
def Loop.isForeign (l : Loop) : OpRef → Bool
  | .body id => !l.hasOp id
  | .increment => false

/-- The pipeline of a loop under its solved problem. -/
def Loop.construct (l : Loop) (bounds : LoopBounds) (p : Problem OpRef) :
    Except ConstructionError Pipeline := do
  let some ii := p.initiationInterval | throw .missingInitiationInterval
  if let some op := p.operations.find? l.isForeign then throw (.unknownOperation op)
  let base : Lowering := ⟨l, bounds, p, []⟩
  let body ← (l.operations.zipIdx).mapM fun (op, i) => do
    let start ← base.startOf (.body op.id)
    pure (start, i, OpRef.body op.id)
  let incrementStart ← base.startOf .increment
  let entries := body ++ [(incrementStart, l.operations.length, OpRef.increment)]
  let sorted := entries.mergeSort fun a b => a.1 < b.1 || (a.1 == b.1 && a.2.1 ≤ b.2.1)
  let last := (entries.map (·.1)).foldl max 0
  let captures ← base.captureStages ii last
  let c : Lowering := { base with captures := captures }
  let start : Assembly := ⟨((List.range (last + 1)).map fun i => ⟨i, [], []⟩).toArray, [], []⟩
  let run : AssemblyM Terminator := do
    sorted.forM fun (stage, _, op) => Assembly.placeAt (stage, op)
    Assembly.terminator
  let (term, a) ← (run c).run start
  let pipeline : Pipeline :=
    { loopId := l.id
      initiationInterval := ii
      tripCount := bounds.tripCount
      iterArgs := .index bounds.lower :: l.iterInits
      iterArgTypes := .index :: l.resultTypes
      captureStages := captures
      resultTypes := l.resultTypes
      condition := ⟨l.predicate, bounds.upper⟩
      stages := a.stages.toList
      terminator := term }
  match pipeline.verify with
  | .error e => throw (.malformed e)
  | .ok () => pure pipeline

/-- Verify a pipeline and put it in place of its loop. -/
def Func.install (f : Func) (p : Pipeline) : Except ConstructionError Func := do
  match p.verify with
  | .error e => throw (.malformed e)
  | .ok () => pure ()
  match f.replaceLoop p.loopId p with
  | some g => pure g
  | none => throw (.loopNotFound p.loopId)

end ModuloPipelining
