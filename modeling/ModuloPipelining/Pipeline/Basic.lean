import ModuloPipelining.Program.Operation

/-!
# Staged pipelines

A pipeline replaces a counted loop. Its iteration arguments hold the induction variable in slot
0 followed by the loop's own loop-carried values. Argument `k` is readable in exactly one stage,
`captureStages[k]`, where it holds the value yielded by the previous iteration; later stages
receive it through registers like any other value.

Each stage runs the operations scheduled at its cycle and ends with a list of registers. Stage
`k + 1` reads the registers of stage `k`; the terminator reads the registers of any stage to form
the next iteration arguments and the results. The loop runs while `iter0 <predicate> bound`.

Operands are written `v : ty`, `argN`, `%id` (a result from outside the pipeline), `iterN`,
`%id` or `iv.next` (an earlier result of the same stage) and `sK.rN` (register `N` of stage
`K`).
-/

namespace ModuloPipelining

/-- What an operation, register or terminator of a pipeline reads. -/
inductive StageOperand where
  | constant (value : Int) (ty : ScalarType)
  | argument (index : Nat)
  | outer (id : Nat)
  | iterArg (slot : Nat)
  | sameStage (op : OpRef)
  | register (stage slot : Nat)
  deriving DecidableEq, Repr

/-- The text of an operand. -/
def StageOperand.render : StageOperand → String
  | .constant v ty => toString v ++ " : " ++ ty.name
  | .argument i => "arg" ++ toString i
  | .outer id => opLabel id
  | .iterArg i => "iter" ++ toString i
  | .sameStage op => op.label
  | .register stage slot => "s" ++ toString stage ++ ".r" ++ toString slot

/-- An operation placed in a stage. -/
structure StageOp where
  id : OpRef
  kind : OpKind
  operands : List StageOperand
  result : Option ScalarType
  deriving DecidableEq, Repr

/-- The operations sharing one start time, and the values the stage hands on. -/
structure Stage where
  index : Nat
  operations : List StageOp
  registers : List StageOperand
  deriving DecidableEq, Repr

/-- `iter0 <predicate> bound`, tested before an iteration enters stage 0. -/
structure Condition where
  predicate : Predicate
  bound : Int
  deriving DecidableEq, Repr

/-- The next iteration arguments and the final results. -/
structure Terminator where
  iterArgs : List StageOperand
  results : List StageOperand
  deriving DecidableEq, Repr

/-- The staged replacement of a counted loop. -/
structure Pipeline where
  loopId : Nat
  initiationInterval : Nat
  tripCount : Nat
  iterArgs : List Value
  iterArgTypes : List ScalarType
  captureStages : List Nat
  resultTypes : List ScalarType
  condition : Condition
  stages : List Stage
  terminator : Terminator
  deriving DecidableEq, Repr

namespace Pipeline

/-- The number of stages. -/
def stageCount (p : Pipeline) : Nat := p.stages.length

/-- The operations of all stages, stage by stage. -/
def operations (p : Pipeline) : List StageOp := p.stages.flatMap (·.operations)

/-- The index of the first stage that holds an operation. -/
def stageOf? (p : Pipeline) (op : OpRef) : Option Nat :=
  (p.stages.find? fun s => s.operations.any (·.id == op)).map (·.index)

/-- Whether the stage at position `stage` has a register `slot`. -/
def registerExists (p : Pipeline) (stage slot : Nat) : Bool :=
  match p.stages[stage]? with
  | some s => slot < s.registers.length
  | none => false

end Pipeline

end ModuloPipelining
