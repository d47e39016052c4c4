import ModuloPipelining.Problem.Basic
import ModuloPipelining.Program.TripCount

/-!
# The dependence problem of a loop

`Loop.problem` registers the body operations in program order, then the induction increment,
and derives the dependences:

* an operand that is the result of a body operation depends on it at distance 0;
* an operand that reads an iteration argument depends on what the body yields for it, one
  iteration further back per step through the yields (at most one step more than there are
  yields, which only a self-referencing argument can exhaust);
* an operand that reads the induction variable, and the increment itself, depend on the
  previous iteration's increment;
* loads and stores of one buffer, at least one of them a store, are ordered by auxiliary
  dependences. When both indices are `iv + c` and the step is known, they conflict exactly
  `(c₁ - c₂) / step` iterations apart if that divides evenly, and are ordered over that many
  iterations, forward or backward, unless that is a trip count or more, or more than a 32-bit
  distance. Otherwise they are ordered both ways: forward in the same iteration and backward
  across one.

An index is `iv + c` when it is the induction variable, an `addi` of it and a constant in either
order, a `subi` of a constant from it, or an `index_cast` of such an index. The search follows
`index_cast`s without bound: a chain of casts that comes back to a cast it passed never ends,
and the build with it (`Fault.endless`). The model follows at most one cast more than the body
has operations, which only such a chain outlasts. The subtraction
`c₁ - c₂`, its remainder by the step and the negation of the `subi` constant are checked
against the signed 64-bit word, and trap when they leave it.
-/

namespace ModuloPipelining

/-- The value of a constant operand. -/
def Value.constant? : Value → Option Int
  | .constant v _ => some v
  | _ => none

/-- A memory access of a loop body with the offset of its index, if the index is `iv + c`. -/
structure Access where
  op : Nat
  buffer : String
  offset : Option Int
  isWrite : Bool
  deriving DecidableEq, Repr

namespace Loop

/-- The offset `c` of an index `iv + c`, following `index_cast` at most `fuel` times; a chain of
casts that outlasts the fuel is taken never to end. -/
def offsetOf? (l : Loop) : Nat → Value → Except Fault (Option Int)
  | 0, _ => .error .endless
  | _ + 1, .inductionVar => .ok (some 0)
  | fuel + 1, .result id =>
    match l.findOp? id with
    | none => .ok none
    | some op =>
      match op.kind, op.operands with
      | .addi, [.inductionVar, other] => .ok other.constant?
      | .addi, [other, .inductionVar] => .ok other.constant?
      | .subi, [.inductionVar, other] =>
        match other.constant? with
        | none => .ok none
        | some c => if c = i64Min then .error .negate else .ok (some (-c))
      | .indexCast, [inner] => l.offsetOf? fuel inner
      | _, _ => .ok none
  | _ + 1, _ => .ok none

/-- The memory accesses of the body in program order. -/
def accesses (l : Loop) : Except Fault (List Access) :=
  (l.operations.filterMap fun op => op.memoryAccess?.map (op.id, ·)).mapM fun (id, a) => do
    let offset ← l.offsetOf? (l.operations.length + 1) a.index
    pure ⟨id, a.buffer, offset, a.isWrite⟩

/-- The dependence of `consumer` on the producer of a value seen `distance` iterations back. -/
def valueDependence (l : Loop) (consumer : OpRef) : Nat → Value → Nat → Option (Dependence OpRef)
  | 0, _, _ => none
  | _ + 1, .result id, distance =>
    if l.hasOp id then some ⟨.body id, consumer, distance, .data⟩ else none
  | _ + 1, .inductionVar, distance => some ⟨.increment, consumer, distance + 1, .data⟩
  | fuel + 1, .iterArg i, distance =>
    match l.yields[i]? with
    | some v => l.valueDependence consumer fuel v (distance + 1)
    | none => none
  | _ + 1, _, _ => none

/-- The data dependences of the body operations' operands, then of the increment. -/
def dataDependences (l : Loop) : List (Dependence OpRef) :=
  let fuel := l.yields.length + 1
  (l.operations.flatMap fun op =>
      op.operands.filterMap fun v => l.valueDependence (.body op.id) fuel v 0) ++
    (l.valueDependence .increment fuel .inductionVar 0).toList

end Loop

/-- The ordering dependences of two accesses, the first earlier in program order. -/
def Access.dependences (step : Option Int) (tripCount : Option Nat) (earlier later : Access) :
    Except Fault (List (Dependence OpRef)) :=
  if earlier.buffer ≠ later.buffer ∨ !(earlier.isWrite || later.isWrite) then .ok []
  else
    let first : OpRef := .body earlier.op
    let second : OpRef := .body later.op
    match earlier.offset, later.offset, step with
    | some a, some b, some s =>
      let delta := a - b
      if !fitsI64 delta then .error .subtract
      else if delta = i64Min ∧ s = -1 then .error .remainder
      else if delta % s ≠ 0 then .ok []
      else
        let iterations := delta / s
        let apart := iterations.natAbs
        if tripCount.any (· ≤ apart) ∨ u32Bound ≤ apart then .ok []
        else if 0 ≤ iterations then .ok [⟨first, second, apart, .auxiliary⟩]
        else .ok [⟨second, first, apart, .auxiliary⟩]
    | _, _, _ => .ok [⟨first, second, 0, .auxiliary⟩, ⟨second, first, 1, .auxiliary⟩]

/-- The ordering dependences of every pair of accesses, in program order of the pairs. -/
def Access.pairDependences (step : Option Int) (tripCount : Option Nat) :
    List Access → Except Fault (List (Dependence OpRef))
  | [] => .ok []
  | earlier :: rest => do
    let here ← rest.flatMapM (Access.dependences step tripCount earlier)
    let later ← Access.pairDependences step tripCount rest
    pure (here ++ later)

namespace Loop

/-- The ordering dependences between the body's memory accesses. -/
def memoryDependences (l : Loop) : Except Fault (List (Dependence OpRef)) := do
  let step := l.step.constant?.filter (· ≠ 0)
  let accesses ← l.accesses
  Access.pairDependences step l.tripCount? accesses

/-- The dependence problem of a loop: operations, then data, then memory dependences. -/
def problem (l : Loop) : Except Fault (Problem OpRef) := do
  let p := (l.operations.map (OpRef.body ·.id) ++ [OpRef.increment]).foldl
    Problem.insertOperation Problem.empty
  let p := l.dataDependences.foldl Problem.insertDependence p
  let memory ← l.memoryDependences
  pure (memory.foldl Problem.insertDependence p)

end Loop

end ModuloPipelining
