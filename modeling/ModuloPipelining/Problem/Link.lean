import ModuloPipelining.Problem.Basic
import ModuloPipelining.Program.Loop
import ModuloPipelining.Operator

/-!
# Linking a loop's operations to operator types

`Problem.linkLoop` walks the body operations in program order and links each to the operator
type of its category, then links the increment, an integer addition, to the combinational
type. A category's type is registered on its first use in the walk (an existing type of that
name is reused) and given the library's latency for the category, if the library has one.

An operation of no category stops the walk: the operations before it stay linked, and it is
reported with its mnemonic.
-/

namespace ModuloPipelining

/-- An operation that no operator category covers. -/
structure ClassificationError where
  loop : Nat
  op : Nat
  mnemonic : String
  deriving DecidableEq, Repr

/-- The text of a classification error. -/
def ClassificationError.message (e : ClassificationError) : String :=
  s!"unsupported operation {opLabel e.op} ({e.mnemonic}) in {loopLabel e.loop}"

/-- A problem being linked, with the operator type used so far for each category. -/
structure Linking where
  problem : Problem OpRef
  types : List (Category × Nat)

namespace Linking

/-- The operator type of a category: the one used before, or one registered now. -/
def typeFor (lib : Library) (s : Linking) (c : Category) : Linking × Nat :=
  match s.types.lookup c with
  | some t => (s, t)
  | none =>
    let (p, t) := s.problem.insertOperatorType c.operatorName
    let p := match lib.latency c with
      | some latency => p.setLatency t latency
      | none => p
    (⟨p, (c, t) :: s.types⟩, t)

/-- Link one operation to the type of its category. -/
def linkTo (lib : Library) (s : Linking) (op : OpRef) (c : Category) : Linking :=
  let (s, t) := s.typeFor lib c
  { s with problem := s.problem.link op t }

/-- Link body operations in order, stopping at the first of no category. -/
def linkOperations (lib : Library) (loop : Nat) :
    Linking → List Operation → Linking × Option ClassificationError
  | s, [] => (s, none)
  | s, op :: rest =>
    match op.kind.category? with
    | none => (s, some ⟨loop, op.id, op.kind.mnemonic⟩)
    | some c => linkOperations lib loop (s.linkTo lib (.body op.id) c) rest

end Linking

/-- Link a loop's operations and its increment: the problem afterwards, and the operation of no
category that stopped the walk, if any. -/
def Problem.linkLoop (lib : Library) (l : Loop) (p : Problem OpRef) :
    Problem OpRef × Option ClassificationError :=
  match Linking.linkOperations lib l.id ⟨p, []⟩ l.operations with
  | (s, some e) => (s.problem, some e)
  | (s, none) => ((s.linkTo lib .increment .combinational).problem, none)

end ModuloPipelining
