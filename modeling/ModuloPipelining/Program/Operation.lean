import ModuloPipelining.Program.Value

/-!
# Operations of a loop program

An operation has an identity, a kind, operands and an optional result type. Its kind decides
its mnemonic, and for loads and stores the buffer it touches: a load reads the buffer at its
first operand, a store writes its first operand at its second. A load or store that lacks that
index operand does not access memory.

`OpRef` names the operations of a loop's scheduling problem: the loop's own operations, and the
increment `iv + step` of the induction variable that every pipelined loop adds.
-/

namespace ModuloPipelining

/-- What an operation does. -/
inductive OpKind where
  | constant (value : Int)
  | addi
  | subi
  | muli
  | divsi
  | remsi
  | andi
  | ori
  | xori
  | shli
  | cmpi (predicate : Predicate)
  | select
  | indexCast
  | alloca (buffer : String)
  | load (buffer : String)
  | store (buffer : String)
  | addf
  | subf
  | mulf
  | divf
  | call (callee : String)
  deriving DecidableEq, Repr

/-- The mnemonic of an operation kind. -/
def OpKind.mnemonic : OpKind → String
  | .constant _ => "constant"
  | .addi => "addi"
  | .subi => "subi"
  | .muli => "muli"
  | .divsi => "divsi"
  | .remsi => "remsi"
  | .andi => "andi"
  | .ori => "ori"
  | .xori => "xori"
  | .shli => "shli"
  | .cmpi _ => "cmpi"
  | .select => "select"
  | .indexCast => "index_cast"
  | .alloca _ => "alloca"
  | .load _ => "load"
  | .store _ => "store"
  | .addf => "addf"
  | .subf => "subf"
  | .mulf => "mulf"
  | .divf => "divf"
  | .call _ => "call"

/-- An operation of a loop body or of a function. -/
structure Operation where
  id : Nat
  kind : OpKind
  operands : List Value
  result : Option ScalarType
  deriving DecidableEq, Repr

/-- A read or write of a buffer at an index. -/
structure MemoryAccess where
  buffer : String
  index : Value
  isWrite : Bool
  deriving DecidableEq, Repr

/-- The memory access of a load (index first) or a store (index second). -/
def Operation.memoryAccess? (op : Operation) : Option MemoryAccess :=
  match op.kind with
  | .load buffer => op.operands.head?.map fun index => ⟨buffer, index, false⟩
  | .store buffer => op.operands[1]?.map fun index => ⟨buffer, index, true⟩
  | _ => none

/-- An operation of a loop's scheduling problem. -/
inductive OpRef where
  | body (id : Nat)
  | increment
  deriving DecidableEq, Repr

namespace OpRef

/-- `%id` for a body operation, `iv.next` for the increment. -/
def label : OpRef → String
  | .body id => opLabel id
  | .increment => "iv.next"

instance : ToString OpRef := ⟨label⟩

/-- Body operations by identity, then the increment. -/
def le : OpRef → OpRef → Bool
  | .body a, .body b => a ≤ b
  | .body _, .increment => true
  | .increment, .body _ => false
  | .increment, .increment => true

end OpRef

example : (Operation.memoryAccess? ⟨1, .store "b", [.result 0], none⟩) = none := by decide

end ModuloPipelining
