import ModuloPipelining.Word

/-!
# Values of a loop program

Scalar types, comparison predicates, the values an operand may refer to and loop bounds, with
the names under which a listing writes them.

An operand refers to a constant, a function argument, the result of an operation, the current
induction variable, or the current value of a loop-carried iteration argument. Operations are
written `%id`, loops `loop#id`.
-/

namespace ModuloPipelining

/-- Scalar types of loop values. -/
inductive ScalarType where
  | i1
  | i32
  | i64
  | index
  | f32
  | f64
  deriving DecidableEq, Repr

/-- The lowercase name of a scalar type. -/
def ScalarType.name : ScalarType → String
  | .i1 => "i1"
  | .i32 => "i32"
  | .i64 => "i64"
  | .index => "index"
  | .f32 => "f32"
  | .f64 => "f64"

/-- Integer comparisons; the `u` forms compare the unsigned readings of their words. -/
inductive Predicate where
  | eq
  | ne
  | slt
  | sle
  | sgt
  | sge
  | ult
  | ule
  | ugt
  | uge
  deriving DecidableEq, Repr

namespace Predicate

/-- The lowercase name of a predicate. -/
def name : Predicate → String
  | .eq => "eq"
  | .ne => "ne"
  | .slt => "slt"
  | .sle => "sle"
  | .sgt => "sgt"
  | .sge => "sge"
  | .ult => "ult"
  | .ule => "ule"
  | .ugt => "ugt"
  | .uge => "uge"

/-- Whether the predicate compares unsigned readings. -/
def isUnsigned : Predicate → Bool
  | .ult | .ule | .ugt | .uge => true
  | _ => false

end Predicate

/-- The unsigned reading of a 64-bit word holding `n`. -/
def unsignedReading (n : Int) : Int := n % (u64Bound : Int)

/-- The value of `lhs p rhs` on two signed 64-bit words. -/
def Predicate.evaluate (p : Predicate) (lhs rhs : Int) : Bool :=
  match p with
  | .eq => lhs == rhs
  | .ne => lhs != rhs
  | .slt => decide (lhs < rhs)
  | .sle => decide (lhs ≤ rhs)
  | .sgt => decide (lhs > rhs)
  | .sge => decide (lhs ≥ rhs)
  | .ult => decide (unsignedReading lhs < unsignedReading rhs)
  | .ule => decide (unsignedReading lhs ≤ unsignedReading rhs)
  | .ugt => decide (unsignedReading lhs > unsignedReading rhs)
  | .uge => decide (unsignedReading lhs ≥ unsignedReading rhs)

/-- How operations are named: `%id`. -/
def opLabel (id : Nat) : String := "%" ++ toString id

/-- How loops are named: `loop#id`. -/
def loopLabel (id : Nat) : String := "loop#" ++ toString id

/-- A value read by an operand. -/
inductive Value where
  | constant (value : Int) (ty : ScalarType)
  | argument (index : Nat)
  | result (id : Nat)
  | inductionVar
  | iterArg (index : Nat)
  deriving DecidableEq, Repr

/-- A listing's text of a value: `v : ty`, `argN`, `%id`, `iv` or `iterN`. -/
def Value.render : Value → String
  | .constant v ty => toString v ++ " : " ++ ty.name
  | .argument i => "arg" ++ toString i
  | .result id => opLabel id
  | .inductionVar => "iv"
  | .iterArg i => "iter" ++ toString i

/-- The index constant `value : index`. -/
def Value.index (value : Int) : Value := .constant value .index

/-- A loop bound or step: known when the program is compiled, or named and only known later. -/
inductive Bound where
  | constant (value : Int)
  | symbolic (name : String)
  deriving DecidableEq, Repr

/-- The value of a known bound. -/
def Bound.constant? : Bound → Option Int
  | .constant v => some v
  | .symbolic _ => none

example : Predicate.ult.evaluate (-1) 0 = false ∧ Predicate.slt.evaluate (-1) 0 = true := by decide

end ModuloPipelining
