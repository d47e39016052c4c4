import ModuloPipelining.Program.Operation

/-!
# Operator categories and libraries

The scheduler knows three operator categories: combinational logic, whose result is ready in
the cycle it starts; sequential operators such as memory accesses; and multi-cycle arithmetic.
Each category is registered in a problem as an operator type of its own name (`comb`, `seq`,
`multicycle`), and a library gives the latency of some or all categories.

Every integer operation but multiplication and division is combinational, loads and stores are
sequential, multiplication is multi-cycle. Division, remainder, floating-point operations and
calls belong to no category: a loop holding one is not pipelined.
-/

namespace ModuloPipelining

/-- Operator categories. -/
inductive Category where
  | combinational
  | sequential
  | multiCycle
  deriving DecidableEq, Repr

namespace Category

/-- The name of the operator type that stands for the category. -/
def operatorName : Category → String
  | .combinational => "comb"
  | .sequential => "seq"
  | .multiCycle => "multicycle"

/-- The written name of the category. -/
def name : Category → String
  | .combinational => "combinational"
  | .sequential => "sequential"
  | .multiCycle => "multi_cycle"

end Category

/-- The category of an operation kind; `none` for kinds no category covers. -/
def OpKind.category? : OpKind → Option Category
  | .constant _ | .addi | .subi | .andi | .ori | .xori | .shli | .cmpi _ | .select | .indexCast
  | .alloca _ => some .combinational
  | .load _ | .store _ => some .sequential
  | .muli => some .multiCycle
  | .divsi | .remsi | .addf | .subf | .mulf | .divf | .call _ => none

/-- Latencies per category; a category may be left without one. -/
structure Library where
  combinational : Option Int
  sequential : Option Int
  multiCycle : Option Int
  deriving DecidableEq, Repr

namespace Library

/-- The latency a library gives a category. -/
def latency (lib : Library) : Category → Option Int
  | .combinational => lib.combinational
  | .sequential => lib.sequential
  | .multiCycle => lib.multiCycle

/-- The library used when none is given: combinational 0, sequential 1, multi-cycle 3. -/
def standard : Library := ⟨some 0, some 1, some 3⟩

/-- The library with no latency at all. -/
def empty : Library := ⟨none, none, none⟩

/-- The library with `latency` set for `c`. -/
def withLatency (lib : Library) (c : Category) (latency : Int) : Library :=
  match c with
  | .combinational => { lib with combinational := some latency }
  | .sequential => { lib with sequential := some latency }
  | .multiCycle => { lib with multiCycle := some latency }

end Library

example : OpKind.muli.category? = some .multiCycle ∧ OpKind.divf.category? = none := by decide

end ModuloPipelining
