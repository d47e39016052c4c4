/-!
# Machine words and arithmetic faults

The library computes with exact integers. Its interface, though, stores numbers in machine
words: identifiers, distances, start times and initiation intervals in unsigned 32-bit words,
trip counts, counts and indices in unsigned 64-bit words, constants and latencies in signed
64-bit words. The bounds below say which exact values a word holds.

A few computations are checked against their word and trap when the exact result leaves it.
A `Fault` names such a trap; it ends the whole run, and its message is the one text a run
shows for it. One more fault stands for a recursion that never ends: the run overflows its
stack and gives no answer at all.
-/

namespace ModuloPipelining

/-- Unsigned 32-bit words hold the naturals below this bound, `2 ^ 32`. -/
def u32Bound : Nat := 4294967296

/-- The largest unsigned 32-bit word, `2 ^ 32 - 1`. -/
def u32Max : Nat := 4294967295

/-- Unsigned 64-bit words hold the naturals below this bound, `2 ^ 64`. -/
def u64Bound : Nat := 18446744073709551616

/-- The least signed 64-bit word, `-2 ^ 63`. -/
def i64Min : Int := -9223372036854775808

/-- The largest signed 64-bit word, `2 ^ 63 - 1`. -/
def i64Max : Int := 9223372036854775807

/-- Whether an integer fits a signed 64-bit word. -/
def fitsI64 (n : Int) : Bool := decide (i64Min ≤ n ∧ n ≤ i64Max)

/-- Whether an integer fits an unsigned 32-bit word. -/
def fitsU32 (n : Int) : Bool := decide (0 ≤ n ∧ n < u32Bound)

/-- Ways a run stops without a result: the exact result of the named arithmetic operation
leaves its word, or a recursion never ends. -/
inductive Fault where
  | subtract
  | remainder
  | negate
  | add
  | endless
  deriving DecidableEq, Repr

namespace Fault

/-- The text a run shows when it stops on the fault. -/
def message : Fault → String
  | .subtract => "attempt to subtract with overflow"
  | .remainder => "attempt to calculate the remainder with overflow"
  | .negate => "attempt to negate with overflow"
  | .add => "attempt to add with overflow"
  | .endless => "fatal runtime error: stack overflow"

end Fault

/-- Saturating addition of unsigned 32-bit words. -/
def u32SatAdd (a b : Nat) : Nat := min (a + b) u32Max

/-- Saturating multiplication of unsigned 32-bit words. -/
def u32SatMul (a b : Nat) : Nat := min (a * b) u32Max

theorem u32SatAdd_le (a b : Nat) : u32SatAdd a b ≤ u32Max := Nat.min_le_right _ _

theorem u32SatMul_le (a b : Nat) : u32SatMul a b ≤ u32Max := Nat.min_le_right _ _

example : fitsI64 i64Min = true ∧ fitsI64 (i64Max + 1) = false := by decide

end ModuloPipelining
