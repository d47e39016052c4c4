import ModuloPipelining.Program.Loop

/-!
# Trip counts

The closed-form number of iterations of a counted loop with known bounds. Unsigned predicates
compare the bounds' unsigned readings. The count is taken only for the shapes whose exit test
eventually fails without the induction variable leaving its word:

* `slt`/`ult` and `sle`/`ule` with a positive step, `sgt`/`ugt` and `sge`/`uge` with a negative
  one: the span divided by the stride, rounded up (strict) or down plus one (inclusive), and 0
  when the loop does not run;
* `ne`: only when the step divides the distance to the bound exactly and points towards it.

Otherwise, or when the first value that fails the test, `lower + count * step`, leaves the
word (the signed 64-bit range, or the unsigned one for the unsigned predicates), there is none.
-/

namespace ModuloPipelining

/-- Iterations covering `span` with `stride`, counting the end when `inclusive`; never negative. -/
def stridesOver (span stride : Int) (inclusive : Bool) : Int :=
  max (if inclusive then span / stride + 1 else (span + stride - 1) / stride) 0

/-- The trip count of `for iv = lower; iv <p> upper; iv += step`. -/
def tripCountOf (p : Predicate) (lower upper step : Int) : Option Nat :=
  if step = 0 then none
  else
    let lo := if p.isUnsigned then unsignedReading lower else lower
    let hi := if p.isUnsigned then unsignedReading upper else upper
    let counted (span stride : Int) (inclusive : Bool) : Option Nat :=
      let count := stridesOver span stride inclusive
      let exit := lo + count * step
      let inWord :=
        if p.isUnsigned then decide (0 ≤ exit ∧ exit < u64Bound) else fitsI64 exit
      if inWord then some count.toNat else none
    match p with
    | .slt | .ult => if 0 < step then counted (hi - lo) step false else none
    | .sle | .ule => if 0 < step then counted (hi - lo) step true else none
    | .sgt | .ugt => if step < 0 then counted (lo - hi) (-step) false else none
    | .sge | .uge => if step < 0 then counted (lo - hi) (-step) true else none
    | .ne =>
      if (hi - lo) % step = 0 ∧ 0 ≤ (hi - lo) / step ∧ (hi - lo) / step < u64Bound then
        some ((hi - lo) / step).toNat
      else none
    | .eq => none

/-- The trip count of a loop, when its bounds are known and its shape has one. -/
def Loop.tripCount? (l : Loop) : Option Nat := do
  let (lower, upper, step) ← l.constantBounds?
  tripCountOf l.predicate lower upper step

example : tripCountOf .slt 0 10 3 = some 4 := by decide
example : tripCountOf .sgt 9 0 (-3) = some 3 := by decide
example : tripCountOf .slt 0 i64Max 2 = none := by decide
example : tripCountOf .ult 0 (-1) 2 = none := by decide
example : tripCountOf .ne 0 12 3 = some 4 := by decide

end ModuloPipelining
