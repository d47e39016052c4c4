import ModuloPipelining.Program.TripCount

/-!
# Pipelining candidates

Only innermost counted loops with known bounds and step, a non-zero step, a trip count, and as
many yields and result types as iteration arguments are pipelined. `Loop.candidateBounds`
checks these in that order and reports the first that fails; for a candidate it gives the
bounds and the trip count. Of the bounds, the lower one is checked first, then the upper one,
then the step.
-/

namespace ModuloPipelining

/-- The three numbers that bound a counted loop. -/
inductive BoundRole where
  | lower
  | upper
  | step
  deriving DecidableEq, Repr

/-- How a bound is called in messages. -/
def BoundRole.name : BoundRole → String
  | .lower => "lower bound"
  | .upper => "upper bound"
  | .step => "step"

/-- Why a loop is not a pipelining candidate. -/
inductive EligibilityError where
  | nestedLoop (loop depth : Nat)
  | symbolicBound (loop : Nat) (role : BoundRole) (name : String)
  | zeroStep (loop : Nat)
  | unknownTripCount (loop : Nat)
  | iterationArgumentMismatch (loop inits yields results : Nat)
  deriving DecidableEq, Repr

namespace EligibilityError

/-- The loop the error is about. -/
def loop : EligibilityError → Nat
  | .nestedLoop l _ | .symbolicBound l _ _ | .zeroStep l | .unknownTripCount l
  | .iterationArgumentMismatch l _ _ _ => l

/-- The text of the error. -/
def message : EligibilityError → String
  | .nestedLoop l depth => s!"{loopLabel l} contains a nested loop (nest depth {depth})"
  | .symbolicBound l role name => s!"{loopLabel l} has a non-constant {role.name}: {name}"
  | .zeroStep l => s!"{loopLabel l} has a zero step"
  | .unknownTripCount l =>
    s!"{loopLabel l} has no closed-form trip count under its exit predicate"
  | .iterationArgumentMismatch l inits yields results =>
    s!"{loopLabel l} has {inits} iteration arguments, {yields} yields and {results} result types"

end EligibilityError

/-- Known bounds, step and trip count of a pipelining candidate. -/
structure LoopBounds where
  lower : Int
  upper : Int
  step : Int
  tripCount : Nat
  deriving DecidableEq, Repr

/-- The value of a bound, or the error naming it. -/
def Bound.require (loop : Nat) (role : BoundRole) : Bound → Except EligibilityError Int
  | .constant v => .ok v
  | .symbolic name => .error (.symbolicBound loop role name)

/-- The bounds of a pipelining candidate, or the first reason the loop is none. -/
def Loop.candidateBounds (l : Loop) : Except EligibilityError LoopBounds := do
  let depth := l.nestDepth
  if 1 < depth then throw (.nestedLoop l.id depth)
  let lower ← l.lowerBound.require l.id .lower
  let upper ← l.upperBound.require l.id .upper
  let step ← l.step.require l.id .step
  if step = 0 then throw (.zeroStep l.id)
  let some tripCount := l.tripCount? | throw (.unknownTripCount l.id)
  let (inits, yields, results) := (l.iterInits.length, l.yields.length, l.resultTypes.length)
  if inits ≠ yields ∨ inits ≠ results then
    throw (.iterationArgumentMismatch l.id inits yields results)
  pure ⟨lower, upper, step, tripCount⟩

end ModuloPipelining
