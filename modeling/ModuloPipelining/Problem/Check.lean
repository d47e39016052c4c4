import ModuloPipelining.Problem.Cycle
import ModuloPipelining.Word

/-!
# Checking problems and verifying schedules

`Problem.check` accepts a problem before it is scheduled. It reports the first violation in
this order: an operation, in program order, without a registered operator type; an operator
type, in registration order, without a latency or with a negative one; a cycle of distance-0
dependences, named as `Problem.intraIterationCycle?` names it. A problem that passes is marked
checked.

`Problem.verify` accepts a schedule: a positive initiation interval, a start time for every
operation, and for every dependence, in insertion order,
`start(source) + latency(source) ≤ start(destination) + II · distance`.
-/

namespace ModuloPipelining

/-- Violations found by checking a problem or verifying its schedule. -/
inductive ProblemError (α : Type) where
  | unlinkedOperation (op : α)
  | unregisteredOperatorType (op : α)
  | missingLatency (name : String)
  | negativeLatency (name : String) (latency : Int)
  | intraIterationCycle (op : α)
  | invalidInitiationInterval
  | missingStartTime (op : α)
  | precedenceViolated (source destination : α) (available start : Int) (distance ii : Nat)
  deriving DecidableEq, Repr

/-- The text of a violation, with operations written by their `ToString` form. -/
def ProblemError.message {α : Type} [ToString α] : ProblemError α → String
  | .unlinkedOperation op => s!"operation {op} is not linked to an operator type"
  | .unregisteredOperatorType op => s!"operation {op} uses an unregistered operator type"
  | .missingLatency name => s!"operator type \x27{name}\x27 has no latency"
  | .negativeLatency name latency =>
    s!"operator type \x27{name}\x27 has negative latency {latency}"
  | .intraIterationCycle op => s!"dependences of distance 0 form a cycle through operation {op}"
  | .invalidInitiationInterval => "invalid initiation interval"
  | .missingStartTime op => s!"operation {op} has no start time"
  | .precedenceViolated source destination available start distance ii =>
    s!"precedence violated: {source} result available at t={available}, {destination} starts at t={start} (distance {distance}, II={ii})"

/-- The violation of an operator type without a non-negative latency. -/
def OperatorType.violation? {α : Type} (t : OperatorType) : Option (ProblemError α) :=
  match t.latency with
  | none => some (.missingLatency t.name)
  | some l => if l < 0 then some (.negativeLatency t.name l) else none

namespace Problem

variable {α : Type} [DecidableEq α]

/-- The first operation without a registered operator type. -/
def linkViolation? (p : Problem α) : Option (ProblemError α) :=
  p.operations.findSome? fun op =>
    match p.linkOf? op with
    | none => some (.unlinkedOperation op)
    | some i => if i < p.operatorTypes.length then none else some (.unregisteredOperatorType op)

/-- The first violation of the checked conditions. -/
def violation? (p : Problem α) : Option (ProblemError α) :=
  match p.linkViolation? with
  | some e => some e
  | none =>
    match p.operatorTypes.findSome? OperatorType.violation? with
    | some e => some e
    | none => p.intraIterationCycle?.map .intraIterationCycle

/-- Check a problem: the checked problem, or the first violation (the problem stays as it was). -/
def check (p : Problem α) : Except (ProblemError α) (Problem α) :=
  match p.violation? with
  | some e => .error e
  | none => .ok { p with checked := true }

/-- The precedence of one dependence under interval `ii`. -/
def verifyDependence (p : Problem α) (ii : Nat) (d : Dependence α) : Except (ProblemError α) Unit := do
  let some startSource := p.startTime? d.source | throw (.missingStartTime d.source)
  let some startDest := p.startTime? d.destination | throw (.missingStartTime d.destination)
  let some latency := p.latencyOf? d.source | throw (.unlinkedOperation d.source)
  let available : Int := startSource + latency
  if available > (startDest : Int) + ii * d.distance then
    throw (.precedenceViolated d.source d.destination (min available i64Max) startDest
      d.distance ii)

/-- Verify the schedule held by a problem. -/
def verify (p : Problem α) : Except (ProblemError α) Unit := do
  let ii ← match p.initiationInterval with
    | some ii => if 0 < ii then pure ii else throw .invalidInitiationInterval
    | none => throw .invalidInitiationInterval
  p.operations.forM fun op =>
    if (p.startTime? op).isSome then pure () else throw (.missingStartTime op)
  p.dependences.forM (p.verifyDependence ii)

theorem check_checked {p q : Problem α} (h : p.check = .ok q) : q.checked = true := by
  unfold check at h
  split at h
  · cases h
  · cases h; rfl

theorem check_eq_ok_iff {p : Problem α} : (∃ q, p.check = .ok q) ↔ p.violation? = none := by
  unfold check
  split <;> simp_all

end Problem

end ModuloPipelining
