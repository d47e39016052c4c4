import ModuloPipelining.Schedule.Recurrence
import ModuloPipelining.Problem.Check

/-!
# Modulo scheduling

`Problem.solve` schedules a checked problem in place. It turns each dependence into a constraint
(`Problem.constraints`), takes the recurrence bound as the lowest candidate interval, and tries
candidates upwards to the configured limit `max(lower · max(factor, 1), lower + span)`, computed
in saturating 32-bit arithmetic. The first candidate with a solution is accepted; its least start
times are shifted so that the earliest is 0 and stored operation by operation in program order,
then the interval is stored and the schedule verified.

A start time that does not fit a 32-bit word stops the solve with the operations before it
already stored. The stage count is the largest start time stored in the problem plus one (one
when there is none); a largest start time of `2^32 - 1` has no stage count in a 32-bit word and
traps.
-/

namespace ModuloPipelining

/-- Bounds of the search for an initiation interval. -/
structure SchedulerConfig where
  maxIiFactor : Nat
  minSearchSpan : Nat
  deriving DecidableEq, Repr

namespace SchedulerConfig

/-- Candidates up to four times the recurrence bound, and at least sixteen above it. -/
def standard : SchedulerConfig := ⟨4, 16⟩

/-- The largest candidate tried above a lower bound. -/
def searchLimit (cfg : SchedulerConfig) (lower : Nat) : Nat :=
  max (u32SatMul lower (max cfg.maxIiFactor 1)) (u32SatAdd lower cfg.minSearchSpan)

end SchedulerConfig

/-- What a successful solve reports. -/
structure Summary where
  recurrenceMii : Nat
  initiationInterval : Nat
  candidatesTried : Nat
  stageCount : Nat
  deriving DecidableEq, Repr

/-- Why a solve failed. -/
inductive ScheduleError (α : Type) where
  | unchecked
  | problem (e : ProblemError α)
  | searchExhausted (lower upper : Nat)
  | startTimeOverflow (op : α)
  | verification (e : ProblemError α)
  deriving DecidableEq, Repr

/-- The text of a solve failure. -/
def ScheduleError.message {α : Type} [ToString α] : ScheduleError α → String
  | .unchecked => "scheduling problem must pass check() before it is solved"
  | .problem e => e.message
  | .searchExhausted lower upper => s!"no feasible initiation interval in [{lower}, {upper}]"
  | .startTimeOverflow op => s!"start time of operation {op} does not fit in a cycle counter"
  | .verification e => "computed schedule failed verification: " ++ e.message

namespace Problem

variable {α : Type} [DecidableEq α]

/-- One constraint per dependence, between program positions, weighted by the source latency. -/
def constraints (p : Problem α) : Except (ProblemError α) (List Constraint) :=
  p.dependences.mapM fun d =>
    match p.latencyOf? d.source with
    | none => .error (.unlinkedOperation d.source)
    | some latency =>
      .ok ⟨(p.programIndex? d.source).getD 0, (p.programIndex? d.destination).getD 0, latency,
        d.distance⟩

/-- The first candidate from `ii` on, at most `fuel` of them, with a solution. -/
def firstFeasible (n : Nat) (edges : List Constraint) (ii : Nat) :
    Nat → Option (Nat × Array Int)
  | 0 => none
  | fuel + 1 =>
    match longestPaths n ii edges with
    | some start => some (ii, start)
    | none => firstFeasible n edges (ii + 1) fuel

/-- Store start times in order; the first that leaves the 32-bit range stops and is named. -/
def storeStarts (p : Problem α) : List (α × Int) → Problem α × Option α
  | [] => (p, none)
  | (op, t) :: rest =>
    if fitsU32 t then (p.setStartTime op t.toNat).storeStarts rest else (p, some op)

/-- The stage count of the stored schedule: largest start time plus one. -/
def stageCount (p : Problem α) : Except Fault Nat :=
  match p.maxStartTime? with
  | none => .ok 1
  | some m => if m < u32Max then .ok (m + 1) else .error .add

/-- Solve a problem in place: the problem afterwards and the outcome. -/
def solve (cfg : SchedulerConfig) (p : Problem α) :
    Except Fault (Problem α × Except (ScheduleError α) Summary) :=
  if !p.checked then .ok (p, .error .unchecked)
  else
    match p.constraints with
    | .error e => .ok (p, .error (.problem e))
    | .ok edges =>
      let n := p.operations.length
      let lower := recurrenceMii n edges
      let upper := cfg.searchLimit lower
      match firstFeasible n edges lower (upper + 1 - lower) with
      | none => .ok (p, .error (.searchExhausted lower upper))
      | some (ii, start) =>
        let origin := (start.toList.min?).getD 0
        let timed := p.operations.zip (start.toList.map (· - origin))
        match p.storeStarts timed with
        | (q, some op) => .ok (q, .error (.startTimeOverflow op))
        | (q, none) =>
          let q := q.setInitiationInterval ii
          match q.verify with
          | .error e => .ok (q, .error (.verification e))
          | .ok () => do
            let stages ← q.stageCount
            pure (q, .ok ⟨lower, ii, ii + 1 - lower, stages⟩)

theorem solve_unchecked (cfg : SchedulerConfig) (p : Problem α) (h : p.checked = false) :
    p.solve cfg = .ok (p, .error .unchecked) := by
  simp [solve, h]

end Problem

end ModuloPipelining
