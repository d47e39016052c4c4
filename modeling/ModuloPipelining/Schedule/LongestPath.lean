/-!
# Longest paths under an initiation interval

A constraint `source → target` with latency `L` and distance `d` asks, for an initiation
interval `II`, that `start(target) ≥ start(source) + L − II · d`: its weight is `L − II · d`.

`longestPaths` starts every node at 0, as if a virtual source reached each by an edge of weight
0, and relaxes the constraints round by round, in their order, each constraint seeing the
updates made before it in the same round. A round that changes nothing leaves the least
non-negative solution. Paths from the virtual source have at most `n` edges, so when round
`n + 1` still changes a value some cycle has positive weight and there is no solution.
-/

namespace ModuloPipelining

/-- A difference constraint between two nodes, numbered in program order. -/
structure Constraint where
  source : Nat
  target : Nat
  latency : Int
  distance : Nat
  deriving DecidableEq, Repr

/-- The weight `latency − II · distance` of a constraint. -/
def Constraint.weight (c : Constraint) (ii : Nat) : Int := c.latency - ii * c.distance

/-- Relax one constraint in place; the flag records whether a value grew. -/
def Constraint.relax (ii : Nat) (state : Array Int × Bool) (c : Constraint) : Array Int × Bool :=
  let (start, changed) := state
  let candidate := start.getD c.source 0 + c.weight ii
  if candidate > start.getD c.target 0 then (start.setIfInBounds c.target candidate, true)
  else (start, changed)

/-- One round over all constraints, in order. -/
def relaxRound (ii : Nat) (edges : List Constraint) (start : Array Int) : Array Int × Bool :=
  edges.foldl (Constraint.relax ii) (start, false)

/-- Rounds until one changes nothing, at most `rounds` of them. -/
def relaxRounds (ii : Nat) (edges : List Constraint) : Nat → Array Int → Option (Array Int)
  | 0, _ => none
  | rounds + 1, start =>
    let (next, changed) := relaxRound ii edges start
    if changed then relaxRounds ii edges rounds next else some next

/-- The least non-negative start times of `n` nodes meeting every constraint under `ii`, or
`none` when a cycle has positive weight. -/
def longestPaths (n ii : Nat) (edges : List Constraint) : Option (Array Int) :=
  relaxRounds ii edges (n + 1) (Array.replicate n 0)

/-- Whether the constraints admit a schedule under `ii`. -/
def isFeasible (n ii : Nat) (edges : List Constraint) : Bool := (longestPaths n ii edges).isSome

theorem relaxRound_nil (ii : Nat) (start : Array Int) : relaxRound ii [] start = (start, false) :=
  rfl

theorem Constraint.relax_size (ii : Nat) (state : Array Int × Bool) (c : Constraint) :
    (c.relax ii state).1.size = state.1.size := by
  obtain ⟨start, changed⟩ := state
  simp only [Constraint.relax]
  split <;> simp

theorem foldl_relax_size (ii : Nat) (edges : List Constraint) (state : Array Int × Bool) :
    (edges.foldl (Constraint.relax ii) state).1.size = state.1.size := by
  induction edges generalizing state with
  | nil => rfl
  | cons c rest ih =>
    rw [List.foldl_cons, ih, Constraint.relax_size]

/-- A round keeps one start time per node. -/
theorem relaxRound_size (ii : Nat) (edges : List Constraint) (start : Array Int) :
    (relaxRound ii edges start).1.size = start.size :=
  foldl_relax_size ii edges (start, false)

theorem longestPaths_nil (n ii : Nat) : longestPaths n ii [] = some (Array.replicate n 0) := by
  simp [longestPaths, relaxRounds, relaxRound_nil]

example : longestPaths 2 1 [⟨0, 1, 1, 0⟩, ⟨1, 0, 1, 1⟩] = none := by decide
example : longestPaths 2 2 [⟨0, 1, 1, 0⟩, ⟨1, 0, 1, 1⟩] = some #[0, 1] := by decide

end ModuloPipelining
