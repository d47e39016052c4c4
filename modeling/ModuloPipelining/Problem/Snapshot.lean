import ModuloPipelining.Problem.Basic

/-!
# Problem snapshots

A snapshot is a copy of what a scheduler reads and writes: for each operation in program order
its text, position, operator type, latency, start time and incoming dependences in insertion
order, and the problem's initiation interval. Snapshots are taken before and after a solve, and
taking one changes nothing.
-/

namespace ModuloPipelining

/-- An incoming dependence as a snapshot shows it. -/
structure DependenceView where
  source : String
  distance : Nat
  kind : DependenceKind
  deriving DecidableEq, Repr

/-- One operation as a snapshot shows it. -/
structure OperationView where
  operation : String
  programIndex : Nat
  operatorType : Option String
  latency : Option Int
  startTime : Option Nat
  dependences : List DependenceView
  deriving DecidableEq, Repr

/-- The scheduling inputs and outputs of a problem at one moment. -/
structure Snapshot where
  initiationInterval : Option Nat
  operations : List OperationView
  deriving DecidableEq, Repr

namespace Problem

variable {α : Type} [DecidableEq α] [ToString α]

/-- The view of one operation at position `index`. -/
def operationView (p : Problem α) (index : Nat) (op : α) : OperationView :=
  { operation := toString op
    programIndex := index
    operatorType := (p.operatorTypeOf? op).map (·.name)
    latency := p.latencyOf? op
    startTime := p.startTime? op
    dependences := (p.dependencesOf op).map fun d => ⟨toString d.source, d.distance, d.kind⟩ }

/-- The snapshot of a problem. -/
def snapshot (p : Problem α) : Snapshot :=
  { initiationInterval := p.initiationInterval
    operations := p.operations.mapIdx fun i op => p.operationView i op }

theorem snapshot_length (p : Problem α) : p.snapshot.operations.length = p.operations.length := by
  simp [snapshot]

end Problem

end ModuloPipelining
