/-!
# Cyclic scheduling problems

A problem holds the operations of one loop body in program order, operator types in
registration order, the operator type each operation is linked to, and dependences in insertion
order. A dependence carries an iteration distance, so the dependence graph may have cycles as
long as each one spans an iteration. A schedule adds an initiation interval and start times.

Operations are opaque keys of any type with decidable equality. Inserting an operation or a
dependence that is already there changes nothing; a dependence registers its endpoints, source
first.

A problem also remembers whether it passed its check since it last changed. Every change that
could break a checked condition clears that mark: a new operation, a new operator type, a
latency, a link and a new dependence. Start times and the initiation interval leave it alone.
-/

namespace ModuloPipelining

/-- What a dependence orders: a value passed from its source, or only the order of two effects. -/
inductive DependenceKind where
  | data
  | auxiliary
  deriving DecidableEq, Repr

/-- `source` must complete before `destination` starts, `distance` iterations later. -/
structure Dependence (α : Type) where
  source : α
  destination : α
  distance : Nat
  kind : DependenceKind
  deriving DecidableEq, Repr

/-- A named operator type and, once set, its latency in cycles. -/
structure OperatorType where
  name : String
  latency : Option Int
  deriving DecidableEq, Repr

/-- Put `value` under `key` in an association list: in place when the key is there, else last. -/
def setEntry {α β : Type} [DecidableEq α] (key : α) (value : β) : List (α × β) → List (α × β)
  | [] => [(key, value)]
  | (k, v) :: rest => if k = key then (key, value) :: rest else (k, v) :: setEntry key value rest

/-- A scheduling problem over operations of type `α`. -/
structure Problem (α : Type) where
  operations : List α
  operatorTypes : List OperatorType
  links : List (α × Nat)
  dependences : List (Dependence α)
  startTimes : List (α × Nat)
  initiationInterval : Option Nat
  checked : Bool
  deriving Repr

namespace Problem

variable {α : Type} [DecidableEq α]

/-- The problem with nothing in it. -/
def empty : Problem α := ⟨[], [], [], [], [], none, false⟩

/-- Whether an operation is registered. -/
def hasOperation (p : Problem α) (op : α) : Bool := p.operations.contains op

/-- The position of an operation in program order. -/
def programIndex? (p : Problem α) (op : α) : Option Nat := p.operations.idxOf? op

/-- Register an operation at the end of program order, unless it is there already. -/
def insertOperation (p : Problem α) (op : α) : Problem α :=
  if p.operations.contains op then p
  else { p with operations := p.operations ++ [op], checked := false }

/-- The registration index of the operator type called `name`. -/
def typeIndex? (p : Problem α) (name : String) : Option Nat :=
  p.operatorTypes.findIdx? (·.name == name)

/-- Register an operator type without latency, unless one of that name exists; either way give
its registration index. -/
def insertOperatorType (p : Problem α) (name : String) : Problem α × Nat :=
  match p.typeIndex? name with
  | some i => (p, i)
  | none =>
    ({ p with operatorTypes := p.operatorTypes ++ [⟨name, none⟩], checked := false },
      p.operatorTypes.length)

/-- Set the latency of a registered operator type; other indices are ignored. -/
def setLatency (p : Problem α) (type : Nat) (latency : Int) : Problem α :=
  if type < p.operatorTypes.length then
    { p with
      operatorTypes := p.operatorTypes.mapIdx fun i t =>
        if i = type then { t with latency := some latency } else t
      checked := false }
  else p

/-- Link an operation, registered if need be, to an operator type. -/
def link (p : Problem α) (op : α) (type : Nat) : Problem α :=
  let p := p.insertOperation op
  { p with links := setEntry op type p.links, checked := false }

/-- The operator type an operation is linked to. -/
def linkOf? (p : Problem α) (op : α) : Option Nat := p.links.lookup op

/-- The operator type an operation is linked to, when it is registered. -/
def operatorTypeOf? (p : Problem α) (op : α) : Option OperatorType := do
  let i ← p.linkOf? op
  p.operatorTypes[i]?

/-- The latency of the operator type linked to an operation. -/
def latencyOf? (p : Problem α) (op : α) : Option Int := do
  let t ← p.operatorTypeOf? op
  t.latency

/-- Add a dependence, registering both endpoints, unless an equal one is there. -/
def insertDependence (p : Problem α) (d : Dependence α) : Problem α :=
  let p := (p.insertOperation d.source).insertOperation d.destination
  if p.dependences.contains d then p
  else { p with dependences := p.dependences ++ [d], checked := false }

/-- The dependences into an operation, in insertion order. -/
def dependencesOf (p : Problem α) (op : α) : List (Dependence α) :=
  p.dependences.filter (·.destination == op)

/-- The start time of an operation, when one is set. -/
def startTime? (p : Problem α) (op : α) : Option Nat := p.startTimes.lookup op

/-- Set the start time of an operation; the operation need not be registered. -/
def setStartTime (p : Problem α) (op : α) (start : Nat) : Problem α :=
  { p with startTimes := setEntry op start p.startTimes }

/-- Set the initiation interval. -/
def setInitiationInterval (p : Problem α) (ii : Nat) : Problem α :=
  { p with initiationInterval := some ii }

/-- The largest start time set, of any operation. -/
def maxStartTime? (p : Problem α) : Option Nat := (p.startTimes.map (·.2)).max?

@[simp] theorem insertOperation_operations (p : Problem α) (op : α) :
    (p.insertOperation op).operations =
      if op ∈ p.operations then p.operations else p.operations ++ [op] := by
  unfold insertOperation
  by_cases h : op ∈ p.operations <;> simp [h]

theorem hasOperation_insertOperation (p : Problem α) (op : α) :
    (p.insertOperation op).hasOperation op = true := by
  unfold hasOperation
  by_cases h : op ∈ p.operations <;> simp [h]

@[simp] theorem setStartTime_checked (p : Problem α) (op : α) (start : Nat) :
    (p.setStartTime op start).checked = p.checked := rfl

omit [DecidableEq α] in
@[simp] theorem setInitiationInterval_checked (p : Problem α) (ii : Nat) :
    (p.setInitiationInterval ii).checked = p.checked := rfl

theorem lookup_setEntry {β : Type} (key : α) (value : β) (l : List (α × β)) :
    (setEntry key value l).lookup key = some value := by
  induction l with
  | nil => simp [setEntry]
  | cons kv rest ih =>
    obtain ⟨k, v⟩ := kv
    by_cases h : k = key
    · subst h; simp [setEntry]
    · have hk : (key == k) = false := by simp; exact fun e => h e.symm
      simp [setEntry, h, List.lookup_cons, hk, ih]

@[simp] theorem startTime?_setStartTime (p : Problem α) (op : α) (start : Nat) :
    (p.setStartTime op start).startTime? op = some start :=
  lookup_setEntry op start p.startTimes

end Problem

end ModuloPipelining
