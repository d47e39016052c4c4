import ModuloPipelining.Problem.Basic

/-!
# The operation named for a distance-0 cycle

Dependences of distance 0 must not form a cycle. A topological sort of them either orders all
operations or names one operation on a cycle; the search order fixes which one, and that is the
operation a check reports. On a graph whose nodes are `0 … n-1`:

1. A depth-first search with an explicit stack starts from each undiscovered node in order.
   A node stays on the stack when it is first discovered and pushes its undiscovered
   successors, newest edge first, so that the oldest edge is followed next; a node with an edge
   to itself is named at once. A node that comes to the top again is popped and, the first time,
   finished.
2. A second search runs over the reversed edges from each node in reverse finish order, with one
   discovered set for all starts. It pops the stack to an undiscovered node, discovers it and
   pushes its undiscovered predecessors, newest edge first. A start that reaches a second node
   names that node: it lies on a cycle with the start.

Each run of the first search is bounded by a fuel count of twice the nodes plus edges, which
its steps never exceed: every step discovers a node or pops one of at most `1 + edges` pushes.
-/

namespace ModuloPipelining

namespace CycleSearch

/-- Successors of a node, newest edge first. -/
def successors (edges : List (Nat × Nat)) (v : Nat) : List Nat :=
  (edges.filter (·.1 == v)).reverse.map (·.2)

/-- Predecessors of a node, newest edge first. -/
def predecessors (edges : List (Nat × Nat)) (v : Nat) : List Nat :=
  (edges.filter (·.2 == v)).reverse.map (·.1)

/-- Marks of the first search; `order` lists finished nodes, last finished first. -/
structure Marks where
  discovered : Array Bool
  finished : Array Bool
  order : List Nat

/-- One run of the first search on a stack whose top is its head; a self loop names its node. -/
def finishRun (succ : Nat → List Nat) : Nat → List Nat → Marks → Except Nat Marks
  | 0, _, m => .ok m
  | _, [], m => .ok m
  | fuel + 1, v :: rest, m =>
    if m.discovered.getD v true then
      if m.finished.getD v true then finishRun succ fuel rest m
      else
        finishRun succ fuel rest
          { m with finished := m.finished.setIfInBounds v true, order := v :: m.order }
    else
      let m := { m with discovered := m.discovered.setIfInBounds v true }
      let next := succ v
      if next.contains v then .error v
      else
        let pushed := next.filter fun s => !m.discovered.getD s true
        finishRun succ fuel (pushed.reverse ++ v :: rest) m

/-- The first search from every node in order. -/
def firstPass (n : Nat) (edges : List (Nat × Nat)) : Except Nat Marks :=
  let fuel := 2 * (n + edges.length) + 2
  (List.range n).foldlM
    (fun m i => if m.discovered.getD i true then pure m else finishRun (successors edges) fuel [i] m)
    ⟨Array.replicate n false, Array.replicate n false, []⟩

/-- Pop to an undiscovered node, discover it and push its undiscovered neighbours. -/
def nextDiscovered (nbr : Nat → List Nat) :
    List Nat → Array Bool → Option (Nat × List Nat × Array Bool)
  | [], _ => none
  | v :: rest, disc =>
    if disc.getD v true then nextDiscovered nbr rest disc
    else
      let disc := disc.setIfInBounds v true
      let pushed := (nbr v).filter fun s => !disc.getD s true
      some (v, pushed.reverse ++ rest, disc)

/-- The second search from each node of `order`; a start that reaches a second node names it. -/
def secondPass (nbr : Nat → List Nat) : List Nat → Array Bool → Option Nat
  | [], _ => none
  | i :: rest, disc =>
    match nextDiscovered nbr [i] disc with
    | none => secondPass nbr rest disc
    | some (_, stack, disc) =>
      match nextDiscovered nbr stack disc with
      | some (j, _, _) => some j
      | none => secondPass nbr rest disc

/-- The node named for a cycle of the graph on `0 … n-1`, or `none` when it has no cycle. -/
def cycleNode? (n : Nat) (edges : List (Nat × Nat)) : Option Nat :=
  match firstPass n edges with
  | .error v => some v
  | .ok m => secondPass (predecessors edges) m.order (Array.replicate n false)

example : cycleNode? 3 [(0, 1), (1, 2), (2, 1)] = some 2 := by decide
example : cycleNode? 3 [(2, 1), (1, 0), (0, 2)] = some 1 := by decide
example : cycleNode? 4 [(3, 2), (2, 3), (1, 0), (0, 1)] = some 3 := by decide
example : cycleNode? 3 [(0, 1), (1, 2)] = none := by decide

end CycleSearch

namespace Problem

variable {α : Type} [DecidableEq α]

/-- The operation a check names for a cycle of distance-0 dependences, if there is one. -/
def intraIterationCycle? (p : Problem α) : Option α :=
  let index (op : α) : Nat := (p.programIndex? op).getD 0
  let edges := (p.dependences.filter (·.distance == 0)).map fun d =>
    (index d.source, index d.destination)
  (CycleSearch.cycleNode? p.operations.length edges).bind fun i => p.operations[i]?

end Problem

end ModuloPipelining
