import ModuloPipelining.Schedule.LongestPath
import ModuloPipelining.Word

/-!
# The recurrence bound on the initiation interval

Positive cycles lie inside strongly connected components, so each component with an internal
constraint is searched on its own, over its internal constraints. For a problem that passed its
check, every cycle spans at least one iteration and feasibility only improves as the interval
grows, and no cycle needs more than the sum, over the component's nodes, of each node's largest
outgoing latency. A binary search over `[bound so far, that sum]` (the sum at least 1 and
clamped to the largest 32-bit word) finds the component's least feasible interval; when the upper
end itself is infeasible, or already below the bound so far, the upper end is taken. The bound is
the largest of these, and at least 1.

Components are the classes of mutual reachability; each is named by its least node.
-/

namespace ModuloPipelining

/-- Mark every node reachable from the stack. -/
def reachFrom (succ : Nat → List Nat) : Nat → List Nat → Array Bool → Array Bool
  | 0, _, seen => seen
  | _, [], seen => seen
  | fuel + 1, v :: rest, seen =>
    if seen.getD v true then reachFrom succ fuel rest seen
    else reachFrom succ fuel (succ v ++ rest) (seen.setIfInBounds v true)

/-- For each of `n` nodes, the nodes it reaches (itself included). -/
def reachability (n : Nat) (edges : List Constraint) : Array (Array Bool) :=
  let succ (v : Nat) : List Nat := (edges.filter (·.source == v)).map (·.target)
  let fuel := 2 * (n + edges.length) + 2
  ((List.range n).map fun v => reachFrom succ fuel [v] (Array.replicate n false)).toArray

/-- For each node, the least node of its strongly connected component. -/
def componentOf (n : Nat) (edges : List Constraint) : Array Nat :=
  let reach := reachability n edges
  let together (u v : Nat) : Bool := (reach.getD u #[]).getD v false && (reach.getD v #[]).getD u false
  ((List.range n).map fun v => ((List.range n).find? (together v)).getD v).toArray

/-- The least `ii` in `[low, high]` that `feasible` accepts, for a monotone `feasible` that
accepts `high`: bisection. -/
def lowestFeasible (feasible : Nat → Bool) : Nat → Nat → Nat → Nat
  | 0, low, _ => low
  | fuel + 1, low, high =>
    if low < high then
      let mid := low + (high - low) / 2
      if feasible mid then lowestFeasible feasible fuel low mid
      else lowestFeasible feasible fuel (mid + 1) high
    else low

/-- The bound after searching the component named `c`, given the bound so far. -/
def componentBound (n : Nat) (edges : List Constraint) (comp : Array Nat) (mii c : Nat) : Nat :=
  let inside (v : Nat) : Bool := comp.getD v v == c
  let inner := edges.filter fun e => inside e.source && inside e.target
  if inner.isEmpty then mii
  else
    let nodeLatency (v : Nat) : Int :=
      (inner.filter (·.source == v)).foldl (fun m e => max m e.latency) 0
    let total : Int := ((List.range n).filter inside).foldl (fun s v => s + nodeLatency v) 0
    let high : Nat := if max total 1 ≤ u32Max then (max total 1).toNat else u32Max
    if high ≤ mii ∨ !isFeasible n high inner then max mii high
    else max mii (lowestFeasible (fun ii => isFeasible n ii inner) high mii high)

/-- The recurrence-constrained minimum initiation interval of `n` nodes. -/
def recurrenceMii (n : Nat) (edges : List Constraint) : Nat :=
  let comp := componentOf n edges
  let names := (List.range n).filter fun v => comp.getD v v == v
  names.foldl (componentBound n edges comp) 1

theorem lowestFeasible_le (feasible : Nat → Bool) (fuel low high : Nat) (h : low ≤ high) :
    lowestFeasible feasible fuel low high ≤ high := by
  induction fuel generalizing low high with
  | zero => simpa [lowestFeasible]
  | succ fuel ih =>
    simp only [lowestFeasible]
    split
    · split
      · exact Nat.le_trans (ih _ _ (by omega)) (by omega)
      · exact ih _ _ (by omega)
    · exact h


example : recurrenceMii 2 [⟨0, 1, 2, 1⟩, ⟨1, 0, 2, 1⟩] = 2 := by decide
example : recurrenceMii 1 [⟨0, 0, 3, 1⟩] = 3 := by decide

end ModuloPipelining
