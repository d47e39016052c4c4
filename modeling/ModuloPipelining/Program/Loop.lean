import ModuloPipelining.Program.Operation

/-!
# Counted loops

A counted loop runs `for iv = lower; iv <predicate> upper; iv += step`. It carries iteration
arguments: initial values, one result type each, and the values its body yields for the next
iteration. Its body holds operations and nested loops in program order.

The nest depth of an innermost loop is 1; a loop is one deeper than its deepest nested loop.
Looking an operation up by identity finds the first body operation with that identity.
-/

namespace ModuloPipelining

mutual
/-- An item of a loop body. -/
inductive BodyItem where
  | op (op : Operation)
  | loop (loop : Loop)

/-- A counted loop. -/
structure Loop where
  id : Nat
  lowerBound : Bound
  upperBound : Bound
  step : Bound
  predicate : Predicate
  iterInits : List Value
  resultTypes : List ScalarType
  body : List BodyItem
  yields : List Value
end

/-- The operations among body items, in program order. -/
def BodyItem.operations : List BodyItem → List Operation
  | [] => []
  | .op o :: rest => o :: operations rest
  | .loop _ :: rest => operations rest

namespace Loop

/-- The operations directly in the body, in program order. -/
def operations (l : Loop) : List Operation := BodyItem.operations l.body

/-- The first body operation with identity `id`. -/
def findOp? (l : Loop) (id : Nat) : Option Operation := l.operations.find? (·.id == id)

/-- Whether some body operation has identity `id`. -/
def hasOp (l : Loop) (id : Nat) : Bool := l.operations.any (·.id == id)

/-- Lower bound, upper bound and step, when all three are known. -/
def constantBounds? (l : Loop) : Option (Int × Int × Int) := do
  let lower ← l.lowerBound.constant?
  let upper ← l.upperBound.constant?
  let step ← l.step.constant?
  pure (lower, upper, step)

end Loop

mutual
/-- Depth of the nest rooted at a loop: 1 for an innermost loop. -/
def Loop.nestDepth : Loop → Nat
  | ⟨_, _, _, _, _, _, _, body, _⟩ => 1 + BodyItem.maxDepth body

/-- The largest nest depth among the loops of a body, 0 when there is none. -/
def BodyItem.maxDepth : List BodyItem → Nat
  | [] => 0
  | .op _ :: rest => BodyItem.maxDepth rest
  | .loop l :: rest => max l.nestDepth (BodyItem.maxDepth rest)
end

theorem Loop.nestDepth_pos (l : Loop) : 0 < l.nestDepth := by
  obtain ⟨_, _, _, _, _, _, _, body, _⟩ := l
  simp only [Loop.nestDepth]
  omega

theorem Loop.hasOp_iff (l : Loop) (id : Nat) : l.hasOp id = true ↔ ∃ op ∈ l.operations, op.id = id := by
  simp [Loop.hasOp]

theorem Loop.findOp?_isSome (l : Loop) (id : Nat) : (l.findOp? id).isSome = l.hasOp id := by
  rw [Bool.eq_iff_iff]
  simp [Loop.findOp?, Loop.hasOp]

end ModuloPipelining
