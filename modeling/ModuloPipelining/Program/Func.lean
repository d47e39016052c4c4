import ModuloPipelining.Program.Loop
import ModuloPipelining.Pipeline.Basic

/-!
# Functions

A function has a name, argument types and a sequence of top-level items: operations, counted
loops and pipelines. Its loops are listed by identity in program order; looking a loop up, or
replacing it by a pipeline, concerns the first top-level loop with that identity.
-/

namespace ModuloPipelining

/-- A top-level item of a function. -/
inductive Item where
  | op (op : Operation)
  | loop (loop : Loop)
  | pipeline (pipeline : Pipeline)

/-- A function of loops and straight-line operations. -/
structure Func where
  name : String
  arguments : List ScalarType
  items : List Item

/-- Whether an item is the loop with identity `id`. -/
def Item.isLoop (id : Nat) : Item → Bool
  | .loop l => l.id == id
  | _ => false

namespace Func

/-- The identities of the top-level loops, in program order. -/
def loopIds (f : Func) : List Nat :=
  f.items.filterMap fun
    | .loop l => some l.id
    | _ => none

/-- The first top-level loop with identity `id`. -/
def findLoop? (f : Func) (id : Nat) : Option Loop :=
  f.items.findSome? fun
    | .loop l => if l.id = id then some l else none
    | _ => none

/-- The pipelines among the items, in program order. -/
def pipelines (f : Func) : List Pipeline :=
  f.items.filterMap fun
    | .pipeline p => some p
    | _ => none

/-- Replace the first top-level loop with identity `id` by a pipeline. -/
def replaceItems (id : Nat) (p : Pipeline) : List Item → Option (List Item)
  | [] => none
  | item :: rest =>
    if Item.isLoop id item then some (.pipeline p :: rest)
    else (replaceItems id p rest).map (item :: ·)

/-- The function with its first loop `id` replaced by a pipeline; `none` when there is none. -/
def replaceLoop (f : Func) (id : Nat) (p : Pipeline) : Option Func :=
  (replaceItems id p f.items).map fun items => { f with items := items }

theorem replaceItems_length (id : Nat) (p : Pipeline) (items out : List Item)
    (h : replaceItems id p items = some out) : out.length = items.length := by
  induction items generalizing out with
  | nil => simp [replaceItems] at h
  | cons item rest ih =>
    simp only [replaceItems] at h
    split at h
    · cases h; rfl
    · obtain ⟨tail, ht, rfl⟩ := Option.map_eq_some_iff.1 h
      simp [ih tail ht]

end Func

end ModuloPipelining
