import Mathlib

/-!
# Marks on nodes, and the work a search has left

The searches of the scheduler (reachability, and the two passes of the cycle search) keep one
mark per node in an array of booleans; a node outside the array counts as marked. Each search
runs on an explicit stack with a budget fixed in advance, and each of its steps either pops the
stack or marks a node and pushes at most its successors.

`unmarkedWork marks work` charges every unmarked node the work that marking it will cause. The
stack length plus that charge then drops by at least one per step, and at the start it is at
most one plus the nodes plus the edges: this is how each search is shown to finish within its
budget.
-/

namespace ModuloPipelining

theorem getD_setIfInBounds {α : Type} (a : Array α) (i j : Nat) (x d : α) :
    (a.setIfInBounds i x).getD j d = if i = j ∧ i < a.size then x else a.getD j d := by
  rw [Array.getD_eq_getD_getElem?, Array.getD_eq_getD_getElem?, Array.getElem?_setIfInBounds]
  rcases Nat.decEq i j with hij | rfl
  · simp [hij]
  · by_cases hin : i < a.size <;> simp [hin]

theorem getD_of_size_le {α : Type} (a : Array α) {j : Nat} (d : α) (h : a.size ≤ j) :
    a.getD j d = d := by
  rw [Array.getD_eq_getD_getElem?, Array.getElem?_eq_none h]
  rfl

@[simp] theorem getD_replicate {α : Type} (n v : Nat) (x : α) :
    (Array.replicate n x).getD v x = x := by
  simp only [Array.getD_eq_getD_getElem?, Array.getElem?_replicate]
  split <;> rfl

/-- An unmarked node lies inside the array. -/
theorem getD_replicate_of_lt {α : Type} {n v : Nat} (hv : v < n) (x d : α) :
    (Array.replicate n x).getD v d = x := by
  simp [Array.getD_eq_getD_getElem?, hv]

theorem lt_size_of_getD_eq_false {marks : Array Bool} {v : Nat} (h : marks.getD v true = false) :
    v < marks.size := by
  by_contra hge
  rw [getD_of_size_le marks true (Nat.le_of_not_lt hge)] at h
  cases h

theorem getD_setIfInBounds_self {α : Type} {a : Array α} {v : Nat} (hv : v < a.size) (x d : α) :
    (a.setIfInBounds v x).getD v d = x := by
  rw [getD_setIfInBounds, if_pos ⟨rfl, hv⟩]

/-- A marked node stays marked when another is marked. -/
theorem getD_setIfInBounds_true {marks : Array Bool} {v x : Nat} (h : marks.getD x true = true) :
    (marks.setIfInBounds v true).getD x true = true := by
  rw [getD_setIfInBounds]
  split <;> simp_all

/-- What the unmarked nodes of an array will cost, each node `v` costing `work v`. -/
def unmarkedWork (marks : Array Bool) (work : Nat → Nat) : Nat :=
  ∑ v ∈ Finset.range marks.size, if marks.getD v true then 0 else work v

/-- Marking an unmarked node takes its cost off the work left. -/
theorem unmarkedWork_mark {marks : Array Bool} {v : Nat} (work : Nat → Nat)
    (hv : marks.getD v true = false) :
    unmarkedWork (marks.setIfInBounds v true) work + work v = unmarkedWork marks work := by
  have hlt : v < marks.size := lt_size_of_getD_eq_false hv
  have hmem : v ∈ Finset.range marks.size := Finset.mem_range.2 hlt
  unfold unmarkedWork
  rw [Array.size_setIfInBounds, ← Finset.add_sum_erase _ _ hmem, ← Finset.add_sum_erase _ _ hmem]
  have hrest : ∑ x ∈ (Finset.range marks.size).erase v,
      (if (marks.setIfInBounds v true).getD x true then 0 else work x) =
      ∑ x ∈ (Finset.range marks.size).erase v, (if marks.getD x true then 0 else work x) := by
    refine Finset.sum_congr rfl fun x hx => ?_
    have hne : v ≠ x := fun h => (Finset.ne_of_mem_erase hx) h.symm
    have hkeep : (marks.setIfInBounds v true).getD x true = marks.getD x true := by
      rw [getD_setIfInBounds, if_neg fun h => hne h.1]
    rw [hkeep]
  rw [hrest, getD_setIfInBounds_self hlt, hv]
  simp only [if_true, Bool.false_eq_true, if_false]
  omega

theorem unmarkedWork_le (marks : Array Bool) (work : Nat → Nat) :
    unmarkedWork marks work ≤ ∑ v ∈ Finset.range marks.size, work v := by
  unfold unmarkedWork
  refine Finset.sum_le_sum fun v _ => ?_
  split <;> omega

/-- Summed over the nodes, the edges leaving each node are at most all the edges. -/
theorem sum_outDegree_le {ε : Type} (source : ε → Nat) (edges : List ε) (n : Nat) :
    ∑ v ∈ Finset.range n, (edges.filter (fun e => source e == v)).length ≤ edges.length := by
  induction edges with
  | nil => simp
  | cons e edges ih =>
    have hsplit : ∀ v, ((e :: edges).filter (fun e => source e == v)).length =
        (edges.filter (fun e => source e == v)).length + if source e = v then 1 else 0 := by
      intro v
      by_cases h : source e = v <;> simp [h]
    simp only [hsplit, Finset.sum_add_distrib, List.length_cons]
    have hone : (∑ v ∈ Finset.range n, if source e = v then 1 else 0) ≤ 1 := by
      rw [Finset.sum_ite_eq]
      split <;> omega
    omega

end ModuloPipelining
