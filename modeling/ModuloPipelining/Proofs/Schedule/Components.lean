import ModuloPipelining.Proofs.Graph.Marks
import ModuloPipelining.Proofs.Schedule.Relaxation
import ModuloPipelining.Schedule.Recurrence

/-!
# Strongly connected components of the constraints

`reachability` marks, from each node, the nodes its search reaches, and `componentOf` names each
node's component by the least node that reaches it and that it reaches. Both are exact on
constraints that join the first `n` nodes:

* a search marks exactly the nodes reachable from its start (`reachFrom_sound`,
  `reachFrom_closed`); its budget of twice the nodes plus edges is more than it needs, since each
  step pops the stack or marks a node, and `unmarkedWork` bounds the steps left;
* two nodes get the same name exactly when each reaches the other, and a name names itself
  (`componentOf_eq_of_mutual`, `componentOf_name`).
-/

namespace ModuloPipelining

/-- `v` can be reached from `u` along the constraints. -/
def Reaches (edges : List Constraint) (u v : Nat) : Prop :=
  ∃ w, Walk Constraint.source Constraint.target edges u w v

theorem Reaches.refl (edges : List Constraint) (u : Nat) : Reaches edges u u := ⟨[], .nil u⟩

theorem Reaches.trans {edges : List Constraint} {u v x : Nat} (h₁ : Reaches edges u v)
    (h₂ : Reaches edges v x) : Reaches edges u x := by
  obtain ⟨w₁, hw₁⟩ := h₁
  obtain ⟨w₂, hw₂⟩ := h₂
  exact ⟨w₁ ++ w₂, hw₁.append hw₂⟩

theorem getD_map_range_toArray {α : Type} (f : Nat → α) {n v : Nat} (hv : v < n) (d : α) :
    ((List.range n).map f).toArray.getD v d = f v := by
  rw [Array.getD_eq_getD_getElem?, List.getElem?_toArray, List.getElem?_map,
    List.getElem?_range hv]
  rfl

section Search

variable {succ : Nat → List Nat}

theorem reachFrom_size (fuel : Nat) (stack : List Nat) (seen : Array Bool) :
    (reachFrom succ fuel stack seen).size = seen.size := by
  induction fuel generalizing stack seen with
  | zero => rfl
  | succ fuel ih =>
    cases stack with
    | nil => rfl
    | cons v rest =>
      simp only [reachFrom]
      split
      · exact ih _ _
      · rw [ih, Array.size_setIfInBounds]

theorem reachFrom_mono (fuel : Nat) (stack : List Nat) (seen : Array Bool) {x : Nat}
    (hx : seen.getD x true = true) : (reachFrom succ fuel stack seen).getD x true = true := by
  induction fuel generalizing stack seen with
  | zero => exact hx
  | succ fuel ih =>
    cases stack with
    | nil => exact hx
    | cons v rest =>
      simp only [reachFrom]
      split
      · exact ih _ _ hx
      · exact ih _ _ (getD_setIfInBounds_true hx)

/-- A search marks only nodes marked before or satisfying any property that holds of its stack
and passes to successors. -/
theorem reachFrom_sound (P : Nat → Prop) (hstep : ∀ x y, P x → y ∈ succ x → P y)
    (fuel : Nat) (stack : List Nat) (seen : Array Bool) (hstack : ∀ y ∈ stack, P y) (x : Nat)
    (hx : (reachFrom succ fuel stack seen).getD x true = true) : seen.getD x true = true ∨ P x := by
  induction fuel generalizing stack seen with
  | zero => exact .inl hx
  | succ fuel ih =>
    cases stack with
    | nil => exact .inl hx
    | cons v rest =>
      simp only [reachFrom] at hx
      split at hx
      · exact ih rest seen (fun y hy => hstack y (List.mem_cons_of_mem _ hy)) hx
      · have hv := hstack v (List.mem_cons_self ..)
        have hnext : ∀ y ∈ succ v ++ rest, P y := by
          intro y hy
          rcases List.mem_append.1 hy with hy | hy
          · exact hstep v y hv hy
          · exact hstack y (List.mem_cons_of_mem _ hy)
        rcases ih _ _ hnext hx with hmarked | hp
        · rw [getD_setIfInBounds] at hmarked
          split at hmarked
          · rename_i h
            exact .inr (h.1 ▸ hv)
          · exact .inl hmarked
        · exact .inr hp

/-- A search given enough budget ends with its marks closed under successors and every node of
its stack marked. -/
theorem reachFrom_closed (fuel : Nat) (stack : List Nat) (seen : Array Bool)
    (hfuel : stack.length + unmarkedWork seen (fun x => (succ x).length) ≤ fuel)
    (hclosed : ∀ x, seen.getD x true = true → ∀ y ∈ succ x, seen.getD y true = true ∨ y ∈ stack) :
    (∀ x, (reachFrom succ fuel stack seen).getD x true = true →
        ∀ y ∈ succ x, (reachFrom succ fuel stack seen).getD y true = true) ∧
      ∀ y ∈ stack, (reachFrom succ fuel stack seen).getD y true = true := by
  induction fuel generalizing stack seen with
  | zero =>
    have hnil : stack = [] := List.eq_nil_of_length_eq_zero (by omega)
    subst hnil
    refine ⟨fun x hx y hy => ?_, by simp⟩
    rcases hclosed x hx y hy with h | h
    · exact h
    · cases h
  | succ fuel ih =>
    cases stack with
    | nil =>
      refine ⟨fun x hx y hy => ?_, by simp⟩
      rcases hclosed x hx y hy with h | h
      · exact h
      · cases h
    | cons v rest =>
      simp only [reachFrom]
      split
      · rename_i hv
        have hclosed' : ∀ x, seen.getD x true = true → ∀ y ∈ succ x,
            seen.getD y true = true ∨ y ∈ rest := by
          intro x hx y hy
          rcases hclosed x hx y hy with h | h
          · exact .inl h
          · rcases List.mem_cons.1 h with rfl | h
            · exact .inl hv
            · exact .inr h
        obtain ⟨hres, hrest⟩ := ih rest seen (by simp at hfuel; omega) hclosed'
        refine ⟨hres, fun y hy => ?_⟩
        rcases List.mem_cons.1 hy with rfl | hy
        · exact reachFrom_mono _ _ _ hv
        · exact hrest y hy
      · rename_i hv
        have hv' : seen.getD v true = false := by simpa using hv
        have hwork := unmarkedWork_mark (fun x => (succ x).length) hv'
        have hclosed' : ∀ x, (seen.setIfInBounds v true).getD x true = true → ∀ y ∈ succ x,
            (seen.setIfInBounds v true).getD y true = true ∨ y ∈ succ v ++ rest := by
          intro x hx y hy
          rw [getD_setIfInBounds] at hx
          split at hx
          · rename_i hxv
            rw [← hxv.1] at hy
            exact .inr (List.mem_append_left _ hy)
          · rcases hclosed x hx y hy with h | h
            · exact .inl (getD_setIfInBounds_true h)
            · rcases List.mem_cons.1 h with rfl | h
              · exact .inl (getD_setIfInBounds_self (lt_size_of_getD_eq_false hv') _ _)
              · exact .inr (List.mem_append_right _ h)
        obtain ⟨hres, hstack⟩ := ih (succ v ++ rest) (seen.setIfInBounds v true)
          (by simp at hfuel ⊢; omega) hclosed'
        refine ⟨hres, fun y hy => ?_⟩
        rcases List.mem_cons.1 hy with rfl | hy
        · exact reachFrom_mono _ _ _
            (getD_setIfInBounds_self (lt_size_of_getD_eq_false hv') _ _)
        · exact hstack y (List.mem_append_right _ hy)

end Search

section Components

variable {n : Nat} {edges : List Constraint}

theorem mem_targets_iff {x y : Nat} :
    y ∈ (edges.filter (·.source == x)).map (·.target) ↔ ∃ c ∈ edges, c.source = x ∧ c.target = y := by
  simp [and_assoc]

/-- Marks closed under the constraints' successors and holding `u` hold every node `u`
reaches. -/
theorem marked_of_reaches {marks : Array Bool}
    (hclosed : ∀ x, marks.getD x true = true →
      ∀ y ∈ (edges.filter (·.source == x)).map (·.target), marks.getD y true = true)
    {u v : Nat} {w : List Constraint} (hw : Walk Constraint.source Constraint.target edges u w v)
    (hu : marks.getD u true = true) : marks.getD v true = true := by
  induction hw with
  | nil => exact hu
  | cons mem start _ ih =>
    subst start
    exact ih (hclosed _ hu _ (mem_targets_iff.2 ⟨_, mem, rfl, rfl⟩))

/-- The search from `u` marks exactly the nodes that `u` reaches. -/
theorem reachability_iff (hrange : InRange n edges) {u v : Nat} (hu : u < n) (hv : v < n) :
    ((reachability n edges).getD u #[]).getD v false = true ↔ Reaches edges u v := by
  let succ : Nat → List Nat := fun x => (edges.filter (·.source == x)).map (·.target)
  let marks := reachFrom succ (2 * (n + edges.length) + 2) [u] (Array.replicate n false)
  have hrow : (reachability n edges).getD u #[] = marks :=
    getD_map_range_toArray (fun v => reachFrom succ (2 * (n + edges.length) + 2) [v]
      (Array.replicate n false)) hu #[]
  have hsize : marks.size = n := by
    simp only [marks, reachFrom_size, Array.size_replicate]
  have hv' : marks.getD v false = marks.getD v true := by
    simp only [Array.getD_eq_getD_getElem?, Array.getElem?_eq_getElem (hsize ▸ hv),
      Option.getD_some]
  have hfresh : ∀ x, x < n → (Array.replicate n false).getD x true = false := by
    intro x hx
    simp only [Array.getD_eq_getD_getElem?, Array.getElem?_replicate, if_pos hx, Option.getD_some]
  rw [hrow, hv']
  constructor
  · intro hmarked
    have hstep : ∀ x y, Reaches edges u x → y ∈ succ x → Reaches edges u y := by
      intro x y hx hy
      obtain ⟨c, hc, rfl, rfl⟩ := mem_targets_iff.1 hy
      obtain ⟨w, hw⟩ := hx
      exact ⟨w ++ [c], hw.snoc hc⟩
    rcases reachFrom_sound _ hstep _ [u] _ (by simpa using Reaches.refl edges u) v hmarked with
      h | h
    · rw [hfresh v hv] at h
      cases h
    · exact h
  · intro ⟨w, hw⟩
    have hwork : unmarkedWork (Array.replicate n false) (fun x => (succ x).length) ≤ edges.length := by
      refine le_trans (unmarkedWork_le _ _) ?_
      simpa [succ] using sum_outDegree_le Constraint.source edges n
    have hclosed : ∀ x, (Array.replicate n false).getD x true = true →
        ∀ y ∈ succ x, (Array.replicate n false).getD y true = true ∨ y ∈ [u] := by
      intro x hx y hy
      obtain ⟨c, hc, rfl, -⟩ := mem_targets_iff.1 hy
      rw [hfresh _ (hrange c hc).1] at hx
      cases hx
    obtain ⟨hres, hroot⟩ := reachFrom_closed (2 * (n + edges.length) + 2) [u]
      (Array.replicate n false) (by simp at hwork ⊢; omega) hclosed
    exact marked_of_reaches hres hw (hroot u (List.mem_singleton_self u))

/-- Whether two nodes reach each other, as the component search computes it. -/
theorem together_iff (hrange : InRange n edges) {u v : Nat} (hu : u < n) (hv : v < n) :
    (((reachability n edges).getD u #[]).getD v false &&
        ((reachability n edges).getD v #[]).getD u false) = true ↔
      Reaches edges u v ∧ Reaches edges v u := by
  rw [Bool.and_eq_true, reachability_iff hrange hu hv, reachability_iff hrange hv hu]

/-- The name of a node's component is the least node it reaches and is reached by. -/
theorem componentOf_spec (hrange : InRange n edges) {v : Nat} (hv : v < n) :
    (componentOf n edges).getD v v < n ∧
      (Reaches edges v ((componentOf n edges).getD v v) ∧
        Reaches edges ((componentOf n edges).getD v v) v) ∧
      ∀ x < (componentOf n edges).getD v v, ¬ (Reaches edges v x ∧ Reaches edges x v) := by
  let together (x : Nat) : Bool := ((reachability n edges).getD v #[]).getD x false &&
    ((reachability n edges).getD x #[]).getD v false
  have hname : (componentOf n edges).getD v v = ((List.range n).find? together).getD v :=
    getD_map_range_toArray (fun v => ((List.range n).find? fun x =>
      ((reachability n edges).getD v #[]).getD x false &&
        ((reachability n edges).getD x #[]).getD v false).getD v) hv v
  have hself : together v = true := (together_iff hrange hv hv).2 ⟨.refl _ _, .refl _ _⟩
  obtain ⟨c, hc⟩ := Option.isSome_iff_exists.1
    (List.find?_isSome.2 ⟨v, List.mem_range.2 hv, hself⟩)
  obtain ⟨htc, hcn, hbefore⟩ := List.find?_range_eq_some.1 hc
  have hcn' := List.mem_range.1 hcn
  rw [hname, hc, Option.getD_some]
  refine ⟨hcn', (together_iff hrange hv hcn').1 htc, fun x hx hmutual => ?_⟩
  have hfalse := hbefore x hx
  have htrue : together x = true := (together_iff hrange hv (by omega)).2 hmutual
  rw [htrue] at hfalse
  cases hfalse

/-- Nodes that reach each other have the same component name. -/
theorem componentOf_eq_of_mutual (hrange : InRange n edges) {u v : Nat} (hu : u < n) (hv : v < n)
    (huv : Reaches edges u v) (hvu : Reaches edges v u) :
    (componentOf n edges).getD u u = (componentOf n edges).getD v v := by
  obtain ⟨-, ⟨hu₁, hu₂⟩, hu_least⟩ := componentOf_spec hrange hu
  obtain ⟨-, ⟨hv₁, hv₂⟩, hv_least⟩ := componentOf_spec hrange hv
  have hle₁ : (componentOf n edges).getD v v ≤ (componentOf n edges).getD u u := by
    by_contra hlt
    exact hv_least _ (by omega) ⟨hvu.trans hu₁, hu₂.trans huv⟩
  have hle₂ : (componentOf n edges).getD u u ≤ (componentOf n edges).getD v v := by
    by_contra hlt
    exact hu_least _ (by omega) ⟨huv.trans hv₁, hv₂.trans hvu⟩
  omega

/-- A component's name names its own component. -/
theorem componentOf_name (hrange : InRange n edges) {v : Nat} (hv : v < n) :
    (componentOf n edges).getD ((componentOf n edges).getD v v) ((componentOf n edges).getD v v) =
      (componentOf n edges).getD v v := by
  obtain ⟨hlt, ⟨h₁, h₂⟩, -⟩ := componentOf_spec hrange hv
  exact componentOf_eq_of_mutual hrange hlt hv h₂ h₁

end Components

end ModuloPipelining
