import Mathlib

/-!
# Walks along a list of edges

Three graphs meet in the scheduler: the dependences of a problem, the constraints handed to the
longest-path search, and the index pairs read by the cycle search. Each is a list of edges with
a source and a target, so walks are defined once for any edge type. A walk is a list of edges in
which each edge leaves the node the previous one entered; it is closed when it ends where it
starts.

The one combinatorial fact used throughout: a walk that leaves some node twice runs through a
closed walk that can be cut out, leaving a walk between the same ends (`Walk.cut_cycle`). From
it, a closed walk of positive weight contains one that leaves each of its nodes once
(`Walk.exists_simple_pos`), and when no closed walk has positive weight every walk is outweighed
by one that leaves each node at most once (`Walk.exists_short`).
-/

namespace ModuloPipelining

/-- A walk from `u` to `v` along `edges`: each edge leaves the node the previous one entered. -/
inductive Walk {ε ν : Type} (source target : ε → ν) (edges : List ε) : ν → List ε → ν → Prop
  | nil (v : ν) : Walk source target edges v [] v
  | cons {u v : ν} {e : ε} {w : List ε} (mem : e ∈ edges) (start : source e = u)
      (rest : Walk source target edges (target e) w v) : Walk source target edges u (e :: w) v

/-- A list with a repeated element, split around two of its occurrences. -/
private theorem split_of_not_nodup {α : Type} {l : List α} (h : ¬ l.Nodup) :
    ∃ x p q r, l = p ++ x :: q ++ x :: r := by
  induction l with
  | nil => exact absurd List.nodup_nil h
  | cons a t ih =>
    by_cases ha : a ∈ t
    · obtain ⟨q, r, rfl⟩ := List.append_of_mem ha
      exact ⟨a, [], q, r, rfl⟩
    · have ht : ¬ t.Nodup := fun hnd => h (List.nodup_cons.2 ⟨ha, hnd⟩)
      obtain ⟨x, p, q, r, rfl⟩ := ih ht
      exact ⟨x, a :: p, q, r, rfl⟩

namespace Walk

variable {ε ν : Type} {source target : ε → ν} {edges : List ε}

theorem append {u v x : ν} {w₁ w₂ : List ε} (h₁ : Walk source target edges u w₁ v)
    (h₂ : Walk source target edges v w₂ x) : Walk source target edges u (w₁ ++ w₂) x := by
  induction h₁ with
  | nil => exact h₂
  | cons mem start _ ih => exact .cons mem start (ih h₂)

theorem split {u x : ν} {w₁ w₂ : List ε} (h : Walk source target edges u (w₁ ++ w₂) x) :
    ∃ v, Walk source target edges u w₁ v ∧ Walk source target edges v w₂ x := by
  induction w₁ generalizing u with
  | nil => exact ⟨u, .nil u, h⟩
  | cons e w₁ ih =>
    cases h with
    | cons mem start rest =>
      obtain ⟨v, h₁, h₂⟩ := ih rest
      exact ⟨v, .cons mem start h₁, h₂⟩

theorem single {e : ε} (he : e ∈ edges) : Walk source target edges (source e) [e] (target e) :=
  .cons he rfl (.nil _)

/-- Extend a walk by one edge at its end. -/
theorem snoc {u : ν} {w : List ε} {e : ε} (h : Walk source target edges u w (source e))
    (he : e ∈ edges) : Walk source target edges u (w ++ [e]) (target e) :=
  h.append (single he)

theorem eq_of_nil {u v : ν} (h : Walk source target edges u [] v) : u = v := by
  cases h
  rfl

theorem source_head {u v : ν} {e : ε} {w : List ε} (h : Walk source target edges u (e :: w) v) :
    source e = u := by
  cases h with
  | cons _ start _ => exact start

theorem mem_edges {u v : ν} {w : List ε} (h : Walk source target edges u w v) :
    ∀ e ∈ w, e ∈ edges := by
  induction h with
  | nil => simp
  | cons mem _ _ ih =>
    intro e he
    rcases List.mem_cons.1 he with rfl | he
    · exact mem
    · exact ih e he

/-- A walk whose edges all lie in a second list is a walk along it too. -/
theorem restrict {edges' : List ε} {u v : ν} {w : List ε} (h : Walk source target edges u w v)
    (sub : ∀ e ∈ w, e ∈ edges') : Walk source target edges' u w v := by
  induction h with
  | nil v => exact .nil v
  | cons mem start _ ih =>
    exact .cons (sub _ (List.mem_cons_self ..)) start
      (ih fun e he => sub e (List.mem_cons_of_mem _ he))

/-- Carry a walk to another graph along maps of edges and nodes that respect both ends. -/
theorem map {ε' ν' : Type} {source' target' : ε' → ν'} {edges' : List ε'} (f : ε → ε')
    (g : ν → ν') (hs : ∀ e ∈ edges, source' (f e) = g (source e))
    (ht : ∀ e ∈ edges, target' (f e) = g (target e)) (hm : ∀ e ∈ edges, f e ∈ edges')
    {u v : ν} {w : List ε} (h : Walk source target edges u w v) :
    Walk source' target' edges' (g u) (w.map f) (g v) := by
  induction h with
  | nil v => exact .nil (g v)
  | cons mem start _ ih =>
    refine .cons (hm _ mem) ?_ ?_
    · rw [hs _ mem, start]
    · rw [ht _ mem]
      exact ih

/-- Lift a walk of an image graph back to the graph, when the map of nodes is injective on the
ends of the edges and the walk starts at the image of one of them. -/
theorem lift {ε' ν' : Type} {source' target' : ε' → ν'} (f : ε → ε') (g : ν → ν')
    (hs : ∀ e ∈ edges, source' (f e) = g (source e)) (ht : ∀ e ∈ edges, target' (f e) = g (target e))
    (nodes : Set ν) (hends : ∀ e ∈ edges, source e ∈ nodes ∧ target e ∈ nodes)
    (hinj : ∀ a ∈ nodes, ∀ b ∈ nodes, g a = g b → a = b) {u' v' : ν'} {w' : List ε'}
    (h : Walk source' target' (edges.map f) u' w' v') {a : ν} (ha : a ∈ nodes) (hau : g a = u') :
    ∃ w b, Walk source target edges a w b ∧ w.map f = w' ∧ g b = v' ∧ b ∈ nodes := by
  induction h generalizing a with
  | nil v => exact ⟨[], a, .nil a, rfl, hau, ha⟩
  | cons mem start rest ih =>
    obtain ⟨e, he, rfl⟩ := List.mem_map.1 mem
    have hsrc : source e = a := hinj _ (hends e he).1 _ ha (by rw [← hs e he, start, hau])
    obtain ⟨w, b, hw, hmap, hb, hbn⟩ := ih (hends e he).2 (ht e he).symm
    exact ⟨e :: w, b, .cons he hsrc hw, by rw [List.map_cons, hmap], hb, hbn⟩

/-- A walk that leaves some node twice runs through a closed walk `c` from that node; cutting
it out leaves a walk between the same ends, and neither part is empty. -/
theorem cut_cycle {u v : ν} {w : List ε} (h : Walk source target edges u w v)
    (hdup : ¬ (w.map source).Nodup) :
    ∃ x w₁ c w₂, w = w₁ ++ c ++ w₂ ∧ c ≠ [] ∧ w₂ ≠ [] ∧
      Walk source target edges u (w₁ ++ w₂) v ∧ Walk source target edges x c x := by
  obtain ⟨x, p, q, r, hsplit⟩ := split_of_not_nodup hdup
  rw [List.append_assoc, List.cons_append] at hsplit
  obtain ⟨w₁, rest, rfl, -, hrest⟩ := List.map_eq_append_iff.1 hsplit
  rw [← List.cons_append] at hrest
  obtain ⟨c, w₂, rfl, hc, hw₂⟩ := List.map_eq_append_iff.1 hrest
  obtain ⟨e, c', rfl, he, -⟩ := List.map_eq_cons_iff.1 hc
  obtain ⟨e₂, w₂', rfl, he₂, -⟩ := List.map_eq_cons_iff.1 hw₂
  obtain ⟨a, h₁, hrest⟩ := h.split
  obtain ⟨b, hc, h₂⟩ := hrest.split
  have ha : a = x := hc.source_head ▸ he
  have hb : b = x := h₂.source_head ▸ he₂
  rw [ha] at h₁ hc
  rw [hb] at hc h₂
  exact ⟨x, w₁, e :: c', e₂ :: w₂', by simp, by simp, by simp, h₁.append h₂, hc⟩

/-- A closed walk of positive weight contains a closed walk of positive weight, made of some of
its edges, that leaves each of its nodes once. -/
theorem exists_simple_pos (f : ε → ℤ) {x : ν} {w : List ε} (h : Walk source target edges x w x)
    (hpos : 0 < (w.map f).sum) :
    ∃ y c, Walk source target edges y c y ∧ c ≠ [] ∧ (c.map source).Nodup ∧
      0 < (c.map f).sum ∧ ∀ e ∈ c, e ∈ w := by
  induction hlen : w.length using Nat.strong_induction_on generalizing x w with
  | _ n ih =>
    by_cases hnd : (w.map source).Nodup
    · have hne : w ≠ [] := by
        rintro rfl
        simp at hpos
      exact ⟨x, w, h, hne, hnd, hpos, fun _ he => he⟩
    · obtain ⟨y, w₁, c, w₂, rfl, hc, hw₂, hrest, hcyc⟩ := h.cut_cycle hnd
      have hsum : ((w₁ ++ c ++ w₂).map f).sum = (c.map f).sum + ((w₁ ++ w₂).map f).sum := by
        simp only [List.map_append, List.sum_append]
        ring
      have hc_lt : c.length < n := by
        rw [← hlen]
        simp only [List.length_append]
        have := List.length_pos_of_ne_nil hw₂
        omega
      have hrest_lt : (w₁ ++ w₂).length < n := by
        rw [← hlen]
        simp only [List.length_append]
        have := List.length_pos_of_ne_nil hc
        omega
      -- one of the two parts keeps a positive share of the weight
      by_cases hcpos : 0 < (c.map f).sum
      · obtain ⟨z, d, hd, hne, hnd', hdpos, hsub⟩ := ih _ hc_lt hcyc hcpos rfl
        exact ⟨z, d, hd, hne, hnd', hdpos, fun e he => by simp [hsub e he]⟩
      · obtain ⟨z, d, hd, hne, hnd', hdpos, hsub⟩ := ih _ hrest_lt hrest (by omega) rfl
        refine ⟨z, d, hd, hne, hnd', hdpos, fun e he => ?_⟩
        have := hsub e he
        simp only [List.mem_append] at this ⊢
        tauto

/-- When no closed walk has positive weight, every walk is outweighed by a walk between the
same ends that leaves each node at most once. -/
theorem exists_short (f : ε → ℤ)
    (hcyc : ∀ x c, Walk source target edges x c x → (c.map f).sum ≤ 0)
    {u v : ν} {w : List ε} (h : Walk source target edges u w v) :
    ∃ w', Walk source target edges u w' v ∧ (w'.map source).Nodup ∧
      (w.map f).sum ≤ (w'.map f).sum := by
  induction hlen : w.length using Nat.strong_induction_on generalizing w with
  | _ n ih =>
    by_cases hnd : (w.map source).Nodup
    · exact ⟨w, h, hnd, le_rfl⟩
    · obtain ⟨y, w₁, c, w₂, rfl, hc, -, hrest, hloop⟩ := h.cut_cycle hnd
      have hlt : (w₁ ++ w₂).length < n := by
        rw [← hlen]
        simp only [List.length_append]
        have := List.length_pos_of_ne_nil hc
        omega
      obtain ⟨w', hw', hnd', hle⟩ := ih _ hlt hrest rfl
      have hsum : ((w₁ ++ c ++ w₂).map f).sum = (c.map f).sum + ((w₁ ++ w₂).map f).sum := by
        simp only [List.map_append, List.sum_append]
        ring
      have := hcyc y c hloop
      exact ⟨w', hw', hnd', by omega⟩

end Walk

end ModuloPipelining
