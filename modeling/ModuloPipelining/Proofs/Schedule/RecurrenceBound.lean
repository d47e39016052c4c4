import ModuloPipelining.Proofs.Schedule.Components

/-!
# The recurrence bound is the least feasible interval

`recurrenceMii n edges` searches each strongly connected component on its own. When no closed
walk of constraints spans zero iterations, its answer is the least interval of at least 1 under
which no closed walk has positive weight, or the largest 32-bit word when no interval up to it
has that property (`recurrenceMii_spec`).

The argument follows the search:

* feasibility only improves as the interval grows (`NoPositiveCycle.mono`), and the binary search
  finds the least feasible point of a range whose top is feasible (`lowestFeasible_spec`);
* a component is feasible at its total latency: a positive closed walk would contain a positive
  one that leaves each node once, whose latency is at most the total and whose distance is at
  least 1 (`noPositiveCycle_of_total_le`); so an infeasible top of the range is the clamped one;
* each closed walk of the whole graph stays inside one component
  (`noPositiveCycle_of_components`), so the bounds of the components combine by maximum.

Since some interval is always feasible, the bound is the least feasible interval clamped to the
largest word (`recurrenceMii_eq_min`).
-/

namespace ModuloPipelining

/-- Every closed walk of constraints but the empty one spans at least one iteration. -/
def NoZeroCycle (edges : List Constraint) : Prop :=
  ∀ x w, Walk Constraint.source Constraint.target edges x w x → w ≠ [] →
    0 < (w.map (·.distance)).sum

theorem weight_sum (ii : Nat) (w : List Constraint) :
    (w.map (·.weight ii)).sum = (w.map (·.latency)).sum - ii * (((w.map (·.distance)).sum : Nat) : ℤ) := by
  induction w with
  | nil => simp
  | cons c w ih =>
    rw [List.map_cons, List.sum_cons, ih]
    simp only [List.map_cons, List.sum_cons, Constraint.weight]
    push_cast
    ring

section Feasibility

variable {n : Nat} {edges : List Constraint}

/-- A larger interval keeps every closed walk non-positive: distances are never negative. -/
theorem NoPositiveCycle.mono {ii ii' : Nat} (hle : ii ≤ ii') (h : NoPositiveCycle ii edges) :
    NoPositiveCycle ii' edges := by
  intro x w hw
  have hweights : (w.map (·.weight ii')).sum ≤ (w.map (·.weight ii)).sum := by
    apply List.sum_le_sum
    intro c _
    have : (ii : ℤ) * c.distance ≤ ii' * c.distance :=
      Int.mul_le_mul_of_nonneg_right (by exact_mod_cast hle) (by positivity)
    simp only [Constraint.weight]
    omega
  exact le_trans hweights (h x w hw)

theorem NoPositiveCycle.of_subset {ii : Nat} {edges' : List Constraint}
    (hsub : ∀ c ∈ edges', c ∈ edges) (h : NoPositiveCycle ii edges) : NoPositiveCycle ii edges' :=
  fun x w hw => h x w (hw.restrict fun c hc => hsub c (hw.mem_edges c hc))

theorem NoPositiveCycle.nil (ii : Nat) : NoPositiveCycle ii [] := by
  intro x w hw
  cases w with
  | nil => simp
  | cons c w => exact absurd (hw.mem_edges c (List.mem_cons_self ..)) (List.not_mem_nil)

theorem isFeasible_iff {ii : Nat} (hrange : InRange n edges) :
    isFeasible n ii edges = true ↔ NoPositiveCycle ii edges :=
  longestPaths_isSome_iff hrange

end Feasibility

/-- Bisection finds the least feasible point of `[low, high]` for a monotone test that accepts
`high`, given one step per point of the range. -/
theorem lowestFeasible_spec (feasible : Nat → Bool)
    (hmono : ∀ a b, a ≤ b → feasible a = true → feasible b = true) (fuel low high : Nat)
    (hle : low ≤ high) (hfuel : high - low ≤ fuel) (hhigh : feasible high = true) :
    low ≤ lowestFeasible feasible fuel low high ∧ lowestFeasible feasible fuel low high ≤ high ∧
      feasible (lowestFeasible feasible fuel low high) = true ∧
      ∀ x, low ≤ x → x < lowestFeasible feasible fuel low high → feasible x = false := by
  induction fuel generalizing low high with
  | zero =>
    obtain rfl : low = high := by omega
    exact ⟨le_rfl, le_rfl, hhigh, fun x h₁ h₂ => by simp [lowestFeasible] at h₂; omega⟩
  | succ fuel ih =>
    simp only [lowestFeasible]
    split
    · split
      · rename_i hmid
        obtain ⟨h₁, h₂, h₃, h₄⟩ := ih low (low + (high - low) / 2) (by omega) (by omega) hmid
        exact ⟨h₁, by omega, h₃, h₄⟩
      · rename_i hmid
        obtain ⟨h₁, h₂, h₃, h₄⟩ :=
          ih (low + (high - low) / 2 + 1) high (by omega) (by omega) hhigh
        refine ⟨by omega, h₂, h₃, fun x hx hxr => ?_⟩
        by_cases hxm : x ≤ low + (high - low) / 2
        · -- a feasible point below the midpoint would make the midpoint feasible
          cases hfx : feasible x
          · rfl
          · exact absurd (hmono _ _ hxm hfx) hmid
        · exact h₄ x (by omega) hxr
    · obtain rfl : low = high := by omega
      exact ⟨le_rfl, le_rfl, hhigh, fun x h₁ h₂ => by omega⟩

section Component

/-! ### One component -/

/-- The constraints with both ends in the component named `c`. -/
def componentEdges (comp : Array Nat) (c : Nat) (edges : List Constraint) : List Constraint :=
  edges.filter fun e => (comp.getD e.source e.source == c) && (comp.getD e.target e.target == c)

/-- The nodes of the component named `c`, in increasing order. -/
def componentNodes (n : Nat) (comp : Array Nat) (c : Nat) : List Nat :=
  (List.range n).filter fun v => comp.getD v v == c

/-- The largest latency of a constraint of `inner` leaving `v`, and at least 0. -/
def nodeLatency (inner : List Constraint) (v : Nat) : Int :=
  (inner.filter (·.source == v)).foldl (fun m e => max m e.latency) 0

/-- The top of a component's search range: its total latency, at least 1, clamped to a word. -/
def searchTop (total : Int) : Nat := if max total 1 ≤ u32Max then (max total 1).toNat else u32Max

theorem foldl_add_eq_sum (f : Nat → Int) (l : List Nat) (a : Int) :
    l.foldl (fun s v => s + f v) a = a + (l.map f).sum := by
  induction l generalizing a with
  | nil => simp
  | cons v l ih => rw [List.foldl_cons, ih, List.map_cons, List.sum_cons, add_assoc]

theorem le_foldl_max (l : List Constraint) (a : Int) :
    a ≤ l.foldl (fun m e => max m e.latency) a ∧
      ∀ e ∈ l, e.latency ≤ l.foldl (fun m e => max m e.latency) a := by
  induction l generalizing a with
  | nil => simp
  | cons e l ih =>
    obtain ⟨hinit, hall⟩ := ih (max a e.latency)
    refine ⟨le_trans (le_max_left _ _) hinit, fun x hx => ?_⟩
    rcases List.mem_cons.1 hx with rfl | hx
    · exact le_trans (le_max_right _ _) hinit
    · exact hall x hx

theorem nodeLatency_nonneg (inner : List Constraint) (v : Nat) : 0 ≤ nodeLatency inner v :=
  (le_foldl_max _ 0).1

theorem latency_le_nodeLatency {inner : List Constraint} {e : Constraint} (he : e ∈ inner) :
    e.latency ≤ nodeLatency inner e.source :=
  (le_foldl_max _ 0).2 e (List.mem_filter.2 ⟨he, by simp⟩)

theorem searchTop_pos (total : Int) : 1 ≤ searchTop total := by
  unfold searchTop
  split <;> simp [u32Max]

theorem searchTop_le (total : Int) : searchTop total ≤ u32Max := by
  unfold searchTop
  split
  · rename_i h
    omega
  · exact le_rfl

/-- Below the clamp the top of the range covers the total. -/
theorem searchTop_eq_max_of_ne {total : Int} (h : searchTop total ≠ u32Max) :
    total ≤ searchTop total := by
  unfold searchTop at h ⊢
  split
  · omega
  · rename_i hgt
    rw [if_neg hgt] at h
    exact absurd rfl h

/-- The bound after a component whose search range tops out at `high`. -/
def searchBound (feasible : Nat → Bool) (mii high : Nat) : Nat :=
  if high ≤ mii ∨ !feasible high then max mii high
  else max mii (lowestFeasible feasible high mii high)

theorem componentBound_eq (n : Nat) (edges : List Constraint) (comp : Array Nat) (mii c : Nat) :
    componentBound n edges comp mii c =
      if (componentEdges comp c edges).isEmpty then mii
      else searchBound (fun ii => isFeasible n ii (componentEdges comp c edges)) mii
        (searchTop ((componentNodes n comp c).map (nodeLatency (componentEdges comp c edges))).sum) := by
  simp only [componentBound, componentEdges, componentNodes, searchTop, searchBound,
    foldl_add_eq_sum, zero_add]
  rfl

/-- The search after one component: it moves the bound up to the component's least feasible
interval, or to the top of the range when the top is infeasible, which is then the clamp. -/
theorem searchBound_spec (F : Nat → Prop) (feasible : Nat → Bool)
    (hF : ∀ ii, feasible ii = true ↔ F ii) (hmono : ∀ a b, a ≤ b → F a → F b) {mii high : Nat}
    (hmax : mii ≤ u32Max) (hhigh : high ≤ u32Max) (htop : F high ∨ high = u32Max) :
    mii ≤ searchBound feasible mii high ∧ searchBound feasible mii high ≤ u32Max ∧
      (∀ ii, mii ≤ ii → ii < searchBound feasible mii high → ¬F ii) ∧
      (F (searchBound feasible mii high) ∨ (searchBound feasible mii high = u32Max ∧ ¬F u32Max)) := by
  unfold searchBound
  split
  · rename_i hcase
    by_cases hFhigh : F high
    · have hlow : high ≤ mii := by
        rcases hcase with h | h
        · exact h
        · simp [(hF high).2 hFhigh] at h
      rw [max_eq_left hlow]
      exact ⟨le_rfl, hmax, fun ii h₁ h₂ => by omega, .inl (hmono _ _ hlow hFhigh)⟩
    · obtain rfl : high = u32Max := htop.resolve_left hFhigh
      rw [max_eq_right hmax]
      exact ⟨hmax, le_rfl, fun ii _ hii hFii => hFhigh (hmono _ _ hii.le hFii), .inr ⟨rfl, hFhigh⟩⟩
  · rename_i hcase
    obtain ⟨hlt, hfeas⟩ : mii < high ∧ feasible high = true := by simpa [not_or] using hcase
    have hmono' : ∀ a b, a ≤ b → feasible a = true → feasible b = true :=
      fun a b hab ha => (hF b).2 (hmono a b hab ((hF a).1 ha))
    obtain ⟨h₁, h₂, h₃, h₄⟩ := lowestFeasible_spec feasible hmono' high mii high hlt.le (Nat.sub_le _ _) hfeas
    rw [max_eq_right h₁]
    refine ⟨h₁, h₂.trans hhigh, fun ii hii hlt' hFii => ?_, .inl ((hF _).1 h₃)⟩
    rw [← hF, h₄ ii hii hlt'] at hFii
    exact Bool.false_ne_true hFii

/-- The latency of a closed walk that leaves each node once is at most the total of the node
latencies of a component holding every node it leaves. -/
theorem latency_sum_le_total {inner : List Constraint} {nodes : List Nat} (hnodes : nodes.Nodup)
    {w : List Constraint} (hw : ∀ e ∈ w, e ∈ inner) (hnd : (w.map (·.source)).Nodup)
    (hsub : ∀ e ∈ w, e.source ∈ nodes) :
    (w.map (·.latency)).sum ≤ (nodes.map (nodeLatency inner)).sum := by
  calc (w.map (·.latency)).sum
      ≤ (w.map fun e => nodeLatency inner e.source).sum :=
        List.sum_le_sum fun e he => latency_le_nodeLatency (hw e he)
    _ = ((w.map (·.source)).map (nodeLatency inner)).sum := by rw [List.map_map]; rfl
    _ ≤ (nodes.map (nodeLatency inner)).sum := by
        rw [← List.sum_toFinset _ hnd, ← List.sum_toFinset _ hnodes]
        apply Finset.sum_le_sum_of_subset_of_nonneg
        · intro x hx
          simp only [List.mem_toFinset, List.mem_map] at hx ⊢
          obtain ⟨e, he, rfl⟩ := hx
          exact hsub e he
        · intro _ _ _
          exact nodeLatency_nonneg inner _

/-- Without closed walks of distance 0, constraints are feasible under any interval covering the
total latency of the nodes they leave. -/
theorem noPositiveCycle_of_total_le {edges inner : List Constraint}
    (hsub : ∀ e ∈ inner, e ∈ edges) (hzero : NoZeroCycle edges) {nodes : List Nat}
    (hnodes : nodes.Nodup) (hin : ∀ e ∈ inner, e.source ∈ nodes) {ii : Nat}
    (hii : (nodes.map (nodeLatency inner)).sum ≤ ii) : NoPositiveCycle ii inner := by
  intro x w hw
  by_contra hpos
  obtain ⟨y, c, hc, hne, hnd, hcpos, -⟩ := hw.exists_simple_pos (·.weight ii) (by omega)
  have hdist : 0 < (c.map (·.distance)).sum :=
    hzero y c (hc.restrict fun e he => hsub e (hc.mem_edges e he)) hne
  have hlat := latency_sum_le_total hnodes hc.mem_edges hnd fun e he => hin e (hc.mem_edges e he)
  rw [weight_sum] at hcpos
  have hspan : (ii : ℤ) ≤ ii * (((c.map (·.distance)).sum : Nat) : ℤ) := by
    have : (1 : ℤ) ≤ ((c.map (·.distance)).sum : Nat) := by exact_mod_cast hdist
    nlinarith
  omega

variable {n : Nat} {edges : List Constraint}

/-- The top of a component's search range is feasible unless it is the clamp. -/
theorem noPositiveCycle_searchTop (hrange : InRange n edges) (hzero : NoZeroCycle edges)
    (comp : Array Nat) (c : Nat) :
    NoPositiveCycle (searchTop ((componentNodes n comp c).map
        (nodeLatency (componentEdges comp c edges))).sum) (componentEdges comp c edges) ∨
      searchTop ((componentNodes n comp c).map
        (nodeLatency (componentEdges comp c edges))).sum = u32Max := by
  by_cases htop : searchTop ((componentNodes n comp c).map
      (nodeLatency (componentEdges comp c edges))).sum = u32Max
  · exact .inr htop
  · refine .inl (noPositiveCycle_of_total_le (fun e he => (List.mem_filter.1 he).1) hzero
      (List.nodup_range.filter _) (fun e he => ?_) (searchTop_eq_max_of_ne htop))
    obtain ⟨hmem, hinside⟩ := List.mem_filter.1 he
    simp only [Bool.and_eq_true] at hinside
    exact List.mem_filter.2 ⟨List.mem_range.2 (hrange e hmem).1, hinside.1⟩

/-- The bound after searching one component. -/
theorem componentBound_spec (hrange : InRange n edges) (hzero : NoZeroCycle edges)
    (comp : Array Nat) (c : Nat) {mii : Nat} (hmax : mii ≤ u32Max) :
    mii ≤ componentBound n edges comp mii c ∧ componentBound n edges comp mii c ≤ u32Max ∧
      (∀ ii, mii ≤ ii → ii < componentBound n edges comp mii c →
        ¬NoPositiveCycle ii (componentEdges comp c edges)) ∧
      (NoPositiveCycle (componentBound n edges comp mii c) (componentEdges comp c edges) ∨
        (componentBound n edges comp mii c = u32Max ∧
          ¬NoPositiveCycle u32Max (componentEdges comp c edges))) := by
  have hsub : ∀ e ∈ componentEdges comp c edges, e ∈ edges := fun e he => (List.mem_filter.1 he).1
  rw [componentBound_eq]
  split
  · rename_i hempty
    rw [List.isEmpty_iff.1 hempty]
    exact ⟨le_rfl, hmax, fun ii h₁ h₂ => by omega, .inl (NoPositiveCycle.nil mii)⟩
  · exact searchBound_spec _ _ (fun ii => isFeasible_iff fun e he => hrange e (hsub e he))
      (fun a b hab h => h.mono hab) hmax (searchTop_le _) (noPositiveCycle_searchTop hrange hzero comp c)

end Component

section Graph

/-! ### All components -/

variable {n : Nat} {edges : List Constraint}

/-- Every constraint of a closed walk joins two nodes that reach the walk's base and are reached
from it. -/
theorem Walk.reaches_of_mem {x : Nat} {w : List Constraint}
    (hw : Walk Constraint.source Constraint.target edges x w x) {e : Constraint} (he : e ∈ w) :
    (Reaches edges x e.source ∧ Reaches edges e.source x) ∧
      (Reaches edges x e.target ∧ Reaches edges e.target x) := by
  obtain ⟨w₁, w₂, rfl⟩ := List.append_of_mem he
  obtain ⟨y, h₁, h₂⟩ := hw.split
  cases h₂ with
  | cons mem start rest =>
    subst start
    exact ⟨⟨⟨w₁, h₁⟩, ⟨e :: w₂, .cons mem rfl rest⟩⟩, ⟨⟨w₁ ++ [e], h₁.snoc mem⟩, ⟨w₂, rest⟩⟩⟩

/-- A closed walk is feasible once every component is: it stays inside the component of its
base, whose name is one of the names the search visits. -/
theorem noPositiveCycle_of_components (hrange : InRange n edges) {ii : Nat}
    (h : ∀ c ∈ (List.range n).filter (fun v => (componentOf n edges).getD v v == v),
      NoPositiveCycle ii (componentEdges (componentOf n edges) c edges)) :
    NoPositiveCycle ii edges := by
  intro x w hw
  cases w with
  | nil => simp
  | cons e w' =>
    have hx : x < n := by
      cases hw with
      | cons mem start rest => exact start ▸ (hrange e mem).1
    have hname := componentOf_name hrange hx
    have hinner : ∀ f ∈ e :: w', f ∈ componentEdges (componentOf n edges)
        ((componentOf n edges).getD x x) edges := by
      intro f hf
      obtain ⟨⟨hs₁, hs₂⟩, ⟨ht₁, ht₂⟩⟩ := hw.reaches_of_mem hf
      have hfmem := hw.mem_edges f hf
      refine List.mem_filter.2 ⟨hfmem, ?_⟩
      rw [componentOf_eq_of_mutual hrange (hrange f hfmem).1 hx hs₂ hs₁,
        componentOf_eq_of_mutual hrange (hrange f hfmem).2 hx ht₂ ht₁]
      simp
    refine h _ (List.mem_filter.2 ⟨List.mem_range.2 (componentOf_spec hrange hx).1, ?_⟩) x _
      (hw.restrict hinner)
    exact beq_iff_eq.2 hname

/-- What the search has established after the components in `names`: the bound is a word of at
least 1, every smaller interval fails one of them, and all of them meet the bound unless it is
the clamp, which one of them fails. -/
structure BoundSoFar (edges : List Constraint) (comp : Array Nat) (names : List Nat)
    (mii : Nat) : Prop where
  pos : 1 ≤ mii
  le_max : mii ≤ u32Max
  below : ∀ ii, 1 ≤ ii → ii < mii → ∃ c ∈ names, ¬NoPositiveCycle ii (componentEdges comp c edges)
  reached : (∀ c ∈ names, NoPositiveCycle mii (componentEdges comp c edges)) ∨
    (mii = u32Max ∧ ∃ c ∈ names, ¬NoPositiveCycle u32Max (componentEdges comp c edges))

theorem BoundSoFar.start (comp : Array Nat) : BoundSoFar edges comp [] 1 where
  pos := le_rfl
  le_max := by simp [u32Max]
  below := fun ii h₁ h₂ => by omega
  reached := .inl fun c hc => absurd hc List.not_mem_nil

theorem BoundSoFar.step (hrange : InRange n edges) (hzero : NoZeroCycle edges) {comp : Array Nat}
    {names : List Nat} {mii : Nat} (h : BoundSoFar edges comp names mii) (c : Nat) :
    BoundSoFar edges comp (names ++ [c]) (componentBound n edges comp mii c) := by
  obtain ⟨hup, hle, hbelow, hreached⟩ := componentBound_spec hrange hzero comp c h.le_max
  refine ⟨h.pos.trans hup, hle, fun ii h₁ h₂ => ?_, ?_⟩
  · by_cases hii : ii < mii
    · obtain ⟨c', hc', hfail⟩ := h.below ii h₁ hii
      exact ⟨c', List.mem_append_left _ hc', hfail⟩
    · exact ⟨c, by simp, hbelow ii (by omega) h₂⟩
  · rcases hreached with hc | ⟨hmax, hfail⟩
    · rcases h.reached with hall | ⟨hclamp, c', hc', hfail⟩
      · refine .inl fun c' hc' => ?_
        rcases List.mem_append.1 hc' with hc' | hc'
        · exact (hall c' hc').mono hup
        · rw [List.mem_singleton.1 hc']
          exact hc
      · exact .inr ⟨by omega, c', List.mem_append_left _ hc', hfail⟩
    · exact .inr ⟨hmax, c, by simp, hfail⟩

theorem BoundSoFar.foldl (hrange : InRange n edges) (hzero : NoZeroCycle edges)
    {comp : Array Nat} (names : List Nat) {done : List Nat} {mii : Nat}
    (h : BoundSoFar edges comp done mii) :
    BoundSoFar edges comp (done ++ names) (names.foldl (componentBound n edges comp) mii) := by
  induction names generalizing done mii with
  | nil => simpa using h
  | cons c names ih =>
    rw [List.foldl_cons, ← List.singleton_append, ← List.append_assoc]
    exact ih (h.step hrange hzero c)

/-- When every closed walk of constraints spans at least one iteration, the recurrence bound is
the least interval of at least 1 under which no closed walk has positive weight, or the largest
word when no interval up to it has that property. -/
theorem recurrenceMii_spec (hrange : InRange n edges) (hzero : NoZeroCycle edges) :
    1 ≤ recurrenceMii n edges ∧ recurrenceMii n edges ≤ u32Max ∧
      (∀ ii, 1 ≤ ii → ii < recurrenceMii n edges → ¬NoPositiveCycle ii edges) ∧
      (NoPositiveCycle (recurrenceMii n edges) edges ∨
        (recurrenceMii n edges = u32Max ∧ ¬NoPositiveCycle u32Max edges)) := by
  have hsub : ∀ c, ∀ e ∈ componentEdges (componentOf n edges) c edges, e ∈ edges :=
    fun c e he => (List.mem_filter.1 he).1
  have hstart : BoundSoFar edges (componentOf n edges) [] 1 := BoundSoFar.start _
  obtain ⟨hpos, hle, hbelow, hreached⟩ := hstart.foldl hrange hzero
    ((List.range n).filter fun v => (componentOf n edges).getD v v == v)
  refine ⟨hpos, hle, fun ii h₁ h₂ hfeas => ?_, ?_⟩
  · obtain ⟨c, -, hfail⟩ := hbelow ii h₁ h₂
    exact hfail (hfeas.of_subset (hsub c))
  · rcases hreached with hall | ⟨hmax, c, -, hfail⟩
    · exact .inl (noPositiveCycle_of_components hrange hall)
    · exact .inr ⟨hmax, fun hfeas => hfail (hfeas.of_subset (hsub c))⟩

/-- Without closed walks of distance 0 some interval is feasible: the total, over the nodes, of
the largest latency out of each. -/
theorem exists_noPositiveCycle (hrange : InRange n edges) (hzero : NoZeroCycle edges) :
    ∃ ii, 1 ≤ ii ∧ NoPositiveCycle ii edges := by
  refine ⟨max 1 ((List.range n).map (nodeLatency edges)).sum.toNat, le_max_left _ _, ?_⟩
  exact noPositiveCycle_of_total_le (fun e he => he) hzero List.nodup_range
    (fun e he => List.mem_range.2 (hrange e he).1) (by omega)

/-- The recurrence bound is the least feasible interval of at least 1, clamped to the largest
word, and the longest paths over all constraints exist under it unless the clamp cut it. -/
theorem recurrenceMii_eq_min (hrange : InRange n edges) (hzero : NoZeroCycle edges) :
    ∃ m, IsLeast {ii | 1 ≤ ii ∧ NoPositiveCycle ii edges} m ∧
      recurrenceMii n edges = min u32Max m ∧
      (m ≤ u32Max → (longestPaths n (recurrenceMii n edges) edges).isSome) := by
  obtain ⟨hpos, hle, hbelow, hreached⟩ := recurrenceMii_spec hrange hzero
  rcases hreached with hfeas | ⟨hclamp, hinf⟩
  · refine ⟨recurrenceMii n edges, ⟨⟨hpos, hfeas⟩, ?_⟩, (min_eq_right hle).symm,
      fun _ => (longestPaths_isSome_iff hrange).2 hfeas⟩
    rintro ii ⟨h₁, hii⟩
    by_contra hlt
    exact hbelow ii h₁ (lt_of_not_ge hlt) hii
  · obtain ⟨ii₀, hii₀⟩ := exists_noPositiveCycle hrange hzero
    have hmem := Nat.sInf_mem (⟨ii₀, hii₀⟩ : {ii | 1 ≤ ii ∧ NoPositiveCycle ii edges}.Nonempty)
    have hbeyond : u32Max < sInf {ii | 1 ≤ ii ∧ NoPositiveCycle ii edges} := by
      by_contra hnot
      exact hinf (hmem.2.mono (le_of_not_gt hnot))
    refine ⟨_, ⟨hmem, fun b hb => Nat.sInf_le hb⟩, ?_, fun hm => absurd hm (not_le.2 hbeyond)⟩
    rw [hclamp, min_eq_left hbeyond.le]

end Graph

end ModuloPipelining
