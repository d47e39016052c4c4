import ModuloPipelining.Proofs.Graph.Marks
import ModuloPipelining.Proofs.Graph.Walk
import ModuloPipelining.Problem.Check

/-!
# A check that passes rules out distance-0 cycles

`CycleSearch.cycleNode? n edges = none` means that the graph on `0 … n-1` has no closed walk but
the empty one (`cycleNode?_eq_none_acyclic`). The two passes give this together:

* the first search runs to completion from every node within its fuel, finishing every node and
  meeting no self loop (`firstPass_ok`);
* a second search that names nothing saw, for each node it started from, every predecessor
  already discovered, so every edge between distinct nodes goes from a node earlier in the finish
  order to a later one (`secondPass_eq_none`).

A rank that grows along every edge leaves no room for a closed walk (`Walk.rank_lt`). For a
problem whose dependences join registered operations, `Problem.intraIterationCycle?` is then
`none` exactly when no closed walk of distance-0 dependences exists
(`intraIterationCycle?_eq_none_acyclic`).
-/

namespace ModuloPipelining

/-- A rank that grows along every edge grows along every non-empty walk. -/
theorem Walk.rank_lt {ε ν : Type} {source target : ε → ν} {edges : List ε} (rank : ν → Nat)
    (hrank : ∀ e ∈ edges, rank (source e) < rank (target e)) {u v : ν} {w : List ε}
    (h : Walk source target edges u w v) (hne : w ≠ []) : rank u < rank v := by
  induction h with
  | nil => exact absurd rfl hne
  | @cons u' v' e w' mem start rest ih =>
    have hstep := hrank e mem
    rw [start] at hstep
    cases w' with
    | nil =>
      rw [rest.eq_of_nil] at hstep
      exact hstep
    | cons _ _ => exact lt_trans hstep (ih (List.cons_ne_nil _ _))

namespace CycleSearch

variable {edges : List (Nat × Nat)}

theorem mem_successors {v s : Nat} : s ∈ successors edges v ↔ (v, s) ∈ edges := by
  simp only [successors, List.mem_map, List.mem_reverse, List.mem_filter, beq_iff_eq]
  constructor
  · rintro ⟨⟨a, b⟩, ⟨hmem, rfl⟩, rfl⟩
    exact hmem
  · intro h
    exact ⟨(v, s), ⟨h, rfl⟩, rfl⟩

theorem mem_predecessors {v s : Nat} : s ∈ predecessors edges v ↔ (s, v) ∈ edges := by
  simp only [predecessors, List.mem_map, List.mem_reverse, List.mem_filter, beq_iff_eq]
  constructor
  · rintro ⟨⟨a, b⟩, ⟨hmem, rfl⟩, rfl⟩
    exact hmem
  · intro h
    exact ⟨(s, v), ⟨h, rfl⟩, rfl⟩

/-! ### The second pass -/

section SecondPass

variable {nbr : Nat → List Nat}

theorem nextDiscovered_eq_none_iff (stack : List Nat) (disc : Array Bool) :
    nextDiscovered nbr stack disc = none ↔ ∀ v ∈ stack, disc.getD v true = true := by
  induction stack with
  | nil => simp [nextDiscovered]
  | cons v rest ih =>
    unfold nextDiscovered
    split
    · rename_i hv
      rw [ih, List.forall_mem_cons]
      exact ⟨fun h => ⟨hv, h⟩, fun h => h.2⟩
    · rename_i hv
      constructor
      · intro h
        simp at h
      · intro h
        exact absurd (h v List.mem_cons_self) hv

theorem nextDiscovered_some {stack : List Nat} {disc : Array Bool} {j : Nat} {stack' : List Nat}
    {disc' : Array Bool} (h : nextDiscovered nbr stack disc = some (j, stack', disc')) :
    disc.getD j true = false ∧ disc' = disc.setIfInBounds j true := by
  induction stack with
  | nil => simp [nextDiscovered] at h
  | cons v rest ih =>
    unfold nextDiscovered at h
    split at h
    · exact ih h
    · rename_i hv
      simp only [Option.some.injEq, Prod.mk.injEq] at h
      obtain ⟨rfl, -, rfl⟩ := h
      exact ⟨by simpa using hv, rfl⟩

/-- A node the second pass names is a node of the graph. -/
theorem secondPass_some_lt (order : List Nat) (disc : Array Bool) {j : Nat}
    (h : secondPass nbr order disc = some j) : j < disc.size := by
  induction order generalizing disc with
  | nil => simp [secondPass] at h
  | cons i rest ih =>
    unfold secondPass at h
    split at h
    · exact ih disc h
    · rename_i stack disc₁ hfirst
      obtain ⟨-, rfl⟩ := nextDiscovered_some hfirst
      split at h
      · rename_i hsecond
        cases h
        have hlt := lt_size_of_getD_eq_false (nextDiscovered_some hsecond).1
        simpa using hlt
      · simpa using ih _ h

private theorem idxOf_cons_lt {j p i : Nat} {rest : List Nat} (hji : j ≠ i)
    (hlt : rest.idxOf p < rest.idxOf i) : (j :: rest).idxOf p < (j :: rest).idxOf i := by
  rw [List.idxOf_cons_ne _ hji]
  by_cases hjp : j = p
  · rw [hjp, List.idxOf_cons_self]
    omega
  · rw [List.idxOf_cons_ne _ hjp]
    omega

/-- When the second pass names nothing, every edge into a node it starts from, other than a self
loop, comes from a node discovered before or started from earlier. -/
theorem secondPass_eq_none (order : List Nat) (disc : Array Bool)
    (h : secondPass (predecessors edges) order disc = none) {p i : Nat} (hedge : (p, i) ∈ edges)
    (hne : p ≠ i) (hi : i ∈ order) (hfresh : disc.getD i true = false) :
    disc.getD p true = true ∨ (p ∈ order ∧ order.idxOf p < order.idxOf i) := by
  induction order generalizing disc with
  | nil => exact absurd hi List.not_mem_nil
  | cons j rest ih =>
    unfold secondPass at h
    by_cases hj : disc.getD j true = true
    · have hskip : nextDiscovered (predecessors edges) [j] disc = none :=
        (nextDiscovered_eq_none_iff _ _).2 (by simpa using hj)
      rw [hskip] at h
      have hij : i ≠ j := by rintro rfl; rw [hj] at hfresh; exact Bool.noConfusion hfresh
      have hi' : i ∈ rest := (List.mem_cons.1 hi).resolve_left hij
      rcases ih disc h hi' hfresh with hp | ⟨hp, hlt⟩
      · exact .inl hp
      · exact .inr ⟨List.mem_cons_of_mem _ hp, idxOf_cons_lt (Ne.symm hij) hlt⟩
    · have hj' : disc.getD j true = false := by simpa using hj
      have hstart : nextDiscovered (predecessors edges) [j] disc =
          some (j, ((predecessors edges j).filter
            fun s => !(disc.setIfInBounds j true).getD s true).reverse ++ [],
            disc.setIfInBounds j true) := by
        simp [nextDiscovered, hj']
      rw [hstart] at h
      dsimp only at h
      split at h
      · cases h
      · rename_i hnone
        have hpreds : ∀ s ∈ predecessors edges j, (disc.setIfInBounds j true).getD s true = true := by
          intro s hs
          by_contra hfalse
          have hpushed : s ∈ ((predecessors edges j).filter
              fun s => !(disc.setIfInBounds j true).getD s true).reverse ++ [] := by
            refine List.mem_append.2 (.inl (List.mem_reverse.2 (List.mem_filter.2 ⟨hs, ?_⟩)))
            rw [Bool.eq_false_iff.2 hfalse]
            rfl
          exact hfalse ((nextDiscovered_eq_none_iff _ _).1 hnone s hpushed)
        by_cases hij : i = j
        · subst hij
          have hp := hpreds p (mem_predecessors.2 hedge)
          rw [getD_setIfInBounds, if_neg fun h => hne h.1.symm] at hp
          exact .inl hp
        · have hi' : i ∈ rest := (List.mem_cons.1 hi).resolve_left hij
          have hfresh' : (disc.setIfInBounds j true).getD i true = false := by
            rw [getD_setIfInBounds, if_neg fun h => hij h.1.symm]
            exact hfresh
          rcases ih _ h hi' hfresh' with hp | ⟨hp, hlt⟩
          · rw [getD_setIfInBounds] at hp
            split at hp
            · rename_i hpj
              refine .inr ⟨by simp [← hpj.1], ?_⟩
              rw [List.idxOf_cons_ne _ (Ne.symm hij), ← hpj.1, List.idxOf_cons_self]
              omega
            · exact .inl hp
          · exact .inr ⟨List.mem_cons_of_mem _ hp, idxOf_cons_lt (Ne.symm hij) hlt⟩

end SecondPass

/-! ### The first pass -/

section FirstPass

variable {n : Nat}

/-- What the first search keeps true between steps: its arrays cover the graph, every discovered
node is free of self loops, and every finished node is in the finish order. -/
structure Marks.Sound (n : Nat) (edges : List (Nat × Nat)) (m : Marks) : Prop where
  disc_size : m.discovered.size = n
  fin_size : m.finished.size = n
  no_loop : ∀ v < n, m.discovered.getD v true = true → (v, v) ∉ edges
  ordered : ∀ v < n, m.finished.getD v true = true → v ∈ m.order

/-- The work a run can still do: two steps per undiscovered node and one per edge out of it. -/
def runWork (edges : List (Nat × Nat)) (v : Nat) : Nat := 2 + (successors edges v).length

theorem finishRun_size {succ : Nat → List Nat} (fuel : Nat) (stack : List Nat) (m : Marks)
    {m' : Marks} (h : finishRun succ fuel stack m = .ok m') :
    m'.discovered.size = m.discovered.size := by
  induction fuel generalizing stack m with
  | zero =>
    simp only [finishRun, Except.ok.injEq] at h
    rw [h]
  | succ fuel ih =>
    cases stack with
    | nil =>
      simp only [finishRun, Except.ok.injEq] at h
      rw [h]
    | cons v rest =>
      simp only [finishRun] at h
      split at h
      · split at h
        · exact ih _ _ h
        · rw [ih _ _ h]
      · split at h
        · cases h
        · rw [ih _ _ h, Array.size_setIfInBounds]

/-- A node the first search names is a node of the graph with an edge to itself. -/
theorem finishRun_error {succ : Nat → List Nat} (fuel : Nat) (stack : List Nat) (m : Marks)
    {v : Nat} (h : finishRun succ fuel stack m = .error v) : v < m.discovered.size ∧ v ∈ succ v := by
  induction fuel generalizing stack m with
  | zero => simp [finishRun] at h
  | succ fuel ih =>
    cases stack with
    | nil => simp [finishRun] at h
    | cons x rest =>
      simp only [finishRun] at h
      split at h
      · split at h
        · exact ih _ _ h
        · have hnext := ih _ _ h
          exact hnext
      · rename_i hx
        split at h
        · rename_i hloop
          cases h
          exact ⟨lt_size_of_getD_eq_false (Bool.eq_false_iff.2 hx), by simpa using hloop⟩
        · simpa using ih _ _ h

/-- A run with enough fuel leaves every discovered node finished, discovers everything it had on
its stack, and keeps the first search sound. Fuel is paid for by the stack and by the work of the
undiscovered nodes: discovering a node pushes at most its edges and takes off two more than that. -/
theorem finishRun_ok (fuel : Nat) (stack : List Nat) (m : Marks) (hsound : m.Sound n edges)
    (hopen : ∀ v < n, m.discovered.getD v true = true → m.finished.getD v true = false → v ∈ stack)
    (hfuel : stack.length + unmarkedWork m.discovered (runWork edges) ≤ fuel) {m' : Marks}
    (h : finishRun (successors edges) fuel stack m = .ok m') :
    m'.Sound n edges ∧
      (∀ v < n, m'.discovered.getD v true = true → m'.finished.getD v true = true) ∧
      (∀ v ∈ stack, v < n → m'.discovered.getD v true = true) ∧
      (∀ v, m.discovered.getD v true = true → m'.discovered.getD v true = true) := by
  induction fuel generalizing stack m with
  | zero =>
    obtain rfl : stack = [] := List.eq_nil_of_length_eq_zero (by omega)
    simp only [finishRun, Except.ok.injEq] at h
    subst h
    refine ⟨hsound, fun v hv hdisc => ?_, fun v hv => absurd hv List.not_mem_nil, fun v hv => hv⟩
    by_contra hfin
    exact List.not_mem_nil (hopen v hv hdisc (Bool.eq_false_iff.2 hfin))
  | succ fuel ih =>
    cases stack with
    | nil =>
      simp only [finishRun, Except.ok.injEq] at h
      subst h
      refine ⟨hsound, fun v hv hdisc => ?_, fun v hv => absurd hv List.not_mem_nil, fun v hv => hv⟩
      by_contra hfin
      exact List.not_mem_nil (hopen v hv hdisc (Bool.eq_false_iff.2 hfin))
    | cons v rest =>
      simp only [finishRun] at h
      split at h
      · rename_i hdisc
        split at h
        · rename_i hfin
          have hopen' : ∀ x < n, m.discovered.getD x true = true →
              m.finished.getD x true = false → x ∈ rest := by
            intro x hx hd hf
            rcases List.mem_cons.1 (hopen x hx hd hf) with rfl | hmem
            · rw [hfin] at hf
              exact Bool.noConfusion hf
            · exact hmem
          obtain ⟨hs, hc, hst, hmono⟩ := ih rest m hsound hopen' (by simp at hfuel; omega) h
          refine ⟨hs, hc, fun x hx hxn => ?_, hmono⟩
          rcases List.mem_cons.1 hx with rfl | hmem
          · exact hmono x hdisc
          · exact hst x hmem hxn
        · rename_i hfin
          have hfin' : m.finished.getD v true = false := Bool.eq_false_iff.2 hfin
          have hvn : v < n := hsound.fin_size ▸ lt_size_of_getD_eq_false hfin'
          have hsound' : Marks.Sound n edges
              { m with finished := m.finished.setIfInBounds v true, order := v :: m.order } := by
            refine ⟨hsound.disc_size, by simp [hsound.fin_size], hsound.no_loop, fun x hx hf => ?_⟩
            rw [getD_setIfInBounds] at hf
            split at hf
            · rename_i hxv
              rw [hxv.1]
              exact List.mem_cons_self
            · exact List.mem_cons_of_mem _ (hsound.ordered x hx hf)
          have hopen' : ∀ x < n, m.discovered.getD x true = true →
              (m.finished.setIfInBounds v true).getD x true = false → x ∈ rest := by
            intro x hx hd hf
            rw [getD_setIfInBounds] at hf
            split at hf
            · exact Bool.noConfusion hf
            · rename_i hxv
              rcases List.mem_cons.1 (hopen x hx hd hf) with rfl | hmem
              · exact absurd ⟨rfl, hsound.fin_size ▸ hvn⟩ hxv
              · exact hmem
          obtain ⟨hs, hc, hst, hmono⟩ := ih rest _ hsound' hopen' (by simp at hfuel ⊢; omega) h
          refine ⟨hs, hc, fun x hx hxn => ?_, hmono⟩
          rcases List.mem_cons.1 hx with rfl | hmem
          · exact hmono x hdisc
          · exact hst x hmem hxn
      · rename_i hdisc
        have hdisc' : m.discovered.getD v true = false := Bool.eq_false_iff.2 hdisc
        split at h
        · cases h
        · rename_i hloop
          have hsound' : Marks.Sound n edges
              { m with discovered := m.discovered.setIfInBounds v true } := by
            refine ⟨by simp [hsound.disc_size], hsound.fin_size, fun x hx hd => ?_, hsound.ordered⟩
            rw [getD_setIfInBounds] at hd
            split at hd
            · rename_i hxv
              rw [← hxv.1, ← mem_successors]
              simpa using hloop
            · exact hsound.no_loop x hx hd
          have hopen' : ∀ x < n, (m.discovered.setIfInBounds v true).getD x true = true →
              m.finished.getD x true = false →
              x ∈ (((successors edges v).filter fun s =>
                !(m.discovered.setIfInBounds v true).getD s true).reverse ++ v :: rest) := by
            intro x hx hd hf
            rw [getD_setIfInBounds] at hd
            split at hd
            · rename_i hxv
              rw [← hxv.1]
              simp
            · exact List.mem_append_right _ (hopen x hx hd hf)
          have hwork := unmarkedWork_mark (runWork edges) hdisc'
          have hpushed : ((successors edges v).filter fun s =>
              !(m.discovered.setIfInBounds v true).getD s true).length ≤
                (successors edges v).length := List.length_filter_le _ _
          obtain ⟨hs, hc, hst, hmono⟩ := ih _ _ hsound' hopen'
            (by simp only [List.length_append, List.length_reverse, List.length_cons] at hfuel ⊢
                simp only [runWork] at hwork
                omega) h
          refine ⟨hs, hc, fun x hx hxn => hst x (List.mem_append_right _ hx) hxn,
            fun x hx => hmono x (getD_setIfInBounds_true hx)⟩

theorem unmarkedWork_runWork_le {marks : Array Bool} (hsize : marks.size = n) :
    unmarkedWork marks (runWork edges) ≤ 2 * n + edges.length := by
  have hdeg := sum_outDegree_le Prod.fst edges n
  calc unmarkedWork marks (runWork edges)
      ≤ ∑ v ∈ Finset.range n, runWork edges v := hsize ▸ unmarkedWork_le marks _
    _ = 2 * n + ∑ v ∈ Finset.range n, (edges.filter fun e => e.1 == v).length := by
        simp [runWork, successors, Finset.sum_add_distrib, mul_comm]
    _ ≤ 2 * n + edges.length := by omega

/-- The step of the first pass at one start node. -/
private def startRun (n : Nat) (edges : List (Nat × Nat)) (m : Marks) (i : Nat) :
    Except Nat Marks :=
  if m.discovered.getD i true then pure m
  else finishRun (successors edges) (2 * (n + edges.length) + 2) [i] m

theorem firstPass_eq (n : Nat) (edges : List (Nat × Nat)) :
    firstPass n edges = (List.range n).foldlM (startRun n edges)
      ⟨Array.replicate n false, Array.replicate n false, []⟩ := rfl

private theorem foldlM_startRun_ok (l : List Nat) (m : Marks) (hsound : m.Sound n edges)
    (hclosed : ∀ v < n, m.discovered.getD v true = true → m.finished.getD v true = true)
    {m' : Marks} (h : l.foldlM (startRun n edges) m = .ok m') :
    m'.Sound n edges ∧
      (∀ v < n, m'.discovered.getD v true = true → m'.finished.getD v true = true) ∧
      (∀ v ∈ l, v < n → m'.discovered.getD v true = true) ∧
      (∀ v, m.discovered.getD v true = true → m'.discovered.getD v true = true) := by
  induction l generalizing m with
  | nil =>
    simp only [List.foldlM_nil, pure, Except.pure, Except.ok.injEq] at h
    subst h
    exact ⟨hsound, hclosed, fun v hv => absurd hv List.not_mem_nil, fun v hv => hv⟩
  | cons i rest ih =>
    rw [List.foldlM_cons] at h
    unfold startRun at h
    split at h
    · rename_i hi
      obtain ⟨hs, hc, hst, hmono⟩ := ih m hsound hclosed h
      refine ⟨hs, hc, fun v hv hvn => ?_, hmono⟩
      rcases List.mem_cons.1 hv with rfl | hmem
      · exact hmono v hi
      · exact hst v hmem hvn
    · cases hrun : finishRun (successors edges) (2 * (n + edges.length) + 2) [i] m with
      | error e =>
        rw [hrun] at h
        cases h
      | ok m₁ =>
        rw [hrun] at h
        have hopen : ∀ v < n, m.discovered.getD v true = true →
            m.finished.getD v true = false → v ∈ [i] := by
          intro v hv hd hf
          rw [hclosed v hv hd] at hf
          exact Bool.noConfusion hf
        have hwork : unmarkedWork m.discovered (runWork edges) ≤ 2 * n + edges.length :=
          unmarkedWork_runWork_le hsound.disc_size
        obtain ⟨hs₁, hc₁, hst₁, hmono₁⟩ :=
          finishRun_ok _ [i] m hsound hopen (by simp only [List.length_singleton]; omega) hrun
        obtain ⟨hs, hc, hst, hmono⟩ := ih m₁ hs₁ hc₁ h
        refine ⟨hs, hc, fun v hv hvn => ?_, fun v hv => hmono v (hmono₁ v hv)⟩
        rcases List.mem_cons.1 hv with rfl | hmem
        · exact hmono v (hst₁ v List.mem_cons_self hvn)
        · exact hst v hmem hvn

private theorem foldlM_startRun_error (l : List Nat) (m : Marks) (hsize : m.discovered.size = n)
    {v : Nat} (h : l.foldlM (startRun n edges) m = .error v) : v < n ∧ (v, v) ∈ edges := by
  induction l generalizing m with
  | nil => simp [pure, Except.pure] at h
  | cons i rest ih =>
    rw [List.foldlM_cons] at h
    unfold startRun at h
    split at h
    · exact ih m hsize h
    · cases hrun : finishRun (successors edges) (2 * (n + edges.length) + 2) [i] m with
      | error e =>
        rw [hrun] at h
        cases h
        obtain ⟨hlt, hloop⟩ := finishRun_error _ _ _ hrun
        exact ⟨hsize ▸ hlt, mem_successors.1 hloop⟩
      | ok m₁ =>
        rw [hrun] at h
        exact ih m₁ (by rw [finishRun_size _ _ _ hrun, hsize]) h

/-- The first search starts sound, with nothing discovered. -/
theorem sound_initial : Marks.Sound n edges ⟨Array.replicate n false, Array.replicate n false, []⟩ := by
  refine ⟨by simp, by simp, fun v hv hd => ?_, fun v hv hf => ?_⟩
  · rw [getD_replicate_of_lt hv] at hd
    exact absurd hd Bool.false_ne_true
  · rw [getD_replicate_of_lt hv] at hf
    exact absurd hf Bool.false_ne_true

theorem closed_initial :
    ∀ v < n, (Array.replicate n false).getD v true = true → (Array.replicate n false).getD v true = true :=
  fun _ _ hd => hd

/-- A property of the marks that holds before the first search, and that every run keeps when it
starts from an undiscovered node with every discovered node finished, holds when the search
completes. -/
theorem firstPass_induction {P : Marks → Prop}
    (hinit : P ⟨Array.replicate n false, Array.replicate n false, []⟩)
    (hrun : ∀ m i m', m.Sound n edges →
      (∀ v < n, m.discovered.getD v true = true → m.finished.getD v true = true) →
      m.discovered.getD i true = false → P m →
      finishRun (successors edges) (2 * (n + edges.length) + 2) [i] m = .ok m' → P m')
    {m : Marks} (h : firstPass n edges = .ok m) : P m := by
  rw [firstPass_eq] at h
  -- each run starts sound and closed, and `finishRun_ok` says it ends so
  suffices hfold : ∀ (l : List Nat) (m₀ : Marks), m₀.Sound n edges →
      (∀ v < n, m₀.discovered.getD v true = true → m₀.finished.getD v true = true) → P m₀ →
      l.foldlM (startRun n edges) m₀ = .ok m → P m from
    hfold _ _ sound_initial closed_initial hinit h
  intro l
  induction l with
  | nil =>
    intro m₀ _ _ hP hfold
    simp only [List.foldlM_nil, pure, Except.pure, Except.ok.injEq] at hfold
    exact hfold ▸ hP
  | cons i rest ih =>
    intro m₀ hsound hclosed hP hfold
    rw [List.foldlM_cons] at hfold
    unfold startRun at hfold
    split at hfold
    · exact ih m₀ hsound hclosed hP hfold
    · rename_i hi
      cases hstep : finishRun (successors edges) (2 * (n + edges.length) + 2) [i] m₀ with
      | error e =>
        rw [hstep] at hfold
        cases hfold
      | ok m₁ =>
        rw [hstep] at hfold
        have hopen : ∀ v < n, m₀.discovered.getD v true = true →
            m₀.finished.getD v true = false → v ∈ [i] := by
          intro v hv hd hf
          rw [hclosed v hv hd] at hf
          exact Bool.noConfusion hf
        have hwork : unmarkedWork m₀.discovered (runWork edges) ≤ 2 * n + edges.length :=
          unmarkedWork_runWork_le hsound.disc_size
        obtain ⟨hs₁, hc₁, -, -⟩ :=
          finishRun_ok _ [i] m₀ hsound hopen (by simp only [List.length_singleton]; omega) hstep
        exact ih m₁ hs₁ hc₁ (hrun m₀ i m₁ hsound hclosed (by simpa using hi) hP hstep) hfold

/-- A first pass that completes has finished every node and met no self loop. -/
theorem firstPass_ok {m : Marks} (h : firstPass n edges = .ok m) :
    ∀ v < n, v ∈ m.order ∧ (v, v) ∉ edges := by
  rw [firstPass_eq] at h
  obtain ⟨hs, hc, hst, -⟩ := foldlM_startRun_ok _ _ sound_initial closed_initial h
  intro v hv
  have hd := hst v (List.mem_range.2 hv) hv
  exact ⟨hs.ordered v hv (hc v hv hd), hs.no_loop v hv hd⟩

/-- A node the first pass names is a node of the graph with an edge to itself. -/
theorem firstPass_error {v : Nat} (h : firstPass n edges = .error v) : v < n ∧ (v, v) ∈ edges := by
  rw [firstPass_eq] at h
  exact foldlM_startRun_error _ _ (by simp) h

end FirstPass

/-- The search names nothing only on a graph without a closed walk other than the empty one. -/
theorem cycleNode?_eq_none_acyclic {n : Nat} (hrange : ∀ e ∈ edges, e.1 < n ∧ e.2 < n)
    (h : cycleNode? n edges = none) {x : Nat} {w : List (Nat × Nat)}
    (hw : Walk Prod.fst Prod.snd edges x w x) : w = [] := by
  unfold cycleNode? at h
  split at h
  · cases h
  · rename_i m hm
    have hfirst := firstPass_ok hm
    have hrank : ∀ e ∈ edges, m.order.idxOf e.1 < m.order.idxOf e.2 := by
      rintro ⟨p, i⟩ he
      have hp := (hrange _ he).1
      have hi := (hrange _ he).2
      by_cases hpi : p = i
      · subst hpi
        exact absurd he (hfirst p hp).2
      · rcases secondPass_eq_none m.order _ h he hpi (hfirst i hi).1
            (getD_replicate_of_lt hi false true) with hdisc | ⟨-, hlt⟩
        · rw [getD_replicate_of_lt hp] at hdisc
          exact absurd hdisc Bool.false_ne_true
        · exact hlt
    by_contra hne
    exact lt_irrefl _ (hw.rank_lt m.order.idxOf hrank hne)

/-- A node the search names is a node of the graph. -/
theorem cycleNode?_lt {n v : Nat} (h : cycleNode? n edges = some v) : v < n := by
  unfold cycleNode? at h
  split at h
  · cases h
    exact (firstPass_error ‹_›).1
  · simpa using secondPass_some_lt _ _ h

end CycleSearch

namespace Problem

variable {α : Type} [DecidableEq α] {p : Problem α}

/-! ### Positions in program order -/

theorem programIndex?_of_mem {op : α} (h : op ∈ p.operations) :
    ∃ i, p.programIndex? op = some i ∧ p.operations[i]? = some op := by
  unfold programIndex?
  cases hidx : p.operations.idxOf? op with
  | none => exact absurd h (List.idxOf?_eq_none_iff.1 hidx)
  | some i =>
    obtain ⟨hi, heq, -⟩ := List.idxOf?_eq_some_iff.1 hidx
    exact ⟨i, rfl, by rw [List.getElem?_eq_getElem hi, heq]⟩

/-- An operation sits at its program position. -/
theorem getElem?_programIndex {op : α} (h : op ∈ p.operations) :
    p.operations[(p.programIndex? op).getD 0]? = some op := by
  obtain ⟨i, hi, hget⟩ := programIndex?_of_mem h
  rw [hi]
  exact hget

theorem programIndex_lt {op : α} (h : op ∈ p.operations) :
    (p.programIndex? op).getD 0 < p.operations.length :=
  (List.getElem?_eq_some_iff.1 (getElem?_programIndex h)).1

/-- Distinct operations have distinct program positions. -/
theorem programIndex_inj {a b : α} (ha : a ∈ p.operations) (hb : b ∈ p.operations)
    (h : (p.programIndex? a).getD 0 = (p.programIndex? b).getD 0) : a = b := by
  have hget := getElem?_programIndex ha
  rw [h, getElem?_programIndex hb] at hget
  exact (Option.some.inj hget).symm

/-- A check that finds no distance-0 cycle, on a problem whose dependences join registered
operations, rules out every closed walk of distance-0 dependences but the empty one. -/
theorem intraIterationCycle?_eq_none_acyclic
    (hsource : ∀ d ∈ p.dependences, d.source ∈ p.operations)
    (hdest : ∀ d ∈ p.dependences, d.destination ∈ p.operations)
    (h : p.intraIterationCycle? = none) {x : α} {w : List (Dependence α)}
    (hw : Walk Dependence.source Dependence.destination
      (p.dependences.filter fun d => d.distance = 0) x w x) : w = [] := by
  have hnone : CycleSearch.cycleNode? p.operations.length
      ((p.dependences.filter (·.distance == 0)).map fun d =>
        ((p.programIndex? d.source).getD 0, (p.programIndex? d.destination).getD 0)) = none := by
    unfold intraIterationCycle? at h
    dsimp only at h
    cases hc : CycleSearch.cycleNode? p.operations.length
        ((p.dependences.filter (·.distance == 0)).map fun d =>
          ((p.programIndex? d.source).getD 0, (p.programIndex? d.destination).getD 0)) with
    | none => rfl
    | some i =>
      rw [hc] at h
      have hlt := CycleSearch.cycleNode?_lt hc
      simp only [Option.bind_some, List.getElem?_eq_none_iff] at h
      omega
  have hrange : ∀ e ∈ (p.dependences.filter (·.distance == 0)).map (fun d =>
      ((p.programIndex? d.source).getD 0, (p.programIndex? d.destination).getD 0)),
      e.1 < p.operations.length ∧ e.2 < p.operations.length := by
    intro e he
    obtain ⟨d, hd, rfl⟩ := List.mem_map.1 he
    have hd' := (List.mem_filter.1 hd).1
    exact ⟨programIndex_lt (hsource d hd'), programIndex_lt (hdest d hd')⟩
  have hmapped : Walk Prod.fst Prod.snd
      ((p.dependences.filter (·.distance == 0)).map fun d =>
        ((p.programIndex? d.source).getD 0, (p.programIndex? d.destination).getD 0))
      ((p.programIndex? x).getD 0)
      (w.map fun d => ((p.programIndex? d.source).getD 0, (p.programIndex? d.destination).getD 0))
      ((p.programIndex? x).getD 0) := by
    refine hw.map (fun d => ((p.programIndex? d.source).getD 0,
      (p.programIndex? d.destination).getD 0)) (fun op => (p.programIndex? op).getD 0) ?_ ?_ ?_
    · exact fun _ _ => rfl
    · exact fun _ _ => rfl
    · exact fun d hd => List.mem_map.2 ⟨d, by simpa using hd, rfl⟩
  exact List.map_eq_nil_iff.1 (CycleSearch.cycleNode?_eq_none_acyclic hrange hnone hmapped)

end Problem

end ModuloPipelining
