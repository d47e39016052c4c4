import ModuloPipelining.Proofs.Problem.Acyclic

/-!
# The node named for a distance-0 cycle lies on one

The converse of `CycleSearch.cycleNode?_eq_none_acyclic`: when the cycle search names a node, that
node lies on a closed walk of the graph (`CycleSearch.cycleNode?_some_cycle`). So the search names
nothing exactly when the graph has no closed walk but the empty one
(`CycleSearch.cycleNode?_eq_none_iff`).

A node the first search names has an edge to itself. A node the second search names needs the
argument of Kosaraju's algorithm:

* The first search keeps its finish order *forward* (`Marks.Forward`): for an edge `u → v` out of
  a finished node, `v` finished earlier or `v` reaches `u`. What makes this hold when `u`
  finishes is carried by the stack (`Marks.OnStack`): every node discovered and not finished is
  on the stack, reaches every entry above its topmost copy, and has each successor discovered or
  among those entries.
* The second search starts from the nodes in reverse finish order and names a node only when a
  start has an undiscovered predecessor; every earlier start had none. The named node `j` is a
  predecessor of the start `i` that finished before `i`, so `i` reaches `j`, and the edge `j → i`
  closes the cycle (`secondPass_some`).

For a problem whose operations are distinct and whose dependences join them, an operation that
`Problem.intraIterationCycle?` names lies on a closed walk of distance-0 dependences
(`Problem.intraIterationCycle?_some_cycle`).
-/

namespace ModuloPipelining

namespace CycleSearch

variable {edges : List (Nat × Nat)}

/-- `v` can be reached from `u` along the edges. -/
def Reaches (edges : List (Nat × Nat)) (u v : Nat) : Prop :=
  ∃ w, Walk Prod.fst Prod.snd edges u w v

theorem Reaches.trans {u v x : Nat} (h₁ : Reaches edges u v) (h₂ : Reaches edges v x) :
    Reaches edges u x := by
  obtain ⟨w₁, hw₁⟩ := h₁
  obtain ⟨w₂, hw₂⟩ := h₂
  exact ⟨w₁ ++ w₂, hw₁.append hw₂⟩

theorem Reaches.edge {u v : Nat} (h : (u, v) ∈ edges) : Reaches edges u v :=
  ⟨[(u, v)], Walk.single h⟩

/-! ### The stack of the first search -/

/-- The stack entries above the topmost copy of `g`. -/
def above (stack : List Nat) (g : Nat) : List Nat := stack.takeWhile (· ≠ g)

theorem above_cons_self (g : Nat) (rest : List Nat) : above (g :: rest) g = [] := by
  simp [above]

theorem above_cons_of_ne {v g : Nat} (h : v ≠ g) (rest : List Nat) :
    above (v :: rest) g = v :: above rest g := by
  simp [above, h]

theorem above_append_of_not_mem {l : List Nat} {g : Nat} (h : g ∉ l) (rest : List Nat) :
    above (l ++ rest) g = l ++ above rest g := by
  induction l with
  | nil => rfl
  | cons v l ih =>
    have hv : v ≠ g := fun hvg => h (hvg ▸ List.mem_cons_self)
    rw [List.cons_append, above_cons_of_ne hv, ih fun hg => h (List.mem_cons_of_mem _ hg)]
    rfl

/-- A node the first search has discovered and not finished. -/
def Marks.Gray (m : Marks) (v : Nat) : Prop :=
  m.discovered.getD v true = true ∧ m.finished.getD v true = false

/-- What the stack of a run carries: each node discovered and not finished is on it, reaches
every entry above its topmost copy, and has each successor discovered or among those entries. -/
structure Marks.OnStack (edges : List (Nat × Nat)) (stack : List Nat) (m : Marks) : Prop where
  mem : ∀ g, m.Gray g → g ∈ stack
  reaches : ∀ g, m.Gray g → ∀ x ∈ above stack g, Reaches edges g x
  pending : ∀ g, m.Gray g → ∀ w ∈ successors edges g,
    m.discovered.getD w true = true ∨ w ∈ above stack g

/-- The finish order so far, last finished first, is forward: an edge out of a finished node
leads to a node finished earlier, or to a node that reaches back. -/
structure Marks.Forward (n : Nat) (edges : List (Nat × Nat)) (m : Marks) : Prop where
  fin_size : m.finished.size = n
  nodup : m.order.Nodup
  finished_of_mem : ∀ v ∈ m.order, m.finished.getD v true = true
  mem_of_finished : ∀ v < n, m.finished.getD v true = true → v ∈ m.order
  forward : ∀ u ∈ m.order, ∀ v, (u, v) ∈ edges → v ≠ u →
    (v ∈ m.order ∧ m.order.idxOf u < m.order.idxOf v) ∨ Reaches edges v u

variable {n : Nat} {m : Marks}

/-- Dropping the top entry, a discovered node, keeps the stack's invariant for marks with the same
discovered nodes and no new unfinished one, and without the dropped node unfinished. -/
theorem Marks.OnStack.pop {v : Nat} {rest : List Nat} (h : m.OnStack edges (v :: rest))
    (hv : m.discovered.getD v true = true) {m' : Marks} (hdisc : m'.discovered = m.discovered)
    (hgray : ∀ g, m'.Gray g → m.Gray g ∧ g ≠ v) : m'.OnStack edges rest := by
  refine ⟨fun g hg => ?_, fun g hg x hx => ?_, fun g hg w hw => ?_⟩
  · obtain ⟨hg, hne⟩ := hgray g hg
    exact (List.mem_cons.1 (h.mem g hg)).resolve_left hne
  · obtain ⟨hg, hne⟩ := hgray g hg
    exact h.reaches g hg x (by rw [above_cons_of_ne (Ne.symm hne)]; exact List.mem_cons_of_mem _ hx)
  · obtain ⟨hg, hne⟩ := hgray g hg
    rw [hdisc]
    rcases h.pending g hg w hw with hw | hw
    · exact .inl hw
    · rw [above_cons_of_ne (Ne.symm hne)] at hw
      rcases List.mem_cons.1 hw with rfl | hw
      · exact .inl hv
      · exact .inr hw

/-- Finishing the node on top of the stack keeps the finish order forward: each successor was
discovered, so it either finished earlier or is still open below, and then it reaches the node. -/
theorem Marks.Forward.finish (hrange : ∀ e ∈ edges, e.1 < n ∧ e.2 < n) (hf : m.Forward n edges)
    {v : Nat} {rest : List Nat} (hs : m.OnStack edges (v :: rest)) (hv : m.Gray v) :
    Marks.Forward n edges
      { m with finished := m.finished.setIfInBounds v true, order := v :: m.order } := by
  have hvlt : v < m.finished.size := lt_size_of_getD_eq_false hv.2
  have hvnot : v ∉ m.order := fun hmem => by
    have := hf.finished_of_mem v hmem
    rw [hv.2] at this
    exact Bool.noConfusion this
  refine ⟨by simp [hf.fin_size], List.nodup_cons.2 ⟨hvnot, hf.nodup⟩, fun x hx => ?_,
    fun x hx hfin => ?_, fun u hu w huw hwu => ?_⟩
  · rcases List.mem_cons.1 hx with rfl | hx
    · exact getD_setIfInBounds_self hvlt _ _
    · exact getD_setIfInBounds_true (hf.finished_of_mem x hx)
  · dsimp only at hfin
    rw [getD_setIfInBounds] at hfin
    split at hfin
    · next hxv => exact hxv.1 ▸ List.mem_cons_self
    · exact List.mem_cons_of_mem _ (hf.mem_of_finished x hx hfin)
  · dsimp only at hu ⊢
    rcases List.mem_cons.1 hu with rfl | hu
    · have hdisc : m.discovered.getD w true = true := by
        rcases hs.pending u hv w (mem_successors.2 huw) with hw | hw
        · exact hw
        · rw [above_cons_self] at hw
          exact absurd hw List.not_mem_nil
      cases hfin : m.finished.getD w true
      · have hw : m.Gray w := ⟨hdisc, hfin⟩
        exact .inr (hs.reaches w hw u (by rw [above_cons_of_ne (Ne.symm hwu)]; exact List.mem_cons_self))
      · have hwo := hf.mem_of_finished w (hrange _ huw).2 hfin
        refine .inl ⟨List.mem_cons_of_mem _ hwo, ?_⟩
        rw [List.idxOf_cons_self, List.idxOf_cons_ne _ (Ne.symm hwu)]
        exact Nat.succ_pos _
    · have huv : u ≠ v := fun h => hvnot (h ▸ hu)
      rcases hf.forward u hu w huw hwu with ⟨hwo, hlt⟩ | hreach
      · have hwv : w ≠ v := fun h => hvnot (h ▸ hwo)
        refine .inl ⟨List.mem_cons_of_mem _ hwo, ?_⟩
        rw [List.idxOf_cons_ne _ (Ne.symm huv), List.idxOf_cons_ne _ (Ne.symm hwv)]
        exact Nat.succ_lt_succ hlt
      · exact .inr hreach

/-- Discovering the node on top of the stack keeps the stack's invariant: it stays below its
undiscovered successors, which it reaches by one edge, and every open node below it reaches it. -/
theorem Marks.OnStack.discover {v : Nat} {rest : List Nat} (hs : m.OnStack edges (v :: rest))
    (hv : m.discovered.getD v true = false) :
    Marks.OnStack edges
      (((successors edges v).filter fun s =>
          !(m.discovered.setIfInBounds v true).getD s true).reverse ++ v :: rest)
      { m with discovered := m.discovered.setIfInBounds v true } := by
  have hvlt : v < m.discovered.size := lt_size_of_getD_eq_false hv
  have hfresh : ∀ g, (m.discovered.setIfInBounds v true).getD g true = true →
      g ∉ ((successors edges v).filter fun s =>
        !(m.discovered.setIfInBounds v true).getD s true).reverse := by
    intro g hg hmem
    simp only [List.mem_reverse, List.mem_filter, hg, Bool.not_true, Bool.false_eq_true,
      and_false] at hmem
  have hgray : ∀ g, Marks.Gray { m with discovered := m.discovered.setIfInBounds v true } g →
      g = v ∨ (m.Gray g ∧ g ≠ v) := by
    intro g ⟨hd, hfin⟩
    by_cases hgv : g = v
    · exact .inl hgv
    · refine .inr ⟨⟨?_, hfin⟩, hgv⟩
      dsimp only at hd
      rwa [getD_setIfInBounds, if_neg fun h => hgv h.1.symm] at hd
  have hvd : (m.discovered.setIfInBounds v true).getD v true = true :=
    getD_setIfInBounds_self hvlt _ _
  refine ⟨fun g hg => ?_, fun g hg x hx => ?_, fun g hg w hw => ?_⟩
  · rcases hgray g hg with rfl | ⟨hg, -⟩
    · exact List.mem_append_right _ List.mem_cons_self
    · exact List.mem_append_right _ (hs.mem g hg)
  · rcases hgray g hg with rfl | ⟨hg', hgv⟩
    · rw [above_append_of_not_mem (hfresh g hvd), above_cons_self, List.append_nil] at hx
      simp only [List.mem_reverse, List.mem_filter] at hx
      exact Reaches.edge (mem_successors.1 hx.1)
    · have hv' : v ∈ above (v :: rest) g := by
        rw [above_cons_of_ne (Ne.symm hgv)]
        exact List.mem_cons_self
      rw [above_append_of_not_mem (hfresh g (getD_setIfInBounds_true hg'.1))] at hx
      rcases List.mem_append.1 hx with hx | hx
      · simp only [List.mem_reverse, List.mem_filter] at hx
        exact (hs.reaches g hg' v hv').trans (Reaches.edge (mem_successors.1 hx.1))
      · exact hs.reaches g hg' x hx
  · rcases hgray g hg with rfl | ⟨hg', hgv⟩
    · rw [above_append_of_not_mem (hfresh g hvd), above_cons_self, List.append_nil]
      cases hwd : (m.discovered.setIfInBounds g true).getD w true
      · refine .inr ?_
        simp only [List.mem_reverse, List.mem_filter, hwd, Bool.not_false, and_true]
        exact hw
      · exact .inl rfl
    · rw [above_append_of_not_mem (hfresh g (getD_setIfInBounds_true hg'.1))]
      rcases hs.pending g hg' w hw with hw | hw
      · exact .inl (getD_setIfInBounds_true hw)
      · exact .inr (List.mem_append_right _ hw)

/-- A run keeps the finish order forward, from any stack that carries its invariant. -/
theorem finishRun_forward (hrange : ∀ e ∈ edges, e.1 < n ∧ e.2 < n) (fuel : Nat)
    (stack : List Nat) (m : Marks) (hf : m.Forward n edges) (hs : m.OnStack edges stack)
    {m' : Marks} (h : finishRun (successors edges) fuel stack m = .ok m') : m'.Forward n edges := by
  induction fuel generalizing stack m with
  | zero =>
    simp only [finishRun, Except.ok.injEq] at h
    exact h ▸ hf
  | succ fuel ih =>
    cases stack with
    | nil =>
      simp only [finishRun, Except.ok.injEq] at h
      exact h ▸ hf
    | cons v rest =>
      simp only [finishRun] at h
      split at h
      · rename_i hdisc
        split at h
        · rename_i hfin
          exact ih rest m hf (hs.pop hdisc rfl fun g hg => ⟨hg, fun hgv => by
            rw [← hgv, hg.2] at hfin
            exact Bool.noConfusion hfin⟩) h
        · rename_i hfin
          have hv : m.Gray v := ⟨hdisc, Bool.eq_false_iff.2 hfin⟩
          refine ih rest _ (hf.finish hrange hs hv) (hs.pop hdisc rfl fun g hgray => ?_) h
          obtain ⟨hd, hg⟩ := hgray
          dsimp only at hg
          rw [getD_setIfInBounds] at hg
          split at hg
          · exact Bool.noConfusion hg
          · next hgv => exact ⟨⟨hd, hg⟩, fun h => hgv ⟨h.symm, lt_size_of_getD_eq_false hv.2⟩⟩
      · split at h
        · cases h
        · have hf' : Marks.Forward n edges { m with discovered := m.discovered.setIfInBounds v true } :=
            ⟨hf.fin_size, hf.nodup, hf.finished_of_mem, hf.mem_of_finished, hf.forward⟩
          exact ih _ _ hf' (hs.discover (Bool.eq_false_iff.2 ‹_›)) h

/-- A first pass that completes leaves its finish order forward. -/
theorem firstPass_forward (hrange : ∀ e ∈ edges, e.1 < n ∧ e.2 < n) {m : Marks}
    (h : firstPass n edges = .ok m) : m.Forward n edges := by
  have hinit : Marks.Forward n edges ⟨Array.replicate n false, Array.replicate n false, []⟩ := by
    refine ⟨by simp, List.nodup_nil, fun _ hv => absurd hv List.not_mem_nil, ?_,
      fun _ hu => absurd hu List.not_mem_nil⟩
    intro v hv hfin
    rw [getD_replicate_of_lt hv] at hfin
    exact absurd hfin Bool.false_ne_true
  refine firstPass_induction hinit ?_ h
  intro m₀ i m₁ hsound hclosed _ hf hrun
  -- a run starts with no open node, so the stack `[i]` carries the invariant
  have hnone : ∀ g, ¬ m₀.Gray g := by
    intro g ⟨hd, hfin⟩
    by_cases hg : g < n
    · rw [hclosed g hg hd] at hfin
      exact Bool.noConfusion hfin
    · rw [getD_of_size_le _ _ (by rw [hsound.fin_size]; omega)] at hfin
      exact Bool.noConfusion hfin
  exact finishRun_forward hrange _ [i] m₀ hf
    ⟨fun g hg => absurd hg (hnone g), fun g hg => absurd hg (hnone g),
      fun g hg => absurd hg (hnone g)⟩ hrun

/-! ### The second pass -/

theorem nextDiscovered_mem {nbr : Nat → List Nat} {stack : List Nat} {disc : Array Bool}
    {j : Nat} {stack' : List Nat} {disc' : Array Bool}
    (h : nextDiscovered nbr stack disc = some (j, stack', disc')) : j ∈ stack := by
  induction stack with
  | nil => simp [nextDiscovered] at h
  | cons v rest ih =>
    unfold nextDiscovered at h
    split at h
    · exact List.mem_cons_of_mem _ (ih h)
    · simp only [Option.some.injEq, Prod.mk.injEq] at h
      exact h.1 ▸ List.mem_cons_self

/-- A node still undiscovered after another is marked was undiscovered before. -/
theorem getD_eq_false_of_setIfInBounds {disc : Array Bool} {k j : Nat}
    (h : (disc.setIfInBounds k true).getD j true = false) : disc.getD j true = false := by
  cases hj : disc.getD j true
  · rfl
  · rw [getD_setIfInBounds_true hj] at h
    exact Bool.noConfusion h

/-- When the second pass names `j`, it was searching from a start `i` that it reached for the
first time in the order, `j` is a predecessor of `i` other than `i`, and neither was discovered
before nor started from earlier. -/
theorem secondPass_some (order : List Nat) (disc : Array Bool) {j : Nat}
    (h : secondPass (predecessors edges) order disc = some j) :
    ∃ pre i post, order = pre ++ i :: post ∧ (j, i) ∈ edges ∧ j ≠ i ∧ j ∉ pre ∧ i ∉ pre ∧
      disc.getD j true = false ∧ disc.getD i true = false := by
  induction order generalizing disc with
  | nil => simp [secondPass] at h
  | cons k rest ih =>
    unfold secondPass at h
    by_cases hk : disc.getD k true = true
    · rw [(nextDiscovered_eq_none_iff _ _).2 (by simpa using hk)] at h
      obtain ⟨pre, i, post, rfl, hedge, hji, hj, hi, hjfresh, hifresh⟩ := ih disc h
      have hjk : j ≠ k := fun hjk => by rw [hjk, hk] at hjfresh; exact Bool.noConfusion hjfresh
      have hik : i ≠ k := fun hik => by rw [hik, hk] at hifresh; exact Bool.noConfusion hifresh
      exact ⟨k :: pre, i, post, rfl, hedge, hji, List.not_mem_cons_of_ne_of_not_mem hjk hj,
        List.not_mem_cons_of_ne_of_not_mem hik hi, hjfresh, hifresh⟩
    · have hk' : disc.getD k true = false := by simpa using hk
      have hklt : k < disc.size := lt_size_of_getD_eq_false hk'
      have hkd : (disc.setIfInBounds k true).getD k true = true := getD_setIfInBounds_self hklt _ _
      have hstart : nextDiscovered (predecessors edges) [k] disc =
          some (k, ((predecessors edges k).filter
            fun s => !(disc.setIfInBounds k true).getD s true).reverse ++ [],
            disc.setIfInBounds k true) := by
        simp [nextDiscovered, hk']
      rw [hstart] at h
      dsimp only at h
      split at h
      · next j' stack' disc' hnext =>
        cases h
        have hmem := nextDiscovered_mem hnext
        simp only [List.append_nil, List.mem_reverse, List.mem_filter] at hmem
        have hfresh := (nextDiscovered_some hnext).1
        have hjk : j ≠ k := fun hjk => by rw [hjk, hkd] at hfresh; exact Bool.noConfusion hfresh
        exact ⟨[], k, rest, rfl, mem_predecessors.1 hmem.1, hjk, List.not_mem_nil,
          List.not_mem_nil, getD_eq_false_of_setIfInBounds hfresh, hk'⟩
      · obtain ⟨pre, i, post, rfl, hedge, hji, hj, hi, hjfresh, hifresh⟩ := ih _ h
        have hjk : j ≠ k := fun hjk => by rw [hjk, hkd] at hjfresh; exact Bool.noConfusion hjfresh
        have hik : i ≠ k := fun hik => by rw [hik, hkd] at hifresh; exact Bool.noConfusion hifresh
        exact ⟨k :: pre, i, post, rfl, hedge, hji, List.not_mem_cons_of_ne_of_not_mem hjk hj,
          List.not_mem_cons_of_ne_of_not_mem hik hi, getD_eq_false_of_setIfInBounds hjfresh,
          getD_eq_false_of_setIfInBounds hifresh⟩

/-! ### Named nodes lie on cycles -/

/-- A node the search names lies on a closed walk that is not empty. -/
theorem cycleNode?_some_cycle (hrange : ∀ e ∈ edges, e.1 < n ∧ e.2 < n) {v : Nat}
    (h : cycleNode? n edges = some v) : ∃ w, w ≠ [] ∧ Walk Prod.fst Prod.snd edges v w v := by
  unfold cycleNode? at h
  split at h
  · next v' hfirst =>
    rw [← Option.some.inj h]
    exact ⟨[(v', v')], List.cons_ne_nil _ _, Walk.single (firstPass_error hfirst).2⟩
  · next m hfirst =>
    obtain ⟨pre, i, post, horder, hedge, hji, hj, hi, hjfresh, -⟩ := secondPass_some _ _ h
    have hjn : v < n := by simpa using lt_size_of_getD_eq_false hjfresh
    have hf := firstPass_forward hrange hfirst
    have hvo : v ∈ m.order := ((firstPass_ok hfirst) v hjn).1
    have hvpost : v ∈ post := by
      rw [horder] at hvo
      rcases List.mem_append.1 hvo with hvo | hvo
      · exact absurd hvo hj
      · exact (List.mem_cons.1 hvo).resolve_left hji
    have hlt : m.order.idxOf i < m.order.idxOf v := by
      rw [horder, List.idxOf_append_of_notMem hi, List.idxOf_append_of_notMem hj,
        List.idxOf_cons_self, List.idxOf_cons_ne _ (Ne.symm hji)]
      omega
    rcases hf.forward v hvo i hedge (Ne.symm hji) with ⟨-, hlt'⟩ | ⟨w, hw⟩
    · exact absurd hlt (Nat.lt_asymm hlt')
    · exact ⟨(v, i) :: w, List.cons_ne_nil _ _, .cons hedge rfl hw⟩

/-- The search names nothing exactly when the graph has no closed walk but the empty one. -/
theorem cycleNode?_eq_none_iff (hrange : ∀ e ∈ edges, e.1 < n ∧ e.2 < n) :
    cycleNode? n edges = none ↔ ∀ x w, Walk Prod.fst Prod.snd edges x w x → w = [] := by
  constructor
  · exact fun h x w hw => cycleNode?_eq_none_acyclic hrange h hw
  · intro hacyclic
    cases h : cycleNode? n edges with
    | none => rfl
    | some v =>
      obtain ⟨w, hne, hw⟩ := cycleNode?_some_cycle hrange h
      exact absurd (hacyclic v w hw) hne

end CycleSearch

namespace Problem

variable {α : Type} [DecidableEq α] {p : Problem α}

/-- On a problem whose operations are distinct and whose dependences join them, an operation
the check names for a distance-0 cycle lies on a closed walk of distance-0 dependences that is
not empty. -/
theorem intraIterationCycle?_some_cycle (hnodup : p.operations.Nodup)
    (hsource : ∀ d ∈ p.dependences, d.source ∈ p.operations)
    (hdest : ∀ d ∈ p.dependences, d.destination ∈ p.operations) {op : α}
    (h : p.intraIterationCycle? = some op) :
    ∃ w, w ≠ [] ∧ Walk Dependence.source Dependence.destination
      (p.dependences.filter fun d => d.distance = 0) op w op := by
  unfold intraIterationCycle? at h
  dsimp only at h
  obtain ⟨i, hnamed, hget⟩ := Option.bind_eq_some_iff.1 h
  have hop : op ∈ p.operations := List.mem_of_getElem? hget
  have hi : (p.programIndex? op).getD 0 = i := by
    obtain ⟨hlt₁, heq₁⟩ := List.getElem?_eq_some_iff.1 hget
    obtain ⟨hlt₂, heq₂⟩ := List.getElem?_eq_some_iff.1 (getElem?_programIndex hop)
    exact hnodup.getElem_inj_iff.1 (heq₂.trans heq₁.symm)
  have hrange : ∀ e ∈ (p.dependences.filter (·.distance == 0)).map (fun d =>
      ((p.programIndex? d.source).getD 0, (p.programIndex? d.destination).getD 0)),
      e.1 < p.operations.length ∧ e.2 < p.operations.length := by
    intro e he
    obtain ⟨d, hd, rfl⟩ := List.mem_map.1 he
    have hd' := (List.mem_filter.1 hd).1
    exact ⟨programIndex_lt (hsource d hd'), programIndex_lt (hdest d hd')⟩
  obtain ⟨w', hne, hw'⟩ := CycleSearch.cycleNode?_some_cycle hrange hnamed
  obtain ⟨w, b, hw, hmap, hb, hbop⟩ := Walk.lift
    (fun d => ((p.programIndex? d.source).getD 0, (p.programIndex? d.destination).getD 0))
    (fun x => (p.programIndex? x).getD 0) (fun _ _ => rfl) (fun _ _ => rfl) {x | x ∈ p.operations}
    (fun d hd => ⟨hsource d (List.mem_filter.1 hd).1, hdest d (List.mem_filter.1 hd).1⟩)
    (fun _ ha _ hb hab => programIndex_inj ha hb hab) hw' hop hi
  have hbeq : b = op := programIndex_inj hbop hop (hb.trans hi.symm)
  subst hbeq
  refine ⟨w, fun hnil => hne (by rw [← hmap, hnil, List.map_nil]), hw.restrict fun d hd => ?_⟩
  simpa using hw.mem_edges d hd

/-- On a problem whose operations are distinct and whose dependences join them, the check names
no operation for a distance-0 cycle exactly when the distance-0 dependences have no closed walk
but the empty one. -/
theorem intraIterationCycle?_eq_none_iff (hnodup : p.operations.Nodup)
    (hsource : ∀ d ∈ p.dependences, d.source ∈ p.operations)
    (hdest : ∀ d ∈ p.dependences, d.destination ∈ p.operations) :
    p.intraIterationCycle? = none ↔ ∀ x w, Walk Dependence.source Dependence.destination
      (p.dependences.filter fun d => d.distance = 0) x w x → w = [] := by
  constructor
  · exact fun h x w hw => intraIterationCycle?_eq_none_acyclic hsource hdest h hw
  · intro hacyclic
    cases h : p.intraIterationCycle? with
    | none => rfl
    | some op =>
      obtain ⟨w, hne, hw⟩ := intraIterationCycle?_some_cycle hnodup hsource hdest h
      exact absurd (hacyclic op w hw) hne

end Problem

end ModuloPipelining
