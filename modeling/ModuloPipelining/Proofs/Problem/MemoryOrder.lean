import ModuloPipelining.Proofs.Pipeline.Lowering

/-!
# Memory accesses are ordered across iterations

Two accesses of one buffer in a loop body, at least one a store, may touch the same element in
different iterations. When both indices are `iv + c` the iterations that conflict are fixed by
the offsets: iteration `i` of the first and iteration `j` of the second touch the same element
when `i * step + a = j * step + b`. When an index has another form, any two iterations may
conflict.

The dependence problem of a loop orders each such pair of instances by auxiliary dependences
(`Loop.problem_orders_conflicts`): a path of them leads from the instance that runs first to the
other, spanning the iterations between them. For two `iv + c` indices the path is the single
dependence the builder adds, and that dependence is added only when some pair of iterations the
loop runs does conflict. Pairs of `iv + c` accesses at least `2 ^ 32` iterations apart are left
unordered: their distance does not fit a dependence (`farReuse_unordered`).

The proof reads the builder pair by pair:

* the problem's dependences are the data dependences and the memory dependences, nothing else
  (`Loop.mem_problem_dependences`), and data dependences are never auxiliary;
* the accesses are listed in program order, one per access operation
  (`Loop.accesses_sublist`), and each pair of them, earlier first, contributes its dependences
  (`Access.pairDependences_sublist`), which are the only ones between two accesses
  (`Access.mem_pairDependences`);
* for a pair of `iv + c` accesses the contribution is one dependence whose distance is the
  iterations between the conflicting instances, or none when no instances the loop runs
  conflict (`Access.dependences_of_conflict`, `Access.conflict_of_dependences`); for any other
  pair it is a dependence each way, which chain into paths of every span
  (`Problem.ordersAcross_of_twoWay`).
-/

namespace ModuloPipelining

/-! ### Traversals -/

section Traversal

variable {ε β γ : Type}

/-- A traversal that succeeds on a list succeeds on every sublist, with a sublist of results. -/
theorem mapM_sublist {f : β → Except ε γ} {xs' xs : List β} (hsub : xs'.Sublist xs) :
    ∀ {ys : List γ}, xs.mapM f = .ok ys → ∃ ys', xs'.mapM f = .ok ys' ∧ ys'.Sublist ys := by
  induction hsub with
  | slnil =>
    intro ys _
    exact ⟨[], rfl, List.nil_sublist _⟩
  | cons x _ ih =>
    intro ys h
    rw [List.mapM_cons] at h
    obtain ⟨y, -, h⟩ := bind_eq_ok h
    obtain ⟨rest, hrest, h⟩ := bind_eq_ok h
    cases h
    obtain ⟨ys', hys', hsub'⟩ := ih hrest
    exact ⟨ys', hys', hsub'.cons y⟩
  | cons_cons x _ ih =>
    intro ys h
    rw [List.mapM_cons] at h
    obtain ⟨y, hy, h⟩ := bind_eq_ok h
    obtain ⟨rest, hrest, h⟩ := bind_eq_ok h
    cases h
    obtain ⟨ys', hys', hsub'⟩ := ih hrest
    refine ⟨y :: ys', ?_, hsub'.cons_cons y⟩
    rw [List.mapM_cons, hy, ok_bind, hys']
    rfl

/-- What a successful traversal produces for a member is part of its result. -/
theorem flatMapM_eq_ok_of_mem {f : β → Except ε (List γ)} :
    ∀ {xs : List β} {ys : List γ}, xs.flatMapM f = .ok ys →
      ∀ x ∈ xs, ∃ zs, f x = .ok zs ∧ ∀ z ∈ zs, z ∈ ys
  | [], _, _, x, hx => absurd hx List.not_mem_nil
  | y :: xs, ys, h, x, hx => by
    rw [List.flatMapM_cons] at h
    obtain ⟨zs, hzs, h⟩ := bind_eq_ok h
    obtain ⟨rest, hrest, h⟩ := bind_eq_ok h
    cases h
    rcases List.mem_cons.1 hx with rfl | hx
    · exact ⟨zs, hzs, fun z hz => List.mem_append_left _ hz⟩
    · obtain ⟨zs', hzs', hmem⟩ := flatMapM_eq_ok_of_mem hrest x hx
      exact ⟨zs', hzs', fun z hz => List.mem_append_right _ (hmem z hz)⟩

end Traversal

/-! ### The dependences of a loop's problem -/

namespace Problem

variable {α : Type} [DecidableEq α]

theorem mem_foldl_insertDependence_dependences_iff {x : Dependence α} :
    ∀ {ds : List (Dependence α)} {p : Problem α},
      x ∈ (ds.foldl insertDependence p).dependences ↔ x ∈ p.dependences ∨ x ∈ ds
  | [], p => by simp
  | d :: ds, p => by
    rw [List.foldl_cons, mem_foldl_insertDependence_dependences_iff,
      mem_insertDependence_dependences, List.mem_cons]
    tauto

end Problem

namespace Loop

variable {l : Loop} {p : Problem OpRef}

/-- A problem built from a loop holds exactly its data and its memory dependences. -/
theorem mem_problem_dependences (hp : l.problem = .ok p) {memory : List (Dependence OpRef)}
    (hmem : l.memoryDependences = .ok memory) {d : Dependence OpRef} :
    d ∈ p.dependences ↔ d ∈ l.dataDependences ∨ d ∈ memory := by
  unfold problem at hp
  rw [hmem] at hp
  cases hp
  rw [Problem.mem_foldl_insertDependence_dependences_iff,
    Problem.mem_foldl_insertDependence_dependences_iff, Problem.foldl_insertOperation_dependences]
  simp [Problem.empty]

theorem memoryDependences_of_problem (hp : l.problem = .ok p) :
    ∃ memory, l.memoryDependences = .ok memory := by
  unfold problem at hp
  cases hmem : l.memoryDependences with
  | error e =>
    rw [hmem] at hp
    cases hp
  | ok memory => exact ⟨memory, rfl⟩

/-- Data dependences pass values; none of them is auxiliary. -/
theorem kind_of_mem_dataDependences {d : Dependence OpRef} (hd : d ∈ l.dataDependences) :
    d.kind = .data := by
  rcases List.mem_append.1 hd with hd | hd
  · obtain ⟨o, -, hd⟩ := List.mem_flatMap.1 hd
    obtain ⟨v, -, hv⟩ := List.mem_filterMap.1 hd
    exact (valueDependence_eq_some hv).2.1
  · exact (valueDependence_eq_some (Option.mem_toList.1 hd)).2.1

/-- The accesses are listed in program order: an access operation before another gives its
access, with the offset found for its index, before the other's. -/
theorem accesses_sublist {accs : List Access} (h : l.accesses = .ok accs) {A B : Operation}
    (hAB : [A, B].Sublist l.operations) {ma mb : MemoryAccess} (hma : A.memoryAccess? = some ma)
    (hmb : B.memoryAccess? = some mb) {oa ob : Option Int}
    (hoa : l.offsetOf? (l.operations.length + 1) ma.index = .ok oa)
    (hob : l.offsetOf? (l.operations.length + 1) mb.index = .ok ob) :
    [⟨A.id, ma.buffer, oa, ma.isWrite⟩, ⟨B.id, mb.buffer, ob, mb.isWrite⟩].Sublist accs := by
  have hpairs := hAB.filterMap fun op => op.memoryAccess?.map (op.id, ·)
  simp only [List.filterMap_cons, hma, hmb, Option.map_some, List.filterMap_nil] at hpairs
  obtain ⟨ys, hys, hsub⟩ := mapM_sublist hpairs h
  simp only [List.mapM_cons, List.mapM_nil, hoa, hob] at hys
  cases hys
  exact hsub

/-- Every access comes from a body operation that accesses memory, with the offset found for
its index. -/
theorem mem_accesses {accs : List Access} (h : l.accesses = .ok accs) {x : Access}
    (hx : x ∈ accs) :
    ∃ o ∈ l.operations, ∃ m, o.memoryAccess? = some m ∧
      l.offsetOf? (l.operations.length + 1) m.index = .ok x.offset ∧
      x = ⟨o.id, m.buffer, x.offset, m.isWrite⟩ := by
  obtain ⟨⟨id, m⟩, hpair, hx⟩ := mem_of_mapM_eq_ok h x hx
  obtain ⟨o, ho, hmap⟩ := List.mem_filterMap.1 hpair
  obtain ⟨m', hm', hm⟩ := Option.map_eq_some_iff.1 hmap
  cases hm
  obtain ⟨offset, hoff, hx⟩ := bind_eq_ok hx
  cases hx
  exact ⟨o, ho, m, hm', hoff, rfl⟩

/-- With distinct identities, the access of an operation is the only one under its identity. -/
theorem eq_of_mem_accesses {accs : List Access} (h : l.accesses = .ok accs)
    (hids : (l.operations.map (·.id)).Nodup) {A : Operation} (hA : A ∈ l.operations)
    {ma : MemoryAccess} (hma : A.memoryAccess? = some ma) {oa : Option Int}
    (hoa : l.offsetOf? (l.operations.length + 1) ma.index = .ok oa) {x : Access}
    (hx : x ∈ accs) (hop : x.op = A.id) : x = ⟨A.id, ma.buffer, oa, ma.isWrite⟩ := by
  obtain ⟨o, ho, m, hm, hoff, hxeq⟩ := mem_accesses h hx
  have hid : o.id = A.id := by
    rw [← hop, hxeq]
  obtain rfl : o = A := List.inj_on_of_nodup_map hids ho hA hid
  rw [hma] at hm
  cases hm
  rw [hoa] at hoff
  cases hoff
  exact hxeq

end Loop

/-! ### Pairs of accesses -/

namespace Access

variable {step : Option Int} {tripCount : Option Nat}

/-- Each pair of accesses, the earlier first, contributes its dependences. -/
theorem pairDependences_sublist :
    ∀ {accs : List Access} {ds : List (Dependence OpRef)},
      Access.pairDependences step tripCount accs = .ok ds →
      ∀ {x y : Access}, [x, y].Sublist accs →
        ∃ dxy, Access.dependences step tripCount x y = .ok dxy ∧ ∀ d ∈ dxy, d ∈ ds
  | [], _, _, _, _, hsub => absurd hsub (by simp)
  | e :: rest, ds, h, x, y, hsub => by
    unfold Access.pairDependences at h
    obtain ⟨here, hhere, h⟩ := bind_eq_ok h
    obtain ⟨later, hlater, h⟩ := bind_eq_ok h
    cases h
    rcases List.sublist_cons_iff.1 hsub with hsub | ⟨r, hr, hsub⟩
    · obtain ⟨dxy, hdxy, hmem⟩ := pairDependences_sublist hlater hsub
      exact ⟨dxy, hdxy, fun d hd => List.mem_append_right _ (hmem d hd)⟩
    · obtain ⟨rfl, rfl⟩ := List.cons_eq_cons.1 hr
      obtain ⟨dxy, hdxy, hmem⟩ :=
        flatMapM_eq_ok_of_mem hhere y (List.singleton_sublist.1 hsub)
      exact ⟨dxy, hdxy, fun d hd => List.mem_append_left _ (hmem d hd)⟩

/-- Every dependence between accesses comes from a pair of them, the earlier first. -/
theorem mem_pairDependences :
    ∀ {accs : List Access} {ds : List (Dependence OpRef)},
      Access.pairDependences step tripCount accs = .ok ds → ∀ d ∈ ds,
        ∃ x y dxy, [x, y].Sublist accs ∧ Access.dependences step tripCount x y = .ok dxy ∧ d ∈ dxy
  | [], ds, h, d, hd => by
    cases h
    exact absurd hd List.not_mem_nil
  | e :: rest, ds, h, d, hd => by
    unfold Access.pairDependences at h
    obtain ⟨here, hhere, h⟩ := bind_eq_ok h
    obtain ⟨later, hlater, h⟩ := bind_eq_ok h
    cases h
    rcases List.mem_append.1 hd with hd | hd
    · obtain ⟨y, hy, dxy, hdxy, hmem⟩ := mem_of_flatMapM_eq_ok hhere d hd
      exact ⟨e, y, dxy, List.cons_sublist_cons.2 (List.singleton_sublist.2 hy), hdxy, hmem⟩
    · obtain ⟨x, y, dxy, hsub, hdxy, hmem⟩ := mem_pairDependences hlater d hd
      exact ⟨x, y, dxy, hsub.cons e, hdxy, hmem⟩

/-- Accesses of one buffer, at least one a write, are not passed over. -/
theorem may_conflict {x y : Access} (hbuf : x.buffer = y.buffer)
    (hwrite : x.isWrite = true ∨ y.isWrite = true) :
    ¬(x.buffer ≠ y.buffer ∨ (!(x.isWrite || y.isWrite)) = true) := by
  rcases hwrite with h | h <;> simp [hbuf, h]

/-- Two accesses of one buffer, at least one a write, where an index is not `iv + c`: they are
ordered both ways, forward within an iteration and backward across one. -/
theorem dependences_twoWay {x y : Access} (hbuf : x.buffer = y.buffer)
    (hwrite : x.isWrite = true ∨ y.isWrite = true) (hna : x.offset = none ∨ y.offset = none) :
    Access.dependences step tripCount x y =
      .ok [⟨.body x.op, .body y.op, 0, .auxiliary⟩, ⟨.body y.op, .body x.op, 1, .auxiliary⟩] := by
  unfold Access.dependences
  rw [if_neg (may_conflict hbuf hwrite)]
  rcases hna with h | h
  · simp only [h]
  · cases x.offset <;> simp only [h]

/-- The dependences of two `iv + c` accesses of one buffer, at least one a write, under a known
step: when the pair builds, it gives at most one dependence, over the iterations
`(a - b) / step` that separate conflicting instances, forward when that is not negative. The
step must divide the offsets' difference, and the instances must lie less than a trip count and
a 32-bit distance apart. -/
theorem mem_dependences_affine {x y : Access} (hbuf : x.buffer = y.buffer)
    (hwrite : x.isWrite = true ∨ y.isWrite = true) {a b s : Int} (hxa : x.offset = some a)
    (hyb : y.offset = some b) {ds : List (Dependence OpRef)}
    (h : Access.dependences (some s) tripCount x y = .ok ds) {d : Dependence OpRef} :
    d ∈ ds ↔ (a - b) % s = 0 ∧ (∀ c, tripCount = some c → ((a - b) / s).natAbs < c) ∧
      ((a - b) / s).natAbs < u32Bound ∧
      d = if 0 ≤ (a - b) / s then ⟨.body x.op, .body y.op, ((a - b) / s).natAbs, .auxiliary⟩
        else ⟨.body y.op, .body x.op, ((a - b) / s).natAbs, .auxiliary⟩ := by
  unfold Access.dependences at h
  rw [if_neg (may_conflict hbuf hwrite)] at h
  simp only [hxa, hyb] at h
  have hwithin : (Option.any (fun c => decide (c ≤ ((a - b) / s).natAbs)) tripCount = true) ↔
      ¬∀ c, tripCount = some c → ((a - b) / s).natAbs < c := by
    cases tripCount <;> simp
  split_ifs at h with hfit hmin hmod hfar hsign <;> cases h
  · simp only [List.not_mem_nil, false_iff]
    exact fun hc => hmod hc.1
  · simp only [List.not_mem_nil, false_iff]
    rintro ⟨-, hall, hlt, -⟩
    rw [hwithin] at hfar
    rcases hfar with hfar | hfar
    · exact hfar hall
    · omega
  all_goals
    rw [hwithin] at hfar
    push Not at hfar
    rw [ne_eq, not_not] at hmod
    simp only [List.mem_singleton, hsign, if_true, if_false]
    exact ⟨fun hd => ⟨hmod, hfar.1, hfar.2, hd⟩, fun hc => hc.2.2.2⟩

/-- Conflicting instances of two `iv + c` accesses, in iterations the loop runs and less than a
32-bit distance apart, are ordered by one dependence spanning the iterations between them. -/
theorem dependences_of_conflict {x y : Access} (hbuf : x.buffer = y.buffer)
    (hwrite : x.isWrite = true ∨ y.isWrite = true) {a b s : Int} (hxa : x.offset = some a)
    (hyb : y.offset = some b) (hs : s ≠ 0) {ds : List (Dependence OpRef)}
    (h : Access.dependences (some s) tripCount x y = .ok ds) {i j : Nat}
    (hi : ∀ c, tripCount = some c → i < c) (hj : ∀ c, tripCount = some c → j < c)
    (hconf : i * s + a = j * s + b) (hnear : ((j : Int) - i).natAbs < u32Bound) :
    (i ≤ j → ⟨.body x.op, .body y.op, j - i, .auxiliary⟩ ∈ ds) ∧
      (j < i → ⟨.body y.op, .body x.op, i - j, .auxiliary⟩ ∈ ds) := by
  have hdiff : a - b = ((j : Int) - i) * s := by
    rw [sub_mul]
    linarith
  have hq : (a - b) / s = (j : Int) - i := by
    rw [hdiff, Int.mul_ediv_cancel _ hs]
  have hmod : (a - b) % s = 0 := by
    rw [hdiff, Int.mul_emod_left]
  have hwithin : ∀ c, tripCount = some c → ((j : Int) - i).natAbs < c := by
    intro c hc
    have := hi c hc
    have := hj c hc
    omega
  refine ⟨fun hij => ?_, fun hji => ?_⟩
  · rw [mem_dependences_affine hbuf hwrite hxa hyb h, hq, if_pos (by omega)]
    refine ⟨hmod, hwithin, hnear, ?_⟩
    congr 1
    omega
  · rw [mem_dependences_affine hbuf hwrite hxa hyb h, hq, if_neg (by omega)]
    refine ⟨hmod, hwithin, hnear, ?_⟩
    congr 1
    omega

/-- A dependence between two `iv + c` accesses is there only for instances that conflict, in
iterations the loop runs. -/
theorem conflict_of_dependences {x y : Access} (hbuf : x.buffer = y.buffer)
    (hwrite : x.isWrite = true ∨ y.isWrite = true) {a b s : Int} (hxa : x.offset = some a)
    (hyb : y.offset = some b) {ds : List (Dependence OpRef)}
    (h : Access.dependences (some s) tripCount x y = .ok ds) {d : Dependence OpRef}
    (hd : d ∈ ds) :
    ∃ i j : Nat, (∀ c, tripCount = some c → i < c) ∧ (∀ c, tripCount = some c → j < c) ∧
      i * s + a = j * s + b := by
  obtain ⟨hmod, hwithin, -, -⟩ := (mem_dependences_affine hbuf hwrite hxa hyb h).1 hd
  have hdiff : a - b = (a - b) / s * s := (Int.ediv_mul_cancel (Int.dvd_of_emod_eq_zero hmod)).symm
  rcases le_or_gt 0 ((a - b) / s) with hpos | hneg
  · refine ⟨0, ((a - b) / s).toNat, fun c hc => ?_, fun c hc => ?_, ?_⟩
    · have := hwithin c hc
      omega
    · have := hwithin c hc
      omega
    · rw [Int.toNat_of_nonneg hpos]
      push_cast
      linarith
  · refine ⟨(-((a - b) / s)).toNat, 0, fun c hc => ?_, fun c hc => ?_, ?_⟩
    · have := hwithin c hc
      omega
    · have := hwithin c hc
      omega
    · rw [Int.toNat_of_nonneg (by omega)]
      push_cast
      linarith

end Access

/-! ### Ordering conflicting instances -/

/-- Iteration `i` of an access whose index has offset `oa` and iteration `j` of one whose index
has offset `ob` may touch the same element: both indices are `iv + c` and the addresses
`lower + i * step + a` and `lower + j * step + b` agree, or an index is not of that form. -/
def MayConflict (step : Int) : Option Int → Option Int → Nat → Nat → Prop
  | some a, some b, i, j => i * step + a = j * step + b
  | _, _, _, _ => True

/-- Iteration `i` is one the loop runs: it is below the trip count, when there is one. -/
def Loop.RunsIteration (l : Loop) (i : Nat) : Prop := ∀ c, l.tripCount? = some c → i < c

/-- Two memory accesses of a loop body on one buffer, at least one a write: `A` stands before
`B`, and their indices have the offsets `oa` and `ob` (`none` when an index is not `iv + c`). -/
structure Loop.AccessPair (l : Loop) (A B : Operation) (ma mb : MemoryAccess)
    (oa ob : Option Int) : Prop where
  before : [A, B].Sublist l.operations
  accessA : A.memoryAccess? = some ma
  accessB : B.memoryAccess? = some mb
  buffer : ma.buffer = mb.buffer
  write : ma.isWrite = true ∨ mb.isWrite = true
  offsetA : l.offsetOf? (l.operations.length + 1) ma.index = .ok oa
  offsetB : l.offsetOf? (l.operations.length + 1) mb.index = .ok ob

namespace Problem

/-- A path of auxiliary dependences leads from `x` to `y` over `k` iterations in all: `x` in
some iteration comes before `y` `k` iterations later. -/
def OrdersAcross (p : Problem OpRef) (x y : OpRef) (k : Nat) : Prop :=
  ∃ w, Walk Dependence.source Dependence.destination
      (p.dependences.filter (·.kind = .auxiliary)) x w y ∧ (w.map (·.distance)).sum = k

variable {p : Problem OpRef}

theorem ordersAcross_of_mem {d : Dependence OpRef} (hd : d ∈ p.dependences)
    (hkind : d.kind = .auxiliary) : p.OrdersAcross d.source d.destination d.distance :=
  ⟨[d], Walk.single (List.mem_filter.2 ⟨hd, by simp [hkind]⟩), by simp⟩

/-- A dependence each way, forward within an iteration and backward across one, orders the two
operations over every span forward and every positive span backward: go back and forth. -/
theorem ordersAcross_of_twoWay {x y : OpRef} (hfwd : ⟨x, y, 0, .auxiliary⟩ ∈ p.dependences)
    (hbwd : ⟨y, x, 1, .auxiliary⟩ ∈ p.dependences) :
    (∀ k, p.OrdersAcross x y k) ∧ ∀ k, p.OrdersAcross y x (k + 1) := by
  have hf : (⟨x, y, 0, .auxiliary⟩ : Dependence OpRef) ∈
      p.dependences.filter (·.kind = .auxiliary) := List.mem_filter.2 ⟨hfwd, by simp⟩
  have hb : (⟨y, x, 1, .auxiliary⟩ : Dependence OpRef) ∈
      p.dependences.filter (·.kind = .auxiliary) := List.mem_filter.2 ⟨hbwd, by simp⟩
  constructor
  · intro k
    induction k with
    | zero => exact ⟨_, Walk.single hf, by simp⟩
    | succ k ih =>
      obtain ⟨w, hw, hsum⟩ := ih
      refine ⟨_ :: _ :: w, .cons hf rfl (.cons hb rfl hw), ?_⟩
      simp only [List.map_cons, List.sum_cons, hsum]
      omega
  · intro k
    induction k with
    | zero => exact ⟨_, Walk.single hb, by simp⟩
    | succ k ih =>
      obtain ⟨w, hw, hsum⟩ := ih
      refine ⟨_ :: _ :: w, .cons hb rfl (.cons hf rfl hw), ?_⟩
      simp only [List.map_cons, List.sum_cons, hsum]
      omega

end Problem

namespace Loop.AccessPair

variable {l : Loop} {p : Problem OpRef} {step : Int} {A B : Operation} {ma mb : MemoryAccess}
  {oa ob : Option Int}

/-- The access of `A` as the builder lists it. -/
abbrev first (_ : l.AccessPair A B ma mb oa ob) : Access := ⟨A.id, ma.buffer, oa, ma.isWrite⟩

/-- The access of `B` as the builder lists it. -/
abbrev second (_ : l.AccessPair A B ma mb oa ob) : Access := ⟨B.id, mb.buffer, ob, mb.isWrite⟩

/-- The problem holds the dependences the builder finds for the pair. -/
theorem dependences_mem (h : l.AccessPair A B ma mb oa ob) (hp : l.problem = .ok p)
    (hstep : l.step = .constant step) (hne : step ≠ 0) :
    ∃ ds, Access.dependences (some step) l.tripCount? h.first h.second = .ok ds ∧
      ∀ d ∈ ds, d ∈ p.dependences := by
  obtain ⟨memory, hmem⟩ := memoryDependences_of_problem hp
  have hmem' := hmem
  unfold memoryDependences at hmem'
  obtain ⟨accs, haccs, hpairs⟩ := bind_eq_ok hmem'
  simp only [hstep, Bound.constant?, Option.filter_some, ne_eq, hne, not_false_eq_true,
    decide_true, if_true] at hpairs
  obtain ⟨ds, hds, hin⟩ := Access.pairDependences_sublist hpairs
    (accesses_sublist haccs h.before h.accessA h.accessB h.offsetA h.offsetB)
  exact ⟨ds, hds, fun d hd => (mem_problem_dependences hp hmem).2 (.inr (hin d hd))⟩

/-- Conflicting instances in iterations the loop runs, of `iv + c` accesses less than a 32-bit
distance apart, are ordered by one dependence spanning the iterations between them. -/
theorem edge_of_conflict (h : l.AccessPair A B ma mb oa ob) (hp : l.problem = .ok p)
    (hstep : l.step = .constant step) (hne : step ≠ 0) {a b : Int} (ha : oa = some a)
    (hb : ob = some b) {i j : Nat} (hi : l.RunsIteration i) (hj : l.RunsIteration j)
    (hconf : MayConflict step oa ob i j) (hnear : ((j : Int) - i).natAbs < u32Bound) :
    (i ≤ j → ⟨.body A.id, .body B.id, j - i, .auxiliary⟩ ∈ p.dependences) ∧
      (j < i → ⟨.body B.id, .body A.id, i - j, .auxiliary⟩ ∈ p.dependences) := by
  subst ha hb
  obtain ⟨ds, hds, hin⟩ := h.dependences_mem hp hstep hne
  obtain ⟨hfwd, hbwd⟩ := Access.dependences_of_conflict h.buffer h.write rfl rfl hne hds hi hj
    hconf hnear
  exact ⟨fun hij => hin _ (hfwd hij), fun hji => hin _ (hbwd hji)⟩

/-- Where an index is not `iv + c`, the two accesses are ordered over every span forward and
every positive span backward. -/
theorem orders_of_unaffine (h : l.AccessPair A B ma mb oa ob) (hp : l.problem = .ok p)
    (hstep : l.step = .constant step) (hne : step ≠ 0) (hna : oa = none ∨ ob = none) :
    (∀ k, p.OrdersAcross (.body A.id) (.body B.id) k) ∧
      ∀ k, p.OrdersAcross (.body B.id) (.body A.id) (k + 1) := by
  obtain ⟨ds, hds, hin⟩ := h.dependences_mem hp hstep hne
  rw [Access.dependences_twoWay h.buffer h.write hna] at hds
  cases hds
  exact Problem.ordersAcross_of_twoWay (hin _ List.mem_cons_self)
    (hin _ (List.mem_cons_of_mem _ List.mem_cons_self))

/-- Conflicting instances in iterations the loop runs are ordered by a path of auxiliary
dependences from the one that runs first, spanning the iterations between them; for `iv + c`
indices, when they lie less than a 32-bit distance apart. -/
theorem orders_conflict (h : l.AccessPair A B ma mb oa ob) (hp : l.problem = .ok p)
    (hstep : l.step = .constant step) (hne : step ≠ 0) {i j : Nat} (hi : l.RunsIteration i)
    (hj : l.RunsIteration j) (hconf : MayConflict step oa ob i j)
    (hnear : oa.isSome → ob.isSome → ((j : Int) - i).natAbs < u32Bound) :
    (i ≤ j → p.OrdersAcross (.body A.id) (.body B.id) (j - i)) ∧
      (j < i → p.OrdersAcross (.body B.id) (.body A.id) (i - j)) := by
  by_cases haff : oa.isSome ∧ ob.isSome
  · obtain ⟨a, ha⟩ := Option.isSome_iff_exists.1 haff.1
    obtain ⟨b, hb⟩ := Option.isSome_iff_exists.1 haff.2
    obtain ⟨hfwd, hbwd⟩ := h.edge_of_conflict hp hstep hne ha hb hi hj hconf
      (hnear haff.1 haff.2)
    exact ⟨fun hij => Problem.ordersAcross_of_mem (hfwd hij) rfl,
      fun hji => Problem.ordersAcross_of_mem (hbwd hji) rfl⟩
  · have hna : oa = none ∨ ob = none := by
      cases oa <;> cases ob <;> simp_all
    obtain ⟨hfwd, hbwd⟩ := h.orders_of_unaffine hp hstep hne hna
    refine ⟨fun _ => hfwd _, fun hji => ?_⟩
    obtain ⟨k, hk⟩ : ∃ k, i - j = k + 1 := ⟨i - j - 1, by omega⟩
    rw [hk]
    exact hbwd k

/-- A dependence between two distinct operations that joins two of `u` and `v` joins them. -/
theorem ends_of_dependence {s t u v : Nat} (hst : s ≠ t)
    (hsrc : OpRef.body s = .body u ∨ OpRef.body s = .body v)
    (hdst : OpRef.body t = .body u ∨ OpRef.body t = .body v) :
    (u = s ∧ v = t) ∨ (u = t ∧ v = s) := by
  simp only [OpRef.body.injEq] at hsrc hdst
  omega

/-- With distinct identities, an auxiliary dependence between two `iv + c` accesses is there
only if instances of them conflict in iterations the loop runs. -/
theorem conflict_of_auxiliary (h : l.AccessPair A B ma mb oa ob) (hp : l.problem = .ok p)
    (hstep : l.step = .constant step) (hne : step ≠ 0) (hids : (l.operations.map (·.id)).Nodup)
    {a b : Int} (ha : oa = some a) (hb : ob = some b) {d : Dependence OpRef}
    (hd : d ∈ p.dependences) (hkind : d.kind = .auxiliary)
    (hends : d.source = .body A.id ∧ d.destination = .body B.id ∨
      d.source = .body B.id ∧ d.destination = .body A.id) :
    ∃ i j, l.RunsIteration i ∧ l.RunsIteration j ∧ MayConflict step oa ob i j := by
  subst ha hb
  obtain ⟨memory, hmem⟩ := memoryDependences_of_problem hp
  have hmemd : d ∈ memory := by
    rcases (mem_problem_dependences hp hmem).1 hd with hdata | hm
    · rw [kind_of_mem_dataDependences hdata] at hkind
      cases hkind
    · exact hm
  have hmem' := hmem
  unfold memoryDependences at hmem'
  obtain ⟨accs, haccs, hpairs⟩ := bind_eq_ok hmem'
  simp only [hstep, Bound.constant?, Option.filter_some, ne_eq, hne, not_false_eq_true,
    decide_true, if_true] at hpairs
  obtain ⟨x, y, dxy, hxy, hdxy, hdin⟩ := Access.mem_pairDependences hpairs d hmemd
  obtain ⟨hsrc, hdst⟩ := Access.dependences_ends hdxy d hdin
  have hAB : A.id ≠ B.id := by
    have := (h.before.map (·.id)).nodup hids
    simpa using this
  have hx : x ∈ accs := hxy.subset (by simp)
  have hy : y ∈ accs := hxy.subset (by simp)
  have hA : A ∈ l.operations := h.before.subset (by simp)
  have hB : B ∈ l.operations := h.before.subset (by simp)
  have hpair : (x.op = A.id ∧ y.op = B.id) ∨ (x.op = B.id ∧ y.op = A.id) := by
    rcases hends with ⟨hs, ht⟩ | ⟨hs, ht⟩
    · rw [hs] at hsrc
      rw [ht] at hdst
      exact ends_of_dependence hAB hsrc hdst
    · rw [hs] at hsrc
      rw [ht] at hdst
      exact (ends_of_dependence hAB.symm hsrc hdst).symm
  rcases hpair with ⟨hxA, hyB⟩ | ⟨hxB, hyA⟩
  · obtain rfl := eq_of_mem_accesses haccs hids hA h.accessA h.offsetA hx hxA
    obtain rfl := eq_of_mem_accesses haccs hids hB h.accessB h.offsetB hy hyB
    exact Access.conflict_of_dependences h.buffer h.write rfl rfl hdxy hdin
  · obtain rfl := eq_of_mem_accesses haccs hids hB h.accessB h.offsetB hx hxB
    obtain rfl := eq_of_mem_accesses haccs hids hA h.accessA h.offsetA hy hyA
    obtain ⟨i, j, hi, hj, hc⟩ :=
      Access.conflict_of_dependences h.buffer.symm h.write.symm rfl rfl hdxy hdin
    exact ⟨j, i, hj, hi, hc.symm⟩

end Loop.AccessPair

namespace Loop

/-- The dependence problem of a loop with a known non-zero step orders the conflicting instances
of two accesses of one buffer, at least one a write, `A` before `B` in the body: a path of
auxiliary dependences leads from the instance that runs first to the other, spanning the
iterations between them. For two `iv + c` indices the instances must lie less than a 32-bit
distance apart; the path is then the single dependence between them, and, with distinct
identities, such a dependence is there only if some instances the loop runs conflict. -/
theorem problem_orders_conflicts {l : Loop} {p : Problem OpRef} (hp : l.problem = .ok p)
    {step : Int} (hstep : l.step = .constant step) (hne : step ≠ 0)
    (hids : (l.operations.map (·.id)).Nodup) {A B : Operation} {ma mb : MemoryAccess}
    {oa ob : Option Int} (hpair : l.AccessPair A B ma mb oa ob) :
    (∀ i j, l.RunsIteration i → l.RunsIteration j → MayConflict step oa ob i j →
        (oa.isSome → ob.isSome → ((j : Int) - i).natAbs < u32Bound) →
        (i ≤ j → p.OrdersAcross (.body A.id) (.body B.id) (j - i)) ∧
        (j < i → p.OrdersAcross (.body B.id) (.body A.id) (i - j))) ∧
      ∀ a b, oa = some a → ob = some b →
        (∀ i j, l.RunsIteration i → l.RunsIteration j → MayConflict step oa ob i j →
          ((j : Int) - i).natAbs < u32Bound →
          (i ≤ j → ⟨.body A.id, .body B.id, j - i, .auxiliary⟩ ∈ p.dependences) ∧
          (j < i → ⟨.body B.id, .body A.id, i - j, .auxiliary⟩ ∈ p.dependences)) ∧
        ∀ d ∈ p.dependences, d.kind = .auxiliary →
          (d.source = .body A.id ∧ d.destination = .body B.id ∨
            d.source = .body B.id ∧ d.destination = .body A.id) →
          ∃ i j, l.RunsIteration i ∧ l.RunsIteration j ∧ MayConflict step oa ob i j := by
  refine ⟨fun i j hi hj hconf hnear => hpair.orders_conflict hp hstep hne hi hj hconf hnear,
    fun a b ha hb => ⟨fun i j hi hj hconf hnear => ?_, fun d hd hkind hends => ?_⟩⟩
  · exact hpair.edge_of_conflict hp hstep hne ha hb hi hj hconf hnear
  · exact hpair.conflict_of_auxiliary hp hstep hne hids ha hb hd hkind hends

end Loop

/-- `x = a[iv]; a[iv + 1] = x` over a hundred iterations: the store of one iteration writes what
the load of the next reads. -/
def shiftLeft : Loop :=
  ⟨0, .constant 0, .constant 100, .constant 1, .slt, [], [],
    [.op ⟨0, .load "a", [.inductionVar], some .i32⟩,
      .op ⟨1, .addi, [.inductionVar, .constant 1 .index], some .index⟩,
      .op ⟨2, .store "a", [.result 0, .result 1], none⟩], []⟩

/-- The dependence problem of `shiftLeft`: its data dependences, then the store ordered before
the next iteration's load. -/
def shiftLeftProblem : Problem OpRef :=
  ⟨[.body 0, .body 1, .body 2, .increment], [], [],
    [⟨.increment, .body 0, 1, .data⟩, ⟨.increment, .body 1, 1, .data⟩, ⟨.body 0, .body 2, 0, .data⟩,
      ⟨.body 1, .body 2, 0, .data⟩, ⟨.increment, .increment, 1, .data⟩,
      ⟨.body 2, .body 0, 1, .auxiliary⟩], [], none, false⟩

theorem shiftLeft_orders_conflicts :
    shiftLeft.problem = .ok shiftLeftProblem ∧ shiftLeft.step = .constant 1 ∧ (1 : Int) ≠ 0 ∧
      (shiftLeft.operations.map (·.id)).Nodup ∧
      shiftLeft.AccessPair ⟨0, .load "a", [.inductionVar], some .i32⟩
        ⟨2, .store "a", [.result 0, .result 1], none⟩ ⟨"a", .inductionVar, false⟩
        ⟨"a", .result 1, true⟩ (some 0) (some 1) ∧
      ((∀ i j, shiftLeft.RunsIteration i → shiftLeft.RunsIteration j →
          MayConflict 1 (some 0) (some 1) i j →
          ((some (0 : Int)).isSome → (some (1 : Int)).isSome → ((j : Int) - i).natAbs < u32Bound) →
          (i ≤ j → shiftLeftProblem.OrdersAcross (.body 0) (.body 2) (j - i)) ∧
          (j < i → shiftLeftProblem.OrdersAcross (.body 2) (.body 0) (i - j))) ∧
        ∀ a b, some (0 : Int) = some a → some (1 : Int) = some b →
          (∀ i j, shiftLeft.RunsIteration i → shiftLeft.RunsIteration j →
            MayConflict 1 (some 0) (some 1) i j → ((j : Int) - i).natAbs < u32Bound →
            (i ≤ j → ⟨.body 0, .body 2, j - i, .auxiliary⟩ ∈ shiftLeftProblem.dependences) ∧
            (j < i → ⟨.body 2, .body 0, i - j, .auxiliary⟩ ∈ shiftLeftProblem.dependences)) ∧
          ∀ d ∈ shiftLeftProblem.dependences, d.kind = .auxiliary →
            (d.source = .body 0 ∧ d.destination = .body 2 ∨
              d.source = .body 2 ∧ d.destination = .body 0) →
            ∃ i j, shiftLeft.RunsIteration i ∧ shiftLeft.RunsIteration j ∧
              MayConflict 1 (some 0) (some 1) i j) := by
  have hp : shiftLeft.problem = .ok shiftLeftProblem := rfl
  have hpair : shiftLeft.AccessPair ⟨0, .load "a", [.inductionVar], some .i32⟩
      ⟨2, .store "a", [.result 0, .result 1], none⟩ ⟨"a", .inductionVar, false⟩
      ⟨"a", .result 1, true⟩ (some 0) (some 1) :=
    ⟨by decide, rfl, rfl, rfl, .inr rfl, rfl, rfl⟩
  exact ⟨hp, rfl, by decide, by decide, hpair,
    Loop.problem_orders_conflicts hp rfl (by decide) (by decide) hpair⟩

/-- `a[iv] = 7; x = a[iv + 2 ^ 32]` over `2 ^ 40` iterations. -/
def farReuse : Loop :=
  ⟨0, .constant 0, .constant (2 ^ 40), .constant 1, .slt, [], [],
    [.op ⟨0, .store "a", [.constant 7 .i32, .inductionVar], none⟩,
      .op ⟨1, .addi, [.inductionVar, .constant (2 ^ 32) .index], some .index⟩,
      .op ⟨2, .load "a", [.result 1], some .i32⟩], []⟩

/-- The dependence problem of `farReuse`: data dependences only. -/
def farReuseProblem : Problem OpRef :=
  ⟨[.body 0, .body 1, .body 2, .increment], [], [],
    [⟨.increment, .body 0, 1, .data⟩, ⟨.increment, .body 1, 1, .data⟩, ⟨.body 1, .body 2, 0, .data⟩,
      ⟨.increment, .increment, 1, .data⟩], [], none, false⟩

/-- The store of iteration `2 ^ 32` writes what the load of iteration 0 reads, and the loop runs
both, yet nothing orders them: their distance does not fit a 32-bit dependence. -/
theorem farReuse_unordered :
    farReuse.problem = .ok farReuseProblem ∧ farReuse.step = .constant 1 ∧
      (farReuse.operations.map (·.id)).Nodup ∧
      farReuse.AccessPair ⟨0, .store "a", [.constant 7 .i32, .inductionVar], none⟩
        ⟨2, .load "a", [.result 1], some .i32⟩ ⟨"a", .inductionVar, true⟩
        ⟨"a", .result 1, false⟩ (some 0) (some (2 ^ 32)) ∧
      farReuse.RunsIteration (2 ^ 32) ∧ farReuse.RunsIteration 0 ∧
      MayConflict 1 (some 0) (some (2 ^ 32)) (2 ^ 32) 0 ∧
      ¬farReuseProblem.OrdersAcross (.body 2) (.body 0) (2 ^ 32 - 0) := by
  have htrip : farReuse.tripCount? = some (2 ^ 40) := by decide
  have hruns : ∀ i, i < 2 ^ 40 → farReuse.RunsIteration i := by
    intro i hi c hc
    rw [htrip] at hc
    cases hc
    exact hi
  refine ⟨rfl, rfl, by decide, ⟨by decide, rfl, rfl, rfl, .inl rfl, rfl, rfl⟩,
    hruns _ (by norm_num), hruns _ (by norm_num), by simp [MayConflict], ?_⟩
  rintro ⟨w, hw, -⟩
  have hnone : farReuseProblem.dependences.filter (·.kind = .auxiliary) = [] := by decide
  rw [hnone] at hw
  cases w with
  | nil => exact absurd hw.eq_of_nil (by decide)
  | cons e w => exact absurd (hw.mem_edges e List.mem_cons_self) List.not_mem_nil

end ModuloPipelining
