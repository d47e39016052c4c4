import ModuloPipelining.Proofs.Problem.History
import ModuloPipelining.Proofs.Schedule.RecurrenceBound

/-!
# The modulo scheduler is optimal

For a problem a client built and checked, `Problem.solve` finds the least initiation interval of
at least 1 under which every closed walk of dependences fits the iterations it spans, and, under
it, the pointwise least start times meeting every dependence (`Problem.solve_optimal`). When that
interval exceeds a 32-bit word the search reports its exhaustion at the clamp; when a least start
time exceeds a word it names the first such operation in program order.

The proof reads the scheduler over positions in program order:

* each dependence becomes a constraint between positions (`Problem.constraints_eq`), and a walk of
  constraints lifts back to a walk of dependences since positions of distinct operations differ
  (`Problem.noPositiveCycle_iff`), so feasibility is the same on both sides;
* no closed walk of constraints spans zero iterations, since the check found no distance-0 cycle
  (`Problem.noZeroCycle_constraints`), so `recurrenceMii_spec` applies;
* the first candidate is the recurrence bound, whose longest paths are the least start times, and
  their minimum is already 0.

The stage count is computed from every stored start time, also those of values that are not
operations of the problem; the result holds when these are below the largest word.
-/

namespace ModuloPipelining

section Lookup

variable {α β : Type} [DecidableEq α]

theorem mem_of_lookup_eq_some {l : List (α × β)} {k : α} {b : β} (h : l.lookup k = some b) :
    (k, b) ∈ l := by
  obtain ⟨l₁, l₂, rfl, -⟩ := List.lookup_eq_some_iff.1 h
  exact List.mem_append_right _ List.mem_cons_self

/-- With distinct keys, looking up the key of an entry finds the entry's value. -/
theorem lookup_of_mem {l : List (α × β)} (hkeys : (l.map Prod.fst).Nodup) {e : α × β}
    (he : e ∈ l) : l.lookup e.1 = some e.2 := by
  induction l with
  | nil => exact absurd he List.not_mem_nil
  | cons kv rest ih =>
    obtain ⟨k, v⟩ := kv
    simp only [List.map_cons, List.nodup_cons, List.mem_map] at hkeys
    rcases List.mem_cons.1 he with rfl | hrest
    · simp
    · have hne : (e.1 == k) = false := beq_false_of_ne fun heq => hkeys.1 ⟨e, hrest, heq⟩
      simp only [List.lookup, hne]
      exact ih hkeys.2 hrest

end Lookup

namespace Problem

variable {α : Type} [DecidableEq α] {p : Problem α}

/-- The latency of the operator type an operation is linked to; 0 when it has none. -/
def latency (p : Problem α) (op : α) : Int := (p.latencyOf? op).getD 0

/-- The constraint the scheduler makes of a dependence, between program positions. -/
def constraintOf (p : Problem α) (d : Dependence α) : Constraint :=
  ⟨(p.programIndex? d.source).getD 0, (p.programIndex? d.destination).getD 0,
    p.latency d.source, d.distance⟩

/-- Under interval `ii`, every closed walk of dependences takes at most `ii` cycles for each
iteration it spans. -/
def RecurrenceFeasible (p : Problem α) (ii : Nat) : Prop :=
  ∀ x w, Walk Dependence.source Dependence.destination p.dependences x w x →
    (w.map fun d => p.latency d.source).sum ≤ ii * (((w.map (·.distance)).sum : Nat) : ℤ)

/-- Start times meeting every dependence under interval `ii`. -/
def Schedules (p : Problem α) (ii : Nat) (S : α → Nat) : Prop :=
  ∀ d ∈ p.dependences, (S d.source : ℤ) + p.latency d.source ≤ S d.destination + ii * d.distance

/-- The pointwise least start times, on the operations, meeting every dependence. -/
def LeastSchedule (p : Problem α) (ii : Nat) (S : α → Nat) : Prop :=
  p.Schedules ii S ∧ ∀ T, p.Schedules ii T → ∀ op ∈ p.operations, S op ≤ T op

/-- What the scheduler relies on in a problem a client built and checked. -/
structure Schedulable (p : Problem α) : Prop where
  wellFormed : WellFormed p
  latency : ∀ op ∈ p.operations, p.latencyOf? op = some (p.latency op)
  acyclic : ∀ x w, Walk Dependence.source Dependence.destination
    (p.dependences.filter fun d => d.distance = 0) x w x → w = []

theorem latencyOf?_of_linked {op : α} {i : Nat} (hlink : p.linkOf? op = some i)
    (hi : i < p.operatorTypes.length) {l : Int} (hl : p.operatorTypes[i].latency = some l) :
    p.latencyOf? op = some l := by
  simp [latencyOf?, operatorTypeOf?, hlink, List.getElem?_eq_getElem hi, hl]

theorem Reachable.schedulable (hp : Reachable p) (hchecked : p.checked = true) : Schedulable p := by
  have hwf := hp.wellFormed
  obtain ⟨hlinked, htypes, hacyclic⟩ := conditions_of_violation?_eq_none hwf (hwf.valid hchecked)
  refine ⟨hwf, fun op hop => ?_, hacyclic⟩
  obtain ⟨i, hlink, hi⟩ := hlinked op hop
  obtain ⟨l, hl, -⟩ := htypes _ (List.getElem_mem hi)
  rw [latencyOf?_of_linked hlink hi hl]
  simp [latency, latencyOf?_of_linked hlink hi hl]

/-! ### Dependences as constraints -/

section Constraints

variable (hs : Schedulable p)
include hs

/-- The scheduler turns every dependence into its constraint: every source has a latency. -/
theorem Schedulable.constraints_eq : p.constraints = .ok (p.dependences.map p.constraintOf) := by
  unfold constraints
  have hlat : ∀ d ∈ p.dependences, p.latencyOf? d.source = some (p.latency d.source) :=
    fun d hd => hs.latency _ (hs.wellFormed.source_mem d hd)
  generalize p.dependences = deps at hlat ⊢
  induction deps with
  | nil => rfl
  | cons d rest ih =>
    rw [List.mapM_cons, hlat d List.mem_cons_self,
      ih fun d' hd' => hlat d' (List.mem_cons_of_mem _ hd')]
    rfl

theorem Schedulable.inRange :
    InRange p.operations.length (p.dependences.map p.constraintOf) := by
  intro c hc
  obtain ⟨d, hd, rfl⟩ := List.mem_map.1 hc
  exact ⟨programIndex_lt (hs.wellFormed.source_mem d hd),
    programIndex_lt (hs.wellFormed.destination_mem d hd)⟩

/-- A non-empty closed walk of constraints is the image of a closed walk of dependences. -/
theorem Schedulable.lift_closed {x : Nat} {cw : List Constraint}
    (hcw : Walk Constraint.source Constraint.target (p.dependences.map p.constraintOf) x cw x)
    (hne : cw ≠ []) :
    ∃ a w, Walk Dependence.source Dependence.destination p.dependences a w a ∧
      w.map p.constraintOf = cw := by
  obtain ⟨c, cw', rfl⟩ := List.exists_cons_of_ne_nil hne
  cases hcw with
  | cons mem start rest =>
    obtain ⟨d, hd, rfl⟩ := List.mem_map.1 mem
    have hends : ∀ d ∈ p.dependences, d.source ∈ {op | op ∈ p.operations} ∧
        d.destination ∈ {op | op ∈ p.operations} :=
      fun d hd => ⟨hs.wellFormed.source_mem d hd, hs.wellFormed.destination_mem d hd⟩
    obtain ⟨w, b, hw, hmap, hb, hbn⟩ := (Walk.cons mem start rest).lift p.constraintOf
      (fun op => (p.programIndex? op).getD 0) (fun _ _ => rfl) (fun _ _ => rfl)
      {op | op ∈ p.operations} hends (fun a ha b hb h => programIndex_inj ha hb h)
      (hends d hd).1 start
    have hba : b = d.source := programIndex_inj hbn (hends d hd).1 (hb.trans start.symm)
    rw [hba] at hw
    exact ⟨d.source, w, hw, hmap⟩

/-- Feasibility of the constraints is the recurrence condition on the dependences. -/
theorem Schedulable.noPositiveCycle_iff (ii : Nat) :
    NoPositiveCycle ii (p.dependences.map p.constraintOf) ↔ p.RecurrenceFeasible ii := by
  have hweight : ∀ w : List (Dependence α), ((w.map p.constraintOf).map (·.weight ii)).sum =
      (w.map fun d => p.latency d.source).sum - ii * (((w.map (·.distance)).sum : Nat) : ℤ) := by
    intro w
    rw [weight_sum, List.map_map, List.map_map]
    rfl
  constructor
  · intro hfeas x w hw
    have hmapped : Walk Constraint.source Constraint.target (p.dependences.map p.constraintOf)
        ((p.programIndex? x).getD 0) (w.map p.constraintOf) ((p.programIndex? x).getD 0) := by
      refine hw.map p.constraintOf (fun op => (p.programIndex? op).getD 0) ?_ ?_ ?_
      · exact fun _ _ => rfl
      · exact fun _ _ => rfl
      · exact fun d hd => List.mem_map_of_mem hd
    have hle := hfeas _ _ hmapped
    rw [hweight] at hle
    omega
  · intro hrec x cw hcw
    by_cases hne : cw = []
    · simp [hne]
    · obtain ⟨a, w, hw, rfl⟩ := hs.lift_closed hcw hne
      have hle := hrec a w hw
      rw [hweight]
      omega

/-- No closed walk of constraints spans zero iterations: it would lift to a distance-0 cycle. -/
theorem Schedulable.noZeroCycle : NoZeroCycle (p.dependences.map p.constraintOf) := by
  intro x cw hcw hne
  obtain ⟨a, w, hw, rfl⟩ := hs.lift_closed hcw hne
  rw [List.map_map]
  by_contra hzero
  have hall : ∀ d ∈ w, d.distance = 0 := by
    have hsum : (w.map (·.distance)).sum = 0 := by
      have : (w.map ((·.distance) ∘ p.constraintOf)).sum = 0 := by omega
      exact this
    intro d hd
    exact List.sum_eq_zero_iff.1 hsum _ (List.mem_map_of_mem hd)
  have hnil := hs.acyclic a w (hw.restrict fun d hd =>
    List.mem_filter.2 ⟨hw.mem_edges d hd, by simp [hall d hd]⟩)
  exact hne (by rw [hnil, List.map_nil])

end Constraints

/-! ### Least start times -/

section StartTimes

/-- The start time of an operation read off an array indexed by program position. -/
def startOf (p : Problem α) (start : Array Int) (op : α) : Nat :=
  (start.getD ((p.programIndex? op).getD 0) 0).toNat

theorem LeastSchedule.unique {ii : Nat} {S S' : α → Nat} (h : p.LeastSchedule ii S)
    (h' : p.LeastSchedule ii S') {op : α} (hop : op ∈ p.operations) : S op = S' op :=
  le_antisymm (h.2 S' h'.1 op hop) (h'.2 S h.1 op hop)

/-- Least start times start at 0: otherwise all of them one earlier would meet every dependence. -/
theorem LeastSchedule.exists_zero (hwf : WellFormed p) {ii : Nat} {S : α → Nat}
    (h : p.LeastSchedule ii S) (hne : p.operations ≠ []) : ∃ op ∈ p.operations, S op = 0 := by
  by_contra hall
  push Not at hall
  have hearlier : p.Schedules ii fun op => S op - 1 := by
    intro d hd
    have hsrc := hall _ (hwf.source_mem d hd)
    have hdst := hall _ (hwf.destination_mem d hd)
    have hmeet := h.1 d hd
    push_cast [Nat.one_le_iff_ne_zero.2 hsrc, Nat.one_le_iff_ne_zero.2 hdst]
    linarith
  obtain ⟨op, hop⟩ := List.exists_mem_of_ne_nil _ hne
  have hle := h.2 _ hearlier op hop
  have hpos := hall op hop
  omega

theorem programIndex_getElem (hnodup : p.operations.Nodup) {i : Nat}
    (hi : i < p.operations.length) : (p.programIndex? p.operations[i]).getD 0 = i := by
  have hget := getElem?_programIndex (List.getElem_mem hi)
  obtain ⟨hk, heq⟩ := List.getElem?_eq_some_iff.1 hget
  exact (hnodup.getElem_inj_iff).1 heq

variable (hs : Schedulable p) {ii : Nat} {L : Array Int}
  (hL : longestPaths p.operations.length ii (p.dependences.map p.constraintOf) = some L)
include hs hL

/-- The longest paths at a feasible interval are the least start times. -/
theorem leastSchedule_startOf : p.LeastSchedule ii (p.startOf L) := by
  constructor
  · intro d hd
    have hc := longestPaths_holds hL (p.constraintOf d) (List.mem_map_of_mem hd)
    simp only [Constraint.Holds, Constraint.weight, constraintOf] at hc
    simp only [startOf, Int.toNat_of_nonneg (longestPaths_nonneg hL _)]
    linarith
  · intro T hT op hop
    have hsol : ∀ c ∈ p.dependences.map p.constraintOf,
        c.Holds ii fun v => (((p.operations[v]?).map T).getD 0 : ℤ) := by
      intro c hc
      obtain ⟨d, hd, rfl⟩ := List.mem_map.1 hc
      have hmeet := hT d hd
      simp only [Constraint.Holds, Constraint.weight, constraintOf,
        getElem?_programIndex (hs.wellFormed.source_mem d hd),
        getElem?_programIndex (hs.wellFormed.destination_mem d hd), Option.map_some,
        Option.getD_some]
      linarith
    have hle := longestPaths_least hL (fun v => Nat.cast_nonneg _) hsol
      ((p.programIndex? op).getD 0)
    rw [getElem?_programIndex hop, Option.map_some, Option.getD_some] at hle
    unfold startOf
    omega

omit hs in
theorem mem_toList_nonneg {b : Int} (hb : b ∈ L.toList) : 0 ≤ b := by
  obtain ⟨i, hi, rfl⟩ := List.mem_iff_getElem.1 hb
  have := longestPaths_nonneg hL i
  rw [Array.getD_eq_getD_getElem?, Array.getElem?_eq_getElem (by simpa using hi)] at this
  simpa using this

/-- The earliest of the least start times is 0, so shifting them changes nothing. -/
theorem min?_toList_getD : L.toList.min?.getD 0 = 0 := by
  have hsize := longestPaths_size hL
  by_cases hne : p.operations = []
  · have hnil : L.toList = [] := List.eq_nil_of_length_eq_zero (by simp [hsize, hne])
    rw [hnil]
    rfl
  · obtain ⟨op, hop, hzero⟩ := (leastSchedule_startOf hs hL).exists_zero hs.wellFormed hne
    have hlt : (p.programIndex? op).getD 0 < L.size := hsize ▸ programIndex_lt hop
    have hmem : L.getD ((p.programIndex? op).getD 0) 0 ∈ L.toList := by
      rw [Array.getD_eq_getD_getElem?, Array.getElem?_eq_getElem hlt, Option.getD_some]
      exact Array.getElem_mem_toList hlt
    have hval : L.getD ((p.programIndex? op).getD 0) 0 = 0 := by
      have := longestPaths_nonneg hL ((p.programIndex? op).getD 0)
      unfold startOf at hzero
      omega
    rw [hval] at hmem
    rw [(List.min?_eq_some_iff.2 ⟨hmem, fun b hb => mem_toList_nonneg hL hb⟩)]
    rfl

/-- Paired with the operations in program order, the shifted longest paths are the least start
times of the operations. -/
theorem zip_toList_eq :
    p.operations.zip (L.toList.map (· - L.toList.min?.getD 0)) =
      p.operations.map fun op => (op, (p.startOf L op : ℤ)) := by
  rw [min?_toList_getD hs hL]
  have hsize := longestPaths_size hL
  apply List.ext_getElem
  · simp [hsize]
  · intro i h₁ h₂
    have hi : i < p.operations.length := by simpa using h₂
    simp only [List.getElem_zip, List.getElem_map, sub_zero, Array.getElem_toList,
      Prod.mk.injEq, true_and]
    unfold startOf
    rw [programIndex_getElem hs.wellFormed.nodup hi, Array.getD_eq_getD_getElem?,
      Array.getElem?_eq_getElem (hsize ▸ hi), Option.getD_some,
      Int.toNat_of_nonneg (mem_toList_nonneg hL (Array.getElem_mem_toList _))]

end StartTimes

/-! ### Storing the start times -/

section Store

theorem fitsU32_natCast (k : Nat) : fitsU32 (k : ℤ) = decide (k ≤ u32Max) := by
  unfold fitsU32 u32Bound u32Max
  simp only [Nat.cast_nonneg, true_and, decide_eq_decide]
  omega

/-- Storing start times stops at the first that exceeds a word. -/
theorem storeStarts_map_snd (S : α → Nat) (ops : List α) (q : Problem α) :
    (q.storeStarts (ops.map fun op => (op, (S op : ℤ)))).2 = ops.find? fun op => u32Max < S op := by
  induction ops generalizing q with
  | nil => rfl
  | cons o rest ih =>
    simp only [List.map_cons, storeStarts, fitsU32_natCast, List.find?_cons]
    by_cases hfit : S o ≤ u32Max
    · rw [if_pos (decide_eq_true hfit), ih, decide_eq_false (not_lt.2 hfit)]
    · rw [if_neg (by simpa using hfit), decide_eq_true (lt_of_not_ge hfit)]

/-- When every start time fits, storing them sets them one after another. -/
theorem storeStarts_map_fst (S : α → Nat) (ops : List α) (q : Problem α)
    (h : ∀ op ∈ ops, S op ≤ u32Max) :
    (q.storeStarts (ops.map fun op => (op, (S op : ℤ)))).1 =
      ops.foldl (fun q op => q.setStartTime op (S op)) q := by
  induction ops generalizing q with
  | nil => rfl
  | cons o rest ih =>
    simp only [List.map_cons, storeStarts, fitsU32_natCast, List.foldl_cons]
    rw [if_pos (decide_eq_true (h o List.mem_cons_self)), Int.toNat_natCast]
    exact ih _ fun op hop => h op (List.mem_cons_of_mem _ hop)

theorem startTime?_foldl_of_not_mem (S : α → Nat) {ops : List α} {op : α} (hop : op ∉ ops)
    (q : Problem α) :
    (ops.foldl (fun q o => q.setStartTime o (S o)) q).startTime? op = q.startTime? op := by
  induction ops generalizing q with
  | nil => rfl
  | cons o rest ih =>
    rw [List.foldl_cons, ih (fun h => hop (List.mem_cons_of_mem _ h))]
    exact lookup_setEntry_ne o (S o) q.startTimes (fun h => hop (h ▸ List.mem_cons_self))

theorem startTime?_foldl (S : α → Nat) {ops : List α} (hnodup : ops.Nodup) {op : α}
    (hop : op ∈ ops) (q : Problem α) :
    (ops.foldl (fun q o => q.setStartTime o (S o)) q).startTime? op = some (S op) := by
  induction ops generalizing q with
  | nil => exact absurd hop List.not_mem_nil
  | cons o rest ih =>
    rw [List.foldl_cons]
    rcases List.mem_cons.1 hop with rfl | hmem
    · rw [startTime?_foldl_of_not_mem S (List.nodup_cons.1 hnodup).1]
      exact startTime?_setStartTime q op (S op)
    · exact ih (List.nodup_cons.1 hnodup).2 hmem _

/-- After storing, an entry holds the new time of an operation or an old time of another key. -/
theorem mem_startTimes_foldl (S : α → Nat) (ops : List α) (q : Problem α)
    (hkeys : (q.startTimes.map Prod.fst).Nodup) {e : α × Nat}
    (he : e ∈ (ops.foldl (fun q o => q.setStartTime o (S o)) q).startTimes) :
    (e.1 ∈ ops ∧ e.2 = S e.1) ∨ (e ∈ q.startTimes ∧ e.1 ∉ ops) := by
  induction ops generalizing q with
  | nil => exact .inr ⟨he, List.not_mem_nil⟩
  | cons o rest ih =>
    rw [List.foldl_cons] at he
    rcases ih _ (nodup_keys_setEntry hkeys o (S o)) he with ⟨hmem, hval⟩ | ⟨hold, hnot⟩
    · exact .inl ⟨List.mem_cons_of_mem _ hmem, hval⟩
    · rcases mem_setEntry hkeys hold with rfl | ⟨hprev, hne⟩
      · exact .inl ⟨List.mem_cons_self, rfl⟩
      · refine .inr ⟨hprev, fun hmem => ?_⟩
        rcases List.mem_cons.1 hmem with heq | hmem
        · exact hne heq
        · exact hnot hmem

/-- After new start times are stored for distinct operations, every stored start time has a
property exactly when every new one has it and every old one of another key. -/
theorem forall_startTimes_foldl (S : α → Nat) {ops : List α} (hnodup : ops.Nodup) (q : Problem α)
    (hkeys : (q.startTimes.map Prod.fst).Nodup) (P : Nat → Prop) :
    (∀ e ∈ (ops.foldl (fun q o => q.setStartTime o (S o)) q).startTimes, P e.2) ↔
      (∀ op ∈ ops, P (S op)) ∧ ∀ e ∈ q.startTimes, e.1 ∉ ops → P e.2 := by
  constructor
  · intro hall
    refine ⟨fun op hop => hall (op, S op) (mem_of_lookup_eq_some (startTime?_foldl S hnodup hop q)),
      fun e hold hnot => hall e (mem_of_lookup_eq_some ?_)⟩
    exact (startTime?_foldl_of_not_mem S hnot q).trans (lookup_of_mem hkeys hold)
  · rintro ⟨hnew, hold⟩ e he
    rcases mem_startTimes_foldl S ops q hkeys he with ⟨hop, hval⟩ | ⟨hprev, hnot⟩
    · exact hval ▸ hnew e.1 hop
    · exact hold e hprev hnot

omit [DecidableEq α] in
/-- The stage count exists when every stored start time is below the largest word. -/
theorem stageCount_eq_ok {q : Problem α} (h : ∀ e ∈ q.startTimes, e.2 < u32Max) :
    ∃ stages, q.stageCount = .ok stages := by
  unfold stageCount maxStartTime?
  split
  · exact ⟨1, rfl⟩
  · rename_i m hmax
    obtain ⟨e, he, rfl⟩ := List.mem_map.1 (List.max?_mem hmax)
    exact ⟨e.2 + 1, if_pos (h e he)⟩

omit [DecidableEq α] in
/-- A stage count is one more than the largest stored start time, 1 when none is stored: the
least count of at least 1 above every stored start time. -/
theorem stageCount_isLeast {q : Problem α} {stages : Nat} (h : q.stageCount = .ok stages) :
    IsLeast {n | 1 ≤ n ∧ ∀ e ∈ q.startTimes, e.2 < n} stages := by
  unfold stageCount maxStartTime? at h
  split at h
  · rename_i hmax
    cases h
    rw [List.max?_eq_none_iff, List.map_eq_nil_iff] at hmax
    exact ⟨⟨le_refl 1, by simp [hmax]⟩, fun n hn => hn.1⟩
  · rename_i m hmax
    obtain ⟨hm, hbound⟩ := List.max?_eq_some_iff.1 hmax
    split at h
    · cases h
      refine ⟨⟨by omega, fun e he => Nat.lt_succ_of_le (hbound _ (List.mem_map_of_mem he))⟩,
        fun n hn => ?_⟩
      obtain ⟨e, he, rfl⟩ := List.mem_map.1 hm
      exact hn.2 e he
    · cases h

end Store

/-! ### Verifying the stored schedule -/

section Verify

theorem forM_eq_ok {ε β : Type} {l : List β} {f : β → Except ε Unit}
    (h : ∀ x ∈ l, f x = .ok ()) : l.forM f = .ok () := by
  induction l with
  | nil => rfl
  | cons x rest ih =>
    show (f x >>= fun _ => rest.forM f) = _
    rw [h x List.mem_cons_self]
    exact ih fun y hy => h y (List.mem_cons_of_mem _ hy)

/-- A schedule verifies when every operation has its start time, every source its latency, and
the start times meet every dependence under a positive interval. -/
theorem verify_eq_ok {q : Problem α} {ii : Nat} {S : α → Nat}
    (hii : q.initiationInterval = some ii) (hpos : 0 < ii)
    (hstart : ∀ op ∈ q.operations, q.startTime? op = some (S op))
    (hends : ∀ d ∈ q.dependences, d.source ∈ q.operations ∧ d.destination ∈ q.operations)
    (hlat : ∀ d ∈ q.dependences, q.latencyOf? d.source = some (q.latency d.source))
    (hsched : q.Schedules ii S) : q.verify = .ok () := by
  have hops : q.operations.forM (fun op =>
      if (q.startTime? op).isSome then (.ok () : Except (ProblemError α) Unit)
      else throw (.missingStartTime op)) = .ok () :=
    forM_eq_ok fun op hop => by rw [hstart op hop]; rfl
  have hdeps : q.dependences.forM (q.verifyDependence ii) = .ok () := by
    refine forM_eq_ok fun d hd => ?_
    have hmeet := hsched d hd
    unfold verifyDependence
    rw [hstart _ (hends d hd).1, hstart _ (hends d hd).2, hlat d hd]
    simp only [pure, Except.pure]
    rw [if_neg (by linarith)]
  unfold verify
  rw [hii]
  simp only [if_pos hpos, bind, Except.bind, pure, Except.pure]
  rw [hops]
  exact hdeps

end Verify

end Problem

/-! ### The search for an interval -/

theorem SchedulerConfig.le_searchLimit (cfg : SchedulerConfig) {lower : Nat} (h : lower ≤ u32Max) :
    lower ≤ cfg.searchLimit lower := by
  unfold searchLimit u32SatAdd
  omega

/-- At the clamp the search range is the clamp alone. -/
theorem SchedulerConfig.searchLimit_u32Max (cfg : SchedulerConfig) :
    cfg.searchLimit u32Max = u32Max := by
  have hmul := u32SatMul_le u32Max (max cfg.maxIiFactor 1)
  unfold searchLimit u32SatAdd
  omega

namespace Problem

theorem firstFeasible_of_some {n ii : Nat} {edges : List Constraint} {start : Array Int}
    (h : longestPaths n ii edges = some start) (fuel : Nat) (hfuel : 0 < fuel) :
    firstFeasible n edges ii fuel = some (ii, start) := by
  obtain ⟨fuel, rfl⟩ := Nat.exists_eq_add_of_lt hfuel
  simp [firstFeasible, h]

theorem firstFeasible_one_of_none {n ii : Nat} {edges : List Constraint}
    (h : longestPaths n ii edges = none) : firstFeasible n edges ii 1 = none := by
  simp [firstFeasible, h]

variable {α : Type} [DecidableEq α] {p : Problem α}

theorem Retimed.latencyOf?_eq {q : Problem α} (h : Retimed p q) (op : α) :
    q.latencyOf? op = p.latencyOf? op := by
  unfold latencyOf? operatorTypeOf? linkOf?
  rw [h.links, h.operatorTypes]

theorem Retimed.latency_eq {q : Problem α} (h : Retimed p q) : q.latency = p.latency := by
  funext op
  unfold latency
  rw [h.latencyOf?_eq]

theorem Retimed.schedules_iff {q : Problem α} (h : Retimed p q) {ii : Nat} {S : α → Nat} :
    q.Schedules ii S ↔ p.Schedules ii S := by
  unfold Schedules
  rw [h.dependences, h.latency_eq]

theorem retimed_foldl_setStartTime (S : α → Nat) (ops : List α) (p : Problem α) :
    Retimed p (ops.foldl (fun q op => q.setStartTime op (S op)) p) := by
  induction ops generalizing p with
  | nil => exact Retimed.refl p
  | cons o rest ih => exact (retimed_setStartTime p o (S o)).trans (ih _)

/-- The least start times, stored with the recurrence bound, verify. -/
theorem verify_stored (hs : Schedulable p) {L : Array Int}
    (hL : longestPaths p.operations.length (recurrenceMii p.operations.length
      (p.dependences.map p.constraintOf)) (p.dependences.map p.constraintOf) = some L) :
    ((p.operations.foldl (fun q op => q.setStartTime op (p.startOf L op)) p).setInitiationInterval
      (recurrenceMii p.operations.length (p.dependences.map p.constraintOf))).verify = .ok () := by
  have hretimed := (retimed_foldl_setStartTime (p.startOf L) p.operations p).trans
    (retimed_setInitiationInterval _
      (recurrenceMii p.operations.length (p.dependences.map p.constraintOf)))
  refine verify_eq_ok rfl (recurrenceMii_spec hs.inRange hs.noZeroCycle).1
    (fun op hop => startTime?_foldl (p.startOf L) hs.wellFormed.nodup (hretimed.operations ▸ hop) p)
    (fun d hd => ?_) (fun d hd => ?_) ((hretimed.schedules_iff).2 (leastSchedule_startOf hs hL).1)
  · rw [hretimed.operations]
    exact ⟨hs.wellFormed.source_mem d (hretimed.dependences ▸ hd),
      hs.wellFormed.destination_mem d (hretimed.dependences ▸ hd)⟩
  · rw [hretimed.latencyOf?_eq, hretimed.latency_eq]
    exact hs.latency _ (hs.wellFormed.source_mem d (hretimed.dependences ▸ hd))

section Solve

variable (cfg : SchedulerConfig) (hs : Schedulable p) (hchecked : p.checked = true)
include hs hchecked

/-- When the recurrence bound is the clamp and infeasible, the search is exhausted there. -/
theorem solve_of_exhausted
    (hr : recurrenceMii p.operations.length (p.dependences.map p.constraintOf) = u32Max)
    (hinf : ¬NoPositiveCycle u32Max (p.dependences.map p.constraintOf)) :
    p.solve cfg = .ok (p, .error (.searchExhausted u32Max u32Max)) := by
  have hnone : longestPaths p.operations.length u32Max (p.dependences.map p.constraintOf) = none :=
    Option.not_isSome_iff_eq_none.1 fun h => hinf ((longestPaths_isSome_iff hs.inRange).1 h)
  simp only [solve, hchecked, Bool.not_true, Bool.false_eq_true, if_false, hs.constraints_eq, hr,
    cfg.searchLimit_u32Max, Nat.add_sub_cancel_left, firstFeasible_one_of_none hnone]

omit hchecked in
/-- A feasible recurrence bound is the scheduler's first and only candidate. -/
theorem firstFeasible_recurrenceMii {L : Array Int}
    (hL : longestPaths p.operations.length (recurrenceMii p.operations.length
      (p.dependences.map p.constraintOf)) (p.dependences.map p.constraintOf) = some L) :
    firstFeasible p.operations.length (p.dependences.map p.constraintOf)
        (recurrenceMii p.operations.length (p.dependences.map p.constraintOf))
        (cfg.searchLimit (recurrenceMii p.operations.length (p.dependences.map p.constraintOf)) +
          1 - recurrenceMii p.operations.length (p.dependences.map p.constraintOf)) =
      some (recurrenceMii p.operations.length (p.dependences.map p.constraintOf), L) := by
  have hbound := (recurrenceMii_spec hs.inRange hs.noZeroCycle).2.1
  exact firstFeasible_of_some hL _ (by have := cfg.le_searchLimit hbound; omega)

/-- A least start time beyond a word stops the scheduler, which names the first such operation. -/
theorem solve_overflow {L : Array Int}
    (hL : longestPaths p.operations.length (recurrenceMii p.operations.length
      (p.dependences.map p.constraintOf)) (p.dependences.map p.constraintOf) = some L) {op : α}
    (hfind : p.operations.find? (fun op => u32Max < p.startOf L op) = some op) :
    ∃ q, p.solve cfg = .ok (q, .error (.startTimeOverflow op)) := by
  have hstop := storeStarts_map_snd (p.startOf L) p.operations p
  rw [hfind] at hstop
  rcases hstore : p.storeStarts (p.operations.map fun op => (op, (p.startOf L op : ℤ))) with
    ⟨q, stopped⟩
  rw [hstore] at hstop
  cases hstop
  refine ⟨q, ?_⟩
  simp only [solve, hchecked, Bool.not_true, Bool.false_eq_true, if_false, hs.constraints_eq,
    firstFeasible_recurrenceMii cfg hs hL, zip_toList_eq hs hL, hstore]

/-- When every least start time fits a word, the scheduler stores them all, sets the interval,
verifies, and reports the stage count of what it stored. -/
theorem solve_stored {L : Array Int}
    (hL : longestPaths p.operations.length (recurrenceMii p.operations.length
      (p.dependences.map p.constraintOf)) (p.dependences.map p.constraintOf) = some L)
    (hfit : ∀ op ∈ p.operations, p.startOf L op ≤ u32Max) :
    p.solve cfg =
      (((p.operations.foldl (fun q op => q.setStartTime op (p.startOf L op)) p).setInitiationInterval
        (recurrenceMii p.operations.length (p.dependences.map p.constraintOf))).stageCount >>=
        fun stages => pure (((p.operations.foldl (fun q op => q.setStartTime op (p.startOf L op))
          p).setInitiationInterval (recurrenceMii p.operations.length
            (p.dependences.map p.constraintOf))), .ok ⟨recurrenceMii p.operations.length
              (p.dependences.map p.constraintOf), recurrenceMii p.operations.length
              (p.dependences.map p.constraintOf), 1, stages⟩)) := by
  have hnone : (p.storeStarts (p.operations.map fun op => (op, (p.startOf L op : ℤ)))).2 = none := by
    rw [storeStarts_map_snd, List.find?_eq_none]
    intro op hop
    simpa using hfit op hop
  have hstore : p.storeStarts (p.operations.map fun op => (op, (p.startOf L op : ℤ))) =
      (p.operations.foldl (fun q op => q.setStartTime op (p.startOf L op)) p, none) :=
    Prod.ext (storeStarts_map_fst (p.startOf L) p.operations p hfit) hnone
  simp only [solve, hchecked, Bool.not_true, Bool.false_eq_true, if_false, hs.constraints_eq,
    firstFeasible_recurrenceMii cfg hs hL, zip_toList_eq hs hL, hstore,
    verify_stored hs hL, Nat.add_sub_cancel_left]

/-- When some least start time exceeds a word, the scheduler names an operation as overflowing. -/
theorem solve_overflow_of_not_fit {L : Array Int}
    (hL : longestPaths p.operations.length (recurrenceMii p.operations.length
      (p.dependences.map p.constraintOf)) (p.dependences.map p.constraintOf) = some L)
    (hfit : ¬∀ op ∈ p.operations, p.startOf L op ≤ u32Max) :
    ∃ op q, p.solve cfg = .ok (q, .error (.startTimeOverflow op)) := by
  push Not at hfit
  obtain ⟨op₀, hop₀, hgt⟩ := hfit
  have hsome : (p.operations.find? fun op => decide (u32Max < p.startOf L op)).isSome :=
    List.find?_isSome.2 ⟨op₀, hop₀, decide_eq_true hgt⟩
  obtain ⟨op, hfind⟩ := Option.isSome_iff_exists.1 hsome
  obtain ⟨q, hq⟩ := solve_overflow cfg hs hchecked hL hfind
  exact ⟨op, q, hq⟩

/-- The scheduler reports no error but an exhausted search or a start time beyond a word. -/
theorem solve_error_kinds {q : Problem α} {e : ScheduleError α}
    (hsolve : p.solve cfg = .ok (q, .error e)) :
    (∃ lower upper, e = .searchExhausted lower upper) ∨ ∃ op, e = .startTimeOverflow op := by
  obtain ⟨-, -, -, hfeas⟩ := recurrenceMii_spec hs.inRange hs.noZeroCycle
  rcases hfeas with hfeas | ⟨hr, hinf⟩
  · obtain ⟨L, hL⟩ := Option.isSome_iff_exists.1 ((longestPaths_isSome_iff hs.inRange).2 hfeas)
    by_cases hfit : ∀ op ∈ p.operations, p.startOf L op ≤ u32Max
    · rw [solve_stored cfg hs hchecked hL hfit] at hsolve
      cases hstages : Problem.stageCount ((p.operations.foldl
          (fun q op => q.setStartTime op (p.startOf L op)) p).setInitiationInterval
            (recurrenceMii p.operations.length (p.dependences.map p.constraintOf))) with
      | error f =>
        rw [hstages] at hsolve
        cases hsolve
      | ok stages =>
        rw [hstages] at hsolve
        cases hsolve
    · obtain ⟨op, q', hq'⟩ := solve_overflow_of_not_fit cfg hs hchecked hL hfit
      rw [hq'] at hsolve
      cases hsolve
      exact .inr ⟨op, rfl⟩
  · rw [solve_of_exhausted cfg hs hchecked hr hinf] at hsolve
    cases hsolve
    exact .inl ⟨_, _, rfl⟩

/-- When the least start times under a feasible recurrence bound, and every start time kept for
a value that is not an operation, are below the largest word, the scheduler stores the least
start times under the bound, and counts one stage more than the largest start time stored. -/
theorem solve_leastSchedule {L : Array Int}
    (hL : longestPaths p.operations.length (recurrenceMii p.operations.length
      (p.dependences.map p.constraintOf)) (p.dependences.map p.constraintOf) = some L) {S : α → Nat}
    (hS : p.LeastSchedule (recurrenceMii p.operations.length (p.dependences.map p.constraintOf)) S)
    (hlt : ∀ op ∈ p.operations, S op < u32Max)
    (hstale : ∀ e ∈ p.startTimes, e.1 ∉ p.operations → e.2 < u32Max) :
    ∃ q stages, p.solve cfg = .ok (q, .ok ⟨recurrenceMii p.operations.length
        (p.dependences.map p.constraintOf), recurrenceMii p.operations.length
          (p.dependences.map p.constraintOf), 1, stages⟩) ∧
      IsLeast {n | 1 ≤ n ∧ (∀ op ∈ p.operations, S op < n) ∧
        ∀ e ∈ p.startTimes, e.1 ∉ p.operations → e.2 < n} stages ∧
      (∀ op ∈ p.operations, q.startTime? op = some (S op)) ∧
      (p.operations ≠ [] → ∃ op ∈ p.operations, S op = 0) ∧
      q.verify = .ok () ∧ q.initiationInterval = some (recurrenceMii p.operations.length
        (p.dependences.map p.constraintOf)) ∧ q.checked = true := by
  have hleast := leastSchedule_startOf hs hL
  have hfit : ∀ op ∈ p.operations, p.startOf L op ≤ u32Max :=
    fun op hop => hS.unique hleast hop ▸ (hlt op hop).le
  have hretimed := (retimed_foldl_setStartTime (p.startOf L) p.operations p).trans
    (retimed_setInitiationInterval _
      (recurrenceMii p.operations.length (p.dependences.map p.constraintOf)))
  -- the stored start times are the least ones and those kept for other values
  have hbounds : ∀ n, (∀ e ∈ ((p.operations.foldl (fun q op => q.setStartTime op
      (p.startOf L op)) p).setInitiationInterval (recurrenceMii p.operations.length
        (p.dependences.map p.constraintOf))).startTimes, e.2 < n) ↔
      (∀ op ∈ p.operations, S op < n) ∧ ∀ e ∈ p.startTimes, e.1 ∉ p.operations → e.2 < n := by
    intro n
    refine (forall_startTimes_foldl (p.startOf L) hs.wellFormed.nodup p
      hs.wellFormed.keys_nodup (· < n)).trans (and_congr_left' ?_)
    exact forall₂_congr fun op hop => by rw [hS.unique hleast hop]
  obtain ⟨stages, hstages⟩ := stageCount_eq_ok ((hbounds u32Max).2 ⟨hlt, hstale⟩)
  have hcount := stageCount_isLeast hstages
  simp only [hbounds] at hcount
  refine ⟨_, stages, ?_, hcount, fun op hop => ?_, fun hne => hS.exists_zero hs.wellFormed hne,
    verify_stored hs hL, rfl, hretimed.checked.trans hchecked⟩
  · rw [solve_stored cfg hs hchecked hL hfit, hstages]
    rfl
  · rw [hS.unique hleast hop]
    exact startTime?_foldl (p.startOf L) hs.wellFormed.nodup hop p

end Solve

/-- Some interval is feasible: the total, over the operations, of the largest latency out of each. -/
theorem Schedulable.exists_feasible (hs : Schedulable p) :
    ∃ ii, 1 ≤ ii ∧ p.RecurrenceFeasible ii := by
  obtain ⟨ii, hii, hnpc⟩ := exists_noPositiveCycle hs.inRange hs.noZeroCycle
  exact ⟨ii, hii, (hs.noPositiveCycle_iff ii).1 hnpc⟩

/-- The least interval of a problem a client built and checked, when the recurrence bound is
feasible: the bound itself. -/
theorem isLeast_recurrenceMii (hs : Schedulable p)
    (hfeas : NoPositiveCycle (recurrenceMii p.operations.length
      (p.dependences.map p.constraintOf)) (p.dependences.map p.constraintOf)) :
    IsLeast {ii | 1 ≤ ii ∧ p.RecurrenceFeasible ii}
      (recurrenceMii p.operations.length (p.dependences.map p.constraintOf)) := by
  obtain ⟨hr₁, -, hbelow, -⟩ := recurrenceMii_spec hs.inRange hs.noZeroCycle
  refine ⟨⟨hr₁, (hs.noPositiveCycle_iff _).1 hfeas⟩, ?_⟩
  rintro ii ⟨h₁, hrf⟩
  by_contra hlt
  exact hbelow ii h₁ (lt_of_not_ge hlt) ((hs.noPositiveCycle_iff ii).2 hrf)

/-- The modulo scheduler on a problem a client built and checked. Let `m` be the least interval
of at least 1 under which every closed walk of dependences fits the iterations it spans. Beyond a
word, the search is exhausted at the clamp. Otherwise the least start times under `m` exist; when
one exceeds a word the first such operation in program order is named, and when all are below
the largest word and so is every start time kept for a value that is not an operation, the
scheduler stores exactly them under `m` on its first candidate, and reports as the stage count
one more than the largest start time it stored, of an operation or kept for another value. It
fails in no other way. -/
theorem solve_optimal (cfg : SchedulerConfig) {p : Problem α} (hp : Reachable p)
    (hchecked : p.checked = true) :
    (∀ q e, p.solve cfg = .ok (q, .error e) →
      (∃ lower upper, e = .searchExhausted lower upper) ∨ ∃ op, e = .startTimeOverflow op) ∧
    ∃ m, IsLeast {ii | 1 ≤ ii ∧ p.RecurrenceFeasible ii} m ∧
      (u32Max < m → p.solve cfg = .ok (p, .error (.searchExhausted u32Max u32Max))) ∧
      (m ≤ u32Max → (∃ S, p.LeastSchedule m S) ∧ ∀ S, p.LeastSchedule m S →
        (∀ op, p.operations.find? (fun op => u32Max < S op) = some op →
          ∃ q, p.solve cfg = .ok (q, .error (.startTimeOverflow op))) ∧
        ((∀ op ∈ p.operations, S op < u32Max) →
          (∀ e ∈ p.startTimes, e.1 ∉ p.operations → e.2 < u32Max) →
          ∃ q stages, p.solve cfg = .ok (q, .ok ⟨m, m, 1, stages⟩) ∧
            IsLeast {n | 1 ≤ n ∧ (∀ op ∈ p.operations, S op < n) ∧
              ∀ e ∈ p.startTimes, e.1 ∉ p.operations → e.2 < n} stages ∧
            (∀ op ∈ p.operations, q.startTime? op = some (S op)) ∧
            (p.operations ≠ [] → ∃ op ∈ p.operations, S op = 0) ∧
            q.verify = .ok () ∧ q.initiationInterval = some m ∧ q.checked = true)) := by
  have hs := hp.schedulable hchecked
  obtain ⟨-, hr₂, -, hfeas⟩ := recurrenceMii_spec hs.inRange hs.noZeroCycle
  refine ⟨fun _ _ => solve_error_kinds cfg hs hchecked, ?_⟩
  rcases hfeas with hfeas | ⟨hr, hinf⟩
  · obtain ⟨L, hL⟩ := Option.isSome_iff_exists.1 ((longestPaths_isSome_iff hs.inRange).2 hfeas)
    have hleast := leastSchedule_startOf hs hL
    refine ⟨_, isLeast_recurrenceMii hs hfeas, fun hgt => absurd hr₂ (not_le.2 hgt),
      fun _ => ⟨⟨_, hleast⟩, fun S hS =>
        ⟨fun op hfind => ?_, solve_leastSchedule cfg hs hchecked hL hS⟩⟩⟩
    rw [List.find?_congr fun op hop => by rw [hS.unique hleast hop]] at hfind
    exact solve_overflow cfg hs hchecked hL hfind
  · obtain ⟨ii₀, hii₀⟩ := hs.exists_feasible
    have hmem := Nat.sInf_mem (⟨ii₀, hii₀⟩ : {ii | 1 ≤ ii ∧ p.RecurrenceFeasible ii}.Nonempty)
    have hbeyond : u32Max < sInf {ii | 1 ≤ ii ∧ p.RecurrenceFeasible ii} := by
      by_contra hle
      exact hinf (((hs.noPositiveCycle_iff _).2 hmem.2).mono (le_of_not_gt hle))
    exact ⟨_, ⟨hmem, fun b hb => Nat.sInf_le hb⟩,
      fun _ => solve_of_exhausted cfg hs hchecked hr hinf, fun hle => absurd hle (not_le.2 hbeyond)⟩

theorem checkedPair_solve_optimal :
    Reachable checkedPair ∧ checkedPair.checked = true ∧
    ((∀ q e, checkedPair.solve .standard = .ok (q, .error e) →
      (∃ lower upper, e = .searchExhausted lower upper) ∨ ∃ op, e = .startTimeOverflow op) ∧
    ∃ m, IsLeast {ii | 1 ≤ ii ∧ checkedPair.RecurrenceFeasible ii} m ∧
      (u32Max < m → checkedPair.solve .standard =
        .ok (checkedPair, .error (.searchExhausted u32Max u32Max))) ∧
      (m ≤ u32Max → (∃ S, checkedPair.LeastSchedule m S) ∧ ∀ S, checkedPair.LeastSchedule m S →
        (∀ op, checkedPair.operations.find? (fun op => u32Max < S op) = some op →
          ∃ q, checkedPair.solve .standard = .ok (q, .error (.startTimeOverflow op))) ∧
        ((∀ op ∈ checkedPair.operations, S op < u32Max) →
          (∀ e ∈ checkedPair.startTimes, e.1 ∉ checkedPair.operations → e.2 < u32Max) →
          ∃ q stages, checkedPair.solve .standard = .ok (q, .ok ⟨m, m, 1, stages⟩) ∧
            IsLeast {n | 1 ≤ n ∧ (∀ op ∈ checkedPair.operations, S op < n) ∧
              ∀ e ∈ checkedPair.startTimes, e.1 ∉ checkedPair.operations → e.2 < n} stages ∧
            (∀ op ∈ checkedPair.operations, q.startTime? op = some (S op)) ∧
            (checkedPair.operations ≠ [] → ∃ op ∈ checkedPair.operations, S op = 0) ∧
            q.verify = .ok () ∧ q.initiationInterval = some m ∧ q.checked = true))) :=
  ⟨checkedPair_reachable, rfl, solve_optimal .standard checkedPair_reachable rfl⟩

/-- The recurrence bound of a problem a client built and checked is the least interval of at
least 1 under which no closed walk of its constraints has positive weight, clamped to the largest
word. When that least interval fits a word, the longest paths over all the constraints exist
under the bound: searching the components one by one loses nothing. -/
theorem recurrenceMii_least_clamped (hp : Reachable p) (hchecked : p.checked = true) :
    ∃ edges, p.constraints = .ok edges ∧
      ∃ m, IsLeast {ii | 1 ≤ ii ∧ NoPositiveCycle ii edges} m ∧
        recurrenceMii p.operations.length edges = min u32Max m ∧
        (m ≤ u32Max → (longestPaths p.operations.length
          (recurrenceMii p.operations.length edges) edges).isSome) := by
  have hs := hp.schedulable hchecked
  exact ⟨_, hs.constraints_eq, recurrenceMii_eq_min hs.inRange hs.noZeroCycle⟩

theorem checkedPair_recurrenceMii :
    Reachable checkedPair ∧ checkedPair.checked = true ∧
      ∃ edges, checkedPair.constraints = .ok edges ∧
        ∃ m, IsLeast {ii | 1 ≤ ii ∧ NoPositiveCycle ii edges} m ∧
          recurrenceMii checkedPair.operations.length edges = min u32Max m ∧
          (m ≤ u32Max → (longestPaths checkedPair.operations.length
            (recurrenceMii checkedPair.operations.length edges) edges).isSome) :=
  ⟨checkedPair_reachable, rfl, recurrenceMii_least_clamped checkedPair_reachable rfl⟩

end Problem

end ModuloPipelining
