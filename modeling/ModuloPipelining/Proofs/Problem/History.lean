import ModuloPipelining.Proofs.Problem.Acyclic
import ModuloPipelining.Schedule.Solve

/-!
# Problems built by a client

A client builds a problem from the empty one by a sequence of calls (`Problem.Action`): adding
operations, operator types, latencies, links and dependences, setting start times and the
initiation interval, checking, verifying and scheduling. `Problem.Reachable` collects the
problems such sequences produce; a scheduling fault ends a sequence.

Every reachable problem is well formed (`Problem.Reachable.wellFormed`): its operations are
distinct, its dependences join registered operations, each operation has at most one start time,
and a problem marked checked has no violation. The last holds because each call that could break
a checked condition clears the mark, and the scheduler changes only start times and the interval
(`Problem.solve_retimed`). So a checked problem meets the three conditions its check tests and
passes a repeated check (`Problem.Reachable.valid_of_checked`).
-/

namespace ModuloPipelining

/-! ### Association lists -/

section SetEntry

variable {α β : Type}

theorem nodup_append_singleton {l : List α} (h : l.Nodup) {a : α} (ha : a ∉ l) :
    (l ++ [a]).Nodup :=
  List.nodup_append.2 ⟨h, List.nodup_singleton a, fun x hx y hy => by
    rw [List.mem_singleton] at hy
    rintro rfl
    exact ha (hy ▸ hx)⟩

variable [DecidableEq α]

theorem keys_setEntry (key : α) (value : β) (l : List (α × β)) :
    (setEntry key value l).map Prod.fst =
      if key ∈ l.map Prod.fst then l.map Prod.fst else l.map Prod.fst ++ [key] := by
  induction l with
  | nil => simp [setEntry]
  | cons kv rest ih =>
    obtain ⟨k, v⟩ := kv
    by_cases hk : k = key
    · subst hk
      simp [setEntry]
    · simp only [setEntry, if_neg hk, List.map_cons, ih, List.mem_cons, Ne.symm hk, false_or]
      split <;> rfl

theorem nodup_keys_setEntry {l : List (α × β)} (h : (l.map Prod.fst).Nodup) (key : α)
    (value : β) : ((setEntry key value l).map Prod.fst).Nodup := by
  rw [keys_setEntry]
  split
  · exact h
  · rename_i hkey
    exact nodup_append_singleton h hkey

/-- With distinct keys, an entry after `setEntry` is the new one or an old one of another key. -/
theorem mem_setEntry {l : List (α × β)} (h : (l.map Prod.fst).Nodup) {key : α} {value : β}
    {kv : α × β} (hkv : kv ∈ setEntry key value l) : kv = (key, value) ∨ (kv ∈ l ∧ kv.1 ≠ key) := by
  induction l with
  | nil =>
    simp only [setEntry, List.mem_singleton] at hkv
    exact .inl hkv
  | cons e rest ih =>
    obtain ⟨k, v⟩ := e
    simp only [List.map_cons, List.nodup_cons, List.mem_map] at h
    by_cases hk : k = key
    · subst hk
      rw [setEntry, if_pos rfl, List.mem_cons] at hkv
      rcases hkv with rfl | hmem
      · exact .inl rfl
      · refine .inr ⟨List.mem_cons_of_mem _ hmem, fun heq => h.1 ⟨kv, hmem, heq⟩⟩
    · simp only [setEntry, if_neg hk, List.mem_cons] at hkv
      rcases hkv with rfl | hmem
      · exact .inr ⟨List.mem_cons_self, hk⟩
      · rcases ih h.2 hmem with heq | ⟨hold, hne⟩
        · exact .inl heq
        · exact .inr ⟨List.mem_cons_of_mem _ hold, hne⟩

theorem lookup_setEntry_ne (key : α) (value : β) (l : List (α × β)) {k : α} (hk : k ≠ key) :
    (setEntry key value l).lookup k = l.lookup k := by
  induction l with
  | nil =>
    have : (k == key) = false := by simpa using hk
    simp [setEntry, List.lookup, this]
  | cons e rest ih =>
    obtain ⟨k', v'⟩ := e
    by_cases hk' : k' = key
    · subst hk'
      have : (k == k') = false := by simpa using hk
      simp [setEntry, List.lookup, this]
    · simp only [setEntry, if_neg hk', List.lookup]
      split <;> simp_all

end SetEntry

namespace Problem

variable {α : Type}

/-! ### Calls that change only the schedule -/

/-- `q` is `p` with only its start times and initiation interval changed. -/
structure Retimed (p q : Problem α) : Prop where
  operations : q.operations = p.operations
  operatorTypes : q.operatorTypes = p.operatorTypes
  links : q.links = p.links
  dependences : q.dependences = p.dependences
  checked : q.checked = p.checked
  keys_nodup : (p.startTimes.map Prod.fst).Nodup → (q.startTimes.map Prod.fst).Nodup

theorem Retimed.refl (p : Problem α) : Retimed p p :=
  ⟨rfl, rfl, rfl, rfl, rfl, id⟩

theorem Retimed.trans {p q r : Problem α} (h₁ : Retimed p q) (h₂ : Retimed q r) : Retimed p r :=
  ⟨h₂.operations.trans h₁.operations, h₂.operatorTypes.trans h₁.operatorTypes,
    h₂.links.trans h₁.links, h₂.dependences.trans h₁.dependences, h₂.checked.trans h₁.checked,
    fun h => h₂.keys_nodup (h₁.keys_nodup h)⟩

theorem retimed_setInitiationInterval (p : Problem α) (ii : Nat) :
    Retimed p (p.setInitiationInterval ii) :=
  ⟨rfl, rfl, rfl, rfl, rfl, id⟩

variable [DecidableEq α]

theorem retimed_setStartTime (p : Problem α) (op : α) (start : Nat) :
    Retimed p (p.setStartTime op start) :=
  ⟨rfl, rfl, rfl, rfl, rfl, fun h => nodup_keys_setEntry h op start⟩

theorem storeStarts_retimed {p q : Problem α} {timed : List (α × Int)} {stopped : Option α}
    (h : p.storeStarts timed = (q, stopped)) : Retimed p q := by
  induction timed generalizing p with
  | nil =>
    cases h
    exact Retimed.refl _
  | cons entry rest ih =>
    obtain ⟨op, t⟩ := entry
    simp only [storeStarts] at h
    split at h
    · exact (retimed_setStartTime p op t.toNat).trans (ih h)
    · cases h
      exact Retimed.refl _

/-- Scheduling changes only start times and the initiation interval. -/
theorem solve_retimed (cfg : SchedulerConfig) {p q : Problem α}
    {outcome : Except (ScheduleError α) Summary} (h : p.solve cfg = .ok (q, outcome)) :
    Retimed p q := by
  unfold solve at h
  dsimp only at h
  split at h
  · cases h
    exact Retimed.refl p
  · split at h
    · cases h
      exact Retimed.refl p
    · split at h
      · cases h
        exact Retimed.refl p
      · split at h
        · rename_i hstore
          cases h
          exact storeStarts_retimed hstore
        · rename_i hstore
          split at h
          · cases h
            exact (storeStarts_retimed hstore).trans (retimed_setInitiationInterval _ _)
          · cases hstages : stageCount _ with
            | error e =>
              rw [hstages] at h
              cases h
            | ok stages =>
              rw [hstages] at h
              cases h
              exact (storeStarts_retimed hstore).trans (retimed_setInitiationInterval _ _)

/-! ### Calls and the problems they build -/

/-- The calls a client can make on a problem. -/
inductive Action (α : Type) where
  | insertOperation (op : α)
  | insertOperatorType (name : String)
  | setLatency (type : Nat) (latency : Int)
  | link (op : α) (type : Nat)
  | insertDependence (d : Dependence α)
  | setStartTime (op : α) (start : Nat)
  | setInitiationInterval (ii : Nat)
  | check
  | verify
  | schedule (cfg : SchedulerConfig)

/-- The problem after one call; a scheduling fault ends the run. A failed check leaves the
problem as it was, and verifying never changes it. -/
def Action.apply : Action α → Problem α → Except Fault (Problem α)
  | .insertOperation op, p => .ok (p.insertOperation op)
  | .insertOperatorType name, p => .ok (p.insertOperatorType name).1
  | .setLatency type latency, p => .ok (p.setLatency type latency)
  | .link op type, p => .ok (p.link op type)
  | .insertDependence d, p => .ok (p.insertDependence d)
  | .setStartTime op start, p => .ok (p.setStartTime op start)
  | .setInitiationInterval ii, p => .ok (p.setInitiationInterval ii)
  | .check, p =>
    match p.check with
    | .ok q => .ok q
    | .error _ => .ok p
  | .verify, p => .ok p
  | .schedule cfg, p => (p.solve cfg).map Prod.fst

/-- The problem after a sequence of calls on the empty one. -/
def run (actions : List (Action α)) : Except Fault (Problem α) :=
  actions.foldlM (fun p a => a.apply p) Problem.empty

/-- The problems a client can build from the empty one. -/
inductive Reachable : Problem α → Prop
  | empty : Reachable Problem.empty
  | step {p q : Problem α} (a : Action α) (hp : Reachable p) (h : a.apply p = .ok q) :
      Reachable q

theorem reachable_of_foldlM (actions : List (Action α)) {p q : Problem α} (hp : Reachable p)
    (h : actions.foldlM (fun p a => a.apply p) p = .ok q) : Reachable q := by
  induction actions generalizing p with
  | nil =>
    cases h
    exact hp
  | cons a rest ih =>
    rw [List.foldlM_cons] at h
    cases hstep : a.apply p with
    | error e =>
      rw [hstep] at h
      cases h
    | ok p₁ =>
      rw [hstep] at h
      exact ih (.step a hp hstep) h

theorem reachable_run {actions : List (Action α)} {p : Problem α} (h : run actions = .ok p) :
    Reachable p :=
  reachable_of_foldlM actions .empty h

/-! ### Well-formed problems -/

/-- What every problem a client builds satisfies. -/
structure WellFormed (p : Problem α) : Prop where
  nodup : p.operations.Nodup
  source_mem : ∀ d ∈ p.dependences, d.source ∈ p.operations
  destination_mem : ∀ d ∈ p.dependences, d.destination ∈ p.operations
  keys_nodup : (p.startTimes.map Prod.fst).Nodup
  valid : p.checked = true → p.violation? = none

/-- The violations of a problem depend only on its operations, types, links and dependences. -/
theorem violation?_eq_of_graph {p q : Problem α} (h₁ : q.operations = p.operations)
    (h₂ : q.operatorTypes = p.operatorTypes) (h₃ : q.links = p.links)
    (h₄ : q.dependences = p.dependences) : q.violation? = p.violation? := by
  obtain ⟨_, _, _, _, _, _, _⟩ := p
  obtain ⟨_, _, _, _, _, _, _⟩ := q
  simp only at h₁ h₂ h₃ h₄
  subst h₁ h₂ h₃ h₄
  rfl

theorem WellFormed.retimed {p q : Problem α} (h : WellFormed p) (hr : Retimed p q) :
    WellFormed q where
  nodup := hr.operations ▸ h.nodup
  source_mem := fun d hd => hr.operations ▸ h.source_mem d (hr.dependences ▸ hd)
  destination_mem := fun d hd => hr.operations ▸ h.destination_mem d (hr.dependences ▸ hd)
  keys_nodup := hr.keys_nodup h.keys_nodup
  valid := fun hc => by
    rw [violation?_eq_of_graph hr.operations hr.operatorTypes hr.links hr.dependences]
    exact h.valid (hr.checked ▸ hc)

theorem WellFormed.empty : WellFormed (Problem.empty : Problem α) where
  nodup := List.nodup_nil
  source_mem := fun _ hd => absurd hd List.not_mem_nil
  destination_mem := fun _ hd => absurd hd List.not_mem_nil
  keys_nodup := List.nodup_nil
  valid := fun hc => Bool.noConfusion hc

theorem mem_insertOperation_self (p : Problem α) (op : α) :
    op ∈ (p.insertOperation op).operations := by
  rw [insertOperation_operations]
  split
  · assumption
  · exact List.mem_append_right _ (List.mem_singleton_self op)

theorem mem_insertOperation_of_mem {p : Problem α} {x : α} (h : x ∈ p.operations) (op : α) :
    x ∈ (p.insertOperation op).operations := by
  rw [insertOperation_operations]
  split
  · exact h
  · exact List.mem_append_left _ h

theorem WellFormed.insertOperation {p : Problem α} (h : WellFormed p) (op : α) :
    WellFormed (p.insertOperation op) := by
  unfold Problem.insertOperation
  split
  · exact h
  · rename_i hop
    exact ⟨nodup_append_singleton h.nodup (by simpa using hop),
      fun d hd => List.mem_append_left _ (h.source_mem d hd),
      fun d hd => List.mem_append_left _ (h.destination_mem d hd), h.keys_nodup,
      fun hc => Bool.noConfusion hc⟩

/-- A call that registers something new clears the checked mark. -/
theorem WellFormed.unchecked {p q : Problem α} (h : WellFormed p)
    (h₁ : q.operations = p.operations) (h₂ : q.dependences = p.dependences)
    (h₃ : q.startTimes = p.startTimes) (hc : q.checked = false) : WellFormed q where
  nodup := h₁ ▸ h.nodup
  source_mem := fun d hd => h₁ ▸ h.source_mem d (h₂ ▸ hd)
  destination_mem := fun d hd => h₁ ▸ h.destination_mem d (h₂ ▸ hd)
  keys_nodup := h₃ ▸ h.keys_nodup
  valid := fun hc' => absurd (hc.symm.trans hc') Bool.false_ne_true

theorem WellFormed.insertDependence {p : Problem α} (h : WellFormed p) (d : Dependence α) :
    WellFormed (p.insertDependence d) := by
  have h₁ := (h.insertOperation d.source).insertOperation d.destination
  unfold Problem.insertDependence
  dsimp only
  split
  · exact h₁
  · refine ⟨h₁.nodup, fun d' hd' => ?_, fun d' hd' => ?_, h₁.keys_nodup,
      fun hc => Bool.noConfusion hc⟩
    · rcases List.mem_append.1 hd' with hold | hnew
      · exact h₁.source_mem d' hold
      · rw [List.mem_singleton.1 hnew]
        exact mem_insertOperation_of_mem (mem_insertOperation_self p d.source) _
    · rcases List.mem_append.1 hd' with hold | hnew
      · exact h₁.destination_mem d' hold
      · rw [List.mem_singleton.1 hnew]
        exact mem_insertOperation_self _ d.destination

theorem check_eq_ok {p q : Problem α} (h : p.check = .ok q) :
    p.violation? = none ∧ q = { p with checked := true } := by
  unfold check at h
  split at h
  · cases h
  · rename_i hnone
    cases h
    exact ⟨hnone, rfl⟩

/-- One call keeps a problem well formed. -/
theorem WellFormed.apply {p q : Problem α} (h : WellFormed p) (a : Action α)
    (ha : a.apply p = .ok q) : WellFormed q := by
  cases a with
  | insertOperation op =>
    cases ha
    exact h.insertOperation op
  | insertOperatorType name =>
    cases ha
    unfold Problem.insertOperatorType
    split
    · exact h
    · exact h.unchecked rfl rfl rfl rfl
  | setLatency type latency =>
    cases ha
    unfold Problem.setLatency
    split
    · exact h.unchecked rfl rfl rfl rfl
    · exact h
  | link op type =>
    cases ha
    exact (h.insertOperation op).unchecked rfl rfl rfl rfl
  | insertDependence d =>
    cases ha
    exact h.insertDependence d
  | setStartTime op start =>
    cases ha
    exact h.retimed (retimed_setStartTime p op start)
  | setInitiationInterval ii =>
    cases ha
    exact h.retimed (retimed_setInitiationInterval p ii)
  | check =>
    simp only [Action.apply] at ha
    split at ha
    · rename_i q' hcheck
      cases ha
      obtain ⟨hnone, rfl⟩ := check_eq_ok hcheck
      exact ⟨h.nodup, h.source_mem, h.destination_mem, h.keys_nodup, fun _ => hnone⟩
    · cases ha
      exact h
  | verify =>
    cases ha
    exact h
  | schedule cfg =>
    simp only [Action.apply] at ha
    cases hsolve : p.solve cfg with
    | error e =>
      rw [hsolve] at ha
      cases ha
    | ok result =>
      rw [hsolve] at ha
      cases ha
      exact h.retimed (solve_retimed cfg hsolve)

/-- Every problem a client builds is well formed. -/
theorem Reachable.wellFormed {p : Problem α} (hp : Reachable p) : WellFormed p := by
  induction hp with
  | empty => exact WellFormed.empty
  | step a _ ha ih => exact ih.apply a ha

/-! ### What a passed check means -/

theorem linked_of_linkViolation?_eq_none {p : Problem α} (h : p.linkViolation? = none) {op : α}
    (hop : op ∈ p.operations) : ∃ i, p.linkOf? op = some i ∧ i < p.operatorTypes.length := by
  have hfound := List.findSome?_eq_none_iff.1 h op hop
  cases hlink : p.linkOf? op with
  | none =>
    rw [hlink] at hfound
    cases hfound
  | some i =>
    rw [hlink] at hfound
    dsimp only at hfound
    refine ⟨i, rfl, ?_⟩
    by_contra hge
    rw [if_neg hge] at hfound
    cases hfound

omit [DecidableEq α] in
theorem latency_of_violation?_eq_none {t : OperatorType}
    (h : (t.violation? : Option (ProblemError α)) = none) : ∃ l, t.latency = some l ∧ 0 ≤ l := by
  unfold OperatorType.violation? at h
  cases hl : t.latency with
  | none =>
    rw [hl] at h
    cases h
  | some l =>
    rw [hl] at h
    dsimp only at h
    refine ⟨l, rfl, ?_⟩
    by_contra hneg
    rw [if_pos (lt_of_not_ge hneg)] at h
    cases h

theorem violation?_eq_none_parts {p : Problem α} (h : p.violation? = none) :
    p.linkViolation? = none ∧
      (p.operatorTypes.findSome? OperatorType.violation? : Option (ProblemError α)) = none ∧
      p.intraIterationCycle? = none := by
  unfold violation? at h
  split at h
  · cases h
  · rename_i hlink
    split at h
    · cases h
    · rename_i htypes
      exact ⟨hlink, htypes, Option.map_eq_none_iff.1 h⟩

/-- A well-formed problem without violation has every operation linked to a registered type,
every type a non-negative latency, and no closed walk of distance-0 dependences. -/
theorem conditions_of_violation?_eq_none {p : Problem α} (hwf : WellFormed p)
    (h : p.violation? = none) :
    (∀ op ∈ p.operations, ∃ i, p.linkOf? op = some i ∧ i < p.operatorTypes.length) ∧
      (∀ t ∈ p.operatorTypes, ∃ l, t.latency = some l ∧ 0 ≤ l) ∧
      (∀ x w, Walk Dependence.source Dependence.destination
        (p.dependences.filter fun d => d.distance = 0) x w x → w = []) := by
  obtain ⟨hlink, htypes, hcycle⟩ := violation?_eq_none_parts h
  exact ⟨fun op hop => linked_of_linkViolation?_eq_none hlink hop,
    fun t ht => latency_of_violation?_eq_none (List.findSome?_eq_none_iff.1 htypes t ht),
    fun x w hw => intraIterationCycle?_eq_none_acyclic hwf.source_mem hwf.destination_mem hcycle hw⟩

/-- Whatever calls built it, a problem marked checked meets the three conditions its check
tests, so checking it again succeeds and changes nothing. -/
theorem Reachable.valid_of_checked {p : Problem α} (hp : Reachable p) (hchecked : p.checked = true) :
    (∀ op ∈ p.operations, ∃ i, p.linkOf? op = some i ∧ i < p.operatorTypes.length) ∧
      (∀ t ∈ p.operatorTypes, ∃ l, t.latency = some l ∧ 0 ≤ l) ∧
      (∀ x w, Walk Dependence.source Dependence.destination
        (p.dependences.filter fun d => d.distance = 0) x w x → w = []) ∧
      p.check = .ok p := by
  have hwf := hp.wellFormed
  have hnone := hwf.valid hchecked
  refine ⟨(conditions_of_violation?_eq_none hwf hnone).1,
    (conditions_of_violation?_eq_none hwf hnone).2.1,
    (conditions_of_violation?_eq_none hwf hnone).2.2, ?_⟩
  unfold check
  rw [hnone]
  obtain ⟨_, _, _, _, _, _, checked⟩ := p
  simp only at hchecked
  rw [hchecked]

/-- Two operations of one type of latency 2, joined by a dependence of distance 0 and one back of
distance 1, after a check. -/
def checkedPair : Problem Nat :=
  ⟨[0, 1], [⟨"alu", some 2⟩], [(0, 0), (1, 0)], [⟨0, 1, 0, .data⟩, ⟨1, 0, 1, .data⟩], [], none,
    true⟩

theorem checkedPair_reachable : Reachable checkedPair :=
  reachable_run (show run [.insertOperatorType "alu", .setLatency 0 2, .link 0 0, .link 1 0,
    .insertDependence ⟨0, 1, 0, .data⟩, .insertDependence ⟨1, 0, 1, .data⟩, .check] =
      .ok checkedPair from rfl)

theorem checkedPair_valid :
    Reachable checkedPair ∧ checkedPair.checked = true ∧
      ((∀ op ∈ checkedPair.operations, ∃ i, checkedPair.linkOf? op = some i ∧
          i < checkedPair.operatorTypes.length) ∧
        (∀ t ∈ checkedPair.operatorTypes, ∃ l, t.latency = some l ∧ 0 ≤ l) ∧
        (∀ x w, Walk Dependence.source Dependence.destination
          (checkedPair.dependences.filter fun d => d.distance = 0) x w x → w = []) ∧
        checkedPair.check = .ok checkedPair) :=
  ⟨checkedPair_reachable, rfl, Reachable.valid_of_checked checkedPair_reachable rfl⟩

end Problem

end ModuloPipelining
