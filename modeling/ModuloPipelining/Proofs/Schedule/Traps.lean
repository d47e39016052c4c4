import ModuloPipelining.Proofs.Schedule.Optimal

/-!
# The one arithmetic trap of the scheduler

The scheduler computes path lengths, latency sums and bisection midpoints exactly, its search
bound in saturating arithmetic, and verification compares exact sums, so none of these traps.
The stage count can: it is the largest start time stored in the problem plus one, in a 32-bit
word.

For a problem a client built and checked, scheduling traps exactly when it stores a start time of
`2^32 - 1` or more (`Problem.solve_traps_iff`). That happens when the least schedule under the
least interval puts an operation at cycle `2^32 - 1` and no operation beyond it, or when a start
time kept for a value that is not an operation is that large; a latency of `2^32 - 1` feeding an
operation of latency 0 is enough (`Problem.wideLatencyPair`). In every other case it returns a
schedule or a typed error, and the numbers of a schedule it returns fit a 32-bit word.
-/

namespace ModuloPipelining

namespace Problem

variable {α : Type}

/-! ### The stage count -/

section StageCount

variable {q : Problem α}

/-- The stage count traps exactly when some stored start time is the largest word or more. -/
theorem stageCount_eq_error_iff {f : Fault} :
    q.stageCount = .error f ↔ f = .add ∧ ∃ e ∈ q.startTimes, u32Max ≤ e.2 := by
  unfold stageCount maxStartTime?
  cases hmax : (q.startTimes.map (·.2)).max? with
  | none =>
    rw [List.max?_eq_none_iff, List.map_eq_nil_iff] at hmax
    simp [hmax]
  | some m =>
    obtain ⟨hm, hbound⟩ := List.max?_eq_some_iff.1 hmax
    obtain ⟨e₀, he₀, rfl⟩ := List.mem_map.1 hm
    dsimp only
    by_cases hlt : e₀.2 < u32Max
    · rw [if_pos hlt]
      simp only [reduceCtorEq, false_iff, not_and, not_exists, not_le]
      intro _ e he
      exact lt_of_le_of_lt (hbound _ (List.mem_map_of_mem he)) hlt
    · rw [if_neg hlt]
      simp only [Except.error.injEq]
      exact ⟨fun h => ⟨h.symm, e₀, he₀, le_of_not_gt hlt⟩, fun ⟨h, _⟩ => h.symm⟩

/-- A stage count that exists fits a word. -/
theorem stageCount_le_u32Max {s : Nat} (h : q.stageCount = .ok s) : s ≤ u32Max := by
  unfold stageCount at h
  split at h
  · cases h
    decide
  · split at h
    · cases h
      omega
    · cases h

end StageCount

variable [DecidableEq α]

/-- After new start times are stored for distinct operations, some stored start time is the
largest word or more exactly when a new one is, or an old one of another key. -/
theorem exists_large_startTime_foldl (S : α → Nat) {ops : List α} (hnodup : ops.Nodup)
    (q : Problem α) (hkeys : (q.startTimes.map Prod.fst).Nodup) :
    (∃ e ∈ (ops.foldl (fun q o => q.setStartTime o (S o)) q).startTimes, u32Max ≤ e.2) ↔
      (∃ op ∈ ops, u32Max ≤ S op) ∨ ∃ e ∈ q.startTimes, e.1 ∉ ops ∧ u32Max ≤ e.2 := by
  have hsmall := forall_startTimes_foldl S hnodup q hkeys (· < u32Max)
  rw [← not_iff_not]
  push Not
  exact hsmall

/-! ### When scheduling traps -/

/-- Scheduling a problem a client built and checked traps exactly when the least interval fits a
word and, under it, the least start times all fit a word and one of them is the largest word, or
a start time kept for a value that is not an operation is the largest word or more; the trap is
the addition of the stage count. A schedule it returns reports numbers that fit a word. -/
theorem solve_traps_iff (cfg : SchedulerConfig) {p : Problem α} (hp : Reachable p)
    (hchecked : p.checked = true) :
    (∀ f, p.solve cfg = .error f ↔ f = .add ∧
      ∃ m S, IsLeast {ii | 1 ≤ ii ∧ p.RecurrenceFeasible ii} m ∧ m ≤ u32Max ∧
        p.LeastSchedule m S ∧ (∀ op ∈ p.operations, S op ≤ u32Max) ∧
        ((∃ op ∈ p.operations, S op = u32Max) ∨
          ∃ e ∈ p.startTimes, e.1 ∉ p.operations ∧ u32Max ≤ e.2)) ∧
      ∀ q s, p.solve cfg = .ok (q, .ok s) →
        s.recurrenceMii ≤ u32Max ∧ s.initiationInterval ≤ u32Max ∧ s.candidatesTried ≤ u32Max ∧
          s.stageCount ≤ u32Max := by
  have hs := hp.schedulable hchecked
  obtain ⟨-, hr₂, -, hfeas⟩ := recurrenceMii_spec hs.inRange hs.noZeroCycle
  rcases hfeas with hfeas | ⟨hr, hinf⟩
  · obtain ⟨L, hL⟩ := Option.isSome_iff_exists.1 ((longestPaths_isSome_iff hs.inRange).2 hfeas)
    have hleast := leastSchedule_startOf hs hL
    have hmin := isLeast_recurrenceMii hs hfeas
    have hchar : (∃ m S, IsLeast {ii | 1 ≤ ii ∧ p.RecurrenceFeasible ii} m ∧ m ≤ u32Max ∧
        p.LeastSchedule m S ∧ (∀ op ∈ p.operations, S op ≤ u32Max) ∧
        ((∃ op ∈ p.operations, S op = u32Max) ∨
          ∃ e ∈ p.startTimes, e.1 ∉ p.operations ∧ u32Max ≤ e.2)) ↔
        (∀ op ∈ p.operations, p.startOf L op ≤ u32Max) ∧
          ((∃ op ∈ p.operations, u32Max ≤ p.startOf L op) ∨
            ∃ e ∈ p.startTimes, e.1 ∉ p.operations ∧ u32Max ≤ e.2) := by
      constructor
      · rintro ⟨m, S, hm, -, hS, hfit, hlarge⟩
        obtain rfl := hm.unique hmin
        have hagree : ∀ op ∈ p.operations, S op = p.startOf L op :=
          fun op hop => hS.unique hleast hop
        refine ⟨fun op hop => hagree op hop ▸ hfit op hop, ?_⟩
        rcases hlarge with ⟨op, hop, hmax⟩ | hstale
        · exact .inl ⟨op, hop, by rw [← hagree op hop, hmax]⟩
        · exact .inr hstale
      · rintro ⟨hfit, hlarge⟩
        refine ⟨_, _, hmin, hr₂, hleast, hfit, ?_⟩
        rcases hlarge with ⟨op, hop, hmax⟩ | hstale
        · exact .inl ⟨op, hop, le_antisymm (hfit op hop) hmax⟩
        · exact .inr hstale
    by_cases hfit : ∀ op ∈ p.operations, p.startOf L op ≤ u32Max
    · have hsolve := solve_stored cfg hs hchecked hL hfit
      set stored := (p.operations.foldl (fun q op => q.setStartTime op (p.startOf L op))
        p).setInitiationInterval (recurrenceMii p.operations.length
          (p.dependences.map p.constraintOf))
      have hlarge : (∃ e ∈ stored.startTimes, u32Max ≤ e.2) ↔
          (∃ op ∈ p.operations, u32Max ≤ p.startOf L op) ∨
            ∃ e ∈ p.startTimes, e.1 ∉ p.operations ∧ u32Max ≤ e.2 :=
        exists_large_startTime_foldl (p.startOf L) hs.wellFormed.nodup p hs.wellFormed.keys_nodup
      refine ⟨fun f => ?_, fun q s h => ?_⟩
      · rw [hchar, hsolve]
        cases hstages : stored.stageCount with
        | error e =>
          obtain ⟨rfl, hbig⟩ := stageCount_eq_error_iff.1 hstages
          simp only [bind, Except.bind, Except.error.injEq]
          exact ⟨fun h => ⟨h.symm, hfit, hlarge.1 hbig⟩, fun h => h.1.symm⟩
        | ok stages =>
          have hsmall : ¬∃ e ∈ stored.startTimes, u32Max ≤ e.2 := by
            intro hbig
            have herr : stored.stageCount = .error .add := stageCount_eq_error_iff.2 ⟨rfl, hbig⟩
            rw [hstages] at herr
            cases herr
          simp only [bind, Except.bind, pure, Except.pure, reduceCtorEq, false_iff, not_and]
          exact fun _ _ hbig => hsmall (hlarge.2 hbig)
      · rw [hsolve] at h
        cases hstages : stored.stageCount with
        | error e =>
          rw [hstages] at h
          cases h
        | ok stages =>
          rw [hstages] at h
          cases h
          exact ⟨hr₂, hr₂, (by decide : 1 ≤ u32Max), stageCount_le_u32Max hstages⟩
    · obtain ⟨op, q', hq'⟩ := solve_overflow_of_not_fit cfg hs hchecked hL hfit
      refine ⟨fun f => ?_, fun q s h => ?_⟩
      · rw [hchar, hq']
        simp only [reduceCtorEq, false_iff, not_and]
        exact fun _ hall => absurd hall hfit
      · rw [hq'] at h
        cases h
  · have hsolve := solve_of_exhausted cfg hs hchecked hr hinf
    refine ⟨fun f => ?_, fun q s h => ?_⟩
    · rw [hsolve]
      simp only [reduceCtorEq, false_iff, not_and, not_exists]
      intro _ m S hm hle
      exact absurd ((((hs.noPositiveCycle_iff m).2 hm.1.2).mono hle)) hinf
    · rw [hsolve] at h
      cases h

/-- Operation 0, of latency `2^32 - 1`, feeds operation 1, of latency 0, in the same iteration;
checked. Its least schedule starts operation 1 at cycle `2^32 - 1`. -/
def wideLatencyPair : Problem Nat :=
  ⟨[0, 1], [⟨"a", some 4294967295⟩, ⟨"b", some 0⟩], [(0, 0), (1, 1)], [⟨0, 1, 0, .data⟩], [],
    none, true⟩

theorem wideLatencyPair_reachable : Reachable wideLatencyPair :=
  reachable_run (show run [.insertOperatorType "a", .insertOperatorType "b",
    .setLatency 0 4294967295, .setLatency 1 0, .link 0 0, .link 1 1,
    .insertDependence ⟨0, 1, 0, .data⟩, .check] = .ok wideLatencyPair from rfl)

/-- Scheduling `wideLatencyPair` traps on the stage count. -/
theorem wideLatencyPair_traps :
    Reachable wideLatencyPair ∧ wideLatencyPair.checked = true ∧
      wideLatencyPair.solve .standard = .error .add ∧
      ((∀ f, wideLatencyPair.solve .standard = .error f ↔ f = .add ∧
        ∃ m S, IsLeast {ii | 1 ≤ ii ∧ wideLatencyPair.RecurrenceFeasible ii} m ∧ m ≤ u32Max ∧
          wideLatencyPair.LeastSchedule m S ∧ (∀ op ∈ wideLatencyPair.operations, S op ≤ u32Max) ∧
          ((∃ op ∈ wideLatencyPair.operations, S op = u32Max) ∨
            ∃ e ∈ wideLatencyPair.startTimes, e.1 ∉ wideLatencyPair.operations ∧ u32Max ≤ e.2)) ∧
        ∀ q s, wideLatencyPair.solve .standard = .ok (q, .ok s) →
          s.recurrenceMii ≤ u32Max ∧ s.initiationInterval ≤ u32Max ∧
            s.candidatesTried ≤ u32Max ∧ s.stageCount ≤ u32Max) :=
  ⟨wideLatencyPair_reachable, rfl, rfl, solve_traps_iff .standard wideLatencyPair_reachable rfl⟩

end Problem

end ModuloPipelining
