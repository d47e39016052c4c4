import ModuloPipelining.Proofs.Problem.History
import ModuloPipelining.Proofs.Problem.NamedCycle

/-!
# A check reports the first violation

`Problem.check` accepts a problem exactly when every operation is linked to a registered operator
type, every operator type has a latency that is not negative, and the distance-0 dependences
have no closed walk but the empty one. Otherwise it reports the first violation, in this order:

1. the first operation in program order that is not linked to a registered type: unlinked, or
   linked to a type the problem does not have;
2. the first operator type in registration order without a latency, or with a negative one;
3. a distance-0 cycle, named by an operation that lies on one.

`Problem.Reachable.check_reports_first_violation` states all four parts for every problem a
client can build. The first two orders are those of `List.findSome?` (`findSome?_eq_of_first`);
the last rests on the cycle search naming only operations on cycles
(`Problem.intraIterationCycle?_some_cycle`).
-/

namespace ModuloPipelining

/-- A search for the first result finds the one of the first element that has one. -/
theorem findSome?_eq_of_first {β γ : Type} {f : β → Option γ} {l pre post : List β} {x : β}
    {r : γ} (hsplit : l = pre ++ x :: post) (hpre : ∀ y ∈ pre, f y = none) (hx : f x = some r) :
    l.findSome? f = some r := by
  rw [hsplit, List.findSome?_append, List.findSome?_eq_none_iff.2 hpre, Option.none_or,
    List.findSome?_cons_of_isSome (by simp [hx]), hx]

/-- An operator type with a latency that is not negative. -/
def OperatorType.HasLatency (t : OperatorType) : Prop := ∃ l, t.latency = some l ∧ 0 ≤ l

namespace OperatorType

variable {α : Type} {t : OperatorType}

theorem violation?_eq_none_iff : (t.violation? : Option (ProblemError α)) = none ↔ t.HasLatency := by
  unfold violation? HasLatency
  cases t.latency with
  | none => simp
  | some l =>
    by_cases hl : l < 0
    · simp [hl]
    · simp only [hl, if_false, Option.some.injEq, exists_eq_left', true_iff]
      omega

/-- A type without a latency is reported missing; one with a negative latency, negative. -/
theorem violation?_of_not_hasLatency (h : ¬ t.HasLatency) :
    (t.violation? : Option (ProblemError α)) = some (match t.latency with
      | none => .missingLatency t.name
      | some l => .negativeLatency t.name l) := by
  unfold violation?
  cases hl : t.latency with
  | none => rfl
  | some l =>
    have hneg : l < 0 := by
      by_contra hnonneg
      exact h ⟨l, hl, by omega⟩
    simp [hneg]

end OperatorType

namespace Problem

variable {α : Type} [DecidableEq α] {p : Problem α}

/-- An operation linked to an operator type that the problem has registered. -/
def Linked (p : Problem α) (op : α) : Prop := ∃ i, p.linkOf? op = some i ∧ i < p.operatorTypes.length

/-- The distance-0 dependences of a problem have no closed walk but the empty one. -/
def ZeroDistanceAcyclic (p : Problem α) : Prop :=
  ∀ x w, Walk Dependence.source Dependence.destination
    (p.dependences.filter fun d => d.distance = 0) x w x → w = []

/-- The violation of an operation not linked to a registered type: unlinked, or linked to a type
the problem does not have. -/
def linkError (p : Problem α) (op : α) : ProblemError α :=
  match p.linkOf? op with
  | none => .unlinkedOperation op
  | some _ => .unregisteredOperatorType op

theorem linkViolation?_eq_none_iff : p.linkViolation? = none ↔ ∀ op ∈ p.operations, p.Linked op := by
  unfold linkViolation?
  rw [List.findSome?_eq_none_iff]
  refine forall₂_congr fun op _ => ?_
  unfold Linked
  cases p.linkOf? op with
  | none => simp
  | some i => by_cases hi : i < p.operatorTypes.length <;> simp [hi]

theorem linkViolation?_of_first {pre post : List α} {op : α}
    (hsplit : p.operations = pre ++ op :: post) (hpre : ∀ x ∈ pre, p.Linked x)
    (hop : ¬ p.Linked op) : p.linkViolation? = some (p.linkError op) := by
  unfold linkViolation?
  refine findSome?_eq_of_first hsplit (fun x hx => ?_) ?_
  · obtain ⟨i, hi, hlt⟩ := hpre x hx
    simp [hi, hlt]
  · unfold linkError
    cases hl : p.linkOf? op with
    | none => rfl
    | some i =>
      have hge : ¬ i < p.operatorTypes.length := fun hlt => hop ⟨i, hl, hlt⟩
      simp [hge]

omit [DecidableEq α] in
theorem typeViolation?_eq_none_iff :
    (p.operatorTypes.findSome? OperatorType.violation? : Option (ProblemError α)) = none ↔
      ∀ t ∈ p.operatorTypes, t.HasLatency := by
  simp only [List.findSome?_eq_none_iff, OperatorType.violation?_eq_none_iff]

/-! ### The check and its first violation -/

theorem check_eq_error_iff {e : ProblemError α} : p.check = .error e ↔ p.violation? = some e := by
  unfold check
  split <;> simp_all

theorem check_eq_ok_iff_violation? : p.check = .ok { p with checked := true } ↔ p.violation? = none := by
  unfold check
  split <;> simp_all

/-- With every operation linked and every type timed, the violation is the cycle's, if any. -/
theorem violation?_of_linked_timed (hlink : p.linkViolation? = none)
    (htypes : (p.operatorTypes.findSome? OperatorType.violation? : Option (ProblemError α)) = none) :
    p.violation? = p.intraIterationCycle?.map .intraIterationCycle := by
  unfold violation?
  rw [hlink, htypes]

/-- The only violation that names a distance-0 cycle is the one the cycle search finds: links
and latencies are reported otherwise. -/
theorem intraIterationCycle?_of_violation? {op : α}
    (h : p.violation? = some (.intraIterationCycle op)) : p.intraIterationCycle? = some op := by
  unfold violation? at h
  split at h
  · rename_i e he
    cases h
    obtain ⟨x, -, hx⟩ := List.exists_of_findSome?_eq_some he
    cases hl : p.linkOf? x with
    | none => simp [hl] at hx
    | some i => by_cases hi : i < p.operatorTypes.length <;> simp [hl, hi] at hx
  · split at h
    · rename_i e he
      cases h
      obtain ⟨t, -, ht⟩ := List.exists_of_findSome?_eq_some he
      unfold OperatorType.violation? at ht
      split at ht
      · cases ht
      · split at ht <;> cases ht
    · obtain ⟨x, hx, hxop⟩ := Option.map_eq_some_iff.1 h
      cases hxop
      exact hx

/-- A problem whose distance-0 dependences close no walk, on registered operations without
repeats, is never reported to have a cycle of them. -/
theorem check_ne_intraIterationCycle (hnodup : p.operations.Nodup)
    (hsource : ∀ d ∈ p.dependences, d.source ∈ p.operations)
    (hdest : ∀ d ∈ p.dependences, d.destination ∈ p.operations) (hacyclic : p.ZeroDistanceAcyclic)
    (op : α) : p.check ≠ .error (.intraIterationCycle op) := by
  intro hcheck
  have hfound := intraIterationCycle?_of_violation? (check_eq_error_iff.1 hcheck)
  rw [(intraIterationCycle?_eq_none_iff hnodup hsource hdest).2 hacyclic] at hfound
  cases hfound

/-- Every problem a client builds is accepted by its check exactly when it meets the three
checked conditions; otherwise the check reports the first operation in program order not linked
to a registered type, else the first operator type in registration order without a latency that
is not negative, else an operation on a distance-0 cycle. -/
theorem Reachable.check_reports_first_violation (hp : Reachable p) :
    (p.check = .ok { p with checked := true } ↔
      (∀ op ∈ p.operations, p.Linked op) ∧ (∀ t ∈ p.operatorTypes, t.HasLatency) ∧
        p.ZeroDistanceAcyclic) ∧
    (∀ pre op post, p.operations = pre ++ op :: post → (∀ x ∈ pre, p.Linked x) →
      ¬ p.Linked op → p.check = .error (p.linkError op)) ∧
    ((∀ op ∈ p.operations, p.Linked op) → ∀ pre t post, p.operatorTypes = pre ++ t :: post →
      (∀ s ∈ pre, s.HasLatency) → ¬ t.HasLatency →
      p.check = .error (match t.latency with
        | none => .missingLatency t.name
        | some l => .negativeLatency t.name l)) ∧
    ((∀ op ∈ p.operations, p.Linked op) → (∀ t ∈ p.operatorTypes, t.HasLatency) →
      ∀ e, p.check = .error e → ∃ op, e = .intraIterationCycle op ∧
        ∃ w, w ≠ [] ∧ Walk Dependence.source Dependence.destination
          (p.dependences.filter fun d => d.distance = 0) op w op) := by
  have hwf := hp.wellFormed
  have hcycle := intraIterationCycle?_eq_none_iff hwf.nodup hwf.source_mem hwf.destination_mem
  refine ⟨?_, ?_, ?_, ?_⟩
  · rw [check_eq_ok_iff_violation?]
    constructor
    · intro h
      obtain ⟨hlink, htypes, hnone⟩ := violation?_eq_none_parts h
      exact ⟨linkViolation?_eq_none_iff.1 hlink, typeViolation?_eq_none_iff.1 htypes,
        hcycle.1 hnone⟩
    · rintro ⟨hlink, htypes, hacyclic⟩
      rw [violation?_of_linked_timed (linkViolation?_eq_none_iff.2 hlink)
        (typeViolation?_eq_none_iff.2 htypes), hcycle.2 hacyclic, Option.map_none]
  · intro pre op post hsplit hpre hop
    rw [check_eq_error_iff]
    unfold violation?
    rw [linkViolation?_of_first hsplit hpre hop]
  · intro hlink pre t post hsplit hpre ht
    rw [check_eq_error_iff]
    unfold violation?
    rw [linkViolation?_eq_none_iff.2 hlink]
    dsimp only
    rw [findSome?_eq_of_first hsplit
      (fun s hs => OperatorType.violation?_eq_none_iff.2 (hpre s hs))
      (OperatorType.violation?_of_not_hasLatency ht)]
  · intro hlink htypes e he
    rw [check_eq_error_iff, violation?_of_linked_timed (linkViolation?_eq_none_iff.2 hlink)
      (typeViolation?_eq_none_iff.2 htypes)] at he
    obtain ⟨op, hop, rfl⟩ := Option.map_eq_some_iff.1 he
    exact ⟨op, rfl, intraIterationCycle?_some_cycle hwf.nodup hwf.source_mem hwf.destination_mem hop⟩

/-- Two operations of latency 0, each depending on the other in the same iteration: a data
dependence from the first to the second and an ordering one back. -/
def zeroDistancePair : Problem Nat :=
  ⟨[0, 1], [⟨"opr0", some 0⟩, ⟨"opr1", some 0⟩], [(0, 0), (1, 1)],
    [⟨0, 1, 0, .data⟩, ⟨1, 0, 0, .auxiliary⟩], [], none, false⟩

theorem zeroDistancePair_reachable : Reachable zeroDistancePair :=
  reachable_run (show run [.insertOperatorType "opr0", .setLatency 0 0, .link 0 0,
    .insertOperatorType "opr1", .setLatency 1 0, .link 1 1,
    .insertDependence ⟨0, 1, 0, .data⟩, .insertDependence ⟨1, 0, 0, .auxiliary⟩] =
      .ok zeroDistancePair from rfl)

example : zeroDistancePair.check = .error (.intraIterationCycle 1) := rfl

theorem zeroDistancePair_reports_cycle :
    Reachable zeroDistancePair ∧
    (zeroDistancePair.check = .ok { zeroDistancePair with checked := true } ↔
      (∀ op ∈ zeroDistancePair.operations, zeroDistancePair.Linked op) ∧
        (∀ t ∈ zeroDistancePair.operatorTypes, t.HasLatency) ∧
        zeroDistancePair.ZeroDistanceAcyclic) ∧
    (∀ pre op post, zeroDistancePair.operations = pre ++ op :: post →
      (∀ x ∈ pre, zeroDistancePair.Linked x) → ¬ zeroDistancePair.Linked op →
      zeroDistancePair.check = .error (zeroDistancePair.linkError op)) ∧
    ((∀ op ∈ zeroDistancePair.operations, zeroDistancePair.Linked op) →
      ∀ pre t post, zeroDistancePair.operatorTypes = pre ++ t :: post →
      (∀ s ∈ pre, s.HasLatency) → ¬ t.HasLatency →
      zeroDistancePair.check = .error (match t.latency with
        | none => .missingLatency t.name
        | some l => .negativeLatency t.name l)) ∧
    ((∀ op ∈ zeroDistancePair.operations, zeroDistancePair.Linked op) →
      (∀ t ∈ zeroDistancePair.operatorTypes, t.HasLatency) →
      ∀ e, zeroDistancePair.check = .error e → ∃ op, e = .intraIterationCycle op ∧
        ∃ w, w ≠ [] ∧ Walk Dependence.source Dependence.destination
          (zeroDistancePair.dependences.filter fun d => d.distance = 0) op w op) :=
  ⟨zeroDistancePair_reachable, Reachable.check_reports_first_violation zeroDistancePair_reachable⟩

end Problem

end ModuloPipelining
