import ModuloPipelining.Proofs.Pipeline.Lowering
import ModuloPipelining.Proofs.Problem.CastChains

/-!
# Capture stages are the least fixpoint of their equations

Slot `s` is captured one interval before its yielded value is ready, kept within the stages
(`Loop.nextCaptures`). A value yielded from another argument, or the induction variable, is ready
when that slot is captured, so the slots form a functional graph of forwards (`Loop.forwardOf`):
each slot reads at most one other, and the rest read nothing.

`Lowering.captureStages` runs one round of these equations per slot, simultaneously, from all
zeros. The rounds only grow and stay below every fixpoint (`Loop.capturesAfter_le_fixpoint`). A
slot changes in a round only if the slot it reads changed in the round before
(`Loop.ChangesIn.forward`), so a change in the round after the last would trace back through
one slot more than there are, one of them twice: a slot on a cycle of forwards. Such a slot reads
only slots of its cycle and stays at 0 (`Loop.capturesAfter_onForwardCycle`), so the rounds have
settled (`Loop.capturesAfter_fixpoint`). The result is the least fixpoint; what bounds each capture
stage by the dependences the scheduler sees is `Loop.Supported` (`Loop.capture_le_hop`).
-/

namespace ModuloPipelining

/-- The slot of an iteration argument a value reads: 0 for the induction variable, `i + 1` for
argument `i`. -/
def Value.slot? : Value → Option Nat
  | .inductionVar => some 0
  | .iterArg i => some (i + 1)
  | _ => none

/-- `Value.slot?` reads back `slotValue`. -/
theorem Value.slot?_eq_some_iff {v : Value} {t : Nat} : v.slot? = some t ↔ v = slotValue t := by
  cases v <;> cases t <;> simp [Value.slot?, slotValue]

namespace Loop

variable (l : Loop)

/-- The slot whose capture stage the value yielded for slot `s` is ready at, when slot `s` forwards
the induction variable (slot 0) or another argument. -/
def forwardOf : Nat → Option Nat
  | 0 => none
  | j + 1 => l.yields[j]?.bind Value.slot?

/-- The slot reached from `s` after `m` forwards. -/
def forwardIter : Nat → Nat → Option Nat
  | 0, s => some s
  | m + 1, s => (l.forwardOf s).bind (forwardIter m)

/-- Slot `s` lies on a cycle of forwards. -/
def OnForwardCycle (s : Nat) : Prop := ∃ m, l.forwardIter (m + 1) s = some s

/-- The first argument a yield reads that the loop does not have. -/
def missingIterArg? : Option Nat :=
  l.yields.findSome? fun
    | .iterArg i => if i < l.iterInits.length then none else some i
    | _ => none

/-- Slot `s` forwards slot `t` exactly when it is an argument slot whose yield is the value slot
`t` holds. -/
theorem forwardOf_eq_some_iff {s t : Nat} :
    l.forwardOf s = some t ↔ ∃ j, s = j + 1 ∧ l.yields[j]? = some (slotValue t) := by
  cases s with
  | zero => simp [forwardOf]
  | succ j => simp [forwardOf, Option.bind_eq_some_iff, Value.slot?_eq_some_iff]

@[simp] theorem forwardIter_zero (s : Nat) : l.forwardIter 0 s = some s := rfl

theorem forwardIter_succ (m s : Nat) :
    l.forwardIter (m + 1) s = (l.forwardOf s).bind (l.forwardIter m) := rfl

variable (ready : OpRef → Int) (ii last : Nat)

/-- The capture stages after `m` rounds from all zeros. -/
def capturesAfter (m : Nat) : List Nat :=
  (l.nextCaptures ready ii last)^[m] (List.replicate (l.iterInits.length + 1) 0)

/-- `captures` is the least fixpoint of the capture equations, slot by slot. -/
def LeastCaptures (captures : List Nat) : Prop :=
  l.nextCaptures ready ii last captures = captures ∧
    ∀ other, l.nextCaptures ready ii last other = other → ∀ s, captures.getD s 0 ≤ other.getD s 0

/-- Slot `s` changes in round `m + 1`. -/
def ChangesIn (m s : Nat) : Prop :=
  (l.capturesAfter ready ii last (m + 1)).getD s 0 ≠ (l.capturesAfter ready ii last m).getD s 0

theorem capturesAfter_succ (m : Nat) :
    l.capturesAfter ready ii last (m + 1) =
      l.nextCaptures ready ii last (l.capturesAfter ready ii last m) :=
  Function.iterate_succ_apply' ..

@[simp] theorem capturesAfter_zero_getD (s : Nat) :
    (l.capturesAfter ready ii last 0).getD s 0 = 0 := by
  rw [capturesAfter, Function.iterate_zero_apply, List.getD_eq_getElem?_getD,
    List.getElem?_replicate]
  split <;> rfl

/-! ### One equation per slot -/

theorem captureOf_mono {x y : Int} (h : x ≤ y) : captureOf ii last x ≤ captureOf ii last y := by
  unfold captureOf
  omega

theorem captureOf_le_max (r : Int) : (captureOf ii last r : Int) ≤ max 0 (r - ii) := by
  unfold captureOf
  omega

theorem nextCaptures_getD_zero (a : List Nat) :
    (l.nextCaptures ready ii last a).getD 0 0 = captureOf ii last (ready .increment) := by
  simp [nextCaptures]

theorem nextCaptures_getD_succ (a : List Nat) (j : Nat) :
    (l.nextCaptures ready ii last a).getD (j + 1) 0 =
      (l.yields[j]?.map fun v => captureOf ii last (l.yieldReady ready a v)).getD 0 := by
  simp [nextCaptures, List.getD_eq_getElem?_getD, List.getElem?_map]
  rfl

theorem yieldReady_slotValue (a : List Nat) (t : Nat) :
    l.yieldReady ready a (slotValue t) = a.getD t 0 := by
  cases t <;> rfl

variable {l ready ii last}

/-- A slot that forwards another is captured one interval after it, within the stages. -/
theorem nextCaptures_getD_of_forwardOf {s t : Nat} (h : l.forwardOf s = some t) (a : List Nat) :
    (l.nextCaptures ready ii last a).getD s 0 = captureOf ii last (a.getD t 0) := by
  obtain ⟨j, rfl, hy⟩ := l.forwardOf_eq_some_iff.1 h
  rw [nextCaptures_getD_succ, hy, Option.map_some, Option.getD_some, yieldReady_slotValue]

/-- A slot that forwards nothing is captured at the same stage whatever the other slots hold. -/
theorem nextCaptures_getD_of_forwardOf_none {s : Nat} (h : l.forwardOf s = none) (a b : List Nat) :
    (l.nextCaptures ready ii last a).getD s 0 = (l.nextCaptures ready ii last b).getD s 0 := by
  cases s with
  | zero => rw [nextCaptures_getD_zero, nextCaptures_getD_zero]
  | succ j =>
    rw [nextCaptures_getD_succ, nextCaptures_getD_succ]
    cases hy : l.yields[j]? with
    | none => rfl
    | some v =>
      simp only [forwardOf, hy, Option.bind_some] at h
      cases v with
      | inductionVar | iterArg _ => cases h
      | result _ | constant _ _ | argument _ => rfl

/-- The equations are monotone: higher stages in, higher stages out. -/
theorem nextCaptures_mono {a b : List Nat} (hle : ∀ s, a.getD s 0 ≤ b.getD s 0) (s : Nat) :
    (l.nextCaptures ready ii last a).getD s 0 ≤ (l.nextCaptures ready ii last b).getD s 0 := by
  cases h : l.forwardOf s with
  | none => exact le_of_eq (nextCaptures_getD_of_forwardOf_none h a b)
  | some t =>
    rw [nextCaptures_getD_of_forwardOf h, nextCaptures_getD_of_forwardOf h]
    exact captureOf_mono ii last (by exact_mod_cast hle t)

/-- Every round from all zeros stays below every fixpoint. -/
theorem capturesAfter_le_fixpoint {other : List Nat}
    (hfix : l.nextCaptures ready ii last other = other) (m s : Nat) :
    (l.capturesAfter ready ii last m).getD s 0 ≤ other.getD s 0 := by
  induction m generalizing s with
  | zero =>
    rw [capturesAfter_zero_getD]
    exact Nat.zero_le _
  | succ m ih =>
    rw [capturesAfter_succ, ← hfix]
    exact nextCaptures_mono ih s

/-! ### Cycles of forwards -/

theorem forwardIter_add (a n s : Nat) :
    l.forwardIter (a + n) s = (l.forwardIter a s).bind (l.forwardIter n) := by
  induction a generalizing s with
  | zero => simp
  | succ a ih =>
    rw [Nat.add_right_comm, forwardIter_succ, forwardIter_succ, Option.bind_assoc]
    simp only [ih]

/-- The slot a slot on a cycle forwards lies on the cycle too. -/
theorem OnForwardCycle.forwardOf {s : Nat} (h : l.OnForwardCycle s) :
    ∃ t, l.forwardOf s = some t ∧ l.OnForwardCycle t := by
  obtain ⟨m, hm⟩ := h
  rw [forwardIter_succ, Option.bind_eq_some_iff] at hm
  obtain ⟨t, ht, hback⟩ := hm
  refine ⟨t, ht, m, ?_⟩
  rw [forwardIter_add m 1, hback, Option.bind_some, forwardIter_succ, ht]
  rfl

/-- A slot on a cycle of forwards is captured in stage 0 after every round: it reads only slots of
its cycle, and a stage 0 one interval earlier is still stage 0. -/
theorem capturesAfter_onForwardCycle {s : Nat} (h : l.OnForwardCycle s) (m : Nat) :
    (l.capturesAfter ready ii last m).getD s 0 = 0 := by
  induction m generalizing s with
  | zero => exact capturesAfter_zero_getD l ready ii last s
  | succ m ih =>
    obtain ⟨t, ht, hcycle⟩ := h.forwardOf
    rw [capturesAfter_succ, nextCaptures_getD_of_forwardOf ht, ih hcycle]
    exact captureOf_eq_zero (by omega)

/-! ### The rounds settle -/

/-- A slot changes only after the slot it forwards changed. -/
theorem ChangesIn.forward {m s : Nat} (h : l.ChangesIn ready ii last (m + 1) s) :
    ∃ t, l.forwardOf s = some t ∧ l.ChangesIn ready ii last m t := by
  cases hfwd : l.forwardOf s with
  | none =>
    apply absurd _ h
    rw [capturesAfter_succ l ready ii last (m + 1), capturesAfter_succ l ready ii last m]
    exact nextCaptures_getD_of_forwardOf_none hfwd _ _
  | some t =>
    refine ⟨t, rfl, fun hsame => h ?_⟩
    rw [capturesAfter_succ l ready ii last (m + 1), nextCaptures_getD_of_forwardOf hfwd, hsame,
      capturesAfter_succ l ready ii last m, nextCaptures_getD_of_forwardOf hfwd]

/-- A change traces back `n` forwards to a change `n` rounds earlier. -/
theorem ChangesIn.trace {m : Nat} :
    ∀ {n s : Nat}, l.ChangesIn ready ii last (m + n) s →
      ∃ u, l.forwardIter n s = some u ∧ l.ChangesIn ready ii last m u
  | 0, s, h => ⟨s, rfl, h⟩
  | n + 1, s, h => by
    obtain ⟨t, ht, hchange⟩ := ChangesIn.forward h
    obtain ⟨u, hu, hchangeu⟩ := ChangesIn.trace hchange
    exact ⟨u, by rw [forwardIter_succ, ht, Option.bind_some, hu], hchangeu⟩

theorem OnForwardCycle.not_changesIn {s : Nat} (h : l.OnForwardCycle s) (m : Nat) :
    ¬ l.ChangesIn ready ii last m s := by
  intro hchange
  apply hchange
  rw [capturesAfter_onForwardCycle h, capturesAfter_onForwardCycle h]

section Slots

variable (hlen : l.yields.length = l.iterInits.length)
  (hyields : ∀ v ∈ l.yields, ∀ i, v = .iterArg i → i < l.iterInits.length)
include hlen

theorem length_capturesAfter (m : Nat) :
    (l.capturesAfter ready ii last m).length = l.iterInits.length + 1 := by
  cases m with
  | zero => simp [capturesAfter]
  | succ m => exact length_iterate_nextCaptures last hlen m _

/-- Only the slots there are change. -/
theorem ChangesIn.lt {m s : Nat} (h : l.ChangesIn ready ii last m s) :
    s < l.iterInits.length + 1 := by
  by_contra hge
  apply h
  rw [List.getD_eq_default _ _ (by rw [length_capturesAfter hlen]; omega),
    List.getD_eq_default _ _ (by rw [length_capturesAfter hlen]; omega)]

omit hlen in
include hyields in
theorem forwardOf_lt {s t : Nat} (h : l.forwardOf s = some t) : t < l.iterInits.length + 1 := by
  obtain ⟨j, -, hy⟩ := l.forwardOf_eq_some_iff.1 h
  cases t with
  | zero => omega
  | succ i =>
    have := hyields _ (List.mem_of_getElem? hy) i rfl
    omega

omit hlen in
include hyields in
theorem forwardIter_lt {s : Nat} (hs : s < l.iterInits.length + 1) :
    ∀ {n u : Nat}, l.forwardIter n s = some u → u < l.iterInits.length + 1 := by
  intro n
  induction n generalizing s with
  | zero =>
    intro u hu
    cases hu
    exact hs
  | succ n ih =>
    intro u hu
    rw [forwardIter_succ, Option.bind_eq_some_iff] at hu
    obtain ⟨t, ht, hu⟩ := hu
    exact ih (forwardOf_lt hyields ht) hu

omit hlen in
include hyields in
/-- Following forwards from a slot one step more than there are slots passes some slot twice, and
that slot lies on a cycle. -/
theorem exists_onForwardCycle {s : Nat} (hs : s < l.iterInits.length + 1)
    (hsome : ∀ n ≤ l.iterInits.length + 1, (l.forwardIter n s).isSome) :
    ∃ a ≤ l.iterInits.length + 1, ∃ u, l.forwardIter a s = some u ∧ l.OnForwardCycle u := by
  have hmaps : Set.MapsTo (fun n => (l.forwardIter n s).getD 0)
      (Finset.range (l.iterInits.length + 2) : Set Nat)
      (Finset.range (l.iterInits.length + 1) : Set Nat) := by
    intro n hn
    have hn : n ≤ l.iterInits.length + 1 := by simp at hn; omega
    obtain ⟨u, hu⟩ := Option.isSome_iff_exists.1 (hsome n hn)
    simpa [hu] using forwardIter_lt hyields hs hu
  obtain ⟨a, ha, b, hb, hne, hsame⟩ :=
    Finset.exists_ne_map_eq_of_card_lt_of_maps_to (by simp) hmaps
  wlog hlt : a < b generalizing a b
  · exact this b hb a ha hne.symm hsame.symm (by omega)
  have hab : a ≤ l.iterInits.length + 1 := by simp at ha; omega
  obtain ⟨u, hu⟩ := Option.isSome_iff_exists.1 (hsome a hab)
  obtain ⟨u', hu'⟩ := Option.isSome_iff_exists.1 (hsome b (by simp at hb; omega))
  have huu' : u = u' := by simpa [hu, hu'] using hsame
  subst huu'
  refine ⟨a, hab, u, hu, b - a - 1, ?_⟩
  have hback := forwardIter_add (l := l) a (b - a) s
  rw [Nat.add_sub_cancel' hlt.le, hu', hu, Option.bind_some] at hback
  rw [Nat.sub_add_cancel (by omega)]
  exact hback.symm

include hyields in
/-- No slot changes in the round after one round per slot. -/
theorem not_changesIn_slots (s : Nat) : ¬ l.ChangesIn ready ii last (l.iterInits.length + 1) s := by
  intro hchange
  -- every slot the change traces back through changed in an earlier round
  have htrace : ∀ n ≤ l.iterInits.length + 1, ∃ u, l.forwardIter n s = some u ∧
      l.ChangesIn ready ii last (l.iterInits.length + 1 - n) u := by
    intro n hn
    apply ChangesIn.trace
    rwa [Nat.sub_add_cancel hn]
  obtain ⟨a, ha, u, hu, hcycle⟩ := exists_onForwardCycle hyields (hchange.lt hlen) fun n hn => by
    obtain ⟨u, hu, -⟩ := htrace n hn
    simp [hu]
  obtain ⟨u', hu', hchangeu⟩ := htrace a ha
  rw [hu] at hu'
  cases hu'
  exact hcycle.not_changesIn _ hchangeu

include hyields in
/-- One round per slot reaches a fixpoint of the equations. -/
theorem capturesAfter_fixpoint :
    l.nextCaptures ready ii last (l.capturesAfter ready ii last (l.iterInits.length + 1)) =
      l.capturesAfter ready ii last (l.iterInits.length + 1) := by
  rw [← capturesAfter_succ]
  apply List.ext_getElem (by rw [length_capturesAfter hlen, length_capturesAfter hlen])
  intro s hs hs'
  rw [← List.getD_eq_getElem _ 0 hs, ← List.getD_eq_getElem _ 0 hs']
  exact not_not.1 (not_changesIn_slots hlen hyields s)

include hyields in
/-- One round per slot from all zeros gives the least fixpoint of the equations. -/
theorem leastCaptures_capturesAfter :
    l.LeastCaptures ready ii last (l.capturesAfter ready ii last (l.iterInits.length + 1)) :=
  ⟨capturesAfter_fixpoint hlen hyields, fun _ hfix => capturesAfter_le_fixpoint hfix _⟩

include hyields in
/-- After one round per slot, the capture stage of argument `j` is at most the cycle at which the
producer that the dependence search finds for a reader of the argument, `dist` iterations back,
is ready, less `dist` intervals. -/
theorem capture_le_hop {consumer producer : OpRef} {j dist : Nat}
    (hdep : l.valueDependence consumer (l.yields.length + 1) (.iterArg j) 0 =
      some ⟨producer, consumer, dist, .data⟩) :
    ((l.capturesAfter ready ii last (l.iterInits.length + 1)).getD (j + 1) 0 : Int) ≤
      max 0 (ready producer - dist * ii) := by
  have hj : j < l.iterInits.length := by
    by_contra hge
    rw [valueDependence, List.getElem?_eq_none (by omega)] at hdep
    cases hdep
  rcases supported_iterate last hlen hyields (l.iterInits.length + 1) (j + 1) (by omega) with
    hzero | ⟨P, d, hsearch, hle⟩
  · rw [capturesAfter, hzero]
    exact le_max_left _ _
  · have hmore : l.valueDependence consumer (l.iterInits.length + 1 + 1) (slotValue (j + 1)) 0 =
        some ⟨producer, consumer, dist, .data⟩ := valueDependence_le (by omega) hdep
    rw [hsearch consumer] at hmore
    cases hmore
    rw [capturesAfter]
    have : (ii : Int) * dist = dist * ii := mul_comm _ _
    exact le_max_of_le_right (by linarith)

end Slots

end Loop

namespace Lowering

variable {c : Lowering} {ii last : Nat}

section Solved

variable (hsolved : ∀ op, c.loop.isForeign op = false → (c.problem.startTime? op).isSome)
include hsolved

/-- Under a problem that gives every operation of the loop a start time, an operation's result is
ready at its start plus its latency. -/
theorem readyTime_of_solved {op : OpRef} (hop : c.loop.isForeign op = false) :
    c.readyTime op = .ok (c.problem.ready op) := by
  obtain ⟨t, ht⟩ := Option.isSome_iff_exists.1 (hsolved op hop)
  simp [readyTime, startOf, ht, Problem.ready, Problem.start]

/-- A round stops at the first yield that reads an argument the loop lacks. -/
theorem captureRound_missing (hlen : c.loop.yields.length = c.loop.iterInits.length) {i : Nat}
    (hmissing : c.loop.missingIterArg? = some i) (captures : List Nat) :
    c.captureRound ii last captures = .error (.unknownIterArg i) := by
  obtain ⟨pre, v, post, hsplit, hv, hpre⟩ := List.findSome?_eq_some_iff.1 hmissing
  have htake : c.loop.yields.take (c.loop.iterInits.length + 1 - 1) = c.loop.yields := by
    rw [Nat.add_sub_cancel, ← hlen, List.take_length]
  unfold captureRound
  dsimp only
  rw [readyTime_of_solved hsolved rfl, ok_bind, htake, hsplit]
  cases v with
  | iterArg k =>
    have hki : k = i ∧ ¬ k < c.loop.iterInits.length := by
      by_cases hk : k < c.loop.iterInits.length <;> simp_all
    obtain ⟨rfl, hk⟩ := hki
    rw [mapM_append_cons_eq_error (by simp [slotOf, hk]; rfl)]
    · rfl
    · intro y hy
      have hnone := hpre y hy
      cases y with
      | result id =>
        by_cases hop : c.loop.hasOp id
        · have hnative : c.loop.isForeign (.body id) = false := by simp [Loop.isForeign, hop]
          refine ⟨c.problem.ready (.body id), ?_⟩
          simp only [hop, if_true]
          exact readyTime_of_solved hsolved hnative
        · refine ⟨0, ?_⟩
          simp only [hop]
          rfl
      | iterArg j =>
        have hj : j < c.loop.iterInits.length := by
          by_contra hj
          simp [hj] at hnone
        exact ⟨_, by simp [slotOf, hj]; rfl⟩
      | inductionVar | constant _ _ | argument _ => exact ⟨_, rfl⟩
  | result _ | inductionVar | constant _ _ | argument _ => cases hv

end Solved

/-- Lowering's capture stages under a problem that gives every operation of a loop with one yield
per argument a start time. When a yield reads an argument the loop lacks, the first such argument
is reported. Otherwise the stages are the least fixpoint of the capture equations: slot 0 at
`clamp(ready(increment) - II, 0, last)`, slot `j + 1` at `clamp(r - II, 0, last)`, `r` being the
ready cycle of the body result yielded for argument `j`, the capture stage of the slot it
forwards, or 0. Slots on a cycle of forwards stay at stage 0, and a reader of argument `j`, which
the problem makes depend on a producer `dist` iterations back, finds the argument captured no
later than the producer's ready cycle less `dist` intervals. -/
theorem captureStages_leastFixpoint (c : Lowering) (ii last : Nat)
    (hlen : c.loop.yields.length = c.loop.iterInits.length)
    (hsolved : ∀ op, c.loop.isForeign op = false → (c.problem.startTime? op).isSome) :
    (∀ i, c.loop.missingIterArg? = some i →
      c.captureStages ii last = .error (.unknownIterArg i)) ∧
    (c.loop.missingIterArg? = none → ∃ captures, c.captureStages ii last = .ok captures ∧
      c.loop.LeastCaptures c.problem.ready ii last captures ∧
      (∀ s, c.loop.OnForwardCycle s → captures.getD s 0 = 0) ∧
      (∀ consumer producer j dist, c.loop.valueDependence consumer (c.loop.yields.length + 1)
          (.iterArg j) 0 = some ⟨producer, consumer, dist, .data⟩ →
        (captures.getD (j + 1) 0 : Int) ≤ max 0 (c.problem.ready producer - dist * ii)) ∧
      (captures.getD 0 0 : Int) ≤ max 0 (c.problem.ready .increment - ii)) := by
  constructor
  · intro i hmissing
    rw [captureStages, List.range_succ_eq_map, List.foldlM_cons,
      captureRound_missing hsolved hlen hmissing]
    rfl
  · intro hnone
    have hyields : ∀ v ∈ c.loop.yields, ∀ i, v = .iterArg i → i < c.loop.iterInits.length := by
      rintro v hv i rfl
      have := List.findSome?_eq_none_iff.1 hnone _ hv
      by_contra hi
      simp [hi] at this
    refine ⟨_, captureStages_eq c c.problem.ready ii last
      (fun _ hop => readyTime_of_solved hsolved hop) hlen hyields,
      Loop.leastCaptures_capturesAfter hlen hyields,
      fun s hs => Loop.capturesAfter_onForwardCycle hs _,
      fun _ _ _ _ hdep => Loop.capture_le_hop hlen hyields hdep, ?_⟩
    have hfix : c.loop.nextCaptures c.problem.ready ii last
        (c.loop.capturesAfter c.problem.ready ii last (c.loop.iterInits.length + 1)) =
          c.loop.capturesAfter c.problem.ready ii last (c.loop.iterInits.length + 1) :=
      Loop.capturesAfter_fixpoint hlen hyields
    show ((c.loop.capturesAfter c.problem.ready ii last (c.loop.iterInits.length + 1)).getD 0 0 :
      Int) ≤ _
    rw [← hfix, Loop.nextCaptures_getD_zero]
    exact Loop.captureOf_le_max ii last _

end Lowering

/-- `prev' = sum; sum' = sum + a[iv] * 3`: a running sum, and in a second argument the sum of the
iteration before. -/
def forwardedSum : Loop :=
  ⟨0, .constant 0, .constant 16, .constant 1, .slt, [.constant 0 .i32, .constant 0 .i32],
    [.i32, .i32],
    [.op ⟨0, .load "a", [.inductionVar], some .i32⟩,
      .op ⟨1, .muli, [.result 0, .constant 3 .i32], some .i32⟩,
      .op ⟨2, .addi, [.iterArg 0, .result 1], some .i32⟩], [.result 2, .iterArg 0]⟩

/-- A schedule of `forwardedSum` under interval 1: the load and the increment at cycle 0, the
multiply, three cycles long, at cycle 1, and the add at cycle 4. -/
def forwardedSumSchedule : Problem OpRef :=
  ⟨[.body 0, .body 1, .body 2, .increment],
    [⟨"seq", some 1⟩, ⟨"multicycle", some 3⟩, ⟨"comb", some 0⟩],
    [(.body 0, 0), (.body 1, 1), (.body 2, 2), (.increment, 2)], forwardedSum.dataDependences,
    [(.body 0, 0), (.body 1, 1), (.body 2, 4), (.increment, 0)], some 1, true⟩

/-- The sum of `forwardedSum` is captured in stage 3, one interval before its add completes, and
the forwarded sum one stage earlier: the capture stages `[0, 3, 2]` are the least fixpoint of the
capture equations. -/
theorem forwardedSum_captures :
    Lowering.captureStages ⟨forwardedSum, ⟨0, 16, 1, 16⟩, forwardedSumSchedule, []⟩ 1 4 =
        .ok [0, 3, 2] ∧
      forwardedSum.LeastCaptures forwardedSumSchedule.ready 1 4 [0, 3, 2] := by
  have hsolved : ∀ op, forwardedSum.isForeign op = false →
      (forwardedSumSchedule.startTime? op).isSome := by
    intro op hop
    rcases (Loop.isForeign_eq_false_iff _).1 hop with rfl | ⟨o, ho, rfl⟩
    · rfl
    · simp only [forwardedSum, Loop.operations, BodyItem.operations, List.mem_cons,
        List.not_mem_nil, or_false] at ho
      rcases ho with rfl | rfl | rfl <;> rfl
  have hrun : Lowering.captureStages ⟨forwardedSum, ⟨0, 16, 1, 16⟩, forwardedSumSchedule, []⟩ 1 4 =
      .ok [0, 3, 2] := by decide
  obtain ⟨captures, hstages, hleast, -⟩ :=
    (Lowering.captureStages_leastFixpoint ⟨forwardedSum, ⟨0, 16, 1, 16⟩, forwardedSumSchedule, []⟩
      1 4 rfl hsolved).2 (by decide)
  rw [hrun] at hstages
  cases hstages
  exact ⟨hrun, hleast⟩

end ModuloPipelining
