import ModuloPipelining.Proofs.Problem.LoopProblem

/-!
# Capture stages

An iteration argument is captured in the stage where the value yielded for it by the previous
iteration is ready, taken one interval earlier and kept within the stages (`captureOf`). A value
yielded from another argument is ready when that argument is captured. `Lowering.captureStages`
runs as many rounds of these updates, from all zeros, as there are slots
(`Lowering.captureStages_eq`).

Each round follows the yields one step further back. So a capture stage that is not zero is
bounded by a producer that the dependence search reaches through the same yields: when the
search finds the producer `P` `dist` iterations back, the capture stage plus `dist` intervals is
at most the cycle at which `P`'s result is ready (`Loop.Supported`). A schedule that meets that
dependence starts every reader of the argument no earlier than the argument's capture stage
(`Loop.capture_le`).
-/

namespace ModuloPipelining

/-- The value an iteration argument slot holds: the induction variable in slot 0, the loop's
argument `i` in slot `i + 1`. -/
def slotValue : Nat → Value
  | 0 => .inductionVar
  | k + 1 => .iterArg k

/-- The stage that captures a value ready at cycle `ready` for the next iteration: one interval
earlier, kept within the stages `0 … last`. -/
def captureOf (ii last : Nat) (ready : Int) : Nat :=
  (max 0 (min (ready - (ii : Int)) (last : Int))).toNat

theorem captureOf_le_last (ii last : Nat) (ready : Int) : captureOf ii last ready ≤ last := by
  unfold captureOf
  omega

theorem captureOf_le_sub {ii last : Nat} {ready : Int} (h : 0 < captureOf ii last ready) :
    (captureOf ii last ready : Int) ≤ ready - ii := by
  unfold captureOf at *
  omega

theorem captureOf_eq_zero {ii last : Nat} {ready : Int} (h : ready ≤ ii) :
    captureOf ii last ready = 0 := by
  unfold captureOf
  omega

namespace Loop

variable (l : Loop) (ready : OpRef → Int) (ii last : Nat)

/-- The cycle of its own iteration at which the value yielded as `v` is ready, given the capture
stages of the previous round. -/
def yieldReady (captures : List Nat) : Value → Int
  | .result id => if l.hasOp id then ready (.body id) else 0
  | .inductionVar => captures.getD 0 0
  | .iterArg i => captures.getD (i + 1) 0
  | _ => 0

/-- The capture stages after one more round, in slot order. -/
def nextCaptures (captures : List Nat) : List Nat :=
  (ready .increment :: l.yields.map (l.yieldReady ready captures)).map (captureOf ii last)

/-- Slot `k`'s capture stage is zero, or a search through the yields with `fuel` steps finds a
producer `dist` iterations back whose result is ready `dist` intervals after the capture stage
or later. -/
def Supported (fuel : Nat) (captures : List Nat) : Prop :=
  ∀ k, k < l.iterInits.length + 1 → captures.getD k 0 = 0 ∨
    ∃ P dist, (∀ consumer, l.valueDependence consumer fuel (slotValue k) 0 =
        some ⟨P, consumer, dist, .data⟩) ∧
      (captures.getD k 0 : Int) + ii * dist ≤ ready P

theorem length_nextCaptures (captures : List Nat) :
    (l.nextCaptures ready ii last captures).length = l.yields.length + 1 := by
  simp [nextCaptures]

theorem le_last_of_mem_nextCaptures {captures : List Nat} {k : Nat}
    (h : k ∈ l.nextCaptures ready ii last captures) : k ≤ last := by
  obtain ⟨r, _, rfl⟩ := List.mem_map.1 h
  exact captureOf_le_last ii last r

variable {l ready ii}

theorem length_iterate_nextCaptures (hlen : l.yields.length = l.iterInits.length) (n : Nat)
    (captures : List Nat) :
    ((l.nextCaptures ready ii last)^[n + 1] captures).length = l.iterInits.length + 1 := by
  rw [Function.iterate_succ_apply', length_nextCaptures, hlen]

theorem le_last_of_mem_iterate_nextCaptures {n : Nat} {captures : List Nat} {k : Nat}
    (h : k ∈ (l.nextCaptures ready ii last)^[n + 1] captures) : k ≤ last := by
  rw [Function.iterate_succ_apply'] at h
  exact le_last_of_mem_nextCaptures l ready ii last h

theorem supported_replicate (fuel : Nat) :
    l.Supported ready ii fuel (List.replicate (l.iterInits.length + 1) 0) :=
  fun _ _ => Or.inl (by simp)

/-- A slot's capture stage, taken one interval earlier, is supported one step further back. -/
theorem Supported.carry {fuel : Nat} {captures : List Nat} (h : l.Supported ready ii fuel captures)
    {k : Nat} (hk : k < l.iterInits.length + 1) :
    captureOf ii last (captures.getD k 0) = 0 ∨
      ∃ P dist, (∀ consumer, l.valueDependence consumer fuel (slotValue k) 1 =
          some ⟨P, consumer, dist, .data⟩) ∧
        (captureOf ii last (captures.getD k 0) : Int) + ii * dist ≤ ready P := by
  rcases h k hk with hzero | ⟨P, dist, hdep, hle⟩
  · left
    rw [hzero]
    exact captureOf_eq_zero (by omega)
  · by_cases hcap : captureOf ii last (captures.getD k 0) = 0
    · exact Or.inl hcap
    right
    refine ⟨P, dist + 1, fun consumer => ?_, ?_⟩
    · have hshift := l.valueDependence_shift consumer fuel (slotValue k) 0 1
      rw [Nat.zero_add] at hshift
      rw [hshift, hdep consumer]
      rfl
    · have hsub := captureOf_le_sub (Nat.pos_of_ne_zero hcap)
      push_cast
      linarith

/-- One more round is supported by one more step of the search. -/
theorem Supported.next (hlen : l.yields.length = l.iterInits.length)
    (hyields : ∀ v ∈ l.yields, ∀ j, v = .iterArg j → j < l.iterInits.length)
    {fuel : Nat} (hfuel : 0 < fuel) {captures : List Nat} (h : l.Supported ready ii fuel captures) :
    l.Supported ready ii (fuel + 1) (l.nextCaptures ready ii last captures) := by
  obtain ⟨fuel, rfl⟩ : ∃ f, fuel = f + 1 := ⟨fuel - 1, by omega⟩
  intro k hk
  cases k with
  | zero =>
    have hget : (l.nextCaptures ready ii last captures).getD 0 0 =
        captureOf ii last (ready .increment) := by simp [nextCaptures]
    rw [hget]
    by_cases hcap : captureOf ii last (ready .increment) = 0
    · exact Or.inl hcap
    right
    refine ⟨.increment, 1, fun consumer => rfl, ?_⟩
    have hsub := captureOf_le_sub (Nat.pos_of_ne_zero hcap)
    push_cast
    linarith
  | succ i =>
    have hi : i < l.yields.length := by omega
    have hget : (l.nextCaptures ready ii last captures).getD (i + 1) 0 =
        captureOf ii last (l.yieldReady ready captures l.yields[i]) := by simp [nextCaptures, hi]
    have hstep : ∀ consumer d, l.valueDependence consumer (fuel + 1 + 1) (slotValue (i + 1)) d =
        l.valueDependence consumer (fuel + 1) l.yields[i] (d + 1) := fun consumer d => by
      simp [slotValue, valueDependence, List.getElem?_eq_getElem hi]
    have hmem : l.yields[i] ∈ l.yields := List.getElem_mem hi
    rw [hget]
    simp only [hstep]
    generalize l.yields[i] = v at hmem
    cases v with
    | result id =>
      by_cases hop : l.hasOp id
      · by_cases hcap : captureOf ii last (ready (.body id)) = 0
        · left
          simpa [yieldReady, hop] using hcap
        right
        refine ⟨.body id, 1, fun consumer => by simp [valueDependence, hop], ?_⟩
        have hsub := captureOf_le_sub (Nat.pos_of_ne_zero hcap)
        simp only [yieldReady, hop, if_true]
        push_cast
        linarith
      · left
        simp only [yieldReady, hop]
        exact captureOf_eq_zero (by simp)
    | inductionVar => exact h.carry last (show 0 < l.iterInits.length + 1 by omega)
    | iterArg j =>
      have hj := hyields _ hmem j rfl
      exact h.carry last (show j + 1 < l.iterInits.length + 1 by omega)
    | constant _ _ =>
      left
      exact captureOf_eq_zero (by simp [yieldReady])
    | argument _ =>
      left
      exact captureOf_eq_zero (by simp [yieldReady])

/-- After `n` rounds from all zeros, the capture stages are supported by `n + 1` steps. -/
theorem supported_iterate (hlen : l.yields.length = l.iterInits.length)
    (hyields : ∀ v ∈ l.yields, ∀ j, v = .iterArg j → j < l.iterInits.length) :
    ∀ n, l.Supported ready ii (n + 1)
      ((l.nextCaptures ready ii last)^[n] (List.replicate (l.iterInits.length + 1) 0))
  | 0 => supported_replicate 1
  | n + 1 => by
    rw [Function.iterate_succ_apply']
    exact (supported_iterate hlen hyields n).next last hlen hyields (Nat.succ_pos n)

/-- A reader of slot `k` that meets the dependence the search finds for the slot starts no
earlier than the slot's capture stage. -/
theorem capture_le {fuel : Nat} {captures : List Nat} (h : l.Supported ready ii fuel captures)
    {k : Nat} (hk : k < l.iterInits.length + 1) {consumer : OpRef} {start : Nat}
    (hmeet : ∀ P dist, l.valueDependence consumer (l.yields.length + 1) (slotValue k) 0 =
      some ⟨P, consumer, dist, .data⟩ → ready P ≤ start + ii * dist) :
    captures.getD k 0 ≤ start := by
  rcases h k hk with hzero | ⟨P, dist, hdep, hle⟩
  · omega
  · have hmet := hmeet P dist (valueDependence_short (hdep consumer))
    have : (captures.getD k 0 : Int) ≤ start := by linarith
    exact_mod_cast this

end Loop

namespace Lowering

variable (c : Lowering) (ready : OpRef → Int) (ii last : Nat)

/-- With every needed result ready and every yielded argument present, a round of capture stages
succeeds with the stages of `Loop.nextCaptures`. -/
theorem captureRound_eq
    (hready : ∀ op, c.loop.isForeign op = false → c.readyTime op = .ok (ready op))
    (hlen : c.loop.yields.length = c.loop.iterInits.length)
    (hyields : ∀ v ∈ c.loop.yields, ∀ j, v = .iterArg j → j < c.loop.iterInits.length)
    (captures : List Nat) :
    c.captureRound ii last captures = .ok (c.loop.nextCaptures ready ii last captures) := by
  have htake : c.loop.yields.take (c.loop.iterInits.length + 1 - 1) = c.loop.yields := by
    rw [Nat.add_sub_cancel, ← hlen, List.take_length]
  unfold captureRound
  dsimp only
  rw [hready .increment rfl, htake,
    @mapM_eq_ok_map _ _ _ _ (c.loop.yieldReady ready captures) _ ?_]
  · simp only [bind, Except.bind, pure, Except.pure, List.length_map, hlen, Nat.sub_self,
      List.replicate_zero, List.append_nil]
    rfl
  · intro v hv
    cases v with
    | result id =>
      by_cases hop : c.loop.hasOp id
      · simp only [hop, if_true, Loop.yieldReady]
        exact hready _ (by simp [Loop.isForeign, hop])
      · simp only [hop, Loop.yieldReady]
        rfl
    | inductionVar => rfl
    | iterArg i =>
      have hi := hyields _ hv i rfl
      simp [slotOf, hi, Loop.yieldReady]
    | constant _ _ => rfl
    | argument _ => rfl

/-- The capture stages are the rounds of `Loop.nextCaptures`, one per slot, from all zeros. -/
theorem captureStages_eq
    (hready : ∀ op, c.loop.isForeign op = false → c.readyTime op = .ok (ready op))
    (hlen : c.loop.yields.length = c.loop.iterInits.length)
    (hyields : ∀ v ∈ c.loop.yields, ∀ j, v = .iterArg j → j < c.loop.iterInits.length) :
    c.captureStages ii last = .ok ((c.loop.nextCaptures ready ii last)^[c.loop.iterInits.length + 1]
      (List.replicate (c.loop.iterInits.length + 1) 0)) := by
  unfold captureStages
  rw [foldlM_eq_ok_iterate (c.captureRound_eq ready ii last hready hlen hyields), List.length_range]

end Lowering

end ModuloPipelining
