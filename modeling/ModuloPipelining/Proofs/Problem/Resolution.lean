import ModuloPipelining.Proofs.Problem.LoopProblem

/-!
# Resolving a value through the yields

An operand reads a value of the body or an iteration argument, and an argument holds what the
previous iteration yielded for it. Resolving a value follows the yields back until it names a
producer: a body result read `h` iterations back depends on that operation at distance `h`, the
induction variable on the increment one iteration further back. A result of no body operation, a
constant, a function argument and an argument without a yield depend on nothing, and so does a
chain that comes back to an argument it passed: followed without end, it never names a producer.

`Loop.Resolves` states this resolution without any bound. The builder of the dependence problem
searches with one step more than there are yields (`Loop.valueDependence`), and that is never too
few: a chain that ends at a producer passes each argument once (`Loop.valueDependence_short`),
the search and the resolution reach the same producer (`Loop.Resolves.valueDependence`,
`Loop.Resolves.of_valueDependence`), and every value resolves one way only
(`Loop.Resolves.unique`, `Loop.Resolves.exists_of_nodup`). So the search finds exactly what the
resolution finds, and more steps find nothing else (`Loop.valueDependence_resolves`).

Distances are counts of iterations: each hop adds one and the induction variable one more, so a
data dependence of the loop spans at most one iteration more than there are yields
(`Loop.dataDependences_distance_le`); a 32-bit distance never wraps.
-/

namespace ModuloPipelining

namespace Loop

variable (l : Loop) (consumer : OpRef)

/-- `l.Resolves consumer seen v h r`: following `v`, read `h` iterations back, through the yields,
having passed the arguments `seen`, ends in the dependence `r` of `consumer`, or in none. -/
inductive Resolves : List Nat → Value → Nat → Option (Dependence OpRef) → Prop
  /-- A body result read `h` iterations back is produced `h` iterations back. -/
  | body {seen : List Nat} {id h : Nat} : l.hasOp id = true →
      Resolves seen (.result id) h (some ⟨.body id, consumer, h, .data⟩)
  /-- A result of no body operation comes from outside the loop. -/
  | outer {seen : List Nat} {id h : Nat} : l.hasOp id = false → Resolves seen (.result id) h none
  /-- The induction variable is the increment's result of one iteration further back. -/
  | inductionVar {seen : List Nat} {h : Nat} :
      Resolves seen .inductionVar h (some ⟨.increment, consumer, h + 1, .data⟩)
  /-- An argument holds what the previous iteration yielded for it. -/
  | hop {seen : List Nat} {i h : Nat} {v : Value} {r : Option (Dependence OpRef)} :
      i ∉ seen → l.yields[i]? = some v → Resolves (i :: seen) v (h + 1) r →
      Resolves seen (.iterArg i) h r
  /-- An argument passed before closes a cycle of yields. -/
  | revisit {seen : List Nat} {i h : Nat} : i ∈ seen → Resolves seen (.iterArg i) h none
  /-- An argument the loop yields nothing for. -/
  | missing {seen : List Nat} {i h : Nat} : l.yields[i]? = none →
      Resolves seen (.iterArg i) h none
  | constant {seen : List Nat} {x : Int} {ty : ScalarType} {h : Nat} :
      Resolves seen (.constant x ty) h none
  | argument {seen : List Nat} {j h : Nat} : Resolves seen (.argument j) h none

variable {l consumer}

/-- A value resolves one way only. -/
theorem Resolves.unique {seen : List Nat} {v : Value} {h : Nat} {r r' : Option (Dependence OpRef)}
    (hr : l.Resolves consumer seen v h r) (hr' : l.Resolves consumer seen v h r') : r = r' := by
  induction hr generalizing r' with
  | body hop =>
    cases hr' with
    | body _ => rfl
    | outer hout => simp [hop] at hout
  | outer hout =>
    cases hr' with
    | body hop => simp [hop] at hout
    | outer _ => rfl
  | inductionVar =>
    cases hr'
    rfl
  | hop hfresh hy _ ih =>
    cases hr' with
    | hop _ hy' hrest =>
      rw [hy] at hy'
      cases hy'
      exact ih hrest
    | revisit hmem => exact absurd hmem hfresh
    | missing hnone => simp [hy] at hnone
  | revisit hmem =>
    cases hr' with
    | hop hfresh _ _ => exact absurd hmem hfresh
    | revisit _ => rfl
    | missing _ => rfl
  | missing hnone =>
    cases hr' with
    | hop _ hy _ => simp [hnone] at hy
    | revisit _ => rfl
    | missing _ => rfl
  | constant =>
    cases hr'
    rfl
  | argument =>
    cases hr'
    rfl

/-- Every value resolves, from distinct arguments passed that have yields: each step passes a new
one, and there are no more of them than yields. -/
theorem Resolves.exists_of_nodup {seen : List Nat} (hnodup : seen.Nodup)
    (hseen : ∀ i ∈ seen, i < l.yields.length) :
    ∀ v h, ∃ r, l.Resolves consumer seen v h r
  | .result id, _ => by
    cases hop : l.hasOp id
    · exact ⟨none, .outer hop⟩
    · exact ⟨_, .body hop⟩
  | .inductionVar, _ => ⟨_, .inductionVar⟩
  | .iterArg i, h => by
    by_cases hi : i ∈ seen
    · exact ⟨none, .revisit hi⟩
    cases hy : l.yields[i]? with
    | none => exact ⟨none, .missing hy⟩
    | some v =>
      have hilt : i < l.yields.length := (List.getElem?_eq_some_iff.1 hy).1
      have hnodup' : (i :: seen).Nodup := List.nodup_cons.2 ⟨hi, hnodup⟩
      have hseen' : ∀ j ∈ i :: seen, j < l.yields.length := by
        intro j hj
        rcases List.mem_cons.1 hj with rfl | hj
        · exact hilt
        · exact hseen j hj
      have hfits : (i :: seen).length ≤ l.yields.length := by
        have := hnodup'.length_le_of_subset fun j hj => List.mem_range.2 (hseen' j hj)
        rwa [List.length_range] at this
      obtain ⟨r, hr⟩ := Resolves.exists_of_nodup hnodup' hseen' v (h + 1)
      exact ⟨r, .hop hi hy hr⟩
  | .constant _ _, _ => ⟨none, .constant⟩
  | .argument _, _ => ⟨none, .argument⟩
termination_by l.yields.length - seen.length
decreasing_by
  rw [List.length_cons] at hfits ⊢
  omega

/-- A producer the resolution reaches is found by a search given enough steps. -/
theorem Resolves.valueDependence {seen : List Nat} {v : Value} {h : Nat}
    {e : Dependence OpRef} (hr : l.Resolves consumer seen v h (some e)) :
    ∃ fuel, l.valueDependence consumer fuel v h = some e := by
  generalize hre : some e = r at hr
  induction hr with
  | body hop =>
    cases hre
    exact ⟨1, by simp [Loop.valueDependence, hop]⟩
  | inductionVar =>
    cases hre
    exact ⟨1, rfl⟩
  | hop _ hy _ ih =>
    obtain ⟨fuel, hfuel⟩ := ih hre
    exact ⟨fuel + 1, by simp [Loop.valueDependence, hy, hfuel]⟩
  | outer _ | revisit _ | missing _ | constant | argument => cases hre

/-- A producer the search finds is what the resolution reaches, from arguments passed that the
search reaches the same producer from, at fewer steps back. -/
theorem Resolves.of_valueDependence {fuel : Nat} {v : Value} {h : Nat} {e : Dependence OpRef}
    (hvd : l.valueDependence consumer fuel v h = some e) {seen : List Nat}
    (hseen : ∀ i ∈ seen, ∃ fuel' h', h' < h ∧
      l.valueDependence consumer fuel' (.iterArg i) h' = some e) :
    l.Resolves consumer seen v h (some e) := by
  induction fuel generalizing v h seen with
  | zero => cases hvd
  | succ fuel ih =>
    cases v with
    | result id =>
      by_cases hop : l.hasOp id
      · simp only [Loop.valueDependence, hop, if_true, Option.some.injEq] at hvd
        subst hvd
        exact .body hop
      · simp [Loop.valueDependence, hop] at hvd
    | inductionVar =>
      cases hvd
      exact .inductionVar
    | iterArg i =>
      cases hy : l.yields[i]? with
      | none => simp [Loop.valueDependence, hy] at hvd
      | some w =>
        have hnext : l.valueDependence consumer fuel w (h + 1) = some e := by
          simpa [Loop.valueDependence, hy] using hvd
        -- coming back to `i` would reach `e` from `i` at two different distances
        have hfresh : i ∉ seen := by
          intro hi
          obtain ⟨fuel', h', hlt, hvd'⟩ := hseen i hi
          have := valueDependence_start_eq hvd hvd'
          omega
        refine .hop hfresh hy (ih hnext fun j hj => ?_)
        rcases List.mem_cons.1 hj with rfl | hj
        · exact ⟨fuel + 1, h, Nat.lt_succ_self h, hvd⟩
        · obtain ⟨fuel', h', hlt, hvd'⟩ := hseen j hj
          exact ⟨fuel', h', by omega, hvd'⟩
    | constant _ _ => cases hvd
    | argument _ => cases hvd

/-- One step more than there are yields is as good as any number of steps more. -/
theorem valueDependence_add_fuel (v : Value) (d k : Nat) :
    l.valueDependence consumer (l.yields.length + 1 + k) v d =
      l.valueDependence consumer (l.yields.length + 1) v d := by
  cases hvd : l.valueDependence consumer (l.yields.length + 1) v d with
  | some e => exact valueDependence_le (Nat.le_add_right _ k) hvd
  | none =>
    cases hmore : l.valueDependence consumer (l.yields.length + 1 + k) v d with
    | none => rfl
    | some e =>
      rw [valueDependence_short hmore] at hvd
      cases hvd

/-- The search with one step more than there are yields finds what the resolution finds. -/
theorem valueDependence_eq_iff (v : Value) (d : Nat) (r : Option (Dependence OpRef)) :
    l.valueDependence consumer (l.yields.length + 1) v d = r ↔ l.Resolves consumer [] v d r := by
  constructor
  · rintro rfl
    cases hvd : l.valueDependence consumer (l.yields.length + 1) v d with
    | some e => exact Resolves.of_valueDependence hvd (by simp)
    | none =>
      obtain ⟨r, hr⟩ : ∃ r, l.Resolves consumer [] v d r :=
        Resolves.exists_of_nodup List.nodup_nil (by simp) v d
      cases r with
      | none => exact hr
      | some e =>
        obtain ⟨fuel, hfuel⟩ := hr.valueDependence
        rw [valueDependence_short hfuel] at hvd
        cases hvd
  · intro hr
    cases r with
    | some e =>
      obtain ⟨fuel, hfuel⟩ := hr.valueDependence
      exact valueDependence_short hfuel
    | none =>
      cases hvd : l.valueDependence consumer (l.yields.length + 1) v d with
      | none => rfl
      | some e => exact (Resolves.of_valueDependence hvd (by simp)).unique hr

/-- The dependence the problem's builder derives for a value read by `consumer` is exactly the
one found by resolving the value through the yields without a bound: a body result at the number
of steps taken, the induction variable as the increment one step further back, and nothing for
anything else or for a chain that comes back to an argument it passed. Its search, given one
step more than there are yields, is never cut short: more steps find nothing else. -/
theorem valueDependence_resolves (v : Value) (d : Nat) (r : Option (Dependence OpRef)) :
    (l.valueDependence consumer (l.yields.length + 1) v d = r ↔ l.Resolves consumer [] v d r) ∧
      ∀ k, l.valueDependence consumer (l.yields.length + 1 + k) v d =
        l.valueDependence consumer (l.yields.length + 1) v d :=
  ⟨valueDependence_eq_iff v d r, valueDependence_add_fuel v d⟩

/- `acc' = acc + 1; prev' = acc`: reading `prev` sees `acc` two iterations back. -/
example :
    Loop.valueDependence
      ⟨0, .constant 0, .constant 4, .constant 1, .slt, [.index 0, .index 0], [.index, .index],
        [.op ⟨0, .addi, [.iterArg 0, .index 1], some .index⟩,
          .op ⟨1, .addi, [.iterArg 1, .index 2], some .index⟩], [.result 0, .iterArg 0]⟩
      (.body 1) 3 (.iterArg 1) 0 = some ⟨.body 0, .body 1, 2, .data⟩ := by
  decide

/- An argument that yields itself resolves to nothing. -/
example :
    Loop.valueDependence
      ⟨0, .constant 0, .constant 4, .constant 1, .slt, [.index 0], [.index],
        [.op ⟨0, .addi, [.iterArg 0, .index 1], some .index⟩], [.iterArg 0]⟩
      (.body 0) 2 (.iterArg 0) 0 = none := by
  decide

/-! ### How far back a dependence reaches -/

/-- A search with `fuel` steps ends at most `fuel` iterations further back than it started. -/
theorem valueDependence_distance_le_fuel {fuel : Nat} {v : Value} {d : Nat} {r : Dependence OpRef}
    (h : l.valueDependence consumer fuel v d = some r) : r.distance ≤ d + fuel := by
  induction fuel generalizing v d with
  | zero => cases h
  | succ fuel ih =>
    cases v with
    | result id =>
      simp only [valueDependence] at h
      split at h
      · cases h
        show d ≤ d + (fuel + 1)
        omega
      · cases h
    | inductionVar =>
      cases h
      show d + 1 ≤ d + (fuel + 1)
      omega
    | iterArg i =>
      cases hy : l.yields[i]? with
      | none => simp [valueDependence, hy] at h
      | some w =>
        simp only [valueDependence, hy] at h
        have := ih h
        omega
    | constant _ _ | argument _ => cases h

/-- A dependence the search finds, with any number of steps, lies at most one iteration more
than there are yields beyond where the search started: it is found with that many steps. -/
theorem valueDependence_distance_le {fuel : Nat} {v : Value} {d : Nat} {r : Dependence OpRef}
    (h : l.valueDependence consumer fuel v d = some r) : r.distance ≤ d + l.yields.length + 1 := by
  have := valueDependence_distance_le_fuel (valueDependence_short h)
  omega

/-- Every data dependence of the loop spans at most one iteration more than the loop has yields:
operands and the increment are resolved from distance 0. -/
theorem dataDependences_distance_le {dep : Dependence OpRef} (hdep : dep ∈ l.dataDependences) :
    dep.distance ≤ l.yields.length + 1 := by
  simp only [dataDependences, List.mem_append, List.mem_flatMap, List.mem_filterMap,
    Option.mem_toList] at hdep
  rcases hdep with ⟨o, -, v, -, hvd⟩ | hvd
  · simpa using valueDependence_distance_le hvd
  · simpa using valueDependence_distance_le hvd

end Loop

end ModuloPipelining
