import ModuloPipelining.Proofs.Graph.Marks
import ModuloPipelining.Proofs.Graph.Walk
import ModuloPipelining.Schedule.LongestPath

/-!
# The longest-path search is exact

`longestPaths n ii edges` relaxes the constraints round by round from all zeros. Its answer,
read as a function of the node, is the least non-negative solution of the constraints, and it
answers exactly when no closed walk of constraints has positive weight.

* Relaxing never raises a value above a solution that was above it before
  (`foldl_relax_le_solution`), and a round that changes nothing leaves a solution
  (`foldl_relax_of_unchanged`): an answer is the least solution (`longestPaths_least`).
* Every value is at most the weight of some walk into its node (`Supported`), and after `k`
  rounds every walk of at most `k` constraints is outweighed at its end (`Covers`). Without a
  positive cycle every walk is outweighed by one that leaves each node once, so after `n`
  rounds the values solve the constraints and the next round changes nothing
  (`longestPaths_isSome`).
* Together: the `n + 1` rounds answer exactly when no closed walk has positive weight, and the
  answer at each node is the weight of the heaviest walk into it, which is the longest path from
  a virtual source joined to every node at weight 0 (`longestPaths_exact`).
-/

namespace ModuloPipelining

/-- Start times meet a constraint under interval `ii`. -/
def Constraint.Holds (ii : Nat) (start : Nat → ℤ) (c : Constraint) : Prop :=
  start c.source + c.weight ii ≤ start c.target

/-- No closed walk of constraints has positive weight under `ii`. -/
def NoPositiveCycle (ii : Nat) (edges : List Constraint) : Prop :=
  ∀ x w, Walk Constraint.source Constraint.target edges x w x → (w.map (·.weight ii)).sum ≤ 0

/-- Every value is at most the weight of some walk into its node, the empty one included. -/
def Supported (ii : Nat) (edges : List Constraint) (start : Array Int) : Prop :=
  ∀ v, ∃ u w, Walk Constraint.source Constraint.target edges u w v ∧
    start.getD v 0 ≤ (w.map (·.weight ii)).sum

/-- Every walk of at most `k` constraints weighs at most the value at its end. -/
def Covers (ii : Nat) (edges : List Constraint) (k : Nat) (start : Array Int) : Prop :=
  ∀ u v w, Walk Constraint.source Constraint.target edges u w v → w.length ≤ k →
    (w.map (·.weight ii)).sum ≤ start.getD v 0

/-- The weights of the walks into `v`, the empty walk included: the lengths of the paths into `v`
from a virtual source joined to every node by a constraint of weight 0. -/
def walkWeights (ii : Nat) (edges : List Constraint) (v : Nat) : Set ℤ :=
  {x | ∃ u w, Walk Constraint.source Constraint.target edges u w v ∧ (w.map (·.weight ii)).sum = x}

/-- The non-negative start times that meet every constraint under `ii`. -/
def solutions (ii : Nat) (edges : List Constraint) : Set (Nat → ℤ) :=
  {start | (∀ v, 0 ≤ start v) ∧ ∀ c ∈ edges, c.Holds ii start}

/-- A solution of every constraint gains along a walk at least the walk's weight. -/
theorem Walk.add_weight_le {ii : Nat} {edges : List Constraint} {start : Nat → ℤ}
    (hsol : ∀ c ∈ edges, c.Holds ii start) {u v : Nat} {w : List Constraint}
    (h : Walk Constraint.source Constraint.target edges u w v) :
    start u + (w.map (·.weight ii)).sum ≤ start v := by
  induction h with
  | nil => simp
  | cons mem start' _ ih =>
    have hc := hsol _ mem
    simp only [Constraint.Holds] at hc
    subst start'
    simp only [List.map_cons, List.sum_cons]
    omega

/-- Constraints with a solution have no positive cycle. -/
theorem NoPositiveCycle.of_solution {ii : Nat} {edges : List Constraint} {start : Nat → ℤ}
    (hsol : ∀ c ∈ edges, c.Holds ii start) : NoPositiveCycle ii edges := by
  intro x w hw
  have := hw.add_weight_le hsol
  omega

namespace Constraint

variable {ii : Nat} {c : Constraint} {a : Array Int} {flag : Bool}

/-- Relaxing a constraint either leaves the state alone, the constraint being met, or raises its
target to the source plus the weight, which was more than the target held. -/
theorem relax_cases (ii : Nat) (c : Constraint) (a : Array Int) (flag : Bool) :
    (c.Holds ii (a.getD · 0) ∧ c.relax ii (a, flag) = (a, flag)) ∨
      (a.getD c.target 0 < a.getD c.source 0 + c.weight ii ∧
        c.relax ii (a, flag) = (a.setIfInBounds c.target (a.getD c.source 0 + c.weight ii), true)) := by
  simp only [relax, Holds]
  split
  · exact .inr ⟨by omega, rfl⟩
  · exact .inl ⟨by omega, rfl⟩

theorem relax_getD_mono (v : Nat) : a.getD v 0 ≤ (c.relax ii (a, flag)).1.getD v 0 := by
  rcases relax_cases ii c a flag with ⟨_, h⟩ | ⟨hlt, h⟩
  · rw [h]
  · rw [h, getD_setIfInBounds]
    split
    · rename_i hv
      rw [← hv.1]
      omega
    · exact le_rfl

theorem relax_getD_target (hc : c.target < a.size) :
    a.getD c.source 0 + c.weight ii ≤ (c.relax ii (a, flag)).1.getD c.target 0 := by
  rcases relax_cases ii c a flag with ⟨hholds, h⟩ | ⟨_, h⟩
  · rw [h]
    exact hholds
  · rw [h, getD_setIfInBounds, if_pos ⟨rfl, hc⟩]

theorem relax_le_solution {start : Nat → ℤ} (hc : c.Holds ii start)
    (hle : ∀ v, a.getD v 0 ≤ start v) (v : Nat) : (c.relax ii (a, flag)).1.getD v 0 ≤ start v := by
  rcases relax_cases ii c a flag with ⟨_, h⟩ | ⟨_, h⟩
  · rw [h]
    exact hle v
  · rw [h, getD_setIfInBounds]
    split
    · rename_i hv
      rw [← hv.1]
      have := hle c.source
      simp only [Holds] at hc
      omega
    · exact hle v

theorem relax_supported {edges : List Constraint} (hmem : c ∈ edges)
    (hsup : Supported ii edges a) : Supported ii edges (c.relax ii (a, flag)).1 := by
  rcases relax_cases ii c a flag with ⟨_, h⟩ | ⟨_, h⟩
  · rw [h]
    exact hsup
  · rw [h]
    intro v
    rw [getD_setIfInBounds]
    split
    · rename_i hv
      obtain ⟨u, w, hw, hle⟩ := hsup c.source
      refine ⟨u, w ++ [c], hv.1 ▸ hw.snoc hmem, ?_⟩
      simp only [List.map_append, List.sum_append, List.map_cons, List.map_nil, List.sum_cons,
        List.sum_nil]
      omega
    · exact hsup v

/-- A relaxation that reports no change changed nothing, and the constraint was met. -/
theorem relax_of_unchanged (h : (c.relax ii (a, flag)).2 = false) :
    c.relax ii (a, flag) = (a, flag) ∧ c.Holds ii (a.getD · 0) := by
  rcases relax_cases ii c a flag with ⟨hholds, h'⟩ | ⟨_, h'⟩
  · exact ⟨h', hholds⟩
  · rw [h'] at h
    cases h

end Constraint

section Rounds

variable {ii : Nat} {edges : List Constraint}

theorem foldl_relax_mono (cs : List Constraint) (s : Array Int × Bool) (v : Nat) :
    s.1.getD v 0 ≤ (cs.foldl (Constraint.relax ii) s).1.getD v 0 := by
  induction cs generalizing s with
  | nil => exact le_rfl
  | cons c cs ih =>
    obtain ⟨a, flag⟩ := s
    exact le_trans (Constraint.relax_getD_mono v) (ih (c.relax ii (a, flag)))

/-- Within a round each constraint is relaxed against values at least those the round began
with, so afterwards its target is at least the starting source plus the weight. -/
theorem foldl_relax_edge {c : Constraint} {cs : List Constraint} (hc : c ∈ cs)
    (s : Array Int × Bool) (htarget : c.target < s.1.size) :
    s.1.getD c.source 0 + c.weight ii ≤ (cs.foldl (Constraint.relax ii) s).1.getD c.target 0 := by
  induction cs generalizing s with
  | nil => cases hc
  | cons d cs ih =>
    obtain ⟨a, flag⟩ := s
    dsimp only at htarget ⊢
    rw [List.foldl_cons]
    rcases List.mem_cons.1 hc with rfl | hc
    · exact le_trans (Constraint.relax_getD_target htarget) (foldl_relax_mono _ _ _)
    · have hsize : (d.relax ii (a, flag)).1.size = a.size := Constraint.relax_size ii _ d
      have hsrc : a.getD c.source 0 ≤ (d.relax ii (a, flag)).1.getD c.source 0 :=
        Constraint.relax_getD_mono c.source
      have := ih hc (d.relax ii (a, flag)) (hsize ▸ htarget)
      omega

theorem foldl_relax_le_solution {start : Nat → ℤ} (cs : List Constraint)
    (hsol : ∀ c ∈ cs, c.Holds ii start) (s : Array Int × Bool)
    (hle : ∀ v, s.1.getD v 0 ≤ start v) (v : Nat) :
    (cs.foldl (Constraint.relax ii) s).1.getD v 0 ≤ start v := by
  induction cs generalizing s with
  | nil => exact hle v
  | cons c cs ih =>
    obtain ⟨a, flag⟩ := s
    exact ih (fun d hd => hsol d (List.mem_cons_of_mem _ hd)) _
      (Constraint.relax_le_solution (hsol c (List.mem_cons_self ..)) hle)

theorem foldl_relax_supported (cs : List Constraint) (hsub : ∀ c ∈ cs, c ∈ edges)
    (s : Array Int × Bool) (hsup : Supported ii edges s.1) :
    Supported ii edges (cs.foldl (Constraint.relax ii) s).1 := by
  induction cs generalizing s with
  | nil => exact hsup
  | cons c cs ih =>
    obtain ⟨a, flag⟩ := s
    exact ih (fun d hd => hsub d (List.mem_cons_of_mem _ hd)) _
      (Constraint.relax_supported (hsub c (List.mem_cons_self ..)) hsup)

/-- A round that reports no change left the values alone, and they meet every constraint. -/
theorem foldl_relax_of_unchanged (cs : List Constraint) (a : Array Int) (flag : Bool)
    (h : (cs.foldl (Constraint.relax ii) (a, flag)).2 = false) :
    cs.foldl (Constraint.relax ii) (a, flag) = (a, flag) ∧ ∀ c ∈ cs, c.Holds ii (a.getD · 0) := by
  induction cs generalizing a flag with
  | nil => exact ⟨rfl, by simp⟩
  | cons c cs ih =>
    rw [List.foldl_cons] at h ⊢
    rcases hstep : c.relax ii (a, flag) with ⟨a', flag'⟩
    rw [hstep] at h
    obtain ⟨hrest, hholds⟩ := ih a' flag' h
    rw [hrest] at h
    have hunchanged : (c.relax ii (a, flag)).2 = false := by
      rw [hstep]
      exact h
    obtain ⟨hc, hcholds⟩ := Constraint.relax_of_unchanged hunchanged
    rw [hstep] at hc
    cases hc
    refine ⟨hrest, fun d hd => ?_⟩
    rcases List.mem_cons.1 hd with rfl | hd
    · exact hcholds
    · exact hholds d hd

/-- Values that already meet every constraint are left alone by a round. -/
theorem foldl_relax_of_solution (cs : List Constraint) (a : Array Int) (flag : Bool)
    (hsol : ∀ c ∈ cs, c.Holds ii (a.getD · 0)) :
    cs.foldl (Constraint.relax ii) (a, flag) = (a, flag) := by
  induction cs generalizing flag with
  | nil => rfl
  | cons c cs ih =>
    rw [List.foldl_cons]
    rcases Constraint.relax_cases ii c a flag with ⟨_, h⟩ | ⟨hlt, _⟩
    · rw [h]
      exact ih _ fun d hd => hsol d (List.mem_cons_of_mem _ hd)
    · have := hsol c (List.mem_cons_self ..)
      simp only [Constraint.Holds] at this
      omega

end Rounds

/-- Every constraint joins two of the first `n` nodes. -/
def InRange (n : Nat) (edges : List Constraint) : Prop := ∀ c ∈ edges, c.source < n ∧ c.target < n

section Rounds

variable {ii n : Nat} {edges : List Constraint}

theorem relaxRounds_succ (r : Nat) (a : Array Int) :
    relaxRounds ii edges (r + 1) a =
      if (relaxRound ii edges a).2 then relaxRounds ii edges r (relaxRound ii edges a).1
      else some (relaxRound ii edges a).1 := rfl

theorem relaxRounds_holds {r : Nat} {a b : Array Int} (h : relaxRounds ii edges r a = some b) :
    ∀ c ∈ edges, c.Holds ii (b.getD · 0) := by
  induction r generalizing a with
  | zero => cases h
  | succ r ih =>
    rw [relaxRounds_succ] at h
    split at h
    · exact ih h
    · rename_i hflag
      have hround := foldl_relax_of_unchanged edges a false (Bool.eq_false_iff.2 hflag)
      cases h
      rw [relaxRound, hround.1]
      exact hround.2

theorem relaxRounds_le_solution {r : Nat} {a b : Array Int} (h : relaxRounds ii edges r a = some b)
    {start : Nat → ℤ} (hsol : ∀ c ∈ edges, c.Holds ii start) (hle : ∀ v, a.getD v 0 ≤ start v) :
    ∀ v, b.getD v 0 ≤ start v := by
  induction r generalizing a with
  | zero => cases h
  | succ r ih =>
    have hround := foldl_relax_le_solution edges hsol (a, false) hle
    rw [relaxRounds_succ] at h
    split at h
    · exact ih h hround
    · cases h
      exact hround

theorem relaxRounds_mono {r : Nat} {a b : Array Int} (h : relaxRounds ii edges r a = some b)
    (v : Nat) : a.getD v 0 ≤ b.getD v 0 := by
  induction r generalizing a with
  | zero => cases h
  | succ r ih =>
    have hround := @foldl_relax_mono ii edges (a, false) v
    rw [relaxRounds_succ] at h
    split at h
    · exact le_trans hround (ih h)
    · cases h
      exact hround

theorem relaxRounds_supported {r : Nat} {a b : Array Int} (h : relaxRounds ii edges r a = some b)
    (hsup : Supported ii edges a) : Supported ii edges b := by
  induction r generalizing a with
  | zero => cases h
  | succ r ih =>
    have hround := foldl_relax_supported edges (fun _ h => h) (a, false) hsup
    rw [relaxRounds_succ] at h
    split at h
    · exact ih h hround
    · cases h
      exact hround

theorem relaxRounds_size {r : Nat} {a b : Array Int} (h : relaxRounds ii edges r a = some b) :
    b.size = a.size := by
  induction r generalizing a with
  | zero => cases h
  | succ r ih =>
    rw [relaxRounds_succ] at h
    split at h
    · rw [ih h, relaxRound_size]
    · cases h
      exact relaxRound_size ii edges a

/-- After one more round, walks of one more constraint are outweighed at their end. -/
theorem Covers.round {k : Nat} {a : Array Int} (hcov : Covers ii edges k a)
    (hnonneg : ∀ v, 0 ≤ a.getD v 0) (hrange : ∀ c ∈ edges, c.target < a.size) :
    Covers ii edges (k + 1) (relaxRound ii edges a).1 := by
  intro u v w hw hlen
  rcases List.eq_nil_or_concat w with rfl | ⟨w', c, rfl⟩
  · have hmono := @foldl_relax_mono ii edges (a, false) v
    have := hnonneg v
    dsimp only at hmono
    simp only [List.map_nil, List.sum_nil]
    unfold relaxRound
    omega
  · rw [List.concat_eq_append] at hw hlen ⊢
    obtain ⟨x, hw', hlast⟩ := hw.split
    cases hlast with
    | cons hmem hsrc hrest =>
      have hv := hrest.eq_of_nil
      subst hsrc hv
      have hprefix := hcov u c.source w' hw' (by simp at hlen; omega)
      have hedge := @foldl_relax_edge ii _ _ hmem (a, false) (hrange c hmem)
      simp only [List.map_append, List.map_cons, List.map_nil, List.sum_append, List.sum_cons,
        List.sum_nil]
      unfold relaxRound
      dsimp only at hedge
      omega

/-- Without a positive cycle, values that outweigh every walk of at most `n` constraints
outweigh every walk. -/
theorem Covers.all {a : Array Int} (hcyc : NoPositiveCycle ii edges) (hrange : InRange n edges)
    (hcov : Covers ii edges n a) {u v : Nat} {w : List Constraint}
    (hw : Walk Constraint.source Constraint.target edges u w v) :
    (w.map (·.weight ii)).sum ≤ a.getD v 0 := by
  obtain ⟨w', hw', hnd, hle⟩ := hw.exists_short (·.weight ii) fun x c hc => hcyc x c hc
  have hsub : w'.map Constraint.source ⊆ List.range n := by
    intro x hx
    obtain ⟨c, hc, rfl⟩ := List.mem_map.1 hx
    exact List.mem_range.2 (hrange c (hw'.mem_edges c hc)).1
  have hlen : w'.length ≤ n := by
    have := (List.subperm_of_subset hnd hsub).length_le
    simpa using this
  exact le_trans hle (hcov u v w' hw' hlen)

/-- Values supported by walks and outweighing every walk meet every constraint. -/
theorem holds_of_supported {a : Array Int} (hsup : Supported ii edges a)
    (hall : ∀ u v w, Walk Constraint.source Constraint.target edges u w v →
      (w.map (·.weight ii)).sum ≤ a.getD v 0) :
    ∀ c ∈ edges, c.Holds ii (a.getD · 0) := by
  intro c hc
  obtain ⟨u, w, hw, hle⟩ := hsup c.source
  have := hall u c.target (w ++ [c]) (hw.snoc hc)
  simp only [List.map_append, List.map_cons, List.map_nil, List.sum_append, List.sum_cons,
    List.sum_nil] at this
  simp only [Constraint.Holds]
  omega

/-- All zeros are supported by the empty walks. -/
theorem Supported.replicate (n : Nat) : Supported ii edges (Array.replicate n 0) := by
  intro v
  refine ⟨v, [], .nil v, ?_⟩
  rw [getD_replicate]
  simp

/-- Without a positive cycle the rounds stop in time: values covering walks of `k` constraints
need at most `n + 1 - k` more rounds. -/
theorem relaxRounds_isSome (hcyc : NoPositiveCycle ii edges) (hrange : InRange n edges)
    {r k : Nat} {a : Array Int} (hsize : a.size = n) (hcov : Covers ii edges k a)
    (hsup : Supported ii edges a) (hnonneg : ∀ v, 0 ≤ a.getD v 0) (hr : 0 < r)
    (hrounds : n + 1 ≤ k + r) : (relaxRounds ii edges r a).isSome := by
  induction r generalizing a k with
  | zero => omega
  | succ r ih =>
    rw [relaxRounds_succ]
    by_cases hk : n ≤ k
    · have hsol := holds_of_supported hsup fun u v w hw =>
        Covers.all hcyc hrange (fun u' v' w' hw' hlen => hcov u' v' w' hw' (by omega)) hw
      have hround : relaxRound ii edges a = (a, false) := foldl_relax_of_solution edges a false hsol
      simp [hround]
    · split
      · have htarget : ∀ c ∈ edges, c.target < a.size := fun c hc => hsize ▸ (hrange c hc).2
        exact ih (by rw [relaxRound_size, hsize]) (hcov.round hnonneg htarget)
          (foldl_relax_supported edges (fun _ h => h) (a, false) hsup)
          (fun v => le_trans (hnonneg v) (foldl_relax_mono edges (a, false) v)) (by omega)
          (by omega)
      · simp

end Rounds

section LongestPaths

variable {n ii : Nat} {edges : List Constraint} {start : Array Int}

theorem longestPaths_holds (h : longestPaths n ii edges = some start) :
    ∀ c ∈ edges, c.Holds ii (start.getD · 0) :=
  relaxRounds_holds h

theorem longestPaths_size (h : longestPaths n ii edges = some start) : start.size = n := by
  rw [relaxRounds_size h, Array.size_replicate]

theorem longestPaths_nonneg (h : longestPaths n ii edges = some start) (v : Nat) :
    0 ≤ start.getD v 0 := by
  have := relaxRounds_mono h v
  rwa [getD_replicate] at this

/-- The answer is below every non-negative solution. -/
theorem longestPaths_least (h : longestPaths n ii edges = some start) {other : Nat → ℤ}
    (hnonneg : ∀ v, 0 ≤ other v) (hsol : ∀ c ∈ edges, c.Holds ii other) (v : Nat) :
    start.getD v 0 ≤ other v :=
  relaxRounds_le_solution h hsol (fun v => by rw [getD_replicate]; exact hnonneg v) v

/-- The search answers exactly when no closed walk has positive weight. -/
theorem longestPaths_isSome_iff (hrange : InRange n edges) :
    (longestPaths n ii edges).isSome ↔ NoPositiveCycle ii edges := by
  constructor
  · intro h
    obtain ⟨start, hstart⟩ := Option.isSome_iff_exists.1 h
    exact NoPositiveCycle.of_solution (longestPaths_holds hstart)
  · intro hcyc
    have hcov : Covers ii edges 0 (Array.replicate n 0) := by
      intro u v w hw hlen
      have hnil : w = [] := List.eq_nil_of_length_eq_zero (by omega)
      subst hnil
      rw [getD_replicate]
      simp
    exact relaxRounds_isSome hcyc hrange (by simp) hcov (Supported.replicate n)
      (fun v => by rw [getD_replicate]) (by omega) (by omega)

/-- The answer is the least non-negative solution of the constraints. -/
theorem longestPaths_isLeast (h : longestPaths n ii edges = some start) :
    IsLeast (solutions ii edges) (start.getD · 0) :=
  ⟨⟨longestPaths_nonneg h, longestPaths_holds h⟩,
    fun _ hother v => longestPaths_least h hother.1 hother.2 v⟩

/-- The answer at each node is the weight of the heaviest walk into it. -/
theorem longestPaths_isGreatest (h : longestPaths n ii edges = some start) (v : Nat) :
    IsGreatest (walkWeights ii edges v) (start.getD v 0) := by
  have houtweighs : ∀ u w, Walk Constraint.source Constraint.target edges u w v →
      (w.map (·.weight ii)).sum ≤ start.getD v 0 := by
    intro u w hw
    have hgain := hw.add_weight_le (longestPaths_holds h)
    have hu := longestPaths_nonneg h u
    omega
  constructor
  · obtain ⟨u, w, hw, hle⟩ := relaxRounds_supported h (Supported.replicate n) v
    exact ⟨u, w, hw, le_antisymm (houtweighs u w hw) hle⟩
  · rintro x ⟨u, w, hw, rfl⟩
    exact houtweighs u w hw

/-- The `n + 1` rounds of relaxation answer exactly when no closed walk has positive weight.
The answer is the least non-negative solution of the constraints, and at each node the weight
of the heaviest walk into it: the longest path from a virtual source that reaches every node by
a constraint of weight 0. -/
theorem longestPaths_exact (hrange : InRange n edges) :
    ((longestPaths n ii edges).isSome ↔ NoPositiveCycle ii edges) ∧
      ∀ start, longestPaths n ii edges = some start →
        start.size = n ∧ IsLeast (solutions ii edges) (start.getD · 0) ∧
          ∀ v, IsGreatest (walkWeights ii edges v) (start.getD v 0) :=
  ⟨longestPaths_isSome_iff hrange, fun _ h =>
    ⟨longestPaths_size h, longestPaths_isLeast h, longestPaths_isGreatest h⟩⟩

/-- Two nodes, one constraint each way: latency 1 forward within an iteration, latency 1 back
across one. -/
def twoNodeRecurrence : List Constraint := [⟨0, 1, 1, 0⟩, ⟨1, 0, 1, 1⟩]

/-- Under interval 2 the two-node recurrence has no positive cycle, and its least solution
starts the second node one cycle after the first. -/
theorem twoNodeRecurrence_exact :
    InRange 2 twoNodeRecurrence ∧ NoPositiveCycle 2 twoNodeRecurrence ∧
      IsLeast (solutions 2 twoNodeRecurrence) (#[0, 1].getD · 0) := by
  have hrange : InRange 2 twoNodeRecurrence := by
    unfold InRange
    decide
  have hexact := @longestPaths_exact 2 2 twoNodeRecurrence hrange
  have hanswer : longestPaths 2 2 twoNodeRecurrence = some #[0, 1] := by decide
  exact ⟨hrange, hexact.1.1 (by rw [hanswer]; rfl), (hexact.2 _ hanswer).2.1⟩

end LongestPaths

end ModuloPipelining
