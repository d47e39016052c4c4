import ModuloPipelining.Proofs.Problem.MemoryOrder
import Mathlib.Data.Finset.Card

/-!
# Chains of index casts

The offset of a memory index is found by following `index_cast`s back to the value they cast,
one cast at a time and without bound. Where the casts of a body lead back to a cast already
passed, the chain never ends (`Loop.Endless`), and neither does the build of the dependence
problem (`Fault.endless`).

`Loop.castChain k v` is the value reached from `v` after `k` casts. A chain with one cast more
than the body has operations passes some operation twice, and from there it repeats itself
forever (`Loop.endless_iff_castChain`). That is why the offset search, given that many casts,
runs out exactly on the endless chains (`Loop.offsetOf?_eq_endless_iff`). The build runs forever
only on an endless index, and on one whenever the accesses before it end their searches
without a trap (`Loop.problem_ends_unless_endless_cast`).
-/

namespace ModuloPipelining

/-! ### Traversals that fail -/

section Traversal

variable {ε β γ : Type}

theorem exists_of_flatMapM_eq_error {f : β → Except ε (List γ)} {e : ε} :
    ∀ {xs : List β}, xs.flatMapM f = .error e → ∃ x ∈ xs, f x = .error e
  | [], h => by cases h
  | x :: xs, h => by
    rw [List.flatMapM_cons] at h
    rcases bind_eq_error h with hx | ⟨_, -, h⟩
    · exact ⟨x, List.mem_cons_self, hx⟩
    rcases bind_eq_error h with hrest | ⟨_, -, h⟩
    · obtain ⟨y, hy, hfy⟩ := exists_of_flatMapM_eq_error hrest
      exact ⟨y, List.mem_cons_of_mem _ hy, hfy⟩
    · cases h

/-- A traversal whose steps before `x` all succeed fails where `x` fails. -/
theorem mapM_append_cons_eq_error {f : β → Except ε γ} {e : ε} {x : β} (hx : f x = .error e) :
    ∀ {pre : List β} (post : List β), (∀ y ∈ pre, ∃ z, f y = .ok z) →
      (pre ++ x :: post).mapM f = .error e
  | [], post, _ => by
    rw [List.nil_append, List.mapM_cons, hx]
    rfl
  | y :: pre, post, hpre => by
    obtain ⟨z, hz⟩ := hpre y List.mem_cons_self
    rw [List.cons_append, List.mapM_cons, hz, ok_bind,
      mapM_append_cons_eq_error hx post fun y' hy' => hpre y' (List.mem_cons_of_mem _ hy')]
    rfl

end Traversal

namespace Loop

/-- The value an `index_cast` of the body casts, when `v` is the result of that cast. -/
def castOperand? (l : Loop) : Value → Option Value
  | .result id =>
    match l.findOp? id with
    | some op =>
      match op.kind, op.operands with
      | .indexCast, [inner] => some inner
      | _, _ => none
    | none => none
  | _ => none

/-- The value reached from `v` after following `k` casts, if the chain has that many. -/
def castChain (l : Loop) : Nat → Value → Option Value
  | 0, v => some v
  | k + 1, v => (l.castOperand? v).bind (l.castChain k)

/-- The chain of casts from `v` never ends. -/
def Endless (l : Loop) (v : Value) : Prop := ∀ k, (l.castChain k v).isSome

variable {l : Loop}

/-! ### Chains -/

theorem castChain_add (j k : Nat) (v : Value) :
    l.castChain (j + k) v = (l.castChain j v).bind (l.castChain k) := by
  induction j generalizing v with
  | zero => simp [castChain]
  | succ j ih =>
    rw [Nat.succ_add, castChain, castChain, Option.bind_assoc]
    congr 1
    funext u
    exact ih u

theorem castChain_succ' (k : Nat) (v : Value) :
    l.castChain (k + 1) v = (l.castChain k v).bind l.castOperand? := by
  rw [castChain_add]
  congr 1
  funext u
  simp [castChain]

/-- A chain with `k` casts has every shorter number of them. -/
theorem castChain_isSome_of_le {j k : Nat} (hjk : j ≤ k) {v : Value}
    (h : (l.castChain k v).isSome) : (l.castChain j v).isSome := by
  obtain ⟨i, rfl⟩ := Nat.exists_eq_add_of_le hjk
  rw [castChain_add] at h
  cases hj : l.castChain j v with
  | none =>
    rw [hj] at h
    cases h
  | some u => rfl

/-- A value that is cast is the result of a body operation. -/
theorem mem_of_castOperand? {u w : Value} (h : l.castOperand? u = some w) :
    ∃ o ∈ l.operations, u = .result o.id := by
  cases u with
  | result id =>
    unfold castOperand? at h
    cases hop : l.findOp? id with
    | none => simp [hop] at h
    | some op =>
      have hid : op.id = id := by simpa using List.find?_some hop
      exact ⟨op, List.mem_of_find?_eq_some hop, by rw [hid]⟩
  | constant _ _ => cases h
  | argument _ => cases h
  | inductionVar => cases h
  | iterArg _ => cases h

/-- A chain that comes back to a value it passed repeats itself and never ends. -/
theorem endless_of_repeat {a b : Nat} (hab : a < b) {u v : Value} (ha : l.castChain a v = some u)
    (hb : l.castChain b v = some u) : l.Endless v := by
  intro k
  induction k using Nat.strong_induction_on with
  | _ k ih =>
    by_cases hk : k ≤ b
    · exact castChain_isSome_of_le hk (by rw [hb]; rfl)
    · obtain ⟨j, rfl⟩ := Nat.exists_eq_add_of_le (Nat.le_of_not_le hk)
      have hshift : l.castChain (b + j) v = l.castChain (a + j) v := by
        rw [castChain_add, castChain_add, ha, hb]
      rw [hshift]
      exact ih (a + j) (by omega)

/-- A chain with one cast more than the body has operations passes an operation twice, so it
never ends; this bound decides whether a chain ends. -/
theorem endless_iff_castChain {v : Value} :
    l.Endless v ↔ (l.castChain (l.operations.length + 1) v).isSome := by
  refine ⟨fun h => h _, fun h => ?_⟩
  have hcast : ∀ i ≤ l.operations.length,
      ∃ o ∈ l.operations, l.castChain i v = some (.result o.id) := by
    intro i hi
    have hnext := castChain_isSome_of_le (Nat.succ_le_succ hi) h
    rw [castChain_succ'] at hnext
    cases hc : l.castChain i v with
    | none =>
      rw [hc] at hnext
      cases hnext
    | some u =>
      rw [hc] at hnext
      obtain ⟨w, hw⟩ := Option.isSome_iff_exists.1 hnext
      obtain ⟨o, ho, rfl⟩ := mem_of_castOperand? hw
      exact ⟨o, ho, rfl⟩
  -- there are more of them than operations, so two are the same
  have hcard : ((l.operations.map fun o => Value.result o.id).toFinset).card <
      (Finset.range (l.operations.length + 1)).card := by
    rw [Finset.card_range]
    exact Nat.lt_succ_of_le ((List.toFinset_card_le _).trans (List.length_map _).le)
  have hmaps : ∀ i ∈ Finset.range (l.operations.length + 1),
      (l.castChain i v).getD .inductionVar ∈ (l.operations.map fun o => Value.result o.id).toFinset := by
    intro i hi
    obtain ⟨o, ho, hc⟩ := hcast i (Nat.lt_succ_iff.1 (Finset.mem_range.1 hi))
    rw [hc, Option.getD_some, List.mem_toFinset]
    exact List.mem_map_of_mem ho
  obtain ⟨a, ha, b, hb, hne, heq⟩ := Finset.exists_ne_map_eq_of_card_lt_of_maps_to hcard hmaps
  obtain ⟨oa, -, hca⟩ := hcast a (Nat.lt_succ_iff.1 (Finset.mem_range.1 ha))
  obtain ⟨ob, -, hcb⟩ := hcast b (Nat.lt_succ_iff.1 (Finset.mem_range.1 hb))
  rw [hca, hcb, Option.getD_some, Option.getD_some] at heq
  rw [heq] at hca
  rcases Nat.lt_or_gt_of_ne hne with hlt | hlt
  · exact endless_of_repeat hlt hca hcb
  · exact endless_of_repeat hlt hcb hca

/-! ### The offset search -/

/-- Where `v` is cast, the search goes on with what is cast. -/
theorem offsetOf?_of_castOperand? {fuel : Nat} {v w : Value} (h : l.castOperand? v = some w) :
    l.offsetOf? (fuel + 1) v = l.offsetOf? fuel w := by
  obtain ⟨o, -, rfl⟩ := mem_of_castOperand? h
  cases hop : l.findOp? o.id with
  | none => simp [castOperand?, hop] at h
  | some op =>
    simp only [castOperand?, hop] at h
    split at h
    · rename_i inner hkind hoperands
      cases h
      simp only [offsetOf?, hop, hkind, hoperands]
    · cases h

/-- Where `v` is not cast, the search ends at once: with an offset, or with the trap of a
`subi` of the least word. -/
theorem offsetOf?_ne_endless {fuel : Nat} {v : Value} (h : l.castOperand? v = none) :
    l.offsetOf? (fuel + 1) v ≠ .error .endless := by
  cases v with
  | result id =>
    unfold castOperand? at h
    simp only [offsetOf?]
    cases hop : l.findOp? id with
    | none => simp
    | some op =>
      simp only [hop] at h ⊢
      split
      · simp
      · simp
      · split
        · simp
        · split <;> simp
      · rename_i inner hkind hoperands
        simp [hkind, hoperands] at h
      · simp
  | constant _ _ => simp [offsetOf?]
  | argument _ => simp [offsetOf?]
  | inductionVar => simp [offsetOf?]
  | iterArg _ => simp [offsetOf?]

theorem offsetOf?_eq_endless_iff_castChain (fuel : Nat) (v : Value) :
    l.offsetOf? fuel v = .error .endless ↔ (l.castChain fuel v).isSome := by
  induction fuel generalizing v with
  | zero => simp [offsetOf?, castChain]
  | succ fuel ih =>
    cases hc : l.castOperand? v with
    | none =>
      rw [castChain, hc, Option.bind_none]
      exact iff_of_false (offsetOf?_ne_endless hc) (by simp)
    | some w =>
      rw [offsetOf?_of_castOperand? hc, castChain, hc, Option.bind_some]
      exact ih w

/-- The offset search of the build runs out exactly on the endless chains. -/
theorem offsetOf?_eq_endless_iff {v : Value} :
    l.offsetOf? (l.operations.length + 1) v = .error .endless ↔ l.Endless v := by
  rw [offsetOf?_eq_endless_iff_castChain, endless_iff_castChain]

/-! ### The build -/

/-- The search that fails the accesses is the one of some access's index. -/
theorem accesses_eq_error {e : Fault} (h : l.accesses = .error e) :
    ∃ o ∈ l.operations, ∃ m, o.memoryAccess? = some m ∧
      l.offsetOf? (l.operations.length + 1) m.index = .error e := by
  unfold accesses at h
  obtain ⟨⟨id, m⟩, hx, hfx⟩ := exists_of_mapM_eq_error h
  obtain ⟨o, ho, hmap⟩ := List.mem_filterMap.1 hx
  obtain ⟨m', hm', hpair⟩ := Option.map_eq_some_iff.1 hmap
  cases hpair
  rcases bind_eq_error hfx with hoff | ⟨_, -, hpure⟩
  · exact ⟨o, ho, m, hm', hoff⟩
  · cases hpure

end Loop

/-- Ordering two accesses traps only on the arithmetic of their offsets. -/
theorem Access.dependences_eq_error {step : Option Int} {tripCount : Option Nat} {x y : Access}
    {e : Fault} (h : Access.dependences step tripCount x y = .error e) :
    e = .subtract ∨ e = .remainder := by
  unfold Access.dependences at h
  split at h
  · cases h
  · split at h
    · dsimp only at h
      split_ifs at h <;> cases h
      · exact .inl rfl
      · exact .inr rfl
    · cases h

/-- Ordering the accesses always ends: it traps only on arithmetic. -/
theorem Access.pairDependences_ne_endless {step : Option Int} {tripCount : Option Nat} :
    ∀ accs : List Access, Access.pairDependences step tripCount accs ≠ .error .endless
  | [], h => by cases h
  | x :: rest, h => by
    unfold Access.pairDependences at h
    rcases bind_eq_error h with hhere | ⟨_, -, h⟩
    · obtain ⟨y, -, hy⟩ := exists_of_flatMapM_eq_error hhere
      rcases Access.dependences_eq_error hy with hy | hy <;> cases hy
    rcases bind_eq_error h with hlater | ⟨_, -, h⟩
    · exact Access.pairDependences_ne_endless rest hlater
    · cases h

namespace Loop

variable {l : Loop}

/-- Building the dependence problem of a loop runs forever only on an endless chain of index
casts, and does on one whenever the accesses before it end their searches without a trap.
The offset search of an index runs out exactly when the index starts an endless chain, that is,
a chain with one cast more than the body has operations. -/
theorem problem_ends_unless_endless_cast :
    (∀ v, l.offsetOf? (l.operations.length + 1) v = .error .endless ↔ l.Endless v) ∧
    (∀ v, l.Endless v ↔ (l.castChain (l.operations.length + 1) v).isSome) ∧
    (l.problem = .error .endless →
      ∃ o ∈ l.operations, ∃ m, o.memoryAccess? = some m ∧ l.Endless m.index) ∧
    (∀ pre o post m, l.operations = pre ++ o :: post → o.memoryAccess? = some m →
      l.Endless m.index →
      (∀ o' ∈ pre, ∀ m', o'.memoryAccess? = some m' →
        ∃ offset, l.offsetOf? (l.operations.length + 1) m'.index = .ok offset) →
      l.problem = .error .endless) := by
  refine ⟨fun v => offsetOf?_eq_endless_iff, fun v => endless_iff_castChain, fun h => ?_, ?_⟩
  · -- only the accesses can run forever: the orderings of their pairs always end
    unfold problem at h
    rcases bind_eq_error h with hmem | ⟨_, -, hpure⟩
    · unfold memoryDependences at hmem
      rcases bind_eq_error hmem with hacc | ⟨accs, -, hpairs⟩
      · obtain ⟨o, ho, m, hm, hoff⟩ := accesses_eq_error hacc
        exact ⟨o, ho, m, hm, offsetOf?_eq_endless_iff.1 hoff⟩
      · exact absurd hpairs (Access.pairDependences_ne_endless accs)
    · cases hpure
  · intro pre o post m hsplit hm hend hpre
    have hlist : (l.operations.filterMap fun op => op.memoryAccess?.map (op.id, ·)) =
        (pre.filterMap fun op => op.memoryAccess?.map (op.id, ·)) ++
          (o.id, m) :: post.filterMap fun op => op.memoryAccess?.map (op.id, ·) := by
      rw [hsplit, List.filterMap_append, List.filterMap_cons]
      simp [hm]
    have hacc : l.accesses = .error .endless := by
      unfold accesses
      rw [hlist]
      refine mapM_append_cons_eq_error ?_ _ fun y hy => ?_
      · show (do
            let offset ← l.offsetOf? (l.operations.length + 1) m.index
            pure (⟨o.id, m.buffer, offset, m.isWrite⟩ : Access)) = .error .endless
        rw [offsetOf?_eq_endless_iff.2 hend]
        rfl
      · obtain ⟨o', ho', hmap⟩ := List.mem_filterMap.1 hy
        obtain ⟨m', hm', rfl⟩ := Option.map_eq_some_iff.1 hmap
        obtain ⟨offset, hoff⟩ := hpre o' ho' m' hm'
        exact ⟨⟨o'.id, m'.buffer, offset, m'.isWrite⟩, by simp only [hoff]; rfl⟩
    unfold problem memoryDependences
    rw [hacc]
    rfl

end Loop

/-- `x = index_cast x; y = a[x]`: the index of the load casts itself. -/
def selfCast : Loop :=
  ⟨0, .constant 0, .constant 4, .constant 1, .slt, [], [],
    [.op ⟨0, .indexCast, [.result 0], some .index⟩,
      .op ⟨1, .load "a", [.result 0], some .i32⟩], []⟩

/-- The load's index of `selfCast` starts an endless chain of casts, and the build never ends. -/
theorem selfCast_never_ends : selfCast.Endless (.result 0) ∧ selfCast.problem = .error .endless := by
  have hend : selfCast.Endless (.result 0) :=
    Loop.problem_ends_unless_endless_cast.2.1 (.result 0) |>.2 rfl
  refine ⟨hend, Loop.problem_ends_unless_endless_cast.2.2.2 [⟨0, .indexCast, [.result 0], some .index⟩]
    ⟨1, .load "a", [.result 0], some .i32⟩ [] ⟨"a", .result 0, false⟩ rfl rfl hend ?_⟩
  intro o' ho' m' hm'
  rw [List.mem_singleton] at ho'
  subst ho'
  cases hm'

end ModuloPipelining
