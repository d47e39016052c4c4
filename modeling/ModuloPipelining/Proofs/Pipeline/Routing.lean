import ModuloPipelining.Proofs.Pipeline.Lowering
import Mathlib.Data.List.Forall2

/-!
# Routing values through registers

An operation that reads a value in a later stage than the one that first reads it gets the value
through registers, one per stage. `Pipeline.resolve` follows such a chain back: a register of the
previous stage leads to what that stage stored in it, so a value resolved from stage `t` to stage
`s` went through one register of each stage `s, …, t - 1`, each once. `Loop.source` says where a
value of the loop is first read: a result of a body operation as the producer's own, in the stage
of its start time; the induction variable and the loop's arguments as iteration arguments, in
their capture stages; anything else as it is, wherever it is needed.

Routing is exact (`Loop.construct_routes_exactly`): in every pipeline that lowering returns, each
operand of each placed operation resolves to the source of the value it reads; the terminator
hands over the increment's result and each yielded value from the register of the stage that
first reads it; and no stage holds two registers that carry one value.

The proof is a partial-correctness argument over the assembly (`Assembly.Ensures`). Its invariant
`Assembly.Routed` says that the registers of every stage are exactly those the slot table names,
one slot per value and stage, each holding the next link of its value's chain
(`Assembly.Carries`), and that the operands of the placed operations carry the values they read.
Registering, routing, reading an operand, placing an operation and building the terminator each
keep it.
-/

namespace ModuloPipelining

/-! ### Register chains -/

namespace Pipeline

variable (p : Pipeline)

/-- Register `slot` of the stage at position `stage`, if there is one. -/
def registerAt? (stage slot : Nat) : Option StageOperand :=
  p.stages[stage]? >>= fun s => s.registers[slot]?

/-- What an operand read in stage `stage` carries, and the stage that first reads it there. A
register of the previous stage is followed to what that stage stored in it, one stage back at a
time; any other operand is read where it stands. -/
def resolve : Nat → StageOperand → StageOperand × Nat
  | stage + 1, .register source slot =>
    if source = stage then
      match p.registerAt? stage slot with
      | some x => resolve stage x
      | none => (.register source slot, stage + 1)
    else (.register source slot, stage + 1)
  | stage, x => (x, stage)

variable {p}

theorem resolve_register {stage slot : Nat} {x : StageOperand}
    (h : p.registerAt? stage slot = some x) :
    p.resolve (stage + 1) (.register stage slot) = p.resolve stage x := by
  simp [resolve, h]

/-- An operand that is not a register is read where it stands. -/
theorem resolve_of_ne_register {x : StageOperand} (hx : ∀ source slot, x ≠ .register source slot)
    (stage : Nat) : p.resolve stage x = (x, stage) := by
  cases stage with
  | zero => cases x <;> rfl
  | succ stage =>
    cases x with
    | register source slot => exact absurd rfl (hx source slot)
    | _ => rfl

/-- How the terminator reads through `x` the value that `source.1` is in stage `source.2`: a value
that is only readable within a stage (an operation's own result, an iteration argument) through the
register of that stage that stores it, any other value as it is. -/
def HandsOver (x : StageOperand) (source : StageOperand × Nat) : Prop :=
  match source.1 with
  | .sameStage _ | .iterArg _ =>
    ∃ slot, x = .register source.2 slot ∧ p.registerAt? source.2 slot = some source.1
  | _ => x = source.1

end Pipeline

namespace Loop

/-- The values a problem operation of the loop reads: a body operation its operands, the increment
the induction variable and the step. -/
def reads? (l : Loop) (step : Int) : OpRef → Option (List Value)
  | .body id => (l.findOp? id).map (·.operands)
  | .increment => some [.inductionVar, .index step]

/-- Where a pipeline built from loop `l` under problem `q`, with capture stages `captures`, first
reads a value, for a reader in stage `stage`: a result of a body operation as the producer's own
in the stage of its start time, the induction variable and argument `i` of the loop as iteration
arguments `0` and `i + 1` in their capture stages, and constants, arguments of the function and
results from outside the loop as they are, in the reader's stage. -/
def source (l : Loop) (q : Problem OpRef) (captures : List Nat) (stage : Nat) :
    Value → StageOperand × Nat
  | .constant v ty => (.constant v ty, stage)
  | .argument i => (.argument i, stage)
  | .result id => if l.hasOp id then (.sameStage (.body id), q.start (.body id)) else (.outer id, stage)
  | .inductionVar => (.iterArg 0, captures.getD 0 0)
  | .iterArg i => (.iterArg (i + 1), captures.getD (i + 1) 0)

end Loop

/-- Pipeline `p` routes the values of loop `l`, scheduled by problem `q` with step `step`, exactly:
each operand of each operation placed in stage `t` resolves to the source of the value the
operation reads in the loop; the terminator hands over the increment's result and then each
yielded value from the register of the stage that first reads it, and its results are the values
after the increment's; and the registers of each stage carry different values. -/
structure Pipeline.RoutesExactly (p : Pipeline) (l : Loop) (q : Problem OpRef) (step : Int) :
    Prop where
  operands : ∀ (t : Nat) (s : Stage), p.stages[t]? = some s → ∀ o ∈ s.operations, ∃ vs,
    l.reads? step o.id = some vs ∧ o.operands.map (p.resolve t) = vs.map (l.source q p.captureStages t)
  next : ∃ x, p.terminator.iterArgs = x :: p.terminator.results ∧
    p.HandsOver x (.sameStage .increment, q.start .increment)
  yields : List.Forall₂ (fun v x => p.HandsOver x (l.source q p.captureStages p.stageCount v))
    l.yields p.terminator.results
  registers : ∀ (t : Nat) (s : Stage), p.stages[t]? = some s →
    (s.registers.map (p.resolve t)).Nodup

/-! ### Carried values -/

/-- The operand through which the value a chain carries is first read. -/
def RouteKey.first : RouteKey → StageOperand
  | .result op => .sameStage op
  | .iterArg slot => .iterArg slot

theorem RouteKey.first_injective : Function.Injective RouteKey.first := by
  intro k k' h
  cases k <;> cases k' <;> simp_all [RouteKey.first]

theorem RouteKey.first_ne_register (key : RouteKey) (source slot : Nat) :
    key.first ≠ .register source slot := by
  cases key <;> simp [RouteKey.first]

/-- The stage that first reads the value a chain carries: a result in the stage of its start
time, an iteration argument in its capture stage. -/
def Lowering.origin (c : Lowering) : RouteKey → Nat
  | .result op => c.problem.start op
  | .iterArg slot => c.captures.getD slot 0

theorem Lowering.startOf_eq_ok {c : Lowering} {op : OpRef} {s : Nat} :
    c.startOf op = .ok s ↔ c.problem.startTime? op = some s := by
  unfold startOf
  split <;> simp_all

theorem Lowering.slotOf_eq_ok {c : Lowering} {i slot : Nat} (h : c.slotOf i = .ok slot) :
    slot = i + 1 := by
  unfold slotOf at h
  split at h
  · cases h
    rfl
  · cases h

theorem Lowering.origin_result {c : Lowering} {op : OpRef} {s : Nat} (h : c.startOf op = .ok s) :
    c.origin (.result op) = s := by
  show (c.problem.startTime? op).getD 0 = s
  rw [startOf_eq_ok.1 h]
  rfl

/-- With latencies that are not negative, a result is ready no earlier than its start. -/
theorem Lowering.start_le_readyTime {c : Lowering}
    (hlat : ∀ op t, c.problem.latencyOf? op = some t → 0 ≤ t) {op : OpRef} {s : Nat} {r : Int}
    (hs : c.startOf op = .ok s) (hr : c.readyTime op = .ok r) : (s : Int) ≤ r := by
  unfold readyTime at hr
  rw [hs] at hr
  cases hr
  cases hl : c.problem.latencyOf? op with
  | none => simp
  | some t =>
    have := hlat op t hl
    simp only [Option.getD_some]
    omega

namespace Assembly

/-! ### Runs that return -/

section Ensures

variable {β γ : Type} {c : Lowering} {a : Assembly}

/-- Every run of `x` from `a` under `c` that returns ends with a result and an assembly that
satisfy `post`; a run that fails satisfies every post-condition. -/
def Ensures (x : AssemblyM β) (c : Lowering) (a : Assembly) (post : β → Assembly → Prop) : Prop :=
  ∀ r a', x c a = .ok (r, a') → post r a'

theorem Ensures.pure {r : β} {post : β → Assembly → Prop} (h : post r a) :
    Ensures (Pure.pure r) c a post := fun _ _ hrun => by
  obtain ⟨rfl, rfl⟩ := Prod.mk.inj (Except.ok.inj hrun)
  exact h

theorem Ensures.mono {x : AssemblyM β} {post post' : β → Assembly → Prop}
    (h : Ensures x c a post) (himp : ∀ r a', post r a' → post' r a') : Ensures x c a post' :=
  fun r a' hrun => himp r a' (h r a' hrun)

theorem Ensures.bind {x : AssemblyM β} {f : β → AssemblyM γ} {mid : β → Assembly → Prop}
    {post : γ → Assembly → Prop} (hx : Ensures x c a mid)
    (hf : ∀ r a', mid r a' → Ensures (f r) c a' post) : Ensures (x >>= f) c a post := by
  intro r' a'' hrun
  rw [bind_run] at hrun
  rcases hx' : x c a with e | ⟨r, a'⟩
  · rw [hx'] at hrun
    cases hrun
  · rw [hx'] at hrun
    exact hf r a' (hx r a' hx') r' a'' hrun

/-- A first step whose run is known. -/
theorem Ensures.bind_of_run {x : AssemblyM β} {f : β → AssemblyM γ} {r : β} {a' : Assembly}
    {post : γ → Assembly → Prop} (hx : x c a = .ok (r, a')) (h : Ensures (f r) c a' post) :
    Ensures (x >>= f) c a post := by
  intro r' a'' hrun
  rw [bind_run, hx] at hrun
  exact h r' a'' hrun

/-- A check on the lowering: the rest runs on what the check gives. -/
theorem Ensures.lift_bind {x : Except ConstructionError β} {f : β → AssemblyM γ}
    {post : γ → Assembly → Prop} (h : ∀ r, x = .ok r → Ensures (f r) c a post) :
    Ensures (lift x >>= f) c a post := by
  cases x with
  | error e =>
    intro r a' hrun
    rw [bind_run] at hrun
    cases hrun
  | ok r => exact Ensures.bind_of_run rfl (h r rfl)

theorem Ensures.lift_error {e : ConstructionError} {post : β → Assembly → Prop} :
    Ensures (lift (.error e)) c a post := by
  intro r a' hrun
  cases hrun

theorem Ensures.modify {g : Assembly → Assembly} {post : PUnit → Assembly → Prop}
    (h : post ⟨⟩ (g a)) : Ensures (modify g) c a post := fun _ _ hrun => by
  obtain ⟨rfl, rfl⟩ := Prod.mk.inj (Except.ok.inj hrun)
  exact h

/-- A traversal keeps an invariant that each of its steps keeps. -/
theorem Ensures.forM {δ : Type} {f : δ → AssemblyM PUnit} (inv : Assembly → Prop) :
    ∀ {xs : List δ}, (∀ x ∈ xs, ∀ a, inv a → Ensures (f x) c a fun _ a' => inv a') →
      ∀ a, inv a → Ensures (xs.forM f) c a fun _ a' => inv a'
  | [], _, a, ha => Ensures.pure ha
  | x :: xs, hstep, a, ha => by
    show Ensures (f x >>= fun _ => xs.forM f) c a _
    exact Ensures.bind (hstep x List.mem_cons_self a ha) fun _ a' ha' =>
      Ensures.forM inv (fun y hy => hstep y (List.mem_cons_of_mem _ hy)) a' ha'

end Ensures

/-! ### Adding registers and operations -/

/-- The assembly with `operand` appended to the registers of stage `stage`, in the slot of
`key`. -/
def addRegister (a : Assembly) (stage : Nat) (key : RouteKey) (operand : StageOperand) :
    Assembly :=
  { a with
    stages := a.stages.modify stage fun s => { s with registers := s.registers ++ [operand] }
    slots := ((stage, key), (a.stageAt stage).registers.length) :: a.slots }

/-- Registering gives the slot the value already has in the stage, or appends the operand as a
new register of the stage. -/
theorem register_run (stage : Nat) (key : RouteKey) (operand : StageOperand) (c : Lowering)
    (a : Assembly) :
    register stage key operand c a = match a.slots.lookup (stage, key) with
      | some slot => .ok (slot, a)
      | none => .ok ((a.stageAt stage).registers.length, a.addRegister stage key operand) := by
  have hget : (get : AssemblyM Assembly) c a = .ok (a, a) := rfl
  unfold register
  rw [bind_run, hget]
  dsimp only
  cases a.slots.lookup (stage, key) <;> rfl

/-! ### The routing invariant -/

/-- Operand `x`, read in stage `stage`, carries the value of `key` under the slot table `slots`:
in the stage that first reads the value it is the value's own operand, in a later stage the
register that the table gives the value in the previous stage. -/
def Carries (c : Lowering) (slots : List ((Nat × RouteKey) × Nat)) (stage : Nat) (key : RouteKey)
    (x : StageOperand) : Prop :=
  (stage = c.origin key ∧ x = key.first) ∨
    ∃ prev slot, stage = prev + 1 ∧ c.origin key ≤ prev ∧ x = .register prev slot ∧
      ((prev, key), slot) ∈ slots

/-- Operand `x` of the terminator hands over the value of `key` under the slot table `slots`: it
is the register the table gives the value in the stage that first reads it. -/
def Holds (c : Lowering) (slots : List ((Nat × RouteKey) × Nat)) (key : RouteKey)
    (x : StageOperand) : Prop :=
  ∃ slot, x = .register (c.origin key) slot ∧ ((c.origin key, key), slot) ∈ slots

/-- Operand `x` conveys value `v` of loop `l`: a result of a body operation, the induction
variable and the loop's arguments through their chains, as `carried` says of their keys, and any
other value as it is. -/
def Conveys (l : Loop) (carried : RouteKey → StageOperand → Prop) : Value → StageOperand → Prop
  | .constant v ty, x => x = .constant v ty
  | .argument i, x => x = .argument i
  | .result id, x => if l.hasOp id then carried (.result (.body id)) x else x = .outer id
  | .inductionVar, x => carried (.iterArg 0) x
  | .iterArg i, x => carried (.iterArg (i + 1)) x

section Carried

variable {c : Lowering} {slots slots' : List ((Nat × RouteKey) × Nat)} {key : RouteKey}
  {x : StageOperand}

theorem carries_first : Carries c slots (c.origin key) key key.first := .inl ⟨rfl, rfl⟩

theorem Carries.mono {stage : Nat} (h : Carries c slots stage key x) (hsub : slots ⊆ slots') :
    Carries c slots' stage key x := by
  rcases h with h | ⟨prev, slot, hprev, horigin, hx, hmem⟩
  · exact .inl h
  · exact .inr ⟨prev, slot, hprev, horigin, hx, hsub hmem⟩

theorem Carries.origin_le {stage : Nat} (h : Carries c slots stage key x) :
    c.origin key ≤ stage := by
  rcases h with ⟨rfl, -⟩ | ⟨prev, slot, rfl, horigin, -⟩
  · exact Nat.le_refl _
  · omega

/-- The register a stage stores a carried operand in carries the value into the next stage. -/
theorem Carries.next {stage slot : Nat} (h : Carries c slots stage key x)
    (hmem : ((stage, key), slot) ∈ slots) : Carries c slots (stage + 1) key (.register stage slot) :=
  .inr ⟨stage, slot, rfl, h.origin_le, rfl, hmem⟩

theorem Holds.mono (h : Holds c slots key x) (hsub : slots ⊆ slots') : Holds c slots' key x := by
  obtain ⟨slot, hx, hmem⟩ := h
  exact ⟨slot, hx, hsub hmem⟩

theorem conveys_result_of_hasOp {l : Loop} {carried : RouteKey → StageOperand → Prop} {id : Nat}
    (hop : l.hasOp id = true) : Conveys l carried (.result id) x ↔ carried (.result (.body id)) x := by
  simp [Conveys, hop]

theorem conveys_result_of_not_hasOp {l : Loop} {carried : RouteKey → StageOperand → Prop}
    {id : Nat} (hop : ¬l.hasOp id = true) : Conveys l carried (.result id) x ↔ x = .outer id := by
  simp [Conveys, hop]

theorem Conveys.mono {l : Loop} {carried carried' : RouteKey → StageOperand → Prop}
    (himp : ∀ key x, carried key x → carried' key x) :
    ∀ {v : Value}, Conveys l carried v x → Conveys l carried' v x
  | .constant _ _, h | .argument _, h => h
  | .result id, h => by
    by_cases hop : l.hasOp id
    · exact (conveys_result_of_hasOp hop).2 (himp _ _ ((conveys_result_of_hasOp hop).1 h))
    · exact (conveys_result_of_not_hasOp hop).2 ((conveys_result_of_not_hasOp hop).1 h)
  | .inductionVar, h | .iterArg _, h => himp _ _ h

end Carried

/-- The invariant of routing in an assembly with stages `0 … last`: no value has two slots in one
stage; each slot names a register of its stage, which carries the slot's value; each register is
named by a slot; and the operands of each placed operation carry the values it reads. -/
structure Routed (c : Lowering) (last : Nat) (a : Assembly) : Prop where
  size : a.stages.size = last + 1
  keys : (a.slots.map Prod.fst).Nodup
  slots : ∀ stage key slot, ((stage, key), slot) ∈ a.slots →
    ∃ x, (a.stageAt stage).registers[slot]? = some x ∧ Carries c a.slots stage key x
  registers : ∀ stage slot, slot < (a.stageAt stage).registers.length →
    ∃ key, ((stage, key), slot) ∈ a.slots
  operations : ∀ stage, ∀ o ∈ (a.stageAt stage).operations, ∃ vs,
    c.loop.reads? c.bounds.step o.id = some vs ∧
      List.Forall₂ (Conveys c.loop (Carries c a.slots stage)) vs o.operands

/-- What a step of the assembly leaves: a routed assembly that keeps every slot, and a result
that `good` accepts under the slots. -/
structure Keeps {β : Type} (c : Lowering) (last : Nat) (a : Assembly)
    (good : β → List ((Nat × RouteKey) × Nat) → Prop) (r : β) (a' : Assembly) : Prop where
  routed : Routed c last a'
  slots : a.slots ⊆ a'.slots
  good : good r a'.slots

variable {c : Lowering} {last : Nat} {a : Assembly}

theorem Keeps.refl {β : Type} {good : β → List ((Nat × RouteKey) × Nat) → Prop} {r : β}
    (hr : Routed c last a) (h : good r a.slots) : Keeps c last a good r a :=
  ⟨hr, List.Subset.refl _, h⟩

theorem routed_initial (c : Lowering) (last : Nat) : Routed c last (initial last) where
  size := by simp [initial]
  keys := List.nodup_nil
  slots _ _ _ h := absurd h List.not_mem_nil
  registers k slot h := by simp [stageAt_initial] at h
  operations k o h := by simp [stageAt_initial] at h

/-! ### Registers -/

/-- Registering, in a stage that exists, an operand that carries a value there gives the slot of
the value in that stage, keeps every slot, and keeps the assembly routed. -/
theorem register_routed (hr : Routed c last a) {stage : Nat} (hstage : stage ≤ last)
    {key : RouteKey} {operand : StageOperand} (hx : Carries c a.slots stage key operand) :
    Ensures (register stage key operand) c a
      (Keeps c last a fun slot slots => ((stage, key), slot) ∈ slots) := by
  intro slot a' hrun
  rw [register_run] at hrun
  split at hrun
  · next slot' hlookup =>
    obtain ⟨rfl, rfl⟩ := Prod.mk.inj (Except.ok.inj hrun)
    exact Keeps.refl hr (mem_of_lookup hlookup)
  · next hlookup =>
    obtain ⟨rfl, rfl⟩ := Prod.mk.inj (Except.ok.inj hrun)
    have hlt : stage < a.stages.size := by rw [hr.size]; omega
    have hsub : a.slots ⊆ (a.addRegister stage key operand).slots := List.subset_cons_self _ _
    have hat : ∀ k, (a.addRegister stage key operand).stageAt k = if stage = k then
        { a.stageAt k with registers := (a.stageAt k).registers ++ [operand] } else a.stageAt k :=
      stageAt_modify hlt _ _ _
    have hold : ∀ (k j : Nat) (y : StageOperand), (a.stageAt k).registers[j]? = some y →
        ((a.addRegister stage key operand).stageAt k).registers[j]? = some y := by
      intro k j y hy
      have hj : j < (a.stageAt k).registers.length := (List.getElem?_eq_some_iff.1 hy).1
      rw [hat]
      split
      · simp only [List.getElem?_append_left hj, hy]
      · exact hy
    have hops : ∀ k, ((a.addRegister stage key operand).stageAt k).operations =
        (a.stageAt k).operations := fun k => by rw [hat]; split <;> rfl
    refine ⟨⟨by simp [addRegister, hr.size], ?_, ?_, ?_, ?_⟩, hsub, List.mem_cons_self⟩
    · refine List.nodup_cons.2 ⟨fun hmem => ?_, hr.keys⟩
      obtain ⟨e, he, hfst⟩ := List.mem_map.1 hmem
      have := (List.lookup_eq_none_iff.1 hlookup) e he
      simp [hfst] at this
    · intro k key' slot' hmem
      rcases List.mem_cons.1 hmem with heq | hmem
      · cases heq
        refine ⟨operand, ?_, hx.mono hsub⟩
        rw [hat, if_pos rfl]
        simp
      · obtain ⟨y, hy, hcarries⟩ := hr.slots k key' slot' hmem
        exact ⟨y, hold k slot' y hy, hcarries.mono hsub⟩
    · intro k j hj
      rw [hat] at hj
      split at hj
      · next hk =>
        subst hk
        simp only [List.length_append, List.length_singleton] at hj
        rcases Nat.lt_succ_iff_lt_or_eq.1 hj with hj | rfl
        · obtain ⟨key', hmem⟩ := hr.registers stage j hj
          exact ⟨key', hsub hmem⟩
        · exact ⟨key, List.mem_cons_self⟩
      · obtain ⟨key', hmem⟩ := hr.registers k j hj
        exact ⟨key', hsub hmem⟩
    · intro k o ho
      rw [hops] at ho
      obtain ⟨vs, hvs, hall⟩ := hr.operations k o ho
      exact ⟨vs, hvs, hall.imp fun v x h => h.mono fun _ _ h' => h'.mono hsub⟩

/-! ### Routing and reading values -/

/-- Carrying a value through the registers of stages `s … s + n - 1`. -/
theorem route_steps_routed (key : RouteKey) :
    ∀ (n s : Nat) (first : StageOperand) (a : Assembly), Routed c last a → s + n ≤ last →
      Carries c a.slots s key first →
      Ensures ((List.range' s n).foldlM (fun operand through => do
          let slot ← register through key operand
          pure (StageOperand.register through slot)) first) c a
        (Keeps c last a fun x slots => Carries c slots (s + n) key x)
  | 0, s, first, a, hr, _, hfirst => Ensures.pure (Keeps.refl hr hfirst)
  | n + 1, s, first, a, hr, hlast, hfirst => by
    rw [List.range'_succ, List.foldlM_cons]
    have hstep : Ensures (register s key first >>= fun slot => pure (StageOperand.register s slot))
        c a (Keeps c last a fun x slots => Carries c slots (s + 1) key x) :=
      Ensures.bind (register_routed hr (by omega) hfirst) fun slot a₁ h₁ =>
        Ensures.pure ⟨h₁.routed, h₁.slots, (hfirst.mono h₁.slots).next h₁.good⟩
    refine Ensures.bind hstep fun x a₁ h₁ => ?_
    refine (route_steps_routed key n (s + 1) x a₁ h₁.routed (by omega) h₁.good).mono ?_
    intro y a₂ h₂
    exact ⟨h₂.routed, List.Subset.trans h₁.slots h₂.slots,
      by rw [show s + (n + 1) = s + 1 + n by omega]; exact h₂.good⟩

/-- A value that stage `origin` reads is carried to any later stage. -/
theorem route_routed (hr : Routed c last a) {key : RouteKey} {first : StageOperand}
    {origin stage : Nat} (horigin : origin ≤ stage) (hstage : stage ≤ last)
    (hfirst : Carries c a.slots origin key first) :
    Ensures (route key first origin stage) c a
      (Keeps c last a fun x slots => Carries c slots stage key x) := by
  have h := route_steps_routed key (stage - origin) origin first a hr (by omega) hfirst
  rw [Nat.add_sub_cancel' horigin] at h
  exact h

/-- An iteration argument read without error is carried from its capture stage. -/
theorem iterArg_routed (hr : Routed c last a) {stage : Nat} (hstage : stage ≤ last) (slot : Nat)
    (consumer : OpRef) :
    Ensures (iterArg slot consumer stage) c a
      (Keeps c last a fun x slots => Carries c slots stage (.iterArg slot) x) := by
  unfold iterArg
  refine Ensures.bind_of_run rfl ?_
  dsimp only
  split
  · exact Ensures.lift_error
  · next hcapture => exact route_routed hr (Nat.not_lt.1 hcapture) hstage (@carries_first c a.slots (.iterArg slot))

/-- An operand read without error conveys the value it reads. With latencies that are not
negative, a result read no earlier than it is ready is read no earlier than its producer's
stage, so its chain runs forward from there. -/
theorem operand_routed (hr : Routed c last a)
    (hlat : ∀ op t, c.problem.latencyOf? op = some t → 0 ≤ t) {consumer : OpRef} {stage : Nat}
    (hstage : stage ≤ last) :
    ∀ v : Value, Ensures (operand consumer stage v) c a
      (Keeps c last a fun x slots => Conveys c.loop (Carries c slots stage) v x)
  | .constant _ _ | .argument _ => Ensures.pure (Keeps.refl hr rfl)
  | .result id => by
    unfold operand
    refine Ensures.bind_of_run rfl ?_
    by_cases hop : c.loop.hasOp id
    · rw [if_pos hop]
      refine Ensures.lift_bind fun origin horigin => Ensures.lift_bind fun ready hready => ?_
      refine Ensures.bind_of_run rfl ?_
      dsimp only
      split
      · exact Ensures.lift_error
      · next hcond =>
        have hready_le : ready ≤ stage := by
          by_contra hlt
          exact hcond (Or.inl (by omega))
        have hstart := Lowering.start_le_readyTime hlat horigin hready
        have hfirst : Carries c a.slots origin (.result (.body id)) (.sameStage (.body id)) := by
          rw [← Lowering.origin_result horigin]
          exact carries_first
        exact (route_routed hr (by omega) hstage hfirst).mono fun x a' h =>
          ⟨h.routed, h.slots, (conveys_result_of_hasOp hop).2 h.good⟩
    · rw [if_neg hop]
      exact Ensures.pure (Keeps.refl hr ((conveys_result_of_not_hasOp hop).2 rfl))
  | .inductionVar => iterArg_routed hr hstage 0 consumer
  | .iterArg i => by
    unfold operand
    refine Ensures.bind_of_run rfl (Ensures.lift_bind fun slot hslot => ?_)
    obtain rfl := Lowering.slotOf_eq_ok hslot
    exact iterArg_routed hr hstage (i + 1) consumer

/-- Values read one after another, each conveyed as `carried` says under the slots of its time,
stay conveyed as slots are added. -/
theorem mapM_routed {f : Value → AssemblyM StageOperand}
    (carried : List ((Nat × RouteKey) × Nat) → RouteKey → StageOperand → Prop)
    (hmono : ∀ slots slots' key x, carried slots key x → slots ⊆ slots' → carried slots' key x)
    (hstep : ∀ v a, Routed c last a →
      Ensures (f v) c a (Keeps c last a fun x slots => Conveys c.loop (carried slots) v x)) :
    ∀ (vs : List Value) (a : Assembly), Routed c last a →
      Ensures (vs.mapM f) c a
        (Keeps c last a fun xs slots => List.Forall₂ (Conveys c.loop (carried slots)) vs xs)
  | [], a, hr => Ensures.pure (Keeps.refl hr .nil)
  | v :: vs, a, hr => by
    rw [List.mapM_cons]
    refine Ensures.bind (hstep v a hr) fun x a₁ h₁ => ?_
    refine Ensures.bind (mapM_routed carried hmono hstep vs a₁ h₁.routed) fun xs a₂ h₂ => ?_
    refine Ensures.pure ⟨h₂.routed, List.Subset.trans h₁.slots h₂.slots, .cons ?_ h₂.good⟩
    exact h₁.good.mono fun key x h => hmono _ _ key x h h₂.slots

/-! ### Placing operations -/

/-- An operation placed without error reads, through its operands, the values it reads in the
loop. -/
theorem place_routed (hr : Routed c last a)
    (hlat : ∀ op t, c.problem.latencyOf? op = some t → 0 ≤ t) {stage : Nat} (hstage : stage ≤ last) :
    ∀ op : OpRef, Ensures (place stage op) c a (Keeps c last a fun o slots =>
      ∃ vs, c.loop.reads? c.bounds.step o.id = some vs ∧
        List.Forall₂ (Conveys c.loop (Carries c slots stage)) vs o.operands)
  | .increment => by
    unfold place
    refine Ensures.bind (operand_routed hr hlat hstage .inductionVar) fun counter a₁ h₁ => ?_
    exact Ensures.bind_of_run rfl (Ensures.pure ⟨h₁.routed, h₁.slots,
      [.inductionVar, .index c.bounds.step], rfl, .cons h₁.good (.cons rfl .nil)⟩)
  | .body id => by
    unfold place
    refine Ensures.bind_of_run rfl ?_
    split
    · exact Ensures.lift_error
    · next o hfind =>
      refine Ensures.bind (mapM_routed (fun slots => Carries c slots stage)
        (fun _ _ _ _ h hsub => h.mono hsub) (fun v a' hr' => operand_routed hr' hlat hstage v)
        o.operands a hr) fun operands a₁ h₁ => ?_
      exact Ensures.pure ⟨h₁.routed, h₁.slots, o.operands, by simp [Loop.reads?, hfind], h₁.good⟩

/-- Placing an operation in a stage that exists keeps the assembly routed. -/
theorem placeAt_routed (hr : Routed c last a)
    (hlat : ∀ op t, c.problem.latencyOf? op = some t → 0 ≤ t) {stage : Nat} (hstage : stage ≤ last)
    (op : OpRef) : Ensures (placeAt (stage, op)) c a fun _ a' => Routed c last a' := by
  unfold placeAt
  refine Ensures.bind (place_routed hr hlat hstage op) fun o a₁ h₁ => Ensures.modify ?_
  obtain ⟨vs, hvs, hall⟩ := h₁.good
  have hr₁ := h₁.routed
  have hlt : stage < a₁.stages.size := by rw [hr₁.size]; omega
  have hat := stageAt_modify hlt (fun s => { s with operations := s.operations ++ [o] }) a₁.slots
    (op :: a₁.placed)
  have hregs : ∀ k, (stageAt ⟨a₁.stages.modify stage fun s =>
      { s with operations := s.operations ++ [o] }, a₁.slots, op :: a₁.placed⟩ k).registers =
      (a₁.stageAt k).registers := fun k => by rw [hat]; split <;> rfl
  refine ⟨by simp [hr₁.size], hr₁.keys, fun k key slot hmem => ?_, fun k slot hslot => ?_,
    fun k o' ho' => ?_⟩
  · rw [hregs]
    exact hr₁.slots k key slot hmem
  · rw [hregs] at hslot
    exact hr₁.registers k slot hslot
  · rw [hat] at ho'
    split at ho'
    · next hk =>
      subst hk
      rcases List.mem_append.1 ho' with ho' | ho'
      · exact hr₁.operations stage o' ho'
      · rw [List.mem_singleton.1 ho']
        exact ⟨vs, hvs, hall⟩
    · exact hr₁.operations k o' ho'

/-! ### The terminator -/

theorem Carries.eq_first {slots : List ((Nat × RouteKey) × Nat)} {key : RouteKey}
    {x : StageOperand} (h : Carries c slots (c.origin key) key x) : x = key.first := by
  rcases h with ⟨-, hx⟩ | ⟨prev, slot, hprev, horigin, -⟩
  · exact hx
  · omega

/-- The register of a producer's stage, for a producer whose start time lies in the stages. -/
theorem produced_routed (hr : Routed c last a) {producer : OpRef}
    (hstart : ∀ s, c.startOf producer = .ok s → s ≤ last) :
    Ensures (produced producer) c a
      (Keeps c last a fun x slots => Holds c slots (.result producer) x) := by
  unfold produced
  refine Ensures.bind_of_run rfl (Ensures.lift_bind fun stage hs => ?_)
  have horigin := Lowering.origin_result hs
  have hfirst : Carries c a.slots stage (.result producer) (.sameStage producer) := by
    rw [← horigin]
    exact carries_first
  refine Ensures.bind (register_routed hr (hstart stage hs) hfirst) fun slot a₁ h₁ => ?_
  exact Ensures.pure ⟨h₁.routed, h₁.slots, slot, by rw [horigin], by rw [horigin]; exact h₁.good⟩

/-- The register of an iteration argument's capture stage. -/
theorem captured_routed (hr : Routed c last a) (slot : Nat)
    (hcapture : c.captures.getD slot 0 ≤ last) :
    Ensures (captured slot) c a (Keeps c last a fun x slots => Holds c slots (.iterArg slot) x) := by
  unfold captured
  refine Ensures.bind_of_run rfl ?_
  exact Ensures.bind (register_routed hr hcapture (@carries_first c a.slots (.iterArg slot)))
    fun reg a₁ h₁ =>
    Ensures.pure ⟨h₁.routed, h₁.slots, reg, rfl, h₁.good⟩

/-- The terminator, built without error, hands over the increment's result and each yielded
value from the register of the stage that first reads it, and its results are the values it
hands over after the increment's. -/
theorem terminator_routed (hr : Routed c last a)
    (hstart : ∀ op s, c.loop.isForeign op = false → c.startOf op = .ok s → s ≤ last)
    (hcaptures : ∀ k, c.captures.getD k 0 ≤ last) :
    Ensures terminator c a fun t a' => Routed c last a' ∧ ∃ next,
      t.iterArgs = next :: t.results ∧ Holds c a'.slots (.result .increment) next ∧
        List.Forall₂ (Conveys c.loop (Holds c a'.slots)) c.loop.yields t.results := by
  unfold terminator
  refine Ensures.bind_of_run rfl ?_
  refine Ensures.bind (produced_routed hr (hstart .increment · rfl)) fun next a₁ h₁ => ?_
  refine Ensures.bind (mapM_routed (fun slots => Holds c slots) (fun _ _ _ _ h hsub => h.mono hsub)
    (fun v a' hr' => ?_) c.loop.yields a₁ h₁.routed) fun yielded a₂ h₂ => ?_
  · cases v with
    | constant _ _ | argument _ => exact Ensures.pure (Keeps.refl hr' rfl)
    | result id =>
      dsimp only
      by_cases hop : c.loop.hasOp id
      · rw [if_pos hop]
        exact (produced_routed hr' (hstart _ · (by simp [Loop.isForeign, hop]))).mono
          fun x a'' h => ⟨h.routed, h.slots, (conveys_result_of_hasOp hop).2 h.good⟩
      · rw [if_neg hop]
        exact Ensures.pure (Keeps.refl hr' ((conveys_result_of_not_hasOp hop).2 rfl))
    | inductionVar => exact captured_routed hr' 0 (hcaptures 0)
    | iterArg i =>
      refine Ensures.lift_bind fun slot hslot => ?_
      obtain rfl := Lowering.slotOf_eq_ok hslot
      exact captured_routed hr' (i + 1) (hcaptures (i + 1))
  · exact Ensures.pure ⟨h₂.routed, next, rfl, h₁.good.mono h₂.slots, h₂.good⟩

end Assembly

/-! ### What a lowering that returns did -/

section Construct

variable {ε β γ : Type}

theorem exists_of_mapM_eq_ok {f : β → Except ε γ} :
    ∀ {xs : List β} {ys : List γ}, xs.mapM f = .ok ys → ∀ x ∈ xs, ∃ y ∈ ys, f x = .ok y
  | [], _, _, x, hx => absurd hx List.not_mem_nil
  | x' :: xs, ys, h, x, hx => by
    rw [List.mapM_cons] at h
    obtain ⟨y, hy, h⟩ := bind_eq_ok h
    obtain ⟨rest, hrest, h⟩ := bind_eq_ok h
    cases h
    rcases List.mem_cons.1 hx with rfl | hx
    · exact ⟨y, List.mem_cons_self, hy⟩
    · obtain ⟨y', hy', hfy'⟩ := exists_of_mapM_eq_ok hrest x hx
      exact ⟨y', List.mem_cons_of_mem _ hy', hfy'⟩

/-- Every round keeps the capture stages within the stages `0 … last`. -/
theorem Lowering.captureRound_le_last {c : Lowering} {ii last : Nat} {captures next : List Nat}
    (h : c.captureRound ii last captures = .ok next) : ∀ k ∈ next, k ≤ last := by
  unfold captureRound at h
  obtain ⟨_, -, h⟩ := bind_eq_ok h
  obtain ⟨_, -, h⟩ := bind_eq_ok h
  cases h
  intro k hk
  obtain ⟨r, -, rfl⟩ := List.mem_map.1 hk
  omega

/-- The capture stages lie within the stages `0 … last`. -/
theorem Lowering.captureStages_le_last {c : Lowering} {ii last : Nat} {captures : List Nat}
    (h : c.captureStages ii last = .ok captures) : ∀ k ∈ captures, k ≤ last :=
  foldlM_eq_ok_of_step (fun captures => ∀ k ∈ captures, k ≤ last)
    (fun _ _ _ _ hround => captureRound_le_last hround)
    (fun k hk => by rw [List.eq_of_mem_replicate hk]; exact Nat.zero_le _) h

theorem Loop.exists_mem_of_hasOp {l : Loop} {id : Nat} (h : l.hasOp id = true) :
    ∃ o ∈ l.operations, o.id = id := by
  obtain ⟨o, ho, hid⟩ := List.any_eq_true.1 h
  exact ⟨o, ho, beq_iff_eq.1 hid⟩

/-- What a lowering that returns did: it placed the sorted entries and then built the terminator
in the stages `0 … last`, which hold the start time of every operation of the loop and every
capture stage; the pipeline keeps the stages, the capture stages and the terminator so built. -/
theorem Loop.construct_run {l : Loop} {bounds : LoopBounds} {q : Problem OpRef} {pipe : Pipeline}
    (h : l.construct bounds q = .ok pipe) :
    ∃ (last : Nat) (sorted : List (Nat × Nat × OpRef)) (a : Assembly), (∀ e ∈ sorted, e.1 ≤ last) ∧
      (∀ op s, l.isForeign op = false → q.startTime? op = some s → s ≤ last) ∧
      (∀ k ∈ pipe.captureStages, k ≤ last) ∧
      ((sorted.forM fun x => Assembly.placeAt (x.1, x.2.2)) >>= fun _ => Assembly.terminator)
        ⟨l, bounds, q, pipe.captureStages⟩ (Assembly.initial last) = .ok (pipe.terminator, a) ∧
      pipe.stages = a.stages.toList := by
  unfold construct at h
  split at h
  · split at h
    · cases h
    · obtain ⟨body, hbody, h⟩ := bind_eq_ok h
      obtain ⟨inc, hinc, h⟩ := bind_eq_ok h
      obtain ⟨captures, hcaptures, h⟩ := bind_eq_ok h
      obtain ⟨⟨term, a⟩, hrun, h⟩ := bind_eq_ok h
      dsimp only at h
      split at h
      · cases h
      · cases h
        have hle : ∀ e ∈ body ++ [(inc, l.operations.length, OpRef.increment)],
            e.1 ≤ ((body ++ [(inc, l.operations.length, OpRef.increment)]).map (·.1)).foldl max 0 :=
          fun e he => le_foldl_max_of_mem (List.mem_map_of_mem he)
        refine ⟨_, _, a, fun e he => hle e (List.mem_mergeSort.1 he), fun op s hop hs => ?_,
          Lowering.captureStages_le_last hcaptures, hrun, rfl⟩
        cases op with
        | increment =>
          rw [Lowering.startOf_eq_ok, hs] at hinc
          cases hinc
          exact hle _ (List.mem_append_right _ List.mem_cons_self)
        | body id =>
          obtain ⟨o, ho, rfl⟩ := Loop.exists_mem_of_hasOp (by simpa [Loop.isForeign] using hop)
          obtain ⟨i, hi⟩ := List.mem_iff_getElem?.1 ho
          obtain ⟨e, he, hfe⟩ :=
            exists_of_mapM_eq_ok hbody (o, i) (List.mem_zipIdx_iff_getElem?.2 hi)
          obtain ⟨start, hstart, hfe⟩ := bind_eq_ok hfe
          cases hfe
          rw [Lowering.startOf_eq_ok, hs] at hstart
          cases hstart
          exact hle _ (List.mem_append_left _ he)
  · cases h

end Construct

/-! ### Routing is exact -/

namespace Assembly

section Exact

variable {c : Lowering} {last : Nat} {a : Assembly} {p : Pipeline}

theorem registerAt?_of_stageAt (hstages : p.stages = a.stages.toList) {stage slot : Nat}
    {x : StageOperand} (h : (a.stageAt stage).registers[slot]? = some x) :
    p.registerAt? stage slot = some x := by
  unfold Pipeline.registerAt?
  by_cases hs : stage < a.stages.size
  · rw [hstages, List.getElem?_eq_getElem (by simpa using hs), Array.getElem_toList,
      ← stageAt_of_lt hs]
    exact h
  · rw [stageAt_of_le (Nat.not_lt.1 hs)] at h
    simp at h

theorem eq_stageAt_of_getElem? (hstages : p.stages = a.stages.toList) {t : Nat} {s : Stage}
    (h : p.stages[t]? = some s) : s = a.stageAt t := by
  rw [hstages, Array.getElem?_toList] at h
  have ht : t < a.stages.size := (Array.getElem?_eq_some_iff.1 h).1
  rw [stageAt_of_lt ht]
  exact (Array.getElem_eq_iff.2 h).symm

/-- An operand that carries a value resolves, through its chain, to the value's own operand in
the stage that first reads it. -/
theorem resolve_of_carries (hr : Routed c last a) (hstages : p.stages = a.stages.toList)
    {key : RouteKey} : ∀ {stage : Nat} {x : StageOperand}, Carries c a.slots stage key x →
      p.resolve stage x = (key.first, c.origin key) := by
  intro stage
  -- the chain goes back one stage per register
  induction stage with
  | zero =>
    rintro x (⟨hs, rfl⟩ | ⟨prev, slot, hprev, -⟩)
    · rw [hs]
      exact Pipeline.resolve_of_ne_register (key.first_ne_register) _
    · omega
  | succ stage ih =>
    rintro x (⟨hs, rfl⟩ | ⟨prev, slot, hprev, -, rfl, hmem⟩)
    · rw [hs]
      exact Pipeline.resolve_of_ne_register (key.first_ne_register) _
    · obtain rfl : prev = stage := by omega
      obtain ⟨y, hy, hcarries⟩ := hr.slots _ key slot hmem
      rw [Pipeline.resolve_register (registerAt?_of_stageAt hstages hy)]
      exact ih hcarries

/-- An operand that conveys a value resolves to the value's source. -/
theorem resolve_of_conveys (hr : Routed c last a) (hstages : p.stages = a.stages.toList)
    {stage : Nat} {x : StageOperand} :
    ∀ {v : Value}, Conveys c.loop (Carries c a.slots stage) v x →
      p.resolve stage x = c.loop.source c.problem c.captures stage v
  | .constant _ _, h | .argument _, h => by
    rw [h]
    exact Pipeline.resolve_of_ne_register (fun _ _ => by simp) _
  | .result id, h => by
    by_cases hop : c.loop.hasOp id
    · rw [resolve_of_carries hr hstages ((conveys_result_of_hasOp hop).1 h)]
      simp [Loop.source, hop, RouteKey.first, Lowering.origin]
    · rw [(conveys_result_of_not_hasOp hop).1 h, Pipeline.resolve_of_ne_register (fun _ _ => by simp)]
      simp [Loop.source, hop]
  | .inductionVar, h | .iterArg _, h => resolve_of_carries hr hstages h

/-- A terminator operand that holds a value is the register of the stage that first reads the
value, where that register stores the value's own operand. -/
theorem handsOver_of_holds (hr : Routed c last a) (hstages : p.stages = a.stages.toList)
    {key : RouteKey} {x : StageOperand} (h : Holds c a.slots key x) :
    p.HandsOver x (key.first, c.origin key) := by
  obtain ⟨slot, rfl, hmem⟩ := h
  obtain ⟨y, hy, hcarries⟩ := hr.slots _ key slot hmem
  rw [hcarries.eq_first] at hy
  have hreg := registerAt?_of_stageAt hstages hy
  cases key <;> exact ⟨slot, rfl, hreg⟩

theorem handsOver_of_conveys (hr : Routed c last a) (hstages : p.stages = a.stages.toList)
    (stage : Nat) {x : StageOperand} :
    ∀ {v : Value}, Conveys c.loop (Holds c a.slots) v x →
      p.HandsOver x (c.loop.source c.problem c.captures stage v)
  | .constant _ _, h | .argument _, h => h
  | .result id, h => by
    by_cases hop : c.loop.hasOp id
    · have h' := handsOver_of_holds hr hstages ((conveys_result_of_hasOp hop).1 h)
      simpa [Loop.source, hop, RouteKey.first, Lowering.origin] using h'
    · simpa [Loop.source, hop, Pipeline.HandsOver] using (conveys_result_of_not_hasOp hop).1 h
  | .inductionVar, h | .iterArg _, h => handsOver_of_holds hr hstages h

/-- The registers of a stage resolve to different values: each carries the value of its own
slot, and one value has one slot in a stage. -/
theorem nodup_resolve_registers (hr : Routed c last a) (hstages : p.stages = a.stages.toList)
    (stage : Nat) : ((a.stageAt stage).registers.map (p.resolve stage)).Nodup := by
  rw [List.nodup_iff_getElem?_ne_getElem?]
  intro i j hij hj heq
  rw [List.length_map] at hj
  obtain ⟨ki, hki⟩ := hr.registers stage i (by omega)
  obtain ⟨kj, hkj⟩ := hr.registers stage j hj
  obtain ⟨xi, hxi, hci⟩ := hr.slots _ _ _ hki
  obtain ⟨xj, hxj, hcj⟩ := hr.slots _ _ _ hkj
  rw [List.getElem?_map, List.getElem?_map, hxi, hxj, Option.map_some, Option.map_some,
    Option.some.injEq, resolve_of_carries hr hstages hci, resolve_of_carries hr hstages hcj] at heq
  obtain rfl := RouteKey.first_injective (Prod.mk.inj heq).1
  have := List.inj_on_of_nodup_map hr.keys hki hkj rfl
  simp only [Prod.mk.injEq, true_and] at this
  omega

end Exact

end Assembly

/-- Routing is exact in every pipeline that lowering returns under a problem whose latencies are
not negative. -/
theorem Loop.construct_routes_exactly {l : Loop} {bounds : LoopBounds} {q : Problem OpRef}
    {pipe : Pipeline} (hlat : ∀ op t, q.latencyOf? op = some t → 0 ≤ t)
    (h : l.construct bounds q = .ok pipe) : pipe.RoutesExactly l q bounds.step := by
  obtain ⟨last, sorted, a, hsorted, hstart, hcaptures, hrun, hstages⟩ := construct_run h
  let c : Lowering := ⟨l, bounds, q, pipe.captureStages⟩
  have hplaced : Assembly.Ensures (sorted.forM fun x => Assembly.placeAt (x.1, x.2.2)) c
      (Assembly.initial last) fun _ a' => Assembly.Routed c last a' :=
    Assembly.Ensures.forM _ (fun x hx a' hr => Assembly.placeAt_routed hr hlat (hsorted x hx) _)
      _ (Assembly.routed_initial c last)
  obtain ⟨hr, next, hargs, hnext, hyields⟩ := Assembly.Ensures.bind hplaced
    (fun _ a' hr => Assembly.terminator_routed hr
      (fun op s hop hs => hstart op s hop (Lowering.startOf_eq_ok.1 hs))
      (getD_le_of_forall_le hcaptures)) _ _ hrun
  refine ⟨fun t s hs o ho => ?_, ⟨next, hargs, ?_⟩, ?_, fun t s hs => ?_⟩
  · rw [Assembly.eq_stageAt_of_getElem? hstages hs] at ho
    obtain ⟨vs, hvs, hall⟩ := hr.operations t o ho
    refine ⟨vs, hvs, ?_⟩
    have heq := List.forall₂_map_right_iff.2 (List.forall₂_map_left_iff.2
      (hall.imp fun v x hx => (Assembly.resolve_of_conveys hr hstages hx).symm))
    exact (List.forall₂_eq_eq_eq ▸ heq).symm
  · exact Assembly.handsOver_of_holds hr hstages hnext
  · exact hyields.imp fun v x hx => Assembly.handsOver_of_conveys hr hstages _ hx
  · rw [Assembly.eq_stageAt_of_getElem? hstages hs]
    exact Assembly.nodup_resolve_registers hr hstages t

/-- A latency an operation has is the latency of one of the problem's operator types. -/
theorem Problem.exists_type_of_latencyOf? {α : Type} [DecidableEq α] {q : Problem α} {op : α}
    {t : Int} (h : q.latencyOf? op = some t) : ∃ ty ∈ q.operatorTypes, ty.latency = some t := by
  simp only [Problem.latencyOf?, Problem.operatorTypeOf?, Option.bind_eq_bind,
    Option.bind_eq_some_iff] at h
  obtain ⟨ty, ⟨i, -, hi⟩, ht⟩ := h
  exact ⟨ty, List.mem_of_getElem? hi, ht⟩

/-- `b[iv] = a[iv] * 5` for `iv` from 0 while below 10. -/
def scaleCopy : Loop :=
  ⟨0, .constant 0, .constant 10, .constant 1, .slt, [], [],
    [.op ⟨0, .load "a", [.inductionVar], some .i32⟩,
      .op ⟨1, .muli, [.result 0, .constant 5 .i32], some .i32⟩,
      .op ⟨2, .store "b", [.result 1, .inductionVar], none⟩], []⟩

/-- A schedule of `scaleCopy` under interval 1: the load and the increment at cycle 0, the
multiply, three cycles long, at cycle 1, and the store at cycle 4, four stages after its iteration
starts. -/
def scaleCopySchedule : Problem OpRef :=
  ⟨[.body 0, .body 1, .body 2, .increment],
    [⟨"load", some 1⟩, ⟨"mul", some 3⟩, ⟨"store", some 1⟩, ⟨"add", some 1⟩],
    [(.body 0, 0), (.body 1, 1), (.body 2, 2), (.increment, 3)], scaleCopy.dataDependences,
    [(.body 0, 0), (.body 1, 1), (.body 2, 4), (.increment, 0)], some 1, true⟩

/-- The store of `scaleCopy`, four stages late, reads the multiply's result and the induction
variable through register chains; lowering returns a pipeline that routes both exactly. -/
theorem scaleCopy_routes_exactly :
    (∀ op t, scaleCopySchedule.latencyOf? op = some t → 0 ≤ t) ∧
      ∃ pipe, scaleCopy.construct ⟨0, 10, 1, 10⟩ scaleCopySchedule = .ok pipe ∧
        pipe.RoutesExactly scaleCopy scaleCopySchedule 1 := by
  have hlat : ∀ op t, scaleCopySchedule.latencyOf? op = some t → 0 ≤ t := by
    intro op t h
    obtain ⟨ty, hty, ht⟩ := Problem.exists_type_of_latencyOf? h
    simp only [scaleCopySchedule, List.mem_cons, List.not_mem_nil, or_false] at hty
    rcases hty with rfl | rfl | rfl | rfl <;> simp only [Option.some.injEq] at ht <;> omega
  have hlinked : ∀ op ∈ scaleCopySchedule.operations,
      ∃ t, scaleCopySchedule.latencyOf? op = some t ∧ 0 ≤ t := by
    intro op hop
    simp only [scaleCopySchedule, List.mem_cons, List.not_mem_nil, or_false] at hop
    rcases hop with rfl | rfl | rfl | rfl <;> exact ⟨_, rfl, by decide⟩
  obtain ⟨pipe, hpipe⟩ := Loop.construct_eq_ok (by decide)
    (show scaleCopy.candidateBounds = .ok ⟨0, 10, 1, 10⟩ by decide)
    ⟨by decide, by decide, by decide, fun _ hd => hd⟩ hlinked (by decide)
  exact ⟨hlat, pipe, hpipe, Loop.construct_routes_exactly hlat hpipe⟩

end ModuloPipelining
