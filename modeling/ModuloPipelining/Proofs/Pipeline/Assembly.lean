import ModuloPipelining.Proofs.Pipeline.Verified
import ModuloPipelining.Pipeline.Construct

/-!
# Assembling the stages

`Loop.construct` fills the stages in the monad `AssemblyM`: operations are placed at the end of
their stage, and a value read in a later stage is routed through registers. This module states
what each step needs and what it keeps.

`Assembly.Succeeds x c a post` says that `x` runs from assembly `a` without error and ends in a
state satisfying `post`. The invariant `Assembly.Sound` says that the assembly has its stages,
numbered in order; that every register a slot names exists; that every operand placed in a stage
and every register is readable there (`Assembly.Reads`); and that every placed operation sits in
the stage of its start time. Registering a value only appends to the registers
(`Assembly.register_spec`); routing a value readable in stage `s` makes it readable in any later
stage (`Assembly.route_spec`); an operand reads a result once the result is ready and its
producer placed, and an iteration argument from its capture stage on (`Assembly.operand_spec`).
-/

namespace ModuloPipelining

namespace Assembly

/-! ### Running the monad -/

section Run

variable {β γ : Type} (c : Lowering) (a : Assembly)

theorem bind_run (x : AssemblyM β) (f : β → AssemblyM γ) :
    (x >>= f) c a = match x c a with
      | .ok (r, a') => f r c a'
      | .error e => .error e := by
  simp only [bind, ReaderT.bind, StateT.bind]
  cases x c a <;> rfl

/-- `x` runs from assembly `a` under `c` without error, ending with a result and an assembly
that satisfy `post`. -/
def Succeeds (x : AssemblyM β) (c : Lowering) (a : Assembly) (post : β → Assembly → Prop) :
    Prop :=
  ∃ r a', x c a = .ok (r, a') ∧ post r a'

variable {c a}

theorem Succeeds.pure {r : β} {post : β → Assembly → Prop} (h : post r a) :
    Succeeds (Pure.pure r) c a post :=
  ⟨r, a, rfl, h⟩

theorem Succeeds.bind {x : AssemblyM β} {f : β → AssemblyM γ} {mid : β → Assembly → Prop}
    {post : γ → Assembly → Prop} (hx : Succeeds x c a mid)
    (hf : ∀ r a', mid r a' → Succeeds (f r) c a' post) : Succeeds (x >>= f) c a post := by
  obtain ⟨r, a', hrun, hmid⟩ := hx
  obtain ⟨r', a'', hrun', hpost⟩ := hf r a' hmid
  refine ⟨r', a'', ?_, hpost⟩
  rw [bind_run, hrun]
  exact hrun'

theorem Succeeds.mono {x : AssemblyM β} {post post' : β → Assembly → Prop}
    (h : Succeeds x c a post) (himp : ∀ r a', post r a' → post' r a') : Succeeds x c a post' := by
  obtain ⟨r, a', hrun, hpost⟩ := h
  exact ⟨r, a', hrun, himp r a' hpost⟩

/-- A first step whose run is known. -/
theorem Succeeds.bind_of_run {x : AssemblyM β} {f : β → AssemblyM γ} {r : β} {a' : Assembly}
    {post : γ → Assembly → Prop} (hx : x c a = .ok (r, a')) (h : Succeeds (f r) c a' post) :
    Succeeds (x >>= f) c a post := by
  obtain ⟨r', a'', hrun, hpost⟩ := h
  refine ⟨r', a'', ?_, hpost⟩
  rw [bind_run, hx]
  exact hrun

/-- A run that succeeds hands its result and final assembly to the rest of the computation. -/
theorem Succeeds.run_bind {x : AssemblyM β} {post : β → Assembly → Prop}
    {k : β × Assembly → Except ConstructionError γ} (h : Succeeds x c a post)
    (hk : ∀ r a', post r a' → ∃ y, k (r, a') = .ok y) : ∃ y, (StateT.run (x c) a >>= k) = .ok y := by
  obtain ⟨r, a', hrun, hpost⟩ := h
  obtain ⟨y, hy⟩ := hk r a' hpost
  refine ⟨y, ?_⟩
  rw [show StateT.run (x c) a = .ok (r, a') from hrun]
  exact hy

/-- A traversal succeeds when each step keeps an invariant of the elements done so far. -/
theorem Succeeds.forM {δ : Type} {f : δ → AssemblyM PUnit} (all : List δ)
    (inv : List δ → Assembly → Prop)
    (hstep : ∀ pre x post a, all = pre ++ x :: post → inv pre a →
      Succeeds (f x) c a fun _ a' => inv (pre ++ [x]) a') :
    ∀ (done todo : List δ) (a : Assembly), all = done ++ todo → inv done a →
      Succeeds (todo.forM f) c a fun _ a' => inv all a'
  | done, [], a, hall, hinv => ⟨⟨⟩, a, rfl, by rw [hall, List.append_nil]; exact hinv⟩
  | done, x :: todo, a, hall, hinv => by
    show Succeeds (f x >>= fun _ => todo.forM f) c a _
    refine Succeeds.bind (hstep done x todo a hall hinv) fun _ a' h => ?_
    exact Succeeds.forM all inv hstep (done ++ [x]) todo a' (by rw [hall]; simp) h

end Run

/-! ### Views of an assembly -/

/-- Stage `k` of an assembly; a stage that is not there is empty. -/
def stageAt (a : Assembly) (k : Nat) : Stage := a.stages.getD k ⟨k, [], []⟩

/-- The operations placed in all stages, stage by stage. -/
def placedIds (a : Assembly) : List OpRef :=
  (List.range a.stages.size).flatMap fun k => Pipeline.ids (a.stageAt k).operations

theorem getD_modify (xs : Array Stage) (i k : Nat) (g : Stage → Stage) :
    (xs.modify i g).getD k ⟨k, [], []⟩ =
      if i = k ∧ k < xs.size then g (xs.getD k ⟨k, [], []⟩) else xs.getD k ⟨k, [], []⟩ := by
  simp only [Array.getD_eq_getD_getElem?, Array.getElem?_modify]
  by_cases hik : i = k
  · by_cases hk : k < xs.size
    · simp [hik, hk]
    · simp [hik, hk]
  · simp [hik]

/-- Changing one stage that exists changes only that stage. -/
theorem stageAt_modify {a : Assembly} {stage : Nat} (hstage : stage < a.stages.size)
    (g : Stage → Stage) (slots : List ((Nat × RouteKey) × Nat)) (placed : List OpRef) (k : Nat) :
    stageAt ⟨a.stages.modify stage g, slots, placed⟩ k =
      if stage = k then g (a.stageAt k) else a.stageAt k := by
  unfold stageAt
  rw [getD_modify]
  by_cases hk : stage = k
  · subst hk
    simp [hstage]
  · simp [hk]

/-- `a'` has the stages of `a`, with the same operations and more registers, and the same
operations placed. -/
structure Frame (a a' : Assembly) : Prop where
  size : a'.stages.size = a.stages.size
  index : ∀ k, (a'.stageAt k).index = (a.stageAt k).index
  operations : ∀ k, (a'.stageAt k).operations = (a.stageAt k).operations
  registers : ∀ k, (a.stageAt k).registers <+: (a'.stageAt k).registers
  placed : a'.placed = a.placed

theorem Frame.refl (a : Assembly) : Frame a a :=
  ⟨rfl, fun _ => rfl, fun _ => rfl, fun _ => List.prefix_refl _, rfl⟩

theorem Frame.trans {a b d : Assembly} (h₁ : Frame a b) (h₂ : Frame b d) : Frame a d :=
  ⟨h₂.size.trans h₁.size, fun k => (h₂.index k).trans (h₁.index k),
    fun k => (h₂.operations k).trans (h₁.operations k),
    fun k => (h₁.registers k).trans (h₂.registers k), h₂.placed.trans h₁.placed⟩

theorem Frame.placedIds_eq {a a' : Assembly} (h : Frame a a') : placedIds a' = placedIds a := by
  unfold placedIds
  rw [h.size]
  exact List.flatMap_congr fun k _ => by rw [h.operations k]

/-- Whether stage `stage` may read `x`, given the operations `defined` before the reader in the
stage and the capture stages `captures`. -/
def Reads (captures : List Nat) (a : Assembly) (stage : Nat) (defined : List OpRef) :
    StageOperand → Prop
  | .constant _ _ | .argument _ | .outer _ => True
  | .iterArg i => captures[i]? = some stage
  | .sameStage op => op ∈ defined
  | .register source slot =>
    0 < stage ∧ source = stage - 1 ∧ slot < (a.stageAt source).registers.length

/-- Readability survives more registers and more operations defined before the reader. -/
theorem Reads.mono {captures : List Nat} {a a' : Assembly} {stage : Nat} {defined defined' : List OpRef}
    (hregs : ∀ k, (a.stageAt k).registers.length ≤ (a'.stageAt k).registers.length)
    (hdefined : ∀ op ∈ defined, op ∈ defined') :
    ∀ {x : StageOperand}, Reads captures a stage defined x → Reads captures a' stage defined' x
  | .constant _ _, _ | .argument _, _ | .outer _, _ => trivial
  | .iterArg _, h => h
  | .sameStage op, h => hdefined op h
  | .register source _, ⟨hpos, hsource, hslot⟩ => ⟨hpos, hsource, lt_of_lt_of_le hslot (hregs source)⟩

theorem Frame.reads {captures : List Nat} {a a' : Assembly} (h : Frame a a') {stage : Nat}
    {defined : List OpRef} {x : StageOperand} (hx : Reads captures a stage defined x) :
    Reads captures a' stage defined x :=
  hx.mono (fun k => (h.registers k).length_le) fun _ => id

/-- The invariant of assembling a pipeline whose stages are `0 … last`. -/
structure Sound (c : Lowering) (last : Nat) (a : Assembly) : Prop where
  size : a.stages.size = last + 1
  index : ∀ k, (a.stageAt k).index = k
  slots : ∀ stage key slot, ((stage, key), slot) ∈ a.slots →
    slot < (a.stageAt stage).registers.length
  operations : ∀ k pre o post, (a.stageAt k).operations = pre ++ o :: post →
    ∀ x ∈ o.operands, Reads c.captures a k (Pipeline.ids pre) x
  registers : ∀ k, ∀ x ∈ (a.stageAt k).registers,
    Reads c.captures a k (Pipeline.ids (a.stageAt k).operations) x
  placed : ∀ op ∈ a.placed, ∀ k, c.startOf op = .ok k →
    op ∈ Pipeline.ids (a.stageAt k).operations
  perm : (placedIds a).Perm a.placed

variable {c : Lowering} {last : Nat} {a : Assembly}

/-! ### Registers -/

theorem mem_of_lookup {key : Nat × RouteKey} {slot : Nat} :
    ∀ {slots : List ((Nat × RouteKey) × Nat)}, slots.lookup key = some slot → (key, slot) ∈ slots
  | [], h => by cases h
  | (k, s) :: rest, h => by
    unfold List.lookup at h
    split at h
    · rename_i hk
      cases h
      rw [beq_iff_eq] at hk
      rw [hk]
      exact List.mem_cons_self
    · exact List.mem_cons_of_mem _ (mem_of_lookup h)

/-- Registering a value readable at the end of a stage that exists gives a register of that
stage, and only appends to the registers. -/
theorem register_spec (hsound : Sound c last a) {stage : Nat} (hstage : stage ≤ last)
    {key : RouteKey} {operand : StageOperand}
    (hread : Reads c.captures a stage (Pipeline.ids (a.stageAt stage).operations) operand) :
    Succeeds (register stage key operand) c a fun slot a' =>
      Sound c last a' ∧ Frame a a' ∧ slot < (a'.stageAt stage).registers.length := by
  unfold register
  refine Succeeds.bind_of_run rfl ?_
  dsimp only
  cases hlookup : a.slots.lookup (stage, key) with
  | some slot =>
    exact Succeeds.pure ⟨hsound, Frame.refl a, hsound.slots stage key slot (mem_of_lookup hlookup)⟩
  | none =>
    refine Succeeds.bind_of_run rfl (Succeeds.pure ?_)
    have hlt : stage < a.stages.size := by rw [hsound.size]; omega
    have hat : ∀ k, ({ a with
        stages := a.stages.modify stage fun s => { s with registers := s.registers ++ [operand] }
        slots := ((stage, key), (a.stages.getD stage ⟨stage, [], []⟩).registers.length) :: a.slots }
          : Assembly).stageAt k =
        if stage = k then { a.stageAt k with registers := (a.stageAt k).registers ++ [operand] }
        else a.stageAt k :=
      stageAt_modify hlt _ _ _
    have hframe : Frame a { a with
        stages := a.stages.modify stage fun s => { s with registers := s.registers ++ [operand] }
        slots := ((stage, key), (a.stages.getD stage ⟨stage, [], []⟩).registers.length) :: a.slots } :=
      ⟨Array.size_modify, fun k => by rw [hat]; split <;> rfl,
        fun k => by rw [hat]; split <;> rfl,
        fun k => by rw [hat]; split <;> simp, rfl⟩
    have hlen : ∀ k, (a.stageAt k).registers.length ≤ _ := fun k => (hframe.registers k).length_le
    refine ⟨⟨by rw [Array.size_modify, hsound.size], fun k => by rw [hframe.index, hsound.index],
      fun st key' slot hmem => ?_, fun k pre o post hops x hx => ?_, fun k x hx => ?_,
      fun op hop k hk => ?_, by rw [hframe.placedIds_eq]; exact hsound.perm⟩, hframe, ?_⟩
    · rcases List.mem_cons.1 hmem with heq | hmem
      · cases heq
        rw [hat, if_pos rfl]
        simp [stageAt]
      · exact lt_of_lt_of_le (hsound.slots st key' slot hmem) (hlen st)
    · rw [hframe.operations] at hops
      exact hframe.reads (hsound.operations k pre o post hops x hx)
    · rw [hframe.operations]
      rw [hat] at hx
      split at hx
      · rename_i hk
        subst hk
        rcases List.mem_append.1 hx with hx | hx
        · exact hframe.reads (hsound.registers stage x hx)
        · rw [List.mem_singleton.1 hx]
          exact hframe.reads hread
      · exact hframe.reads (hsound.registers k x hx)
    · rw [hframe.operations]
      exact hsound.placed op hop k hk
    · rw [hat, if_pos rfl]
      simp [stageAt]


/-! ### Routing values -/

/-- What reading a value in stage `stage` leaves: a sound assembly with the same operations and
more registers, in which the stage can read the operand after its current operations. -/
def Delivers (c : Lowering) (last : Nat) (a : Assembly) (stage : Nat) (x : StageOperand)
    (a' : Assembly) : Prop :=
  Sound c last a' ∧ Frame a a' ∧ Reads c.captures a' stage (Pipeline.ids (a'.stageAt stage).operations) x

theorem Delivers.frame {stage : Nat} {x : StageOperand} {a₁ a₂ : Assembly}
    (h : Delivers c last a stage x a₁) (hf : Frame a₁ a₂) (hsound : Sound c last a₂) :
    Delivers c last a stage x a₂ :=
  ⟨hsound, h.2.1.trans hf, by rw [hf.operations]; exact hf.reads h.2.2⟩

/-- Carrying a value through the registers of stages `s … s + n - 1`. -/
theorem route_steps (key : RouteKey) :
    ∀ (n s : Nat) (first : StageOperand) (a : Assembly), Sound c last a → s + n ≤ last →
      Reads c.captures a s (Pipeline.ids (a.stageAt s).operations) first →
      Succeeds ((List.range' s n).foldlM (fun operand through => do
          let slot ← register through key operand
          pure (StageOperand.register through slot)) first) c a (Delivers c last a (s + n))
  | 0, s, first, a, hsound, _, hfirst => Succeeds.pure ⟨hsound, Frame.refl a, hfirst⟩
  | n + 1, s, first, a, hsound, hlast, hfirst => by
    rw [List.range'_succ, List.foldlM_cons]
    have hstep : Succeeds (register s key first >>= fun slot => pure (StageOperand.register s slot))
        c a fun x a₁ => Sound c last a₁ ∧ Frame a a₁ ∧
          Reads c.captures a₁ (s + 1) (Pipeline.ids (a₁.stageAt (s + 1)).operations) x :=
      Succeeds.bind (register_spec hsound (by omega) hfirst) fun slot a₁ ⟨hsound₁, hframe₁, hslot⟩ =>
        Succeeds.pure ⟨hsound₁, hframe₁, by omega, by omega, hslot⟩
    refine Succeeds.bind hstep fun x a₁ ⟨hsound₁, hframe₁, hnext⟩ => ?_
    refine (route_steps key n (s + 1) x a₁ hsound₁ (by omega) hnext).mono ?_
    rintro x a₂ ⟨hsound₂, hframe₂, hread⟩
    exact ⟨hsound₂, hframe₁.trans hframe₂, by rw [Nat.add_right_comm] at hread; exact hread⟩

/-- A value readable in stage `origin` reaches any later stage. -/
theorem route_spec (hsound : Sound c last a) {key : RouteKey} {first : StageOperand}
    {origin stage : Nat} (horigin : origin ≤ stage) (hstage : stage ≤ last)
    (hfirst : Reads c.captures a origin (Pipeline.ids (a.stageAt origin).operations) first) :
    Succeeds (route key first origin stage) c a (Delivers c last a stage) := by
  have h := route_steps key (stage - origin) origin first a hsound (by omega) hfirst
  rw [Nat.add_sub_cancel' horigin] at h
  exact h

/-- An iteration argument is readable from its capture stage on. -/
theorem iterArg_spec (hsound : Sound c last a) {slot : Nat} (hslot : slot < c.captures.length)
    {consumer : OpRef} {stage : Nat} (hcapture : c.captures.getD slot 0 ≤ stage)
    (hstage : stage ≤ last) :
    Succeeds (iterArg slot consumer stage) c a (Delivers c last a stage) := by
  unfold iterArg
  refine Succeeds.bind_of_run rfl ?_
  dsimp only
  rw [if_neg (Nat.not_lt.2 hcapture)]
  refine route_spec hsound hcapture hstage ?_
  show c.captures[slot]? = some (c.captures.getD slot 0)
  simp [List.getElem?_eq_getElem hslot]

/-- What an operand of a reader in stage `stage` needs: a result of the loop must be ready by
then and its producer placed; an iteration argument must exist and be captured by then. -/
def Available (c : Lowering) (a : Assembly) (stage : Nat) : Value → Prop
  | .result id => c.loop.hasOp id = true → ∃ origin ready,
      c.startOf (.body id) = .ok origin ∧ c.readyTime (.body id) = .ok ready ∧
      ready ≤ stage ∧ origin ≤ stage ∧ OpRef.body id ∈ a.placed
  | .inductionVar => 0 < c.captures.length ∧ c.captures.getD 0 0 ≤ stage
  | .iterArg i => i < c.loop.iterInits.length ∧ i + 1 < c.captures.length ∧
      c.captures.getD (i + 1) 0 ≤ stage
  | .constant _ _ | .argument _ => True

/-- Availability depends on the assembly only through the placed operations. -/
theorem Available.of_placed {stage : Nat} {a' : Assembly} (hp : a'.placed = a.placed) :
    ∀ {v : Value}, Available c a stage v → Available c a' stage v
  | .result _, h => fun hop => by
    obtain ⟨origin, ready, h₁, h₂, h₃, h₄, h₅⟩ := h hop
    exact ⟨origin, ready, h₁, h₂, h₃, h₄, hp ▸ h₅⟩
  | .inductionVar, h | .iterArg _, h | .constant _ _, h | .argument _, h => h

theorem Available.frame {stage : Nat} {a' : Assembly} (hf : Frame a a') {v : Value}
    (h : Available c a stage v) : Available c a' stage v :=
  h.of_placed hf.placed

/-- An available operand is read without error. -/
theorem operand_spec (hsound : Sound c last a) {consumer : OpRef} {stage : Nat}
    (hstage : stage ≤ last) : ∀ {v : Value}, Available c a stage v →
      Succeeds (operand consumer stage v) c a (Delivers c last a stage)
  | .constant _ _, _ => Succeeds.pure ⟨hsound, Frame.refl a, trivial⟩
  | .argument _, _ => Succeeds.pure ⟨hsound, Frame.refl a, trivial⟩
  | .result id, h => by
    unfold operand
    refine Succeeds.bind_of_run rfl ?_
    dsimp only
    by_cases hop : c.loop.hasOp id
    · obtain ⟨origin, ready, horigin, hready, hle, horigin_le, hplaced⟩ := h hop
      rw [if_pos hop]
      refine Succeeds.bind_of_run (by rw [horigin]; rfl) ?_
      refine Succeeds.bind_of_run (by rw [hready]; rfl) ?_
      refine Succeeds.bind_of_run rfl ?_
      have hcontains : a.placed.contains (OpRef.body id) = true := List.elem_iff.2 hplaced
      have hcond : ¬(ready > (stage : Int) ∨
          (origin = stage ∧ (!a.placed.contains (OpRef.body id)) = true)) := by
        rw [hcontains]
        simp only [Bool.not_true, Bool.false_eq_true, and_false, or_false]
        omega
      rw [if_neg hcond]
      -- the producer sits in the stage of its start time, so its stage reads it at the end
      exact route_spec hsound horigin_le hstage (hsound.placed _ hplaced origin horigin)
    · rw [if_neg hop]
      exact Succeeds.pure ⟨hsound, Frame.refl a, trivial⟩
  | .inductionVar, ⟨hlen, hcapture⟩ => iterArg_spec hsound hlen hcapture hstage
  | .iterArg i, ⟨hi, hlen, hcapture⟩ => by
    unfold operand
    refine Succeeds.bind_of_run rfl ?_
    have hslot : (Assembly.lift (c.slotOf i) : AssemblyM Nat) c a = .ok (i + 1, a) := by
      simp [Lowering.slotOf, hi]
      rfl
    exact Succeeds.bind_of_run hslot (iterArg_spec hsound hlen hcapture hstage)


/-! ### Placing operations -/

/-- A traversal whose steps keep an invariant and only add registers collects results that stay
good as registers are added. -/
theorem Succeeds.mapM {δ ε : Type} {f : δ → AssemblyM ε} (inv : Assembly → Prop)
    (good : ε → Assembly → Prop) (hgood : ∀ y a a', good y a → Frame a a' → good y a') :
    ∀ (xs : List δ) (a : Assembly), inv a →
      (∀ x ∈ xs, ∀ a', inv a' → Frame a a' →
        Succeeds (f x) c a' fun y a'' => inv a'' ∧ Frame a' a'' ∧ good y a'') →
      Succeeds (xs.mapM f) c a fun ys a' =>
        inv a' ∧ Frame a a' ∧ ys.length = xs.length ∧ ∀ y ∈ ys, good y a'
  | [], a, hinv, _ => Succeeds.pure ⟨hinv, Frame.refl a, rfl, by simp⟩
  | x :: xs, a, hinv, hstep => by
    rw [List.mapM_cons]
    refine Succeeds.bind (hstep x List.mem_cons_self a hinv (Frame.refl a))
      fun y a₁ ⟨hinv₁, hframe₁, hy⟩ => ?_
    refine Succeeds.bind (Succeeds.mapM inv good hgood xs a₁ hinv₁
      fun x' hx' a' hinv' hframe' => hstep x' (List.mem_cons_of_mem _ hx') a' hinv'
        (hframe₁.trans hframe')) fun ys a₂ ⟨hinv₂, hframe₂, hlen, hys⟩ => ?_
    refine Succeeds.pure ⟨hinv₂, hframe₁.trans hframe₂, by simp [hlen], fun y' hy' => ?_⟩
    rcases List.mem_cons.1 hy' with rfl | hy'
    · exact hgood _ _ _ hy hframe₂
    · exact hys y' hy'

/-- Reading in stage `stage` after its current operations survives added registers. -/
theorem reads_frame {stage : Nat} {x : StageOperand} {a a' : Assembly}
    (hx : Reads c.captures a stage (Pipeline.ids (a.stageAt stage).operations) x) (hf : Frame a a') :
    Reads c.captures a' stage (Pipeline.ids (a'.stageAt stage).operations) x := by
  rw [hf.operations]
  exact hf.reads hx

/-- What placing an operation in stage `stage` needs: the increment reads the induction variable;
a body operation is in the loop and each of its operands is available. -/
def Placeable (c : Lowering) (a : Assembly) (stage : Nat) : OpRef → Prop
  | .increment => Available c a stage .inductionVar
  | .body id => ∃ o, c.loop.findOp? id = some o ∧ ∀ v ∈ o.operands, Available c a stage v

/-- A placeable operation is built without error, with operands the stage can read after its
current operations. -/
theorem place_spec (hsound : Sound c last a) {stage : Nat} (hstage : stage ≤ last) :
    ∀ {op : OpRef}, Placeable c a stage op →
      Succeeds (place stage op) c a fun so a' => Sound c last a' ∧ Frame a a' ∧ so.id = op ∧
        ∀ x ∈ so.operands, Reads c.captures a' stage (Pipeline.ids (a'.stageAt stage).operations) x
  | .increment, hop => by
    unfold place
    refine Succeeds.bind (operand_spec hsound hstage hop) fun counter a₁ ⟨hsound₁, hframe₁, hread⟩ =>
      Succeeds.bind_of_run rfl (Succeeds.pure ⟨hsound₁, hframe₁, rfl, fun x hx => ?_⟩)
    rcases List.mem_cons.1 hx with rfl | hx
    · exact hread
    · rw [List.mem_singleton.1 hx]
      trivial
  | .body id, ⟨o, hfind, havail⟩ => by
    unfold place
    refine Succeeds.bind_of_run rfl ?_
    rw [hfind]
    refine Succeeds.bind (Succeeds.mapM (fun a' => Sound c last a' ∧ Frame a a')
      (fun x a' => Reads c.captures a' stage (Pipeline.ids (a'.stageAt stage).operations) x)
      (fun _ _ _ hx hf => reads_frame hx hf) o.operands a ⟨hsound, Frame.refl a⟩
      fun v hv a' ⟨hsound', hframe'⟩ _ => (operand_spec hsound' hstage
        ((havail v hv).frame hframe')).mono fun x a'' ⟨hsound'', hframe'', hread⟩ =>
          ⟨⟨hsound'', hframe'.trans hframe''⟩, hframe'', hread⟩)
      fun operands a₁ ⟨⟨hsound₁, hframe₁⟩, _, _, hreads⟩ => ?_
    exact Succeeds.pure ⟨hsound₁, hframe₁, rfl, hreads⟩

/-- Where an element sits in a list with one element appended. -/
theorem eq_append_cons_of_append_singleton {α : Type} {l pre post : List α} {x o : α}
    (h : l ++ [x] = pre ++ o :: post) :
    (pre = l ∧ o = x ∧ post = []) ∨ ∃ post', l = pre ++ o :: post' := by
  rcases List.append_eq_append_iff.1 h with ⟨rest, hpre, hx⟩ | ⟨rest, hl, hpost⟩
  · cases rest with
    | nil =>
      simp only [List.nil_append, List.cons.injEq] at hx
      exact Or.inl ⟨by simpa using hpre, hx.1.symm, hx.2.symm⟩
    | cons r rest =>
      simp only [List.cons_append, List.cons.injEq] at hx
      simp at hx
  · cases rest with
    | nil =>
      simp only [List.nil_append, List.cons.injEq] at hpost
      exact Or.inl ⟨by simpa using hl.symm, hpost.1, hpost.2⟩
    | cons r rest =>
      simp only [List.cons_append, List.cons.injEq] at hpost
      exact Or.inr ⟨rest, by rw [hl, hpost.1]⟩

/-- Appending to one stage appends to the operations of all stages, up to order. -/
theorem flatMap_range_perm {β : Type} (g g' : Nat → List β) (stage : Nat) (x : β)
    (hg : ∀ k, g' k = if stage = k then g k ++ [x] else g k) :
    ∀ n, stage < n → ((List.range n).flatMap g').Perm ((List.range n).flatMap g ++ [x])
  | 0, h => absurd h (Nat.not_lt_zero _)
  | n + 1, h => by
    rw [List.range_succ, List.flatMap_append, List.flatMap_append, List.flatMap_singleton,
      List.flatMap_singleton, hg n]
    by_cases hn : stage = n
    · have hbelow : (List.range n).flatMap g' = (List.range n).flatMap g :=
        List.flatMap_congr fun k hk => by
          rw [hg k, if_neg (by rw [List.mem_range] at hk; omega)]
      rw [if_pos hn, hbelow, List.append_assoc]
    · rw [if_neg hn]
      have hprev := (flatMap_range_perm g g' stage x hg n (by omega)).append_right (g n)
      rw [List.append_assoc] at hprev ⊢
      exact hprev.trans (List.perm_append_comm.append_left _)

/-- Placing a placeable operation in the stage of its start time keeps the assembly sound. -/
theorem placeAt_spec (hsound : Sound c last a) {stage : Nat} {op : OpRef}
    (hstart : c.startOf op = .ok stage) (hstage : stage ≤ last) (hop : Placeable c a stage op) :
    Succeeds (placeAt (stage, op)) c a fun _ a' => Sound c last a' ∧ a'.placed = op :: a.placed := by
  unfold placeAt
  refine Succeeds.bind (place_spec hsound hstage hop) fun so a₁ ⟨hsound₁, hframe₁, hid, hreads⟩ =>
    ⟨⟨⟩, _, rfl, ?_⟩
  have hlt : stage < a₁.stages.size := by rw [hsound₁.size]; omega
  have hat : ∀ k, ({ a₁ with
      stages := a₁.stages.modify stage fun s => { s with operations := s.operations ++ [so] }
      placed := op :: a₁.placed } : Assembly).stageAt k =
      if stage = k then { a₁.stageAt k with operations := (a₁.stageAt k).operations ++ [so] }
      else a₁.stageAt k :=
    stageAt_modify hlt _ _ _
  have hregs : ∀ k, (({ a₁ with
      stages := a₁.stages.modify stage fun s => { s with operations := s.operations ++ [so] }
      placed := op :: a₁.placed } : Assembly).stageAt k).registers = (a₁.stageAt k).registers :=
    fun k => by rw [hat]; split <;> rfl
  have hgrow : ∀ k, ∀ x ∈ Pipeline.ids (a₁.stageAt k).operations, x ∈ Pipeline.ids (({ a₁ with
      stages := a₁.stages.modify stage fun s => { s with operations := s.operations ++ [so] }
      placed := op :: a₁.placed } : Assembly).stageAt k).operations := fun k x hx => by
    rw [hat]
    split
    · simp only [Pipeline.ids, List.map_append]
      exact List.mem_append_left _ hx
    · exact hx
  have hmono : ∀ {k : Nat} {defined : List OpRef} {x : StageOperand},
      Reads c.captures a₁ k defined x → Reads c.captures ({ a₁ with
        stages := a₁.stages.modify stage fun s => { s with operations := s.operations ++ [so] }
        placed := op :: a₁.placed } : Assembly) k defined x :=
    fun hx => hx.mono (fun k => by rw [hregs]) fun _ => id
  refine ⟨⟨by rw [Array.size_modify, hsound₁.size], fun k => by rw [hat]; split <;> exact hsound₁.index k,
    fun st key slot hmem => by rw [hregs]; exact hsound₁.slots st key slot hmem,
    fun k pre o post hops x hx => ?_, fun k x hx => ?_, fun op' hop' k hk => ?_, ?_⟩,
    show op :: a₁.placed = op :: a.placed by rw [hframe₁.placed]⟩
  · rw [hat] at hops
    split at hops
    · rename_i hk
      subst hk
      rcases eq_append_cons_of_append_singleton hops with ⟨rfl, rfl, -⟩ | ⟨post', hold⟩
      · exact hmono (hreads x hx)
      · exact hmono (hsound₁.operations stage pre o post' hold x hx)
    · exact hmono (hsound₁.operations k pre o post hops x hx)
  · rw [hregs] at hx
    exact (hsound₁.registers k x hx).mono (fun k => by rw [hregs]) (hgrow k)
  · rcases List.mem_cons.1 hop' with rfl | hop'
    · rw [hstart] at hk
      cases hk
      rw [hat, if_pos rfl]
      simp [Pipeline.ids, hid]
    · exact hgrow k op' (hsound₁.placed op' hop' k hk)
  · dsimp only
    unfold placedIds
    rw [Array.size_modify]
    refine (flatMap_range_perm (fun k => Pipeline.ids (a₁.stageAt k).operations) _ stage op
      (fun k => ?_) _ hlt).trans ((hsound₁.perm.append_right _).trans (List.perm_append_singleton _ _))
    rw [hat]
    split
    · simp [Pipeline.ids, hid]
    · rfl

/-! ### The terminator -/

/-- Whether the terminator may read `x`: a register must exist. -/
def EndReads (a : Assembly) : StageOperand → Prop
  | .constant _ _ | .argument _ | .outer _ => True
  | .register stage slot => slot < (a.stageAt stage).registers.length
  | .iterArg _ | .sameStage _ => False

theorem EndReads.frame {a a' : Assembly} (hf : Frame a a') :
    ∀ {x : StageOperand}, EndReads a x → EndReads a' x
  | .constant _ _, h | .argument _, h | .outer _, h => h
  | .register stage _, h => lt_of_lt_of_le h (hf.registers stage).length_le

/-- The register of a placed producer's stage. -/
theorem produced_spec (hsound : Sound c last a) {producer : OpRef} {stage : Nat}
    (hstart : c.startOf producer = .ok stage) (hstage : stage ≤ last)
    (hplaced : producer ∈ a.placed) :
    Succeeds (produced producer) c a fun x a' => Sound c last a' ∧ Frame a a' ∧ EndReads a' x := by
  unfold produced
  refine Succeeds.bind_of_run rfl (Succeeds.bind_of_run (by rw [hstart]; rfl) ?_)
  exact Succeeds.bind (register_spec hsound hstage (hsound.placed producer hplaced stage hstart))
    fun slot a₁ ⟨hsound₁, hframe₁, hslot⟩ => Succeeds.pure ⟨hsound₁, hframe₁, hslot⟩

/-- The register of an iteration argument's capture stage. -/
theorem captured_spec (hsound : Sound c last a) {slot : Nat} (hslot : slot < c.captures.length)
    (hcapture : c.captures.getD slot 0 ≤ last) :
    Succeeds (captured slot) c a fun x a' => Sound c last a' ∧ Frame a a' ∧ EndReads a' x := by
  unfold captured
  refine Succeeds.bind_of_run rfl ?_
  have hread : Reads c.captures a (c.captures.getD slot 0)
      (Pipeline.ids (a.stageAt (c.captures.getD slot 0)).operations) (.iterArg slot) := by
    show c.captures[slot]? = some (c.captures.getD slot 0)
    simp [List.getElem?_eq_getElem hslot]
  exact Succeeds.bind (register_spec hsound hcapture hread)
    fun reg a₁ ⟨hsound₁, hframe₁, hreg⟩ => Succeeds.pure ⟨hsound₁, hframe₁, hreg⟩

/-- Once every operation of the loop is placed, the terminator is built without error: one next
value per slot and one result per yield, all read from registers that exist. -/
theorem terminator_spec (hsound : Sound c last a)
    (hplaced : ∀ op, c.loop.isForeign op = false →
      ∃ stage, c.startOf op = .ok stage ∧ stage ≤ last ∧ op ∈ a.placed)
    (hcaptures : c.captures.length = c.loop.iterInits.length + 1)
    (hcaptureLe : ∀ k, c.captures.getD k 0 ≤ last)
    (hyields : ∀ v ∈ c.loop.yields, ∀ j, v = .iterArg j → j < c.loop.iterInits.length) :
    Succeeds terminator c a fun t a' => Sound c last a' ∧ Frame a a' ∧
      t.iterArgs.length = c.loop.yields.length + 1 ∧ t.results.length = c.loop.yields.length ∧
      ∀ x ∈ t.iterArgs ++ t.results, EndReads a' x := by
  unfold terminator
  refine Succeeds.bind_of_run rfl ?_
  obtain ⟨st, hst, hle, hinc⟩ := hplaced .increment rfl
  refine Succeeds.bind (produced_spec hsound hst hle hinc) fun next a₁ ⟨hsound₁, hframe₁, hnext⟩ => ?_
  refine Succeeds.bind (Succeeds.mapM (fun a' => Sound c last a' ∧ Frame a a') (fun x a' => EndReads a' x)
    (fun _ _ _ hx hf => hx.frame hf) c.loop.yields a₁ ⟨hsound₁, hframe₁⟩
    fun v hv a' ⟨hsound', hframe'⟩ _ => ?_) fun yielded a₂ ⟨⟨hsound₂, hframe⟩, hframe₂, hlen, hys⟩ => ?_
  · have hkeep : ∀ {x : StageOperand} {a'' : Assembly},
        Sound c last a'' ∧ Frame a' a'' ∧ EndReads a'' x →
          (Sound c last a'' ∧ Frame a a'') ∧ Frame a' a'' ∧ EndReads a'' x :=
      fun ⟨hs, hf, hx⟩ => ⟨⟨hs, hframe'.trans hf⟩, hf, hx⟩
    cases v with
    | constant _ _ => exact Succeeds.pure ⟨⟨hsound', hframe'⟩, Frame.refl a', trivial⟩
    | argument _ => exact Succeeds.pure ⟨⟨hsound', hframe'⟩, Frame.refl a', trivial⟩
    | result id =>
      dsimp only
      by_cases hop : c.loop.hasOp id
      · rw [if_pos hop]
        obtain ⟨st', hst', hle', hin'⟩ := hplaced (.body id) (by simp [Loop.isForeign, hop])
        exact (produced_spec hsound' hst' hle' (hframe'.placed ▸ hin')).mono fun _ _ h => hkeep h
      · rw [if_neg hop]
        exact Succeeds.pure ⟨⟨hsound', hframe'⟩, Frame.refl a', trivial⟩
    | inductionVar =>
      exact (captured_spec hsound' (by omega) (hcaptureLe 0)).mono fun _ _ h => hkeep h
    | iterArg i =>
      have hi := hyields _ hv i rfl
      have hslot : (Assembly.lift (c.slotOf i) : AssemblyM Nat) c a' = .ok (i + 1, a') := by
        simp [Lowering.slotOf, hi]
        rfl
      exact Succeeds.bind_of_run hslot
        ((captured_spec hsound' (by omega) (hcaptureLe (i + 1))).mono fun _ _ h => hkeep h)
  · refine Succeeds.pure ⟨hsound₂, hframe, by simp [hlen], hlen, fun x hx => ?_⟩
    rcases List.mem_append.1 hx with hx | hx
    · rcases List.mem_cons.1 hx with rfl | hx
      · exact hnext.frame hframe₂
      · exact hys x hx
    · exact hys x hx


/-! ### The assembled pipeline -/

section Verify

variable {captures : List Nat} {p : Pipeline}

theorem stageAt_of_lt {k : Nat} (h : k < a.stages.size) : a.stageAt k = a.stages[k] := by
  simp [stageAt, Array.getD, h]

theorem stageAt_of_le {k : Nat} (h : a.stages.size ≤ k) : a.stageAt k = ⟨k, [], []⟩ := by
  simp [stageAt, Array.getD, Nat.not_lt.2 h]

/-- The assembly the construction starts from: stages `0 … last`, all empty. -/
def initial (last : Nat) : Assembly :=
  ⟨((List.range (last + 1)).map fun i => ⟨i, [], []⟩).toArray, [], []⟩

theorem stageAt_initial (last k : Nat) : (initial last).stageAt k = ⟨k, [], []⟩ := by
  by_cases hk : k < (initial last).stages.size
  · rw [stageAt_of_lt hk]
    simp [initial]
  · exact stageAt_of_le (Nat.not_lt.1 hk)

theorem sound_initial (c : Lowering) (last : Nat) : Sound c last (initial last) where
  size := by simp [initial]
  index k := by rw [stageAt_initial]
  slots _ _ _ h := absurd h List.not_mem_nil
  operations k pre o post h := by simp [stageAt_initial] at h
  registers k x hx := by simp [stageAt_initial] at hx
  placed _ h := absurd h List.not_mem_nil
  perm := by
    have hempty : placedIds (initial last) = [] := by
      simp only [placedIds, stageAt_initial, Pipeline.ids, List.map_nil, List.flatMap_eq_nil_iff]
      exact fun _ _ => trivial
    rw [hempty]
    exact List.Perm.nil

theorem toList_eq_map_stageAt (a : Assembly) :
    a.stages.toList = (List.range a.stages.size).map a.stageAt := by
  apply List.ext_getElem (by simp)
  intro i h₁ _
  rw [List.getElem_map, List.getElem_range, Array.getElem_toList]
  exact (stageAt_of_lt (by simpa using h₁)).symm

/-- A register of the assembly exists in a pipeline with the assembly's stages. -/
theorem registerExists_of_lt (hstages : p.stages = a.stages.toList) {source slot : Nat}
    (h : slot < (a.stageAt source).registers.length) : p.registerExists source slot = true := by
  unfold Pipeline.registerExists
  rw [hstages]
  by_cases hs : source < a.stages.size
  · rw [List.getElem?_eq_getElem (by simpa using hs), Array.getElem_toList, ← stageAt_of_lt hs]
    simpa using h
  · rw [stageAt_of_le (Nat.not_lt.1 hs)] at h
    exact absurd h (Nat.not_lt_zero _)

theorem Reads.readableIn (hstages : p.stages = a.stages.toList)
    (hcaptures : p.captureStages = captures) {stage : Nat} {defined : List OpRef} :
    ∀ {x : StageOperand}, Reads captures a stage defined x →
      p.readableIn stage defined.reverse x = true
  | .constant _ _, _ | .argument _, _ | .outer _, _ => rfl
  | .iterArg _, h => by
    unfold Reads at h
    simp [Pipeline.readableIn, hcaptures, h]
  | .sameStage _, h => by
    unfold Reads at h
    simp [Pipeline.readableIn, h]
  | .register _ _, ⟨hpos, rfl, hslot⟩ => by
    simp [Pipeline.readableIn, hpos, registerExists_of_lt hstages hslot]

theorem EndReads.readableAtEnd (hstages : p.stages = a.stages.toList) :
    ∀ {x : StageOperand}, EndReads a x → p.readableAtEnd x = true
  | .constant _ _, _ | .argument _, _ | .outer _, _ => rfl
  | .register _ _, h => registerExists_of_lt hstages h

/-- A pipeline made of a sound assembly's stages passes verification when its arities match,
its capture stages are those of the lowering, every operation is placed once and the increment
once, and its terminator reads what exists at the end. -/
theorem verify_of_sound (hsound : Sound c last a) (hstages : p.stages = a.stages.toList)
    (hcaptures : p.captureStages = c.captures)
    (hslots : p.captureStages.length = p.iterArgs.length)
    (hcaptureLe : ∀ k ∈ p.captureStages, k ≤ last)
    (htypes : p.iterArgTypes.length = p.iterArgs.length)
    (hhead : p.iterArgTypes.head? = some .index)
    (hnodup : a.placed.Nodup) (hone : a.placed.count .increment = 1)
    (hargs : p.terminator.iterArgs.length = p.iterArgs.length)
    (hresults : p.terminator.results.length = p.resultTypes.length)
    (hend : ∀ x ∈ p.terminator.iterArgs ++ p.terminator.results, EndReads a x) :
    p.verify = .ok () := by
  have hlist := toList_eq_map_stageAt a
  have hplaced : p.stages.flatMap (Pipeline.ids ·.operations) = placedIds a := by
    rw [hstages, hlist, List.flatMap_map]
    rfl
  have hstage : ∀ s ∈ p.stages, s = a.stageAt s.index := by
    intro s hs
    rw [hstages, hlist] at hs
    obtain ⟨k, _, rfl⟩ := List.mem_map.1 hs
    rw [hsound.index]
  refine Pipeline.verify_eq_ok p ?_ htypes hhead hslots ?_ ?_ ?_ ?_ ?_ ?_ hargs hresults ?_
  · rw [hstages, hlist, hsound.size]
    simp
  · intro k hk
    rw [hstages, hlist, List.length_map, List.length_range, hsound.size]
    exact Nat.lt_succ_of_le (hcaptureLe k hk)
  · intro i h
    have hi : p.stages[i] = a.stageAt i := by simp [hstages, hlist]
    rw [hi, hsound.index]
  · intro s hs pre o post hops x hx
    rw [hstage s hs] at hops
    exact (hsound.operations s.index pre o post hops x hx).readableIn hstages hcaptures
  · intro s hs x hx
    have h := hsound.registers s.index x (by rw [← hstage s hs]; exact hx)
    rw [← hstage s hs] at h
    exact h.readableIn hstages hcaptures
  · rw [hplaced]
    exact hsound.perm.nodup_iff.2 hnodup
  · rw [hplaced, hsound.perm.count_eq]
    exact hone
  · exact fun x hx => (hend x hx).readableAtEnd hstages

end Verify

end Assembly

end ModuloPipelining
