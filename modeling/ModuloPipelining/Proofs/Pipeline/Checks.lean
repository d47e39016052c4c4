import ModuloPipelining.Proofs.Pipeline.Routing

/-!
# The checks of lowering

`Loop.construct` verifies the pipeline it has assembled before it returns it, and reports a
failed verification as `ConstructionError.malformed`. On a pipelining candidate whose operations
have distinct identities, under any problem whose latencies are not negative, whatever its
interval and start times, that verification never fails
(`Loop.construct_fails_only_by_checks`): lowering fails only by one of the checks it makes while
it assembles (`ConstructionError.IsCheck`).

Failures and returns are followed apart. No step of the assembly builds an error other than a
check (`Assembly.Raises`). A run that returns passed every check on its way, and each check passed
gives what the next step needs: an operand read without error was available
(`Assembly.operand_available`), so an operation placed without error was placeable, and a
terminator built without error reads only iteration arguments that exist. Entries are placed by
start cycle, so the producer of a result read in a later stage is placed first. The assembly then
stays sound and passes verification (`Assembly.verify_of_sound`), as in `Loop.construct_eq_ok`,
where a schedule of the loop, and not the checks, gives these facts.
-/

namespace ModuloPipelining

/-- The errors lowering reports from the checks it makes while it assembles: neither a failed
verification nor a loop missing from its function. -/
def ConstructionError.IsCheck : ConstructionError → Prop
  | .missingInitiationInterval | .missingStartTime _ | .unknownOperation _
  | .readBeforeAvailable _ _ | .unknownIterArg _ | .earlyIterArgRead _ _ _ _ => True
  | .loopNotFound _ | .malformed _ => False

instance : DecidablePred ConstructionError.IsCheck
  | .missingInitiationInterval | .missingStartTime _ | .unknownOperation _
  | .readBeforeAvailable _ _ | .unknownIterArg _ | .earlyIterArgRead _ _ _ _ => isTrue trivial
  | .loopNotFound _ | .malformed _ => isFalse id

/-! ### Failures of the lookups -/

namespace Lowering

variable {c : Lowering} {e : ConstructionError}

theorem startOf_eq_error {op : OpRef} (h : c.startOf op = .error e) : e.IsCheck := by
  unfold startOf at h
  split at h
  · cases h
  · cases h
    trivial

theorem readyTime_eq_error {op : OpRef} (h : c.readyTime op = .error e) : e.IsCheck := by
  unfold readyTime at h
  rcases bind_eq_error h with h | ⟨_, -, h⟩
  · exact startOf_eq_error h
  · cases h

theorem slotOf_eq_error {i : Nat} (h : c.slotOf i = .error e) : e.IsCheck := by
  unfold slotOf at h
  split at h
  · cases h
  · cases h
    trivial

theorem lt_of_slotOf_eq_ok {i slot : Nat} (h : c.slotOf i = .ok slot) :
    i < c.loop.iterInits.length := by
  unfold slotOf at h
  split at h
  · assumption
  · cases h

/-- A start time the problem stores is the one lowering reads. -/
theorem start_eq_of_startOf {op : OpRef} {s : Nat} (h : c.startOf op = .ok s) :
    c.problem.start op = s := by
  simp [Problem.start, startOf_eq_ok.1 h]

theorem captureRound_eq_error {ii last : Nat} {captures : List Nat}
    (h : c.captureRound ii last captures = .error e) : e.IsCheck := by
  unfold captureRound at h
  rcases bind_eq_error h with h | ⟨_, -, h⟩
  · exact readyTime_eq_error h
  rcases bind_eq_error h with h | ⟨_, -, h⟩
  · obtain ⟨v, -, hv⟩ := exists_of_mapM_eq_error h
    cases v with
    | result id =>
      dsimp only at hv
      split at hv
      · exact readyTime_eq_error hv
      · cases hv
    | iterArg i =>
      rcases bind_eq_error hv with hv | ⟨_, -, hv⟩
      · exact slotOf_eq_error hv
      · cases hv
    | constant _ _ | argument _ | inductionVar => cases hv
  · cases h

theorem captureStages_eq_error {ii last : Nat} (h : c.captureStages ii last = .error e) :
    e.IsCheck := by
  obtain ⟨_, -, _, hround⟩ := exists_of_foldlM_eq_error h
  exact captureRound_eq_error hround

/-- Every round gives one capture stage per slot. -/
theorem length_captureRound {ii last : Nat} {captures next : List Nat}
    (h : c.captureRound ii last captures = .ok next) : next.length = c.loop.iterInits.length + 1 := by
  unfold captureRound at h
  obtain ⟨_, -, h⟩ := bind_eq_ok h
  obtain ⟨rest, hrest, h⟩ := bind_eq_ok h
  cases h
  have hlen := length_of_mapM_eq_ok hrest
  simp only [List.length_take] at hlen
  simp only [List.length_map, List.length_append, List.length_cons, List.length_replicate]
  omega

theorem length_captureStages {ii last : Nat} {captures : List Nat}
    (h : c.captureStages ii last = .ok captures) : captures.length = c.loop.iterInits.length + 1 :=
  foldlM_eq_ok_of_step (fun captures => captures.length = c.loop.iterInits.length + 1)
    (fun _ _ _ _ hround => length_captureRound hround) (List.length_replicate ..) h

end Lowering

/-! ### Runs that fail -/

namespace Assembly

section Raises

variable {β γ : Type}

/-- Every run of `x` that fails reports one of lowering's checks. -/
def Raises (x : AssemblyM β) : Prop :=
  ∀ c a e, x c a = .error e → e.IsCheck

theorem Raises.pure (r : β) : Raises (Pure.pure r : AssemblyM β) :=
  fun _ _ _ h => by cases h

/-- A step that never fails. -/
theorem Raises.of_ok {x : AssemblyM β} (h : ∀ c a, ∃ r, x c a = .ok r) : Raises x := by
  intro c a e he
  obtain ⟨r, hr⟩ := h c a
  rw [hr] at he
  cases he

theorem Raises.bind {x : AssemblyM β} {f : β → AssemblyM γ} (hx : Raises x)
    (hf : ∀ r, Raises (f r)) : Raises (x >>= f) := by
  intro c a e h
  rw [bind_run] at h
  rcases hrun : x c a with e' | ⟨r, a'⟩
  · rw [hrun] at h
    cases h
    exact hx c a e hrun
  · rw [hrun] at h
    exact hf r c a' e h

theorem Raises.read_bind {f : Lowering → AssemblyM β} (hf : ∀ c, Raises (f c)) :
    Raises (read >>= f) :=
  Raises.bind (Raises.of_ok fun c a => ⟨(c, a), rfl⟩) hf

theorem Raises.lift {x : Except ConstructionError β} (hx : ∀ e, x = .error e → e.IsCheck) :
    Raises (lift x) := by
  intro c a e h
  cases x with
  | error e' =>
    cases h
    exact hx _ rfl
  | ok r => cases h

/-- Reporting a check. -/
theorem Raises.lift_error {e : ConstructionError} (he : e.IsCheck) :
    Raises (Assembly.lift (.error e) : AssemblyM β) :=
  Raises.lift fun _ h => by
    cases h
    exact he

theorem Raises.mapM {δ : Type} {f : δ → AssemblyM β} (hf : ∀ x, Raises (f x)) :
    ∀ xs : List δ, Raises (xs.mapM f)
  | [] => Raises.pure []
  | x :: xs => by
    rw [List.mapM_cons]
    exact Raises.bind (hf x) fun _ => Raises.bind (Raises.mapM hf xs) fun _ => Raises.pure _

theorem Raises.forM {δ : Type} {f : δ → AssemblyM PUnit} (hf : ∀ x, Raises (f x)) :
    ∀ xs : List δ, Raises (xs.forM f)
  | [] => Raises.pure PUnit.unit
  | x :: xs => Raises.bind (hf x) fun _ => Raises.forM hf xs

theorem Raises.foldlM {δ : Type} {f : β → δ → AssemblyM β} (hf : ∀ acc x, Raises (f acc x)) :
    ∀ (xs : List δ) (init : β), Raises (xs.foldlM f init)
  | [], _ => Raises.pure _
  | x :: xs, init => by
    rw [List.foldlM_cons]
    exact Raises.bind (hf init x) fun acc => Raises.foldlM hf xs acc

end Raises

theorem register_raises (stage : Nat) (key : RouteKey) (operand : StageOperand) :
    Raises (register stage key operand) :=
  Raises.of_ok fun c a => by
    rw [register_run]
    split <;> exact ⟨_, rfl⟩

theorem route_raises (key : RouteKey) (first : StageOperand) (origin stage : Nat) :
    Raises (route key first origin stage) :=
  Raises.foldlM (fun _ through =>
    Raises.bind (register_raises through key _) fun _ => Raises.pure _) _ _

theorem iterArg_raises (slot : Nat) (consumer : OpRef) (stage : Nat) :
    Raises (iterArg slot consumer stage) := by
  unfold iterArg
  refine Raises.read_bind fun c => ?_
  dsimp only
  split
  · exact Raises.lift_error trivial
  · exact route_raises _ _ _ _

theorem operand_raises (consumer : OpRef) (stage : Nat) : ∀ v, Raises (operand consumer stage v)
  | .constant _ _ | .argument _ => Raises.pure _
  | .result id => by
    unfold operand
    refine Raises.read_bind fun c => ?_
    dsimp only
    split
    · refine Raises.bind (Raises.lift fun _ => Lowering.startOf_eq_error) fun origin => ?_
      refine Raises.bind (Raises.lift fun _ => Lowering.readyTime_eq_error) fun ready => ?_
      refine Raises.bind (Raises.of_ok fun _ a => ⟨(a, a), rfl⟩) fun a => ?_
      split
      · exact Raises.lift_error trivial
      · exact route_raises _ _ _ _
    · exact Raises.pure _
  | .inductionVar => iterArg_raises 0 consumer stage
  | .iterArg i => Raises.read_bind fun c =>
    Raises.bind (Raises.lift fun _ => Lowering.slotOf_eq_error) fun slot =>
      iterArg_raises slot consumer stage

theorem place_raises (stage : Nat) : ∀ op, Raises (place stage op)
  | .increment => Raises.bind (operand_raises _ _ _) fun _ =>
    Raises.read_bind fun _ => Raises.pure _
  | .body id => by
    unfold place
    refine Raises.read_bind fun c => ?_
    split
    · exact Raises.lift_error trivial
    · exact Raises.bind (Raises.mapM (operand_raises _ _) _) fun _ => Raises.pure _

theorem placeAt_raises (entry : Nat × OpRef) : Raises (placeAt entry) :=
  Raises.bind (place_raises _ _) fun _ => Raises.of_ok fun _ _ => ⟨(⟨⟩, _), rfl⟩

theorem produced_raises (producer : OpRef) : Raises (produced producer) :=
  Raises.read_bind fun _ => Raises.bind (Raises.lift fun _ => Lowering.startOf_eq_error)
    fun _ => Raises.bind (register_raises _ _ _) fun _ => Raises.pure _

theorem captured_raises (slot : Nat) : Raises (captured slot) :=
  Raises.read_bind fun _ => Raises.bind (register_raises _ _ _) fun _ => Raises.pure _

theorem terminator_raises : Raises terminator := by
  unfold terminator
  refine Raises.read_bind fun c => Raises.bind (produced_raises _) fun _ => ?_
  refine Raises.bind (Raises.mapM (fun v => ?_) _) fun _ => Raises.pure _
  cases v with
  | result id =>
    dsimp only
    split
    · exact produced_raises _
    · exact Raises.pure _
  | inductionVar => exact captured_raises 0
  | iterArg i =>
    exact Raises.bind (Raises.lift fun _ => Lowering.slotOf_eq_error) fun slot => captured_raises slot
  | constant _ _ | argument _ => exact Raises.pure _

/-- Placing entries and building the terminator fails only by a check. -/
theorem run_raises (sorted : List (Nat × Nat × OpRef)) :
    Raises ((sorted.forM fun x => placeAt (x.1, x.2.2)) >>= fun _ => terminator) :=
  Raises.bind (Raises.forM (fun _ => placeAt_raises _) sorted) fun _ => terminator_raises

/-! ### Runs that return -/

section Returns

variable {β γ : Type} {c : Lowering} {a : Assembly}

/-- The assembly is deterministic: what the run that succeeds ends with, every run that returns
ends with. -/
theorem Ensures.of_succeeds {x : AssemblyM β} {post : β → Assembly → Prop}
    (h : Succeeds x c a post) : Ensures x c a post := by
  obtain ⟨r, a', hrun, hpost⟩ := h
  intro r' a'' hrun'
  rw [hrun] at hrun'
  obtain ⟨rfl, rfl⟩ := Prod.mk.inj (Except.ok.inj hrun')
  exact hpost

/-- A fact that holds whatever the run does. -/
theorem Ensures.const {x : AssemblyM β} {P : Prop} (h : P) : Ensures x c a fun _ _ => P :=
  fun _ _ _ => h

/-- A traversal whose steps keep an invariant, each leaving a fact about its element. -/
theorem Ensures.mapM {δ : Type} {f : δ → AssemblyM γ} (inv : Assembly → Prop) (done : δ → Prop) :
    ∀ {xs : List δ}, (∀ x ∈ xs, ∀ a, inv a → Ensures (f x) c a fun _ a' => inv a' ∧ done x) →
      ∀ a, inv a → Ensures (xs.mapM f) c a fun _ a' => inv a' ∧ ∀ x ∈ xs, done x
  | [], _, _, ha => Ensures.pure ⟨ha, by simp⟩
  | x :: xs, hstep, a, ha => by
    rw [List.mapM_cons]
    refine Ensures.bind (hstep x List.mem_cons_self a ha) fun _ a₁ ⟨ha₁, hx⟩ => ?_
    refine Ensures.bind (Ensures.mapM inv done (fun y hy => hstep y (List.mem_cons_of_mem _ hy))
      a₁ ha₁) fun _ a₂ ⟨ha₂, hxs⟩ => Ensures.pure ⟨ha₂, fun y hy => ?_⟩
    rcases List.mem_cons.1 hy with rfl | hy
    · exact hx
    · exact hxs y hy

/-- A traversal keeps an invariant of the elements done so far that each of its steps keeps. -/
theorem Ensures.forM_done {δ : Type} {f : δ → AssemblyM PUnit} (all : List δ)
    (inv : List δ → Assembly → Prop)
    (hstep : ∀ pre x post a, all = pre ++ x :: post → inv pre a →
      Ensures (f x) c a fun _ a' => inv (pre ++ [x]) a') :
    ∀ (done todo : List δ) (a : Assembly), all = done ++ todo → inv done a →
      Ensures (todo.forM f) c a fun _ a' => inv all a'
  | done, [], a, hall, hinv => Ensures.pure (by rw [hall, List.append_nil]; exact hinv)
  | done, x :: todo, a, hall, hinv => by
    show Ensures (f x >>= fun _ => todo.forM f) c a _
    exact Ensures.bind (hstep done x todo a hall hinv) fun _ a' h =>
      Ensures.forM_done all inv hstep (done ++ [x]) todo a' (by rw [hall]; simp) h

end Returns

/-- Every body operation of the loop that starts before stage `stage` is placed. -/
def EarlierPlaced (c : Lowering) (a : Assembly) (stage : Nat) : Prop :=
  ∀ id origin, c.loop.hasOp id = true → c.startOf (.body id) = .ok origin → origin < stage →
    OpRef.body id ∈ a.placed

section Checked

variable {c : Lowering} {last : Nat} {a : Assembly}
  (hlat : ∀ op t, c.problem.latencyOf? op = some t → 0 ≤ t)
  (hcaptures : c.captures.length = c.loop.iterInits.length + 1)

/-- An iteration argument read without error is read no earlier than its capture stage. -/
theorem iterArg_captured (slot : Nat) (consumer : OpRef) (stage : Nat) :
    Ensures (iterArg slot consumer stage) c a fun _ _ => c.captures.getD slot 0 ≤ stage := by
  unfold iterArg
  refine Ensures.bind_of_run rfl ?_
  dsimp only
  split
  · exact Ensures.lift_error
  · rename_i hcapture
    exact Ensures.const (Nat.not_lt.1 hcapture)

include hlat hcaptures in
/-- An operand read without error was available: the checks of the read are what availability
asks, once latencies are not negative and the producers of earlier stages are placed. -/
theorem operand_available {stage : Nat} (hearlier : EarlierPlaced c a stage) (consumer : OpRef) :
    ∀ v, Ensures (operand consumer stage v) c a fun _ _ => Available c a stage v
  | .constant _ _ | .argument _ => Ensures.const trivial
  | .result id => by
    unfold operand
    refine Ensures.bind_of_run rfl ?_
    dsimp only
    by_cases hop : c.loop.hasOp id
    · rw [if_pos hop]
      refine Ensures.lift_bind fun origin horigin => Ensures.lift_bind fun ready hready => ?_
      refine Ensures.bind_of_run rfl ?_
      split
      · exact Ensures.lift_error
      · rename_i hpass
        obtain ⟨hlate, hsame⟩ := not_or.1 hpass
        have hstart := Lowering.start_le_readyTime hlat horigin hready
        refine Ensures.const fun _ => ⟨origin, ready, horigin, hready, by omega, by omega, ?_⟩
        rcases Nat.lt_or_ge origin stage with hlt | hge
        · exact hearlier id origin hop horigin hlt
        · by_contra hout
          exact hsame ⟨by omega, by simpa using hout⟩
    · rw [if_neg hop]
      exact Ensures.const fun h => absurd h hop
  | .inductionVar => (iterArg_captured 0 consumer stage).mono fun _ _ h => ⟨by omega, h⟩
  | .iterArg i => by
    unfold operand
    refine Ensures.bind_of_run rfl (Ensures.lift_bind fun slot hslot => ?_)
    have hi := Lowering.lt_of_slotOf_eq_ok hslot
    rw [Lowering.slotOf_eq_ok hslot]
    exact (iterArg_captured (i + 1) consumer stage).mono fun _ _ h => ⟨hi, by omega, h⟩

include hlat hcaptures in
/-- An operation placed without error was placeable. -/
theorem place_placeable (hsound : Sound c last a) {stage : Nat} (hstage : stage ≤ last)
    (hearlier : EarlierPlaced c a stage) :
    ∀ op, Ensures (place stage op) c a fun _ _ => Placeable c a stage op
  | .increment => Ensures.bind (operand_available hlat hcaptures hearlier _ .inductionVar)
    fun _ _ h => Ensures.bind_of_run rfl (Ensures.pure h)
  | .body id => by
    unfold place
    refine Ensures.bind_of_run rfl ?_
    split
    · exact Ensures.lift_error
    · rename_i o hfind
      -- the operands are read one after another; each read adds registers and places nothing
      refine Ensures.bind (Ensures.mapM (fun a' => Sound c last a' ∧ a'.placed = a.placed)
        (Available c a stage) (fun v _ a' ⟨hsound', hplaced'⟩ => ?_) a ⟨hsound, rfl⟩)
        fun _ _ ⟨_, havail⟩ => Ensures.pure ⟨o, hfind, havail⟩
      intro x a'' hrun
      have hearlier' : EarlierPlaced c a' stage := fun id' origin hop h hlt =>
        hplaced' ▸ hearlier id' origin hop h hlt
      have havail := operand_available hlat hcaptures hearlier' _ v x a'' hrun
      obtain ⟨hsound'', hframe, -⟩ := Ensures.of_succeeds (operand_spec hsound' hstage havail) x a'' hrun
      exact ⟨⟨hsound'', hframe.placed.trans hplaced'⟩, havail.of_placed hplaced'.symm⟩

include hlat hcaptures in
/-- Placing an operation without error keeps the assembly sound. -/
theorem placeAt_sound (hsound : Sound c last a) {stage : Nat} {op : OpRef}
    (hstart : c.startOf op = .ok stage) (hstage : stage ≤ last) (hearlier : EarlierPlaced c a stage) :
    Ensures (placeAt (stage, op)) c a fun _ a' => Sound c last a' ∧ a'.placed = op :: a.placed := by
  have hplaceable : Ensures (placeAt (stage, op)) c a fun _ _ => Placeable c a stage op :=
    Ensures.bind (place_placeable hlat hcaptures hsound hstage hearlier op) fun _ _ h =>
      Ensures.modify h
  intro r a' hrun
  exact Ensures.of_succeeds (placeAt_spec hsound hstart hstage (hplaceable r a' hrun)) r a' hrun

/-- A terminator built without error reads only iteration arguments the loop has. -/
theorem terminator_yields :
    Ensures terminator c a fun _ _ =>
      ∀ v ∈ c.loop.yields, ∀ j, v = .iterArg j → j < c.loop.iterInits.length := by
  unfold terminator
  refine Ensures.bind_of_run rfl ?_
  refine Ensures.bind (Ensures.const trivial : Ensures (produced .increment) c a fun _ _ => True)
    fun _ a₁ _ => ?_
  refine Ensures.bind (Ensures.mapM (fun _ => True)
    (fun v => ∀ j, v = .iterArg j → j < c.loop.iterInits.length) (fun v _ a' _ => ?_) a₁ trivial)
    fun _ _ ⟨_, h⟩ => Ensures.pure h
  cases v with
  | iterArg i =>
    refine Ensures.lift_bind fun slot hslot => Ensures.const ⟨trivial, fun j hj => ?_⟩
    cases hj
    exact Lowering.lt_of_slotOf_eq_ok hslot
  | result _ | inductionVar | constant _ _ | argument _ =>
    exact Ensures.const ⟨trivial, fun j hj => by cases hj⟩

end Checked

end Assembly

/-! ### Lowering fails only by its checks -/

namespace Loop

variable {c : Lowering} {last : Nat}

/-- Placing the entries in placement order and then building the terminator, when it returns,
leaves a sound assembly holding each entry once, with a terminator that reads what exists at the
end. -/
theorem run_sound {sorted : List (Nat × Nat × OpRef)} {t : Terminator} {a : Assembly}
    (hrun : ((sorted.forM fun x => Assembly.placeAt (x.1, x.2.2)) >>= fun _ => Assembly.terminator)
      c (Assembly.initial last) = .ok (t, a))
    (hlat : ∀ op t, c.problem.latencyOf? op = some t → 0 ≤ t)
    (hcaptures : c.captures.length = c.loop.iterInits.length + 1)
    (hcaptureLe : ∀ k ∈ c.captures, k ≤ last)
    (hstarts : ∀ e ∈ c.loop.entries c.problem, c.startOf e.2.2 = .ok e.1)
    (hperm : sorted.Perm (c.loop.entries c.problem))
    (hsorted : sorted.Pairwise fun a b => entryLe a b)
    (hlast : ∀ e ∈ c.loop.entries c.problem, e.1 ≤ last) :
    Assembly.Sound c last a ∧ a.placed.Perm ((c.loop.entries c.problem).map (·.2.2)) ∧
      t.iterArgs.length = c.loop.yields.length + 1 ∧ t.results.length = c.loop.yields.length ∧
      ∀ x ∈ t.iterArgs ++ t.results, Assembly.EndReads a x := by
  revert t a
  show Assembly.Ensures _ c (Assembly.initial last) fun t a => _
  -- the invariant of the placements: sound, with the entries done placed
  refine Assembly.Ensures.bind (Assembly.Ensures.forM_done sorted
      (fun done a => Assembly.Sound c last a ∧ a.placed = (done.map (·.2.2)).reverse) ?_
      [] sorted _ rfl ⟨Assembly.sound_initial c last, rfl⟩) fun _ a₁ hdone => ?_
  · rintro pre x post a hsplit ⟨hsound, hplaced⟩
    rw [hsplit] at hperm hsorted
    have hx := hperm.subset (List.mem_append_right _ List.mem_cons_self)
    have hearlier : Assembly.EarlierPlaced c a x.1 := by
      intro id origin hop horigin hlt
      obtain ⟨e, he, hid⟩ : ∃ e ∈ c.loop.entries c.problem, e.2.2 = .body id :=
        exists_entry (by simp [isForeign, hop])
      have hstart := hstarts e he
      rw [hid, horigin] at hstart
      have hbefore := mem_before_of_lt hsorted (hperm.symm.subset he)
        (Except.ok.inj hstart ▸ hlt)
      rw [hplaced, List.mem_reverse, ← hid]
      exact List.mem_map_of_mem hbefore
    refine (Assembly.placeAt_sound hlat hcaptures hsound (hstarts x hx) (hlast x hx)
      hearlier).mono fun _ a' hnext => ⟨hnext.1, ?_⟩
    rw [hnext.2, hplaced]
    simp
  · obtain ⟨hsound₁, hplaced₁⟩ := hdone
    have hperm₁ : a₁.placed.Perm ((c.loop.entries c.problem).map (·.2.2)) := by
      rw [hplaced₁]
      exact (List.reverse_perm _).trans (hperm.map _)
    have hplaced : ∀ op, c.loop.isForeign op = false →
        ∃ stage, c.startOf op = .ok stage ∧ stage ≤ last ∧ op ∈ a₁.placed := by
      intro op hop
      obtain ⟨e, he, rfl⟩ : ∃ e ∈ c.loop.entries c.problem, e.2.2 = op := exists_entry hop
      exact ⟨e.1, hstarts e he, hlast e he, hperm₁.symm.subset (List.mem_map_of_mem he)⟩
    intro t a₂ hrun
    obtain ⟨hsound₂, hframe, hargs, hres, hend⟩ := Assembly.Ensures.of_succeeds
      (Assembly.terminator_spec hsound₁ hplaced hcaptures (getD_le_of_forall_le hcaptureLe)
        (Assembly.terminator_yields t a₂ hrun)) t a₂ hrun
    exact ⟨hsound₂, hframe.placed ▸ hperm₁, hargs, hres, hend⟩

/-- The entries lowering builds from the start times it looks up, when none is missing, are the
loop's entries under the stored start times. -/
theorem entries_of_startOf {body : List (Nat × Nat × OpRef)} {inc : Nat}
    (hbody : c.loop.operations.zipIdx.mapM (fun (op, i) => do
      let start ← c.startOf (.body op.id)
      pure (start, i, OpRef.body op.id)) = .ok body)
    (hinc : c.startOf .increment = .ok inc) :
    body ++ [(inc, c.loop.operations.length, .increment)] = c.loop.entries c.problem ∧
      ∀ e ∈ c.loop.entries c.problem, c.startOf e.2.2 = .ok e.1 := by
  have hstored : ∀ op s, c.startOf op = .ok s → c.startOf op = .ok (c.problem.start op) :=
    fun op s h => by rw [Lowering.start_eq_of_startOf h, h]
  refine ⟨?_, fun e he => ?_⟩
  · have hmap : body.map (fun y => y) = c.loop.operations.zipIdx.map
        fun x => (c.problem.start (.body x.1.id), x.2, OpRef.body x.1.id) := by
      refine map_of_mapM_eq_ok ?_ hbody
      rintro ⟨o, k⟩ y hy
      obtain ⟨s, hs, hy⟩ := bind_eq_ok hy
      cases hy
      rw [← Lowering.start_eq_of_startOf hs]
    rw [List.map_id'] at hmap
    rw [hmap, ← Lowering.start_eq_of_startOf hinc]
    rfl
  rcases mem_entries.1 he with ⟨k, o, hk, rfl⟩ | rfl
  · obtain ⟨_, -, hy⟩ := exists_of_mapM_eq_ok hbody (o, k) (List.mem_zipIdx_iff_getElem?.2 hk)
    obtain ⟨s, hs, -⟩ := bind_eq_ok hy
    exact hstored _ s hs
  · exact hstored _ inc hinc

/-- Lowering a pipelining candidate whose operations have distinct identities, under a problem
whose latencies are not negative, fails only by one of its own checks: whatever the interval and
the start times, the pipeline it assembles passes verification. -/
theorem construct_fails_only_by_checks {l : Loop} {bounds : LoopBounds} {q : Problem OpRef}
    (hb : l.candidateBounds = .ok bounds) (hids : (l.operations.map (·.id)).Nodup)
    (hlat : ∀ op t, q.latencyOf? op = some t → 0 ≤ t) :
    ∀ e, l.construct bounds q = .error e → e.IsCheck := by
  intro e h
  obtain ⟨hlen, hresults⟩ := candidateBounds_arity hb
  unfold construct at h
  split at h
  · split at h
    · cases h
      trivial
    rcases bind_eq_error h with h | ⟨body, hbody, h⟩
    · obtain ⟨_, -, hx⟩ := exists_of_mapM_eq_error h
      rcases bind_eq_error hx with hx | ⟨_, -, hx⟩
      · exact Lowering.startOf_eq_error hx
      · cases hx
    rcases bind_eq_error h with h | ⟨inc, hinc, h⟩
    · exact Lowering.startOf_eq_error h
    rcases bind_eq_error h with h | ⟨captures, hcaptures, h⟩
    · exact Lowering.captureStages_eq_error h
    rcases bind_eq_error h with h | ⟨⟨term, a⟩, hrun, h⟩
    · exact Assembly.run_raises _ _ _ _ h
    dsimp only at h
    split at h
    · rename_i err hverify
      obtain ⟨hentries, hstarts⟩ := entries_of_startOf hbody hinc
      rw [hentries] at hrun hcaptures
      obtain ⟨hsound, hperm, hargs, hres, hend⟩ := run_sound hrun hlat
        (Lowering.length_captureStages hcaptures) (Lowering.captureStages_le_last hcaptures) hstarts
        (List.mergeSort_perm _ _) (List.pairwise_mergeSort entryLe_trans entryLe_total _)
        (fun e he => le_foldl_max_of_mem (List.mem_map_of_mem he))
      rw [Assembly.verify_of_sound hsound rfl rfl ?_ ?_ ?_ rfl (hperm.nodup_iff.2 (nodup_entries hids))
        (hperm.count_eq _ ▸ count_increment_entries) ?_ ?_ hend] at hverify
      · cases hverify
      · simp [Lowering.length_captureStages hcaptures]
      · exact Lowering.captureStages_le_last hcaptures
      · simp [hresults]
      · simp [hargs, hlen]
      · simp [hres, hlen, hresults]
    · cases h
  · cases h
    trivial

end Loop

/-- A schedule of `scaleCopy` under interval 1 that starts the multiply in the cycle of the load
whose result it reads. -/
def scaleCopyTooEarly : Problem OpRef :=
  ⟨[.body 0, .body 1, .body 2, .increment],
    [⟨"load", some 1⟩, ⟨"mul", some 3⟩, ⟨"store", some 1⟩, ⟨"add", some 1⟩],
    [(.body 0, 0), (.body 1, 1), (.body 2, 2), (.increment, 3)], scaleCopy.dataDependences,
    [(.body 0, 0), (.body 1, 0), (.body 2, 3), (.increment, 0)], some 1, true⟩

/-- Lowering `scaleCopy` under a schedule that reads a result too early fails by a check. -/
theorem scaleCopyTooEarly_fails_by_check :
    scaleCopy.candidateBounds = .ok ⟨0, 10, 1, 10⟩ ∧ (scaleCopy.operations.map (·.id)).Nodup ∧
      (∀ op t, scaleCopyTooEarly.latencyOf? op = some t → 0 ≤ t) ∧
      ∀ e, scaleCopy.construct ⟨0, 10, 1, 10⟩ scaleCopyTooEarly = .error e → e.IsCheck := by
  have hb : scaleCopy.candidateBounds = .ok ⟨0, 10, 1, 10⟩ := by decide
  have hids : (scaleCopy.operations.map (·.id)).Nodup := by decide
  have hlat : ∀ op t, scaleCopyTooEarly.latencyOf? op = some t → 0 ≤ t := by
    intro op t h
    obtain ⟨ty, hty, ht⟩ := Problem.exists_type_of_latencyOf? h
    simp only [scaleCopyTooEarly, List.mem_cons, List.not_mem_nil, or_false] at hty
    rcases hty with rfl | rfl | rfl | rfl <;> simp only [Option.some.injEq] at ht <;> omega
  exact ⟨hb, hids, hlat, Loop.construct_fails_only_by_checks hb hids hlat⟩

end ModuloPipelining
