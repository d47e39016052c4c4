import ModuloPipelining.Proofs.Pipeline.Lowering
import ModuloPipelining.Pass

/-!
# Runs of the pass

The pass visits the top-level loops of a function one identity at a time, keeping one problem
per identity. This module follows a run: which loops the function holds after a loop is replaced
(`Func.findLoop?_replaceLoop`), what solving and lowering one loop leave in the cache
(`solveLoop_spec`, `pipelineLoop_spec`), and the invariant that every visit keeps
(`PassState.Coherent`): the problem kept under an identity is a problem of the loop the function
has under that identity.

Every run, whatever the function, stops only on a contract violation and keeps its counters in
agreement (`visitLoops_tallied`): one report for each loop seen, one warning for each loop skipped,
and one loop seen for each top-level loop identity, since a visit takes at most one loop of its own
identity out of the function. Since lowering a well-scoped loop never fails
(`Loop.construct_eq_ok`), a run over a function whose top-level loops are all well scoped never
stops on a contract violation (`Func.pipeline_ne_failure`).
-/

namespace ModuloPipelining

/-! ### Looking loops up and replacing them -/

/-- The identity of an item that is a loop. -/
def Item.loopId? : Item → Option Nat
  | .loop l => some l.id
  | _ => none

namespace Func

theorem loopIds_eq_filterMap (f : Func) : f.loopIds = f.items.filterMap Item.loopId? := rfl

theorem findLoop?_spec {f : Func} {id : Nat} {l : Loop} (h : f.findLoop? id = some l) :
    Item.loop l ∈ f.items ∧ l.id = id := by
  unfold findLoop? at h
  obtain ⟨item, hitem, hsome⟩ := List.exists_of_findSome?_eq_some h
  cases item with
  | loop l' =>
    dsimp only at hsome
    split at hsome
    · cases hsome
      exact ⟨hitem, ‹_›⟩
    · cases hsome
  | op _ => cases hsome
  | pipeline _ => cases hsome

/-- Replacing a loop by a pipeline leaves only loops that were there. -/
theorem mem_of_replaceItems {id : Nat} {p : Pipeline} :
    ∀ {items out : List Item}, replaceItems id p items = some out →
      ∀ l, Item.loop l ∈ out → Item.loop l ∈ items
  | [], _, h => by cases h
  | item :: rest, out, h => by
    unfold replaceItems at h
    split at h
    · cases h
      intro l hl
      rcases List.mem_cons.1 hl with hhead | hrest
      · cases hhead
      · exact List.mem_cons_of_mem _ hrest
    · obtain ⟨tail, htail, rfl⟩ := Option.map_eq_some_iff.1 h
      intro l hl
      rcases List.mem_cons.1 hl with hhead | hrest
      · exact hhead ▸ List.mem_cons_self
      · exact List.mem_cons_of_mem _ (mem_of_replaceItems htail l hrest)

theorem mem_of_replaceLoop {f g : Func} {id : Nat} {p : Pipeline} (h : f.replaceLoop id p = some g) :
    ∀ l, Item.loop l ∈ g.items → Item.loop l ∈ f.items := by
  obtain ⟨out, hout, rfl⟩ := Option.map_eq_some_iff.1 h
  exact mem_of_replaceItems hout

/-- A search that sees neither the new pipeline nor the replaced loop finds the same before and
after the replacement. -/
theorem findSome?_replaceItems {β : Type} {F : Item → Option β} {id : Nat} {p : Pipeline}
    (hpipe : F (.pipeline p) = none) (hloop : ∀ item, Item.isLoop id item = true → F item = none) :
    ∀ {items out : List Item}, replaceItems id p items = some out →
      out.findSome? F = items.findSome? F
  | [], _, h => by cases h
  | item :: rest, out, h => by
    unfold replaceItems at h
    split at h
    · next hitem =>
      cases h
      rw [List.findSome?_cons, List.findSome?_cons, hpipe, hloop item hitem]
    · obtain ⟨tail, htail, rfl⟩ := Option.map_eq_some_iff.1 h
      rw [List.findSome?_cons, List.findSome?_cons, findSome?_replaceItems hpipe hloop htail]

/-- Replacing loop `id` leaves the loop found under every other identity. -/
theorem findLoop?_replaceLoop {f g : Func} {id id' : Nat} {p : Pipeline}
    (h : f.replaceLoop id p = some g) (hne : id' ≠ id) : g.findLoop? id' = f.findLoop? id' := by
  obtain ⟨out, hout, rfl⟩ := Option.map_eq_some_iff.1 h
  unfold findLoop?
  refine findSome?_replaceItems rfl (fun item hitem => ?_) hout
  cases item with
  | loop l =>
    have hid : l.id = id := by simpa [Item.isLoop] using hitem
    simp [hid, Ne.symm hne]
  | op _ => rfl
  | pipeline _ => rfl

theorem replaceItems_isSome {id : Nat} {p : Pipeline} {l : Loop} (hid : l.id = id) :
    ∀ {items : List Item}, Item.loop l ∈ items → (replaceItems id p items).isSome
  | [], h => absurd h List.not_mem_nil
  | item :: rest, h => by
    unfold replaceItems
    split
    · rfl
    · next hitem =>
      rcases List.mem_cons.1 h with rfl | hrest
      · simp [Item.isLoop, hid] at hitem
      · rw [Option.isSome_map]
        exact replaceItems_isSome hid hrest

/-- A verified pipeline is installed in place of the loop with its identity. -/
theorem install_eq_ok {f : Func} {p : Pipeline} (hverify : p.verify = .ok ()) {l : Loop}
    (hfind : f.findLoop? p.loopId = some l) :
    ∃ g, f.install p = .ok g ∧ f.replaceLoop p.loopId p = some g := by
  obtain ⟨hmem, hid⟩ := findLoop?_spec hfind
  obtain ⟨out, hout⟩ := Option.isSome_iff_exists.1
    (replaceItems_isSome hid hmem : (replaceItems p.loopId p f.items).isSome)
  refine ⟨{ f with items := out }, ?_, by simp [replaceLoop, hout]⟩
  simp [install, hverify, replaceLoop, hout]
  rfl

theorem replaceLoop_of_install {f g : Func} {p : Pipeline} (h : f.install p = .ok g) :
    f.replaceLoop p.loopId p = some g := by
  unfold install at h
  dsimp only at h
  split at h
  · cases h
  · split at h
    · cases h
      assumption
    · cases h

/-- Replacing a loop by a pipeline removes at most one loop identity, the one replaced. -/
theorem count_loopIds_replaceItems {id : Nat} {p : Pipeline} (id' : Nat) :
    ∀ {items out : List Item}, replaceItems id p items = some out →
      (items.filterMap Item.loopId?).count id' ≤
        (out.filterMap Item.loopId?).count id' + if id' = id then 1 else 0
  | [], _, h => by cases h
  | item :: rest, out, h => by
    unfold replaceItems at h
    split at h
    · next hitem =>
      cases h
      cases item with
      | loop l =>
        have hid : l.id = id := by simpa [Item.isLoop] using hitem
        by_cases h' : id' = id
        · subst h'
          simp [List.filterMap_cons, Item.loopId?, hid]
        · simp [List.filterMap_cons, Item.loopId?, hid, h', Ne.symm h']
      | op _ => cases hitem
      | pipeline _ => cases hitem
    · obtain ⟨tail, htail, rfl⟩ := Option.map_eq_some_iff.1 h
      have ih := count_loopIds_replaceItems id' htail
      cases item <;> simp only [List.filterMap_cons, Item.loopId?, List.count_cons] <;> omega

theorem findLoop?_isSome {f : Func} {id : Nat} (h : id ∈ f.loopIds) : (f.findLoop? id).isSome := by
  obtain ⟨item, hitem, hid⟩ := List.mem_filterMap.1 h
  refine List.findSome?_isSome_iff.2 ⟨item, hitem, ?_⟩
  cases item with
  | loop l =>
    have : l.id = id := by simpa using hid
    simp [this]
  | op _ => cases hid
  | pipeline _ => cases hid

end Func

/-! ### The problem kept per identity -/

theorem lookup_filter_ne {cache : ProblemCache} {id id' : Nat} (hne : id' ≠ id) :
    (cache.filter (·.1 != id)).lookup id' = cache.lookup id' := by
  induction cache with
  | nil => rfl
  | cons entry rest ih =>
    obtain ⟨key, p⟩ := entry
    by_cases hkey : key = id
    · subst hkey
      have hmiss : (id' == key) = false := by simpa using hne
      simp [List.lookup, hmiss, ih]
    · simp [hkey, List.lookup, ih]

theorem lookup_filter_self (cache : ProblemCache) (id : Nat) :
    (cache.filter (·.1 != id)).lookup id = none := by
  induction cache with
  | nil => rfl
  | cons entry rest ih =>
    obtain ⟨key, p⟩ := entry
    by_cases hkey : key = id
    · simp [hkey, ih]
    · have hmiss : (id == key) = false := by simpa using Ne.symm hkey
      simp [hkey, List.lookup, hmiss, ih]

/-! ### Solving and lowering one loop -/

/-- A solve that succeeds leaves a problem whose schedule verifies. -/
theorem Problem.verify_of_solve {cfg : SchedulerConfig} {p q : Problem OpRef} {summary : Summary}
    (h : p.solve cfg = .ok (q, .ok summary)) : q.verify = .ok () := by
  unfold Problem.solve at h
  split at h
  · cases h
  split at h
  · cases h
  dsimp only at h
  split at h
  · cases h
  split at h
  · cases h
  split at h
  · cases h
  · obtain ⟨_, -, h⟩ := bind_eq_ok h
    cases h
    assumption

theorem Loop.construct_verify {l : Loop} {bounds : LoopBounds} {q : Problem OpRef} {pipe : Pipeline}
    (h : l.construct bounds q = .ok pipe) : pipe.verify = .ok () ∧ pipe.loopId = l.id := by
  unfold Loop.construct at h
  dsimp only at h
  split at h
  · split at h
    · obtain ⟨_, hthrow, -⟩ := bind_eq_ok h
      cases hthrow
    · obtain ⟨_, -, h⟩ := bind_eq_ok h
      obtain ⟨_, -, h⟩ := bind_eq_ok h
      obtain ⟨_, -, h⟩ := bind_eq_ok h
      obtain ⟨⟨_, _⟩, -, h⟩ := bind_eq_ok h
      dsimp only at h
      split at h
      · cases h
      · cases h
        exact ⟨by assumption, rfl⟩
  · cases h

variable {cfg : PassConfig} {cache : ProblemCache} {l : Loop}

/-- A pipeline given for a loop verifies and carries the loop's identity. -/
theorem verify_of_pipelineLoop {kept : ProblemCache} {snapshots : List (SolvePoint × Snapshot)}
    {pipe : Pipeline} (h : pipelineLoop cfg cache l = .ok (kept, snapshots, .ok pipe)) :
    pipe.verify = .ok () ∧ pipe.loopId = l.id := by
  unfold pipelineLoop at h
  obtain ⟨step, -, h⟩ := bind_eq_ok h
  split at h
  · cases h
  · dsimp only at h
    split at h
    · cases h
    · cases h
      exact Loop.construct_verify ‹_›

/-- Solving a loop fails only with an error that is not fatal, and keeps under the loop's
identity a problem of the loop, or nothing new; when it succeeds, the loop is a candidate and the
problem kept is verified, with latencies that are not negative. -/
theorem solveLoop_spec (hcache : ∀ p, cache.lookup l.id = some p → l.ProblemOf p)
    {step : SolveStep} (h : solveLoop cfg cache l = .ok step) :
    (∀ e, step.result = .error e → e.isFatal = false) ∧
    (step.cache = cache ∨ ∃ X, step.cache = setEntry l.id X cache ∧ l.ProblemOf X) ∧
    ∀ bounds summary, step.result = .ok (bounds, summary) → l.candidateBounds = .ok bounds ∧
      ∃ q, step.cache = setEntry l.id q cache ∧ l.ProblemOf q ∧ q.verify = .ok () ∧
        ∀ op ∈ q.operations, ∃ t, q.latencyOf? op = some t ∧ 0 ≤ t := by
  unfold solveLoop at h
  split at h
  · cases h
    exact ⟨fun e he => (by cases he; rfl), Or.inl rfl, fun _ _ he => by cases he⟩
  · next bounds hb =>
    dsimp only at h
    -- the problem comes from the cache or is built afresh; either way it is the loop's
    split at h
    all_goals obtain ⟨built, hbuilt, h⟩ := bind_eq_ok h
    all_goals
      have hof : l.ProblemOf built := by
        first
        | exact l.problem_problemOf hbuilt
        | exact hcache _ (by cases hbuilt; assumption)
    all_goals
      have hlinked := hof.linkLoop cfg.library
      split at h
      · cases h
        exact ⟨fun e he => (by cases he; rfl), Or.inr ⟨_, rfl, hlinked⟩, fun _ _ he => by cases he⟩
      · split at h
        · cases h
          exact ⟨fun e he => (by cases he; rfl), Or.inr ⟨_, rfl, hlinked⟩,
            fun _ _ he => by cases he⟩
        · next p hcheck =>
          obtain ⟨⟨q, outcome⟩, hsolve, h⟩ := bind_eq_ok h
          have hretimed := Problem.solve_retimed _ hsolve
          have hq := (hlinked.check hcheck).retimed hretimed
          dsimp only at h
          split at h
          · cases h
            exact ⟨fun e he => (by cases he; rfl), Or.inr ⟨_, rfl, hq⟩, fun _ _ he => by cases he⟩
          · cases h
            refine ⟨fun e he => (by cases he), Or.inr ⟨_, rfl, hq⟩, fun _ _ he => ?_⟩
            cases he
            refine ⟨hb, q, rfl, hq, Problem.verify_of_solve hsolve, fun op hop => ?_⟩
            obtain ⟨-, rfl⟩ := Problem.check_eq_ok hcheck
            rw [hretimed.latencyOf?_eq]
            exact Problem.latencyOf?_of_check hcheck op (hretimed.operations ▸ hop)

/-- Solving and lowering a well-scoped loop either skips it with an error that is not fatal,
keeping a problem of the loop or nothing new, or gives a verified pipeline for it and forgets
the loop's problem. -/
theorem pipelineLoop_spec (hl : l.WellScoped)
    (hcache : ∀ p, cache.lookup l.id = some p → l.ProblemOf p)
    {cache' : ProblemCache} {snapshots : List (SolvePoint × Snapshot)}
    {outcome : Except PassError Pipeline}
    (h : pipelineLoop cfg cache l = .ok (cache', snapshots, outcome)) :
    (∃ e, outcome = .error e ∧ e.isFatal = false ∧
      (cache' = cache ∨ ∃ X, cache' = setEntry l.id X cache ∧ l.ProblemOf X)) ∨
    ∃ pipe q, outcome = .ok pipe ∧ pipe.verify = .ok () ∧ pipe.loopId = l.id ∧
      cache' = (setEntry l.id q cache).filter (·.1 != l.id) := by
  unfold pipelineLoop at h
  obtain ⟨step, hstep, h⟩ := bind_eq_ok h
  obtain ⟨hfatal, hkept, hsolved⟩ := solveLoop_spec hcache hstep
  split at h
  · next e he =>
    cases h
    exact Or.inl ⟨e, rfl, hfatal e he, hkept⟩
  · next bounds summary hres =>
    obtain ⟨hb, q, hcache', hq, hverify, hlat⟩ := hsolved bounds summary hres
    obtain ⟨pipe, hpipe⟩ := Loop.construct_eq_ok hl hb hq hlat hverify
    rw [hcache', Problem.lookup_setEntry, Option.getD_some] at h
    dsimp only at h
    rw [hpipe] at h
    cases h
    obtain ⟨hpverify, hid⟩ := Loop.construct_verify hpipe
    exact Or.inr ⟨pipe, q, rfl, hpverify, hid, rfl⟩

/-! ### The invariant of a run -/

/-- What a run keeps between loops: every top-level loop of the function is well scoped, and
the problem kept under an identity is a problem of the loop the function has under it. -/
structure PassState.Coherent (s : PassState) : Prop where
  wellScoped : ∀ l, Item.loop l ∈ s.func.items → l.WellScoped
  cache : ∀ id p, s.cache.lookup id = some p → ∃ l, s.func.findLoop? id = some l ∧ l.ProblemOf p

variable {s : PassState}

theorem PassState.Coherent.problemOf (hs : s.Coherent) {id : Nat} (hfind : s.func.findLoop? id = some l)
    {p : Problem OpRef} (hp : s.cache.lookup l.id = some p) : l.ProblemOf p := by
  rw [(Func.findLoop?_spec hfind).2] at hp
  obtain ⟨l', hfind', hof⟩ := hs.cache id p hp
  rw [hfind] at hfind'
  cases hfind'
  exact hof

/-- What a visit that returns has done: found no loop under the identity and left the state as
it was; or found loop `l`, seen it, solved and lowered it against the kept problems, and then
stopped on a fatal error or on a pipeline it could not install, skipped the loop, or installed
its pipeline in the loop's place. -/
theorem visitLoop_cases {id : Nat} {r : Except PassFailure PassState}
    (h : visitLoop cfg s id = .ok r) :
    (s.func.findLoop? id = none ∧ r = .ok s) ∨
    ∃ l kept snapshots outcome, s.func.findLoop? id = some l ∧
      pipelineLoop cfg s.cache l = .ok (kept, snapshots, outcome) ∧
      let seen : PassState := { s with
        cache := kept
        stats := { s.stats with loopsSeen := s.stats.loopsSeen + 1 }
        snapshots := s.snapshots ++ snapshots }
      ((∃ e, outcome = .error e ∧ e.isFatal = true ∧ r = .error (seen.fail e)) ∨
        (∃ pipe e, outcome = .ok pipe ∧ s.func.install pipe = .error e ∧
          r = .error (seen.fail (.contractViolation id e))) ∨
        (∃ e, outcome = .error e ∧ e.isFatal = false ∧ r = .ok (seen.skip id e)) ∨
        ∃ pipe g, outcome = .ok pipe ∧ s.func.install pipe = .ok g ∧
          r = .ok { seen with
            func := g
            stats := { seen.stats with pipelined := seen.stats.pipelined + 1 }
            reports := seen.reports ++ [⟨id, .pipelined pipe.initiationInterval pipe.stageCount⟩]
            changed := true }) := by
  unfold visitLoop at h
  split at h
  · next hfind =>
    cases h
    exact .inl ⟨hfind, rfl⟩
  · next l hfind =>
    obtain ⟨⟨kept, snapshots, outcome⟩, hrun, h⟩ := bind_eq_ok h
    refine .inr ⟨l, kept, snapshots, outcome, hfind, hrun, ?_⟩
    dsimp only at h ⊢
    split at h
    · next pipe =>
      split at h
      · next e hinstall =>
        cases h
        exact .inr (.inl ⟨pipe, e, rfl, hinstall, rfl⟩)
      · next g hinstall =>
        cases h
        exact .inr (.inr (.inr ⟨pipe, g, rfl, hinstall, rfl⟩))
    · next e =>
      cases hfatal : e.isFatal
      · rw [hfatal] at h
        cases h
        exact .inr (.inr (.inl ⟨e, rfl, hfatal, rfl⟩))
      · rw [hfatal] at h
        cases h
        exact .inl ⟨e, rfl, hfatal, rfl⟩

/-- A visit keeps the run coherent and never stops it. -/
theorem visitLoop_coherent (hs : s.Coherent) {id : Nat}
    {r : Except PassFailure PassState} (h : visitLoop cfg s id = .ok r) :
    ∃ s', r = .ok s' ∧ s'.Coherent := by
  rcases visitLoop_cases h with ⟨-, rfl⟩ | ⟨l, kept, snapshots, outcome, hfind, hrun, hvisit⟩
  · exact ⟨s, rfl, hs⟩
  obtain ⟨hmem, hid⟩ := Func.findLoop?_spec hfind
  rcases pipelineLoop_spec (hs.wellScoped l hmem) (fun p hp => hs.problemOf hfind hp) hrun with
    ⟨e, rfl, hfatal, hkept⟩ | ⟨pipe, q, rfl, hverify, hloop, rfl⟩
  · rcases hvisit with ⟨_, he, hfatal', -⟩ | ⟨_, _, he, -⟩ | ⟨_, he, -, rfl⟩ | ⟨_, _, he, -⟩
    · cases he
      rw [hfatal] at hfatal'
      cases hfatal'
    · cases he
    · cases he
      refine ⟨_, rfl, hs.wellScoped, fun id' p hp => ?_⟩
      dsimp only [PassState.skip] at hp ⊢
      rcases hkept with rfl | ⟨X, rfl, hX⟩
      · exact hs.cache id' p hp
      · by_cases hid' : id' = l.id
        · subst hid'
          rw [Problem.lookup_setEntry] at hp
          cases hp
          exact ⟨l, hid ▸ hfind, hX⟩
        · rw [lookup_setEntry_ne _ _ _ hid'] at hp
          exact hs.cache id' p hp
    · cases he
  · obtain ⟨g, hinstall, hreplace⟩ := Func.install_eq_ok hverify (hloop ▸ hid ▸ hfind)
    rcases hvisit with ⟨_, he, -⟩ | ⟨_, _, he, hfail, -⟩ | ⟨_, he, -⟩ | ⟨_, _, he, hok, rfl⟩
    · cases he
    · cases he
      rw [hinstall] at hfail
      cases hfail
    · cases he
    · cases he
      rw [hinstall] at hok
      cases hok
      refine ⟨_, rfl, fun l' hl' => hs.wellScoped l' (Func.mem_of_replaceLoop hreplace l' hl'),
        fun id' p hp => ?_⟩
      dsimp only at hp ⊢
      by_cases hid' : id' = l.id
      · subst hid'
        rw [lookup_filter_self] at hp
        cases hp
      · rw [lookup_filter_ne hid', lookup_setEntry_ne _ _ _ hid'] at hp
        rw [Func.findLoop?_replaceLoop hreplace (hloop ▸ hid')]
        exact hs.cache id' p hp

/-- Visits from a coherent state never stop the run. -/
theorem visitLoops_coherent :
    ∀ (ids : List Nat) (s : PassState), s.Coherent → ∀ r, visitLoops cfg s ids = .ok r →
      ∃ s', r = .ok s' ∧ s'.Coherent
  | [], s, hs, r, h => by
    cases h
    exact ⟨s, rfl, hs⟩
  | id :: rest, s, hs, r, h => by
    unfold visitLoops at h
    obtain ⟨r₁, hvisit, h⟩ := bind_eq_ok h
    obtain ⟨s₁, rfl, hs₁⟩ := visitLoop_coherent hs hvisit
    exact visitLoops_coherent rest s₁ hs₁ r h

/-- A run over a function whose top-level loops are all well scoped never stops on a contract
violation. -/
theorem Func.pipeline_ne_failure {f : Func} (hf : ∀ l, Item.loop l ∈ f.items → l.WellScoped)
    (cfg : PassConfig) (failure : PassFailure) : f.pipeline cfg ≠ .ok (.error failure) := by
  intro h
  obtain ⟨s, hs, -⟩ := visitLoops_coherent f.loopIds _ ⟨hf, fun _ _ h => by cases h⟩ _ h
  cases hs

/-! ### What a run counts -/

theorem PassError.eq_contractViolation {e : PassError} (h : e.isFatal = true) :
    ∃ l ce, e = .contractViolation l ce := by
  cases e with
  | contractViolation l ce => exact ⟨l, ce, rfl⟩
  | _ => cases h

/-- The counters, reports, warnings and change flag of a state agree: one report for each loop
seen, each seen loop pipelined or skipped, one warning for each skipped loop, and a change
exactly when a loop was pipelined. -/
structure PassState.Tallied (s : PassState) : Prop where
  reports : s.reports.length = s.stats.loopsSeen
  outcomes : s.stats.pipelined + s.stats.skipped = s.stats.loopsSeen
  warnings : s.warnings.length = s.stats.skipped
  changed : s.changed = true ↔ 0 < s.stats.pipelined

/-- A visit stops the run only on a contract violation; otherwise it keeps the counters in
agreement, sees one loop more exactly when it finds one, and takes at most one loop out of the
function, one with the identity visited. -/
theorem visitLoop_tallied (hs : s.Tallied) {id : Nat} {r : Except PassFailure PassState}
    (h : visitLoop cfg s id = .ok r) :
    (∀ failure, r = .error failure → ∃ l e, failure.error = .contractViolation l e) ∧
    ∀ s', r = .ok s' → s'.Tallied ∧
      s'.stats.loopsSeen = s.stats.loopsSeen + (if (s.func.findLoop? id).isSome then 1 else 0) ∧
      ∀ id', s.func.loopIds.count id' ≤ s'.func.loopIds.count id' + if id' = id then 1 else 0 := by
  rcases visitLoop_cases h with ⟨hfind, rfl⟩ | ⟨l, kept, snapshots, outcome, hfind, hrun, hvisit⟩
  · refine ⟨fun _ h => (by cases h), fun s' h => ?_⟩
    cases h
    simp [hfind, hs]
  rcases hvisit with ⟨e, -, hfatal, rfl⟩ | ⟨pipe, e, -, -, rfl⟩ | ⟨e, -, -, rfl⟩ |
    ⟨pipe, g, rfl, hinstall, rfl⟩
  · exact ⟨fun _ h => by cases h; exact PassError.eq_contractViolation hfatal, fun _ h => by cases h⟩
  · exact ⟨fun _ h => by cases h; exact ⟨_, _, rfl⟩, fun _ h => by cases h⟩
  · refine ⟨fun _ h => (by cases h), fun s' h => ?_⟩
    cases h
    refine ⟨⟨?_, ?_, ?_, ?_⟩, by simp [hfind, PassState.skip], fun id' => Nat.le_add_right _ _⟩
    · simp [PassState.skip, hs.reports]
    · have := hs.outcomes
      simp only [PassState.skip]
      omega
    · simp [PassState.skip, hs.warnings]
    · simpa [PassState.skip] using hs.changed
  · refine ⟨fun _ h => (by cases h), fun s' h => ?_⟩
    cases h
    have hid : pipe.loopId = id :=
      (verify_of_pipelineLoop hrun).2.trans (Func.findLoop?_spec hfind).2
    obtain ⟨out, hout, rfl⟩ := Option.map_eq_some_iff.1 (Func.replaceLoop_of_install hinstall)
    refine ⟨⟨?_, ?_, ?_, ?_⟩, by simp [hfind], fun id' => ?_⟩
    · simp [hs.reports]
    · have := hs.outcomes
      simp only
      omega
    · exact hs.warnings
    · simp
    · have := Func.count_loopIds_replaceItems id' hout
      rw [hid] at this
      exact this

/-- A run from a state whose counters agree, over identities each of which the function has at
least as many loops of as visits are left, stops only on a contract violation; otherwise its
counters agree and it sees one loop for each identity visited. The induction is on the
identities left; each visit takes at most one loop of its own identity out of the function. -/
theorem visitLoops_tallied (cfg : PassConfig) :
    ∀ (ids : List Nat) (s : PassState), s.Tallied →
      (∀ id, ids.count id ≤ s.func.loopIds.count id) → ∀ r, visitLoops cfg s ids = .ok r →
      (∀ failure, r = .error failure → ∃ l e, failure.error = .contractViolation l e) ∧
      ∀ s', r = .ok s' → s'.Tallied ∧ s'.stats.loopsSeen = s.stats.loopsSeen + ids.length
  | [], s, hs, _, r, h => by
    cases h
    exact ⟨fun _ h => (by cases h), fun s' h => by cases h; exact ⟨hs, rfl⟩⟩
  | id :: rest, s, hs, hcount, r, h => by
    unfold visitLoops at h
    obtain ⟨r₁, hvisit, h⟩ := bind_eq_ok h
    obtain ⟨hfail, hnext⟩ := visitLoop_tallied hs hvisit
    have hfound : (s.func.findLoop? id).isSome := by
      refine Func.findLoop?_isSome (List.count_pos_iff.1 ?_)
      have := hcount id
      rw [List.count_cons_self] at this
      omega
    cases r₁ with
    | error failure =>
      cases h
      exact ⟨fun _ h => by cases h; exact hfail _ rfl, fun _ h => by cases h⟩
    | ok s₁ =>
      obtain ⟨hs₁, hseen, hcount₁⟩ := hnext s₁ rfl
      have hrest : ∀ id', rest.count id' ≤ s₁.func.loopIds.count id' := fun id' => by
        have hvisits := hcount id'
        have hloops := hcount₁ id'
        rw [List.count_cons] at hvisits
        by_cases hid : id' = id
        · subst hid
          simp only [BEq.rfl, if_true] at hvisits hloops
          omega
        · have hne : (id == id') = false := by simpa using Ne.symm hid
          simp only [hne, hid, Bool.false_eq_true, if_false] at hvisits hloops
          omega
      obtain ⟨hfail', hdone⟩ := visitLoops_tallied cfg rest s₁ hs₁ hrest r h
      refine ⟨hfail', fun s' hs' => ?_⟩
      obtain ⟨ht, hlen⟩ := hdone s' hs'
      rw [hfound, if_pos rfl] at hseen
      refine ⟨ht, ?_⟩
      rw [hlen, hseen, List.length_cons]
      omega

/-! ### Lowering never fails on well-scoped loops -/

/-- `q` is a verified schedule of candidate `l`: the loop's problem, linked to the library with
every operation supported and then checked, gets a start time for each of its operations and an
interval, and the schedule verifies. -/
def Loop.Scheduled (lib : Library) (l : Loop) (bounds : LoopBounds) (q : Problem OpRef) : Prop :=
  l.candidateBounds = .ok bounds ∧ ∃ (p p₁ p₂ : Problem OpRef) (S : OpRef → Nat) (ii : Nat),
    l.problem = .ok p ∧ p.linkLoop lib l = (p₁, none) ∧ p₁.check = .ok p₂ ∧
    q = (p₂.operations.foldl (fun q op => q.setStartTime op (S op)) p₂).setInitiationInterval ii ∧
    q.verify = .ok ()

/-- The checked problem of a loop under the standard library, when it has one. -/
def standardChecked (l : Loop) : Problem OpRef :=
  { ((l.problem.toOption.getD .empty).linkLoop .standard l).1 with checked := true }

/-- The checked problem with every operation in stage 0, under interval 1. -/
def stageZero (l : Loop) : Problem OpRef :=
  ((standardChecked l).operations.foldl (fun q op => q.setStartTime op 0)
    (standardChecked l)).setInitiationInterval 1

/-- A well-scoped candidate is lowered under every verified schedule of its checked problem, so a
run of the pass over a function whose top-level loops are well scoped never stops on a contract
violation. -/
theorem wellScoped_lowering_never_fails :
    (∀ (lib : Library) (l : Loop) (bounds : LoopBounds) (q : Problem OpRef),
      l.WellScoped → l.Scheduled lib bounds q → ∃ pipe, l.construct bounds q = .ok pipe) ∧
    ∀ (f : Func) (cfg : PassConfig), (∀ l, Item.loop l ∈ f.items → l.WellScoped) →
      ∀ failure, f.pipeline cfg ≠ .ok (.error failure) := by
  refine ⟨fun lib l bounds q hl hscheduled => ?_, fun f cfg hf => Func.pipeline_ne_failure hf cfg⟩
  obtain ⟨hb, p, p₁, p₂, S, ii, hp, hlink, hcheck, rfl, hverify⟩ := hscheduled
  have hretimed := (Problem.retimed_foldl_setStartTime S p₂.operations p₂).trans
    (Problem.retimed_setInitiationInterval _ ii)
  have hlinked : l.ProblemOf p₁ := by
    simpa [hlink] using (l.problem_problemOf hp).linkLoop lib
  refine Loop.construct_eq_ok hl hb ((hlinked.check hcheck).retimed hretimed) (fun op hop => ?_)
    hverify
  obtain ⟨-, rfl⟩ := Problem.check_eq_ok hcheck
  rw [hretimed.latencyOf?_eq]
  exact Problem.latencyOf?_of_check hcheck op (hretimed.operations ▸ hop)

/-- A running sum: one iteration argument, incremented by one each iteration. -/
def runningSum : Loop :=
  ⟨0, .constant 0, .constant 4, .constant 1, .slt, [.constant 0 .i32], [.i32],
    [.op ⟨0, .addi, [.iterArg 0, .constant 1 .i32], some .i32⟩], [.result 0]⟩

theorem runningSum_lowered :
    runningSum.WellScoped ∧ runningSum.Scheduled .standard ⟨0, 4, 1, 4⟩ (stageZero runningSum) ∧
    (∃ pipe, runningSum.construct ⟨0, 4, 1, 4⟩ (stageZero runningSum) = .ok pipe) ∧
    ∀ failure, (⟨"kernel", [], [.loop runningSum]⟩ : Func).pipeline .standard ≠
      .ok (.error failure) :=
  have hscoped : runningSum.WellScoped := by decide
  have hscheduled : runningSum.Scheduled .standard ⟨0, 4, 1, 4⟩ (stageZero runningSum) :=
    ⟨rfl, _, _, standardChecked runningSum, fun _ => 0, 1, rfl, rfl, rfl, rfl, by decide⟩
  ⟨hscoped, hscheduled,
    wellScoped_lowering_never_fails.1 .standard runningSum ⟨0, 4, 1, 4⟩ _ hscoped hscheduled,
    wellScoped_lowering_never_fails.2 _ .standard fun l hl => by
      simp only [List.mem_singleton, Item.loop.injEq] at hl
      exact hl ▸ hscoped⟩

/-- Reads the result of the operation after it. -/
def forwardRead : Loop :=
  ⟨0, .constant 0, .constant 4, .constant 1, .slt, [], [],
    [.op ⟨0, .addi, [.result 1, .constant 1 .i32], some .i32⟩, .op ⟨1, .constant 5, [], some .i32⟩],
    []⟩

/-- Two operations with one identity. -/
def twinIds : Loop :=
  ⟨0, .constant 0, .constant 4, .constant 1, .slt, [], [],
    [.op ⟨0, .constant 1, [], some .i32⟩, .op ⟨0, .constant 2, [], some .i32⟩], []⟩

/-- Reads an iteration argument the loop does not have. -/
def missingArg : Loop :=
  ⟨0, .constant 0, .constant 4, .constant 1, .slt, [], [],
    [.op ⟨0, .addi, [.iterArg 5, .constant 1 .i32], some .i32⟩], []⟩

/-- Lowering fails on each way a loop can be out of scope, under a verified schedule with every
operation in stage 0: a read of the next operation's result, two operations with one identity,
and a read of an iteration argument that does not exist. -/
theorem unscoped_lowering_fails :
    forwardRead.Scheduled .standard ⟨0, 4, 1, 4⟩ (stageZero forwardRead) ∧
    forwardRead.construct ⟨0, 4, 1, 4⟩ (stageZero forwardRead) =
      .error (.readBeforeAvailable (.body 1) (.body 0)) ∧
    twinIds.Scheduled .standard ⟨0, 4, 1, 4⟩ (stageZero twinIds) ∧
    twinIds.construct ⟨0, 4, 1, 4⟩ (stageZero twinIds) =
      .error (.malformed (.duplicateOperation (.body 0))) ∧
    missingArg.Scheduled .standard ⟨0, 4, 1, 4⟩ (stageZero missingArg) ∧
    missingArg.construct ⟨0, 4, 1, 4⟩ (stageZero missingArg) = .error (.unknownIterArg 5) :=
  ⟨⟨rfl, _, _, standardChecked forwardRead, fun _ => 0, 1, rfl, rfl, rfl, rfl, by decide⟩,
    by cbv,
    ⟨rfl, _, _, standardChecked twinIds, fun _ => 0, 1, rfl, rfl, rfl, rfl, by decide⟩,
    by cbv,
    ⟨rfl, _, _, standardChecked missingArg, fun _ => 0, 1, rfl, rfl, rfl, rfl, by decide⟩,
    by cbv⟩

end ModuloPipelining
