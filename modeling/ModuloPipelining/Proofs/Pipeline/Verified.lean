import ModuloPipelining.Proofs.Schedule.Optimal
import ModuloPipelining.Pipeline.Verify

/-!
# Pipelines that pass verification

`Pipeline.verify` walks the stages in order, with the operations seen so far and, inside a
stage, those placed before. It passes (`Pipeline.verify_eq_ok`) when

* there is a stage, the argument types are one per argument with `index` first, and every
  argument has a capture stage that exists;
* stage `k` is numbered `k`, and each operand of an operation is readable given the operations
  before it in its stage, each register given all operations of its stage;
* no operation is placed twice, and exactly one of them is the increment;
* the terminator has one next value per argument and one result per result type, all readable
  at the end.
-/

namespace ModuloPipelining

namespace Pipeline

variable (p : Pipeline)

theorem checkOperands_eq_ok {stage : Nat} {defined : List OpRef} {operands : List StageOperand}
    (h : ∀ x ∈ operands, p.readableIn stage defined x = true) :
    p.checkOperands stage defined operands = .ok () :=
  Problem.forM_eq_ok fun x hx => by simp [h x hx]

/-- The identities of a list of placed operations. -/
abbrev ids (ops : List StageOp) : List OpRef := ops.map (·.id)

/-- The operations of a stage pass when each reads what the stage defines before it, none was
seen before and none repeats; the walk counts the increments among them. -/
theorem checkOperations_eq_ok (stage : Nat) :
    ∀ (ops : List StageOp) (seen defined : List OpRef) (increments : Nat),
      (∀ pre o post, ops = pre ++ o :: post →
        ∀ x ∈ o.operands, p.readableIn stage ((ids pre).reverse ++ defined) x = true) →
      (∀ o ∈ ops, o.id ∉ seen) → (ids ops).Nodup →
      p.checkOperations stage seen defined increments ops =
        .ok ((ids ops).reverse ++ seen, (ids ops).reverse ++ defined,
          increments + (ids ops).count .increment)
  | [], _, _, _, _, _, _ => rfl
  | o :: rest, seen, defined, increments, hread, hfresh, hnodup => by
    have hnodup' := List.nodup_cons.1 hnodup
    have hoperands : p.checkOperands stage defined o.operands = .ok () :=
      p.checkOperands_eq_ok (hread [] o rest rfl)
    have hseen : seen.contains o.id = false := by
      simpa using hfresh o List.mem_cons_self
    have hrest := checkOperations_eq_ok stage rest (o.id :: seen) (o.id :: defined)
      (if o.id == .increment then increments + 1 else increments)
      (fun pre o' post h x hx => by
        have := hread (o :: pre) o' post (by rw [h]; rfl) x hx
        simpa [ids] using this)
      (fun o' ho' hmem => by
        rcases List.mem_cons.1 hmem with h | h
        · apply hnodup'.1
          show o.id ∈ rest.map (·.id)
          rw [← h]
          exact List.mem_map_of_mem ho'
        · exact hfresh o' (List.mem_cons_of_mem _ ho') h)
      hnodup'.2
    unfold checkOperations
    simp only [hoperands, hseen, bind, Except.bind, Bool.false_eq_true, if_false]
    rw [hrest]
    simp only [ids, List.map_cons, List.reverse_cons, List.append_assoc, List.singleton_append,
      List.count_cons, beq_iff_eq]
    congr 3
    split <;> omega

/-- The stages from `position` on pass when each is numbered by its position, reads only what
it may, and no operation repeats; the walk counts the increments. -/
theorem checkStages_eq_ok :
    ∀ (stages : List Stage) (position : Nat) (seen : List OpRef) (increments : Nat),
      (∀ i (h : i < stages.length), stages[i].index = position + i) →
      (∀ s ∈ stages, ∀ pre o post, s.operations = pre ++ o :: post →
        ∀ x ∈ o.operands, p.readableIn s.index (ids pre).reverse x = true) →
      (∀ s ∈ stages, ∀ x ∈ s.registers,
        p.readableIn s.index (ids s.operations).reverse x = true) →
      (seen ++ stages.flatMap (ids ·.operations)).Nodup →
      p.checkStages position seen increments stages =
        .ok (increments + (stages.flatMap (ids ·.operations)).count .increment)
  | [], _, _, _, _, _, _, _ => rfl
  | s :: rest, position, seen, increments, hindex, hops, hregs, hnodup => by
    have hs := hindex 0 (by simp)
    simp only [List.getElem_cons_zero, Nat.add_zero] at hs
    rw [List.flatMap_cons] at hnodup
    have hnodup' := hnodup
    rw [← List.append_assoc] at hnodup'
    have hfresh : ∀ o ∈ s.operations, o.id ∉ seen := fun o ho hseen =>
      List.disjoint_of_nodup_append (List.Nodup.sublist (List.sublist_append_left _ _) hnodup')
        hseen (List.mem_map_of_mem ho)
    have hstage := p.checkOperations_eq_ok s.index s.operations seen [] increments
      (fun pre o post h x hx => by simpa using hops s List.mem_cons_self pre o post h x hx)
      hfresh ((List.nodup_append.1 (List.nodup_append.1 hnodup').1).2.1)
    have hregisters : p.checkOperands s.index ((ids s.operations).reverse ++ []) s.registers =
        .ok () :=
      p.checkOperands_eq_ok fun x hx => by simpa using hregs s List.mem_cons_self x hx
    have hrest := checkStages_eq_ok rest (position + 1) ((ids s.operations).reverse ++ seen)
      (increments + (ids s.operations).count .increment)
      (fun i h => by
        have := hindex (i + 1) (by simp; omega)
        simp only [List.getElem_cons_succ] at this
        omega)
      (fun s' hs' => hops s' (List.mem_cons_of_mem _ hs'))
      (fun s' hs' => hregs s' (List.mem_cons_of_mem _ hs'))
      ((List.Perm.nodup_iff (List.Perm.append_right _ (List.perm_append_comm.trans
        (List.Perm.append_right _ (List.reverse_perm _).symm)))).1 hnodup')
    unfold checkStages
    rw [if_neg (by omega), hs]
    simp only [bind, Except.bind]
    rw [← hs, hstage]
    simp only
    rw [hregisters]
    simp only
    rw [hs, hrest, List.flatMap_cons, List.count_append, Nat.add_assoc]

theorem firstCaptureOutside_eq_none (count : Nat) :
    ∀ (slot : Nat) (captures : List Nat), (∀ k ∈ captures, k < count) →
      firstCaptureOutside count slot captures = none
  | _, [], _ => rfl
  | slot, k :: rest, h => by
    unfold firstCaptureOutside
    rw [if_neg (Nat.not_le.2 (h k List.mem_cons_self))]
    exact firstCaptureOutside_eq_none count (slot + 1) rest
      fun k' hk' => h k' (List.mem_cons_of_mem _ hk')

theorem checkTerminator_eq_ok
    (hargs : p.terminator.iterArgs.length = p.iterArgs.length)
    (hresults : p.terminator.results.length = p.resultTypes.length)
    (hread : ∀ x ∈ p.terminator.iterArgs ++ p.terminator.results, p.readableAtEnd x = true) :
    p.checkTerminator = .ok () := by
  unfold checkTerminator
  simp only [hargs, hresults, ne_eq, not_true_eq_false, if_false]
  exact Problem.forM_eq_ok fun x hx => by simp [hread x hx]

/-- A pipeline that meets the conditions of its verification passes it. -/
theorem verify_eq_ok (hstages : p.stages ≠ [])
    (htypes : p.iterArgTypes.length = p.iterArgs.length)
    (hhead : p.iterArgTypes.head? = some .index)
    (hcaptures : p.captureStages.length = p.iterArgs.length)
    (hcaptureIn : ∀ k ∈ p.captureStages, k < p.stages.length)
    (hindex : ∀ i (h : i < p.stages.length), p.stages[i].index = i)
    (hops : ∀ s ∈ p.stages, ∀ pre o post, s.operations = pre ++ o :: post →
      ∀ x ∈ o.operands, p.readableIn s.index (ids pre).reverse x = true)
    (hregs : ∀ s ∈ p.stages, ∀ x ∈ s.registers,
      p.readableIn s.index (ids s.operations).reverse x = true)
    (hnodup : (p.stages.flatMap (ids ·.operations)).Nodup)
    (hone : (p.stages.flatMap (ids ·.operations)).count .increment = 1)
    (hargs : p.terminator.iterArgs.length = p.iterArgs.length)
    (hresults : p.terminator.results.length = p.resultTypes.length)
    (hread : ∀ x ∈ p.terminator.iterArgs ++ p.terminator.results, p.readableAtEnd x = true) :
    p.verify = .ok () := by
  have hwalk := p.checkStages_eq_ok p.stages 0 [] 0 (by simpa using hindex) hops hregs
    (by simpa using hnodup)
  unfold verify
  simp only [List.isEmpty_eq_false_iff.2 hstages, htypes, hhead, hcaptures, ne_eq,
    not_true_eq_false, Bool.false_eq_true, if_false,
    firstCaptureOutside_eq_none _ 0 _ hcaptureIn, hwalk, Nat.zero_add, hone]
  exact p.checkTerminator_eq_ok hargs hresults hread

end Pipeline

end ModuloPipelining
