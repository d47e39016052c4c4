import ModuloPipelining.Program.TripCount
import Mathlib.Tactic.Linarith

/-!
# Trip counts count the iterations of the loop

A counted loop runs `iv := lower; while iv <p> upper do iv := iv + step`. Read with an exact
induction variable, the run tests the predicate at `lower + k * step` for `k = 0, 1, …` until the
first test that fails. The closed form `tripCountOf` agrees with that run
(`Loop.tripCount?_counts_run`): when it gives `n`, the run tests true exactly `n` times and then
false, and every value up to the exit value lies in the word the predicate compares. Conversely,
for every shape with a closed form, a run that stops after `n` iterations without leaving the word
has trip count `n`; the other shapes, and a zero step (`Predicate.not_hasCount_zero`), have
none.

The argument:

* the count of an ordered shape is the number of whole strides short of the span, so the `k`-th
  test passes exactly when `k` is below the count (`lt_stridesOver_iff`), and a test that passes
  exactly below `c` first fails at `c` (`firstFail_iff`);
* values between two values of a word lie in the word (`fitsWord_of_between`), and reading a
  value that fits the word is exact (`read_add`), so the predicate compares the exact values;
* the `ne` shape stops exactly when the step divides the distance to the bound
  (`tripCountOf_ne_eq_some_iff`).
-/

namespace ModuloPipelining

namespace Predicate

/-- How the predicate reads a 64-bit word: unsigned for the `u` forms, signed otherwise. -/
def read (p : Predicate) (n : Int) : Int := if p.isUnsigned then unsignedReading n else n

/-- Whether an exact value lies in the word the predicate compares: the unsigned 64-bit range
for the `u` forms, the signed one otherwise. -/
def fitsWord (p : Predicate) (v : Int) : Bool :=
  if p.isUnsigned then decide (0 ≤ v ∧ v < u64Bound) else fitsI64 v

/-- The loop shapes with a closed-form count: counting up with `slt`, `sle`, `ult`, `ule`,
down with `sgt`, `sge`, `ugt`, `uge`, and onto the bound with `ne`. -/
def HasCount (p : Predicate) (step : Int) : Prop :=
  match p with
  | .slt | .sle | .ult | .ule => 0 < step
  | .sgt | .sge | .ugt | .uge => step < 0
  | .ne => step ≠ 0
  | .eq => False

instance (p : Predicate) (step : Int) : Decidable (p.HasCount step) :=
  match p with
  | .slt | .sle | .ult | .ule => inferInstanceAs (Decidable (0 < step))
  | .sgt | .sge | .ugt | .uge => inferInstanceAs (Decidable (step < 0))
  | .ne => inferInstanceAs (Decidable (step ≠ 0))
  | .eq => inferInstanceAs (Decidable False)

/-- The run `iv := lower; while iv <p> upper do iv := iv + step`, with an exact induction
variable, tests true exactly `n` times and then false. -/
def RunsFor (p : Predicate) (lower upper step : Int) (n : Nat) : Prop :=
  (∀ k < n, p.evaluate (lower + k * step) upper = true) ∧
    p.evaluate (lower + n * step) upper = false

theorem not_hasCount_zero (p : Predicate) : ¬p.HasCount 0 := by
  cases p <;> simp [HasCount]

end Predicate

/-! ### Counting strides -/

section Strides

variable {span stride : Int}

theorem stridesOver_nonneg (span stride : Int) (inclusive : Bool) :
    0 ≤ stridesOver span stride inclusive :=
  le_max_right _ _

/-- The `k`-th value is short of the bound, strictly or not, exactly when `k` is below the
count: the count rounds the span up over the stride, or down plus one with the bound included. -/
theorem lt_stridesOver_iff (hstride : 0 < stride) (inclusive : Bool) (k : Nat) :
    (k : Int) < stridesOver span stride inclusive ↔
      if inclusive then k * stride ≤ span else k * stride < span := by
  unfold stridesOver
  cases inclusive with
  | true =>
    have h := Int.le_ediv_iff_mul_le (a := k) (b := span) hstride
    simp only [if_true]
    omega
  | false =>
    have h := Int.le_ediv_iff_mul_le (a := k + 1) (b := span + stride - 1) hstride
    simp only [Bool.false_eq_true, if_false]
    rw [add_mul, one_mul] at h
    omega

/-- A test that passes exactly at the indices below `c` first fails at `c`. -/
theorem firstFail_iff {test : Nat → Prop} {c : Int} (hc : 0 ≤ c)
    (htest : ∀ k : Nat, (k : Int) < c ↔ test k) (n : Nat) :
    ((∀ k < n, test k) ∧ ¬test n) ↔ (n : Int) = c := by
  constructor
  · rintro ⟨hbefore, hat⟩
    by_contra hne
    rcases lt_or_gt_of_ne hne with hlt | hgt
    · exact hat ((htest n).1 hlt)
    · have hpass := (htest c.toNat).2 (hbefore c.toNat (by omega))
      omega
  · intro h
    exact ⟨fun k hk => (htest k).1 (by omega), fun hn => absurd ((htest n).2 hn) (by omega)⟩

/-- The values `lo + k * step` for `k` up to `c` lie between the first and the last. -/
theorem between_of_le {lo step : Int} {k c : Int} (hk₀ : 0 ≤ k) (hk : k ≤ c) :
    min lo (lo + c * step) ≤ lo + k * step ∧ lo + k * step ≤ max lo (lo + c * step) := by
  rcases le_total 0 step with hs | hs
  · have h₁ : k * step ≤ c * step := mul_le_mul_of_nonneg_right hk hs
    have h₂ : 0 ≤ k * step := mul_nonneg hk₀ hs
    omega
  · have h₁ : c * step ≤ k * step := mul_le_mul_of_nonpos_right hk hs
    have h₂ : k * step ≤ 0 := mul_nonpos_of_nonneg_of_nonpos hk₀ hs
    omega

end Strides

/-! ### Words and readings -/

theorem fitsI64_iff {n : Int} : fitsI64 n = true ↔ i64Min ≤ n ∧ n ≤ i64Max := by
  simp [fitsI64]

namespace Predicate

variable (p : Predicate)

/-- A value between two values of a word lies in the word. -/
theorem fitsWord_of_between {a b x : Int} (ha : p.fitsWord a = true) (hb : p.fitsWord b = true)
    (hx : min a b ≤ x ∧ x ≤ max a b) : p.fitsWord x = true := by
  cases hu : p.isUnsigned <;>
    simp only [fitsWord, fitsI64, hu, Bool.false_eq_true, if_true, if_false,
      decide_eq_true_eq] at ha hb ⊢ <;> omega

/-- The predicate's reading of a signed 64-bit word lies in the word it compares. -/
theorem fitsWord_read {n : Int} (h : fitsI64 n = true) : p.fitsWord (p.read n) = true := by
  have hM : (0 : Int) < u64Bound := by simp [u64Bound]
  cases hu : p.isUnsigned
  · simpa [fitsWord, read, hu] using h
  · simp only [fitsWord, read, hu, if_true, unsignedReading, decide_eq_true_eq]
    exact ⟨Int.emod_nonneg _ hM.ne', Int.emod_lt_of_pos _ hM⟩

/-- Moving a word by `d` moves its reading by `d` while the reading stays in the word. -/
theorem read_add {a d : Int} (h : p.fitsWord (p.read a + d) = true) :
    p.read (a + d) = p.read a + d := by
  cases hu : p.isUnsigned
  · simp [read, hu]
  · simp only [fitsWord, read, hu, if_true, decide_eq_true_eq] at h ⊢
    unfold unsignedReading at *
    rw [← Int.emod_add_emod, Int.emod_eq_of_lt h.1 h.2]

end Predicate

/-! ### The ordered shapes -/

section Ordered

variable {p : Predicate} {lower upper step : Int}

/-- The closed form of an ordered shape agrees with its run. The `k`-th test, read exactly
while the value fits the word, asks whether `k` strides stay short of the span; the count is
taken when its exit value fits the word, and then every value before it fits too. -/
theorem counted_eq_some_iff {span stride : Int} {inclusive : Bool} (hstride : 0 < stride)
    (hlo : p.fitsWord (p.read lower) = true)
    (htest : ∀ k : Nat, p.fitsWord (p.read lower + k * step) = true →
      (p.evaluate (lower + k * step) upper = true ↔
        if inclusive then k * stride ≤ span else k * stride < span))
    (n : Nat) :
    (if p.fitsWord (p.read lower + stridesOver span stride inclusive * step) then
        some (stridesOver span stride inclusive).toNat else none) = some n ↔
      p.RunsFor lower upper step n ∧ ∀ k ≤ n, p.fitsWord (p.read lower + k * step) = true := by
  have hc := stridesOver_nonneg span stride inclusive
  have hshort : ∀ k : Nat, (k : Int) < stridesOver span stride inclusive ↔
      if inclusive then k * stride ≤ span else k * stride < span :=
    lt_stridesOver_iff hstride inclusive
  constructor
  · intro h
    split at h
    · rename_i hexit
      obtain rfl : (stridesOver span stride inclusive).toNat = n := Option.some.inj h
      have hin : ∀ k ≤ (stridesOver span stride inclusive).toNat,
          p.fitsWord (p.read lower + k * step) = true := fun k hk =>
        p.fitsWord_of_between hlo hexit (between_of_le (Int.natCast_nonneg k) (by omega))
      refine ⟨⟨fun k hk => (htest k (hin k hk.le)).2 ((hshort k).1 (by omega)), ?_⟩, hin⟩
      cases hlast : p.evaluate (lower + ((stridesOver span stride inclusive).toNat : Nat) * step)
          upper
      · rfl
      · have := (hshort _).2 ((htest _ (hin _ le_rfl)).1 hlast)
        omega
    · cases h
  · rintro ⟨⟨hbefore, hat⟩, hin⟩
    have hcount : (n : Int) = stridesOver span stride inclusive := by
      refine (firstFail_iff hc (fun k => hshort k) n).1 ⟨fun k hk => ?_, fun hn => ?_⟩
      · exact (htest k (hin k hk.le)).1 (hbefore k hk)
      · rw [← htest n (hin n le_rfl), hat] at hn
        exact Bool.false_ne_true hn
    rw [← hcount, if_pos (hin n le_rfl)]
    simp

/-- An ordered shape with a count: the closed form counts whole strides over the span between
the readings of the bounds, and each test, read exactly, asks whether `k` strides stay short of
that span. -/
theorem tripCountOf_ordered (hp : p.HasCount step) (hne : p ≠ .ne) :
    ∃ span stride inclusive, 0 < stride ∧
      (tripCountOf p lower upper step =
        if p.fitsWord (p.read lower + stridesOver span stride inclusive * step) then
          some (stridesOver span stride inclusive).toNat else none) ∧
      ∀ k : Nat, p.fitsWord (p.read lower + k * step) = true →
        (p.evaluate (lower + k * step) upper = true ↔
          if inclusive then k * stride ≤ span else k * stride < span) := by
  -- for the unsigned forms the test compares readings, which are exact inside the word
  have hread : ∀ k : Nat, p.fitsWord (p.read lower + k * step) = true → p.isUnsigned = true →
      unsignedReading (lower + k * step) = unsignedReading lower + k * step := by
    intro k hk hu
    have := p.read_add hk
    simpa only [Predicate.read, hu, if_true] using this
  cases p
  case slt =>
    have hs : 0 < step := hp
    refine ⟨upper - lower, step, false, hs, ?_, fun k hk => ?_⟩
    · simp [tripCountOf, Predicate.fitsWord, Predicate.read, Predicate.isUnsigned, hs, hs.ne']
    · simp only [Predicate.evaluate, decide_eq_true_eq, Bool.false_eq_true, if_false]
      omega
  case sle =>
    have hs : 0 < step := hp
    refine ⟨upper - lower, step, true, hs, ?_, fun k hk => ?_⟩
    · simp [tripCountOf, Predicate.fitsWord, Predicate.read, Predicate.isUnsigned, hs, hs.ne']
    · simp only [Predicate.evaluate, decide_eq_true_eq, reduceIte]
      omega
  case sgt =>
    have hs : step < 0 := hp
    refine ⟨lower - upper, -step, false, by omega, ?_, fun k hk => ?_⟩
    · simp [tripCountOf, Predicate.fitsWord, Predicate.read, Predicate.isUnsigned, hs, hs.ne]
    · simp only [Predicate.evaluate, decide_eq_true_eq, mul_neg, Bool.false_eq_true, if_false]
      omega
  case sge =>
    have hs : step < 0 := hp
    refine ⟨lower - upper, -step, true, by omega, ?_, fun k hk => ?_⟩
    · simp [tripCountOf, Predicate.fitsWord, Predicate.read, Predicate.isUnsigned, hs, hs.ne]
    · simp only [Predicate.evaluate, decide_eq_true_eq, mul_neg, reduceIte]
      omega
  case ult =>
    have hs : 0 < step := hp
    refine ⟨unsignedReading upper - unsignedReading lower, step, false, hs, ?_, fun k hk => ?_⟩
    · simp [tripCountOf, Predicate.fitsWord, Predicate.read, Predicate.isUnsigned, hs, hs.ne']
    · simp only [Predicate.evaluate, hread k hk rfl, decide_eq_true_eq, Bool.false_eq_true, if_false]
      omega
  case ule =>
    have hs : 0 < step := hp
    refine ⟨unsignedReading upper - unsignedReading lower, step, true, hs, ?_, fun k hk => ?_⟩
    · simp [tripCountOf, Predicate.fitsWord, Predicate.read, Predicate.isUnsigned, hs, hs.ne']
    · simp only [Predicate.evaluate, hread k hk rfl, decide_eq_true_eq, reduceIte]
      omega
  case ugt =>
    have hs : step < 0 := hp
    refine ⟨unsignedReading lower - unsignedReading upper, -step, false, by omega, ?_, fun k hk => ?_⟩
    · simp [tripCountOf, Predicate.fitsWord, Predicate.read, Predicate.isUnsigned, hs, hs.ne]
    · simp only [Predicate.evaluate, hread k hk rfl, decide_eq_true_eq, mul_neg, Bool.false_eq_true, if_false]
      omega
  case uge =>
    have hs : step < 0 := hp
    refine ⟨unsignedReading lower - unsignedReading upper, -step, true, by omega, ?_, fun k hk => ?_⟩
    · simp [tripCountOf, Predicate.fitsWord, Predicate.read, Predicate.isUnsigned, hs, hs.ne]
    · simp only [Predicate.evaluate, hread k hk rfl, decide_eq_true_eq, mul_neg, reduceIte]
      omega
  case ne => exact absurd rfl hne
  case eq => exact absurd hp id

end Ordered

/-! ### Stepping onto the bound -/

section StepsOnto

variable {lower upper step : Int}

/-- `n` steps of a non-zero step move at least `n` away from the start. -/
theorem le_mul_step (n : Nat) (hstep : step ≠ 0) :
    (n : Int) ≤ n * step ∨ (n : Int) ≤ -(n * step) := by
  have hn : (0 : Int) ≤ n := Int.natCast_nonneg n
  rcases lt_or_gt_of_ne hstep with hneg | hpos
  · right
    rw [← mul_neg]
    exact le_mul_of_one_le_right hn (by omega)
  · left
    exact le_mul_of_one_le_right hn (by omega)

/-- The `ne` shape counts the steps that land exactly on the bound: it has a count when the step
divides the distance to the bound and points towards it, and the run stops exactly there. -/
theorem tripCountOf_ne_eq_some_iff (hstep : step ≠ 0) (hlower : fitsI64 lower = true)
    (hupper : fitsI64 upper = true) (n : Nat) :
    tripCountOf .ne lower upper step = some n ↔
      Predicate.ne.RunsFor lower upper step n ∧
        ∀ k ≤ n, Predicate.ne.fitsWord (Predicate.ne.read lower + k * step) = true := by
  have hmodel : tripCountOf .ne lower upper step =
      if (upper - lower) % step = 0 ∧ 0 ≤ (upper - lower) / step ∧
          (upper - lower) / step < u64Bound then
        some ((upper - lower) / step).toNat
      else none := by
    simp [tripCountOf, Predicate.isUnsigned, hstep]
  have hat : ∀ k : Nat, Predicate.ne.evaluate (lower + k * step) upper = false ↔
      (k : Int) * step = upper - lower := by
    intro k
    simp only [Predicate.evaluate, bne_eq_false_iff_eq]
    omega
  rw [hmodel]
  constructor
  · intro h
    split at h
    · rename_i hcond
      obtain ⟨hdvd, hq, -⟩ := hcond
      obtain rfl : ((upper - lower) / step).toNat = n := Option.some.inj h
      have hcover : (((upper - lower) / step).toNat : Int) * step = upper - lower := by
        rw [Int.toNat_of_nonneg hq]
        exact Int.ediv_mul_cancel (Int.dvd_of_emod_eq_zero hdvd)
      refine ⟨⟨fun k hk => ?_, (hat _).2 hcover⟩, fun k hk => ?_⟩
      · cases hk' : Predicate.ne.evaluate (lower + k * step) upper
        · have hsame : (k : Int) * step = (((upper - lower) / step).toNat : Int) * step :=
            ((hat k).1 hk').trans hcover.symm
          have := mul_right_cancel₀ hstep hsame
          omega
        · rfl
      · have hend : Predicate.ne.fitsWord
            (lower + (((upper - lower) / step).toNat : Int) * step) = true := by
          rw [hcover, add_sub_cancel]
          exact hupper
        exact Predicate.ne.fitsWord_of_between hlower hend
          (between_of_le (Int.natCast_nonneg k) (by exact_mod_cast hk))
    · cases h
  · rintro ⟨⟨-, hlast⟩, -⟩
    have hcover := (hat n).1 hlast
    have hq : (upper - lower) / step = n := by
      rw [← hcover, Int.mul_ediv_cancel _ hstep]
    have hlt : (n : Int) < u64Bound := by
      rw [fitsI64_iff] at hlower hupper
      unfold i64Min i64Max at hlower hupper
      have hfar := le_mul_step n hstep
      rw [hcover] at hfar
      simp only [u64Bound]
      push_cast
      omega
    rw [if_pos ⟨by rw [← hcover]; exact Int.mul_emod_left _ _, by omega, by omega⟩, hq]
    simp

end StepsOnto

/-! ### The trip count of a loop -/

section Loop

variable {p : Predicate} {lower upper step : Int}

/-- The shapes without a count, and a zero step, have no trip count. -/
theorem tripCountOf_eq_none_of_not_hasCount (h : ¬p.HasCount step) :
    tripCountOf p lower upper step = none := by
  unfold tripCountOf
  by_cases hzero : step = 0
  · exact if_pos hzero
  · rw [if_neg hzero]
    -- every ordered shape tests the direction of the step, which has no count here
    cases p
    case ne => exact absurd hzero h
    case eq => rfl
    all_goals exact if_neg h

/-- The closed-form trip count agrees with the run of the loop: it is `n` exactly when the shape
has a count, the run tests true `n` times and then false, and every value up to the exit value
fits the predicate's word. -/
theorem tripCountOf_eq_some_iff (hlower : fitsI64 lower = true) (hupper : fitsI64 upper = true)
    (n : Nat) :
    tripCountOf p lower upper step = some n ↔
      p.HasCount step ∧ p.RunsFor lower upper step n ∧
        ∀ k ≤ n, p.fitsWord (p.read lower + k * step) = true := by
  by_cases hp : p.HasCount step
  · by_cases hne : p = .ne
    · subst hne
      rw [tripCountOf_ne_eq_some_iff hp hlower hupper n]
      exact ⟨fun h => ⟨hp, h⟩, fun h => h.2⟩
    · obtain ⟨span, stride, inclusive, hstride, heq, htest⟩ := tripCountOf_ordered hp hne
      rw [heq, counted_eq_some_iff hstride (p.fitsWord_read hlower) htest n]
      exact ⟨fun h => ⟨hp, h⟩, fun h => h.2⟩
  · rw [tripCountOf_eq_none_of_not_hasCount hp]
    simp [hp]

theorem Loop.tripCount?_eq {l : Loop} (h : l.constantBounds? = some (lower, upper, step)) :
    l.tripCount? = tripCountOf l.predicate lower upper step := by
  simp [Loop.tripCount?, h]

/-- The trip count of a loop with known bounds counts the iterations of its run with an exact
induction variable. When it is `n`, the run tests true exactly `n` times and then false, and
every value up to the exit value lies in the word the predicate compares; conversely, a run of a
shape with a count that stops after `n` iterations without leaving the word has trip count `n`.
Other shapes, and a zero step, have none. -/
theorem Loop.tripCount?_counts_run (l : Loop)
    (hbounds : l.constantBounds? = some (lower, upper, step)) (hlower : fitsI64 lower = true)
    (hupper : fitsI64 upper = true) :
    (¬l.predicate.HasCount step → l.tripCount? = none) ∧
      ∀ n, l.tripCount? = some n ↔
        l.predicate.HasCount step ∧ l.predicate.RunsFor lower upper step n ∧
          ∀ k ≤ n, l.predicate.fitsWord (l.predicate.read lower + k * step) = true := by
  rw [Loop.tripCount?_eq hbounds]
  exact ⟨tripCountOf_eq_none_of_not_hasCount, tripCountOf_eq_some_iff hlower hupper⟩

/-- A loop counting unsigned from `-4` up to `-1`: its bounds read as `2 ^ 64 - 4` and
`2 ^ 64 - 1`. -/
def unsignedTail : Loop :=
  ⟨0, .constant (-4), .constant (-1), .constant 1, .ult, [], [], [], []⟩

theorem unsignedTail_counts_run :
    unsignedTail.constantBounds? = some (-4, -1, 1) ∧ fitsI64 (-4) = true ∧
      fitsI64 (-1) = true ∧
      ((¬unsignedTail.predicate.HasCount 1 → unsignedTail.tripCount? = none) ∧
        ∀ n, unsignedTail.tripCount? = some n ↔
          unsignedTail.predicate.HasCount 1 ∧
            unsignedTail.predicate.RunsFor (-4) (-1) 1 n ∧
            ∀ k ≤ n, unsignedTail.predicate.fitsWord
              (unsignedTail.predicate.read (-4) + k * 1) = true) :=
  ⟨rfl, by decide, by decide, Loop.tripCount?_counts_run unsignedTail rfl (by decide) (by decide)⟩

end Loop

end ModuloPipelining
