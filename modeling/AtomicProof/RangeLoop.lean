/-
Loops unroll as they are interpreted.

`evalRange` in `src/src/interpreter/ast_interpreter.cpp` lists the values of `Range(...)` by stepping
a signed counter until it passes the bound, where the compiler unrolls the values of a `RangePlan`.
The counter takes one step more than there are values, and nothing keeps that step inside `int64_t`.

Main definitions:

* `evalRange` — the values of the interpreter; a step that does not fit is a fault of its own;
* `UnrollsAsPlanned` — the interpreter and the plan agree.

Main results:

* `rangeLoop_spec` — the loop lists the values before the bound, where the step behind the last one fits;
* `unrollsAsPlanned_iff` — **the interpreter agrees with the plan exactly where the step behind the
  last value fits, or there are more values than it allows**.
-/

import AtomicProof.RangePlan
import AtomicProof.RuntimeCodec

set_option autoImplicit false

namespace AtomicProof

/-! ### The interpreter's range -/

/-- How an evaluation ends without a value: an exception, or a signed operation without a defined
result. -/
inductive EvalFault where
  | thrown (error : RuntimeError)
  | signedOverflow
  deriving DecidableEq, Repr

def kMaxRangeItems : ℕ := 1000000

/-- The bounds of `Range(...)`, one to three numbers: start, stop and step. -/
def rangeBounds : List Int64 → Except RuntimeError (Int64 × Int64 × Int64)
  | [stop] => .ok (0, stop, 1)
  | [start, stop] => .ok (start, stop, 1)
  | [start, stop, step] => .ok (start, stop, step)
  | _ => .error ⟨.builtinError, "Range(...) expects 1 to 3 arguments"⟩

/-- The exception for a range of too many values. -/
def tooManyValues : RuntimeError := ⟨.builtinError, "Range(...) produced too many values"⟩

/-- The loops of `evalRange`; `room` is the number of values that may still be listed. -/
def rangeLoop (stop step : Int64) : ℕ → Int64 → Except EvalFault (List Int64)
  | room, value =>
      if RangePlan.progresses value stop step then
        match room with
        | 0 => .error (.thrown tooManyValues)
        | room + 1 =>
            match signed (value.toInt + step.toInt) with
            | none => .error .signedOverflow
            | some next => (rangeLoop stop step room next).map (value :: ·)
      else .ok []

/-- `evalRange`, on the values of its arguments. -/
def evalRange (bounds : List Int64) : Except EvalFault (List Int64) :=
  match rangeBounds bounds with
  | .error error => .error (.thrown error)
  | .ok (start, stop, step) =>
      if step = 0 then .error (.thrown ⟨.builtinError, "Range(...) step cannot be zero"⟩)
      else rangeLoop stop step kMaxRangeItems start

/-! ### The loop -/

variable {start stop step value : Int64} {bounds : List Int64}

theorem progresses_iff_mem :
    RangePlan.progresses value stop step = true ↔
      0 ∈ rangeSteps value.toInt stop.toInt step.toInt := by
  unfold RangePlan.progresses rangeSteps
  rw [Set.mem_ofPred_eq, Nat.cast_zero, zero_mul, add_zero]
  by_cases hpos : 0 < step
  · have hpos' : 0 < step.toInt := by rwa [Int64.lt_iff_toInt_lt, Int64.toInt_zero] at hpos
    rw [if_pos hpos, if_pos hpos', decide_eq_true_eq, Int64.lt_iff_toInt_lt]
  · have hpos' : ¬ 0 < step.toInt := by rwa [Int64.lt_iff_toInt_lt, Int64.toInt_zero] at hpos
    rw [if_neg hpos, if_neg hpos', decide_eq_true_eq, Int64.lt_iff_toInt_lt]

theorem mem_rangeSteps_succ {start stop step : ℤ} {k : ℕ} :
    k ∈ rangeSteps (start + step) stop step ↔ k + 1 ∈ rangeSteps start stop step := by
  have hsame : start + step + k * step = start + ((k + 1 : ℕ) : ℤ) * step := by
    push_cast
    ring
  simp only [rangeSteps, Set.mem_ofPred_eq, hsame]

/-- **The loop lists the values before the bound.**  The step behind the last of them has to fit; with
more values than there is room for, the loop ends before it. -/
theorem rangeLoop_spec (hstep : step ≠ 0) {room count : ℕ}
    (h : ∀ k, k ∈ rangeSteps value.toInt stop.toInt step.toInt ↔ k < count) :
    (room < count → rangeLoop stop step room value = .error (.thrown tooManyValues)) ∧
    (count ≤ room → ¬ Fits64 (value.toInt + count * step.toInt) →
      rangeLoop stop step room value = .error .signedOverflow) ∧
    (count ≤ room → Fits64 (value.toInt + count * step.toInt) →
      ∃ values, rangeLoop stop step room value = .ok values ∧ values.length = count ∧
        ∀ i (hi : i < values.length), values[i].toInt = value.toInt + i * step.toInt) := by
  -- the room shrinks by one with every value, and the steps left with it
  induction room generalizing value count with
  | zero =>
      have hprogress := (@progresses_iff_mem stop step value).trans (h 0)
      refine ⟨?_, ?_, ?_⟩
      · intro hlt
        rw [rangeLoop, if_pos (hprogress.2 hlt)]
      · intro hle hfits
        obtain rfl : count = 0 := by omega
        exact absurd (by simpa using fits64_toInt value) hfits
      · intro hle _
        obtain rfl : count = 0 := by omega
        rw [rangeLoop, if_neg (by rw [hprogress]; omega)]
        exact ⟨[], rfl, rfl, by simp⟩
  | succ room ih =>
      have hprogress := (@progresses_iff_mem stop step value).trans (h 0)
      cases count with
      | zero =>
          refine ⟨by omega, ?_, ?_⟩
          · intro _ hfits
            exact absurd (by simpa using fits64_toInt value) hfits
          · intro _ _
            rw [rangeLoop, if_neg (by rw [hprogress]; omega)]
            exact ⟨[], rfl, rfl, by simp⟩
      | succ count =>
          have hsum : value.toInt + ((count + 1 : ℕ) : ℤ) * step.toInt =
              value.toInt + step.toInt + count * step.toInt := by
            push_cast
            ring
          rw [rangeLoop, if_pos (hprogress.2 (by omega)), hsum]
          by_cases hfits : Fits64 (value.toInt + step.toInt)
          · obtain ⟨next, hnext, hvalue⟩ := exists_signed hfits
            have hnextSteps : ∀ k, k ∈ rangeSteps next.toInt stop.toInt step.toInt ↔ k < count := by
              intro k
              rw [hvalue, mem_rangeSteps_succ, h]
              omega
            obtain ⟨hmany, hover, hok⟩ := ih hnextSteps
            rw [hvalue] at hover hok
            rw [hnext]
            refine ⟨?_, ?_, ?_⟩
            · intro hlt
              simp only
              rw [hmany (by omega)]
              rfl
            · intro hle hnot
              simp only
              rw [hover (by omega) hnot]
              rfl
            · intro hle hend
              obtain ⟨values, hrun, hlength, hvalues⟩ := hok (by omega) hend
              refine ⟨value :: values, ?_, by simp [hlength], ?_⟩
              · simp only
                rw [hrun]
                rfl
              · intro i hi
                cases i with
                | zero => simp
                | succ i =>
                    rw [List.getElem_cons_succ, hvalues i (by simpa using hi)]
                    push_cast
                    ring
          -- a counter before the bound steps out of range only behind the last value
          · have hlast : count = 0 := by
              by_contra hmore
              have hone : 1 ∈ rangeSteps value.toInt stop.toInt step.toInt := (h 1).2 (by omega)
              refine hfits ?_
              simpa using (RangePlan.value_bounds hone hstep).1
            subst hlast
            rw [signed_eq_none.2 hfits]
            refine ⟨by omega, fun _ _ => rfl, ?_⟩
            intro _ hend
            exact absurd (by simpa using hend) hfits

/-! ### Agreement with the plan -/

/-- The interpreter and the plan agree on `Range(...)`: no signed operation of the interpreter
overflows, both refuse or both accept, and then the values are the same. -/
structure UnrollsAsPlanned (bounds : List Int64) (start stop step : Int64) : Prop where
  defined : evalRange bounds ≠ .error .signedOverflow
  accepts : (∃ values, evalRange bounds = .ok values) ↔
    ∃ plan, RangePlan.build start stop step (some 1000000) = .ok plan
  values : ∀ values plan, evalRange bounds = .ok values →
    RangePlan.build start stop step (some 1000000) = .ok plan →
      values.length = plan.count.toNat ∧
        ∀ i (h : i < values.length), plan.valueAt (UInt64.ofNat i) = .ok values[i]

/-- **The interpreter agrees with the plan exactly where the step behind the last value fits, or there
are more values than it allows.** -/
theorem unrollsAsPlanned_iff (h : rangeBounds bounds = .ok (start, stop, step)) :
    UnrollsAsPlanned bounds start stop step ↔
      step = 0 ∨ 1000000 < (rangeSteps start.toInt stop.toInt step.toInt).ncard ∨
        Fits64 (start.toInt + (rangeSteps start.toInt stop.toInt step.toInt).ncard * step.toInt) := by
  -- a step of zero is refused by both
  by_cases hstep : step = 0
  · subst hstep
    have hrun : evalRange bounds =
        .error (.thrown ⟨.builtinError, "Range(...) step cannot be zero"⟩) := by
      simp only [evalRange, h, if_true]
    refine iff_of_true ⟨by simp [hrun], ?_, ?_⟩ (.inl rfl)
    · refine iff_of_false ?_ ?_
      · rintro ⟨values, hok⟩
        simp [hrun] at hok
      · rintro ⟨plan, hok⟩
        simp [RangePlan.build] at hok
    · intro values plan hok
      simp [hrun] at hok
  · have hne : step.toInt ≠ 0 := fun h0 => hstep (Int64.toInt.inj (h0.trans Int64.toInt_zero.symm))
    have hrun : evalRange bounds = rangeLoop stop step kMaxRangeItems start := by
      simp only [evalRange, h, if_neg hstep]
    obtain ⟨hbuild, hplan, -⟩ := rangePlan_exact start stop step (some 1000000) hstep
    have hlimit : (1000000 : UInt64).toNat = 1000000 := rfl
    simp only [Option.mem_some_iff, forall_eq', hlimit] at hbuild
    have hsteps : ∀ k, k ∈ rangeSteps start.toInt stop.toInt step.toInt ↔
        k < (rangeSteps start.toInt stop.toInt step.toInt).ncard := by
      intro k
      rw [rangeSteps_eq_Iio hne, Set.ncard_Iio_nat]
      rfl
    obtain ⟨hmany, hover, hok⟩ := @rangeLoop_spec stop step start hstep kMaxRangeItems _ hsteps
    rw [← hrun] at hmany hover hok
    have hroom : kMaxRangeItems = 1000000 := rfl
    rcases Nat.lt_or_ge kMaxRangeItems (rangeSteps start.toInt stop.toInt step.toInt).ncard with
      hlt | hle
    -- too many values for both
    · refine iff_of_true ⟨by simp [hmany hlt], ?_, ?_⟩ (.inr (.inl (by omega)))
      · refine iff_of_false ?_ ?_
        · rintro ⟨values, hvalues⟩
          simp [hmany hlt] at hvalues
        · rw [hbuild]
          omega
      · intro values plan hvalues
        simp [hmany hlt] at hvalues
    · by_cases hfits : Fits64 (start.toInt +
          (rangeSteps start.toInt stop.toInt step.toInt).ncard * step.toInt)
      · obtain ⟨values, hvalues, hlength, hexact⟩ := hok hle hfits
        refine iff_of_true ⟨by simp [hvalues], ?_, ?_⟩ (.inr (.inr hfits))
        · exact iff_of_true ⟨values, hvalues⟩ (hbuild.2 (by omega))
        · intro values' plan hvalues' hbuilt
          obtain rfl := Except.ok.inj (hvalues.symm.trans hvalues')
          obtain ⟨hstart, hstop, hstepPlan, hcountExact⟩ := hplan plan hbuilt
          have hcount : plan.count.toNat = values.length := by
            rw [hcountExact.count, hstart, hstop, hstepPlan, hlength]
          refine ⟨hcount.symm, ?_⟩
          intro i hi
          -- the plan counts in machine words, and no place reaches their bound
          have hword : (UInt64.ofNat i).toNat = i := by
            rw [UInt64.toNat_ofNat']
            exact Nat.mod_eq_of_lt (by omega)
          have hbefore : UInt64.ofNat i < plan.count := by
            rw [UInt64.lt_iff_toNat_lt, hword, hcount]
            exact hi
          obtain ⟨value, hvalue, hnumber⟩ := hcountExact.value _ hbefore
          rw [hword, hstart, hstepPlan, ← hexact i hi] at hnumber
          rw [hvalue, Int64.toInt.inj hnumber]
      · refine iff_of_false ?_ ?_
        · intro hagrees
          exact hagrees.defined (hover hle hfits)
        · rintro (h0 | hlt | hfits')
          · exact hstep h0
          · omega
          · exact hfits hfits'

/-- The range of five values. -/
theorem unrollsAsPlanned_iff_five : UnrollsAsPlanned [5] 0 5 1 := by
  have hcount : (rangeSteps (0 : Int64).toInt (5 : Int64).toInt (1 : Int64).toInt).ncard = 5 := by
    rw [rangeSteps_eq_Iio (by decide), Set.ncard_Iio_nat]
    decide
  refine (unrollsAsPlanned_iff rfl).2 (.inr (.inr ?_))
  rw [hcount]
  decide

/-- **The counter overflows behind the last value.**  The range has two values, and the plan has them;
the interpreter adds its step once more. -/
theorem evalRange_overflows :
    evalRange [0, Int64.maxValue, 0x4000000000000000] = .error .signedOverflow ∧
      (RangePlan.build 0 Int64.maxValue 0x4000000000000000 (some 1000000)).map
          (fun plan => (plan.count, plan.valueAt 0, plan.valueAt 1)) =
        .ok (2, .ok 0, .ok 0x4000000000000000) ∧
      ¬ UnrollsAsPlanned [0, Int64.maxValue, 0x4000000000000000]
        0 Int64.maxValue 0x4000000000000000 := by
  have hrun : evalRange [0, Int64.maxValue, 0x4000000000000000] = .error .signedOverflow := by
    decide +kernel
  refine ⟨hrun, by decide +kernel, ?_⟩
  intro hagrees
  exact hagrees.defined hrun

end AtomicProof
