/-
The plan of a loop.

`RangePlan` in `src/src/compiler/range_plan.cpp` describes the values of `Range(start, stop, step)`
without listing them.  The number of values and the values themselves are computed on unsigned words,
into which the signed ones are shifted so that the distance between any two of them is a word.

Main definitions:

* `rangeSteps` — the steps of an arithmetic progression that come before a bound;
* `RangePlan.build`, `RangePlan.valueAt` — the plan and its values.

Main results:

* `rangeSteps_eq_Iio` — the steps before a bound are the first ones, counted by division;
* `rangePlan_exact` — **a plan is exact over all of `int64_t`**.
-/

import AtomicProof.SignedWord
import Mathlib.Data.Set.Card
import Mathlib.Order.Interval.Set.Nat
import Mathlib.Tactic.Linarith
import Mathlib.Tactic.Ring

set_option autoImplicit false

namespace AtomicProof

/-! ### Steps before a bound -/

/-- The numbers of steps after which a progression is still before `stop`, in the direction of
`step`. -/
def rangeSteps (start stop step : ℤ) : Set ℕ :=
  {k | if 0 < step then start + k * step < stop else stop < start + k * step}

/-- The number of multiples of `magnitude` below `distance`, as a division counts them. -/
theorem lt_ceil_div_iff {distance magnitude k : ℕ} (h : 0 < magnitude) :
    k < distance / magnitude + (if distance % magnitude ≠ 0 then 1 else 0) ↔
      k * magnitude < distance := by
  by_cases hexact : distance % magnitude = 0
  · rw [if_neg (by simpa using hexact), Nat.add_zero,
      Nat.lt_div_iff_mul_lt_of_dvd h.ne' (Nat.dvd_of_mod_eq_zero hexact)]
  · rw [if_pos hexact, Nat.lt_succ_iff, Nat.le_div_iff_mul_le h]
    constructor
    · intro hle
      refine lt_of_le_of_ne hle ?_
      rintro rfl
      exact hexact (Nat.mul_mod_left k magnitude)
    · exact le_of_lt

/-- The distance to the bound, in the direction of the step. -/
def rangeDistance (start stop step : ℤ) : ℕ :=
  if 0 < step then (stop - start).toNat else (start - stop).toNat

/-- **The steps before a bound are the first ones.** -/
theorem rangeSteps_eq_Iio {start stop step : ℤ} (hstep : step ≠ 0) :
    rangeSteps start stop step = Set.Iio (rangeDistance start stop step / step.natAbs +
      if rangeDistance start stop step % step.natAbs ≠ 0 then 1 else 0) := by
  ext k
  rw [Set.mem_Iio, lt_ceil_div_iff (by omega)]
  have hcast : ((k * step.natAbs : ℕ) : ℤ) = k * |step| := by
    rw [Nat.cast_mul, Int.natCast_natAbs]
  by_cases hpos : 0 < step
  · rw [abs_of_pos hpos] at hcast
    simp only [rangeSteps, rangeDistance, if_pos hpos, Set.mem_ofPred_eq]
    omega
  · rw [abs_of_neg (by omega), mul_neg] at hcast
    simp only [rangeSteps, rangeDistance, if_neg hpos, Set.mem_ofPred_eq]
    omega

/-! ### Words in order -/

def signBit : UInt64 := 0x8000000000000000

/-- `ordered`: the signed order becomes the unsigned one. -/
def ordered (value : Int64) : UInt64 := value.toUInt64 ^^^ signBit

def fromOrdered (value : UInt64) : Int64 := (value ^^^ signBit).toInt64

/-- `stepMagnitude`; the smallest number is moved by one before it is negated. -/
def stepMagnitude (step : Int64) : UInt64 :=
  if 0 ≤ step then step.toUInt64 else (-(step + 1)).toUInt64 + 1

theorem xor_signBit {n : ℕ} (h : n < 2 ^ 64) :
    n ^^^ 2 ^ 63 = if n < 2 ^ 63 then n + 2 ^ 63 else n - 2 ^ 63 := by
  have hdiv := @Nat.xor_div_two_pow n (2 ^ 63) 63
  have hmod := @Nat.xor_mod_two_pow n (2 ^ 63) 63
  rw [Nat.div_self (by norm_num)] at hdiv
  rw [Nat.mod_self, Nat.xor_zero] at hmod
  split_ifs with hlow
  · rw [Nat.div_eq_of_lt hlow, Nat.zero_xor] at hdiv
    omega
  · have hone : n / 2 ^ 63 = 1 := by omega
    rw [hone, Nat.xor_self] at hdiv
    omega

theorem toInt_eq_toNat (v : Int64) :
    v.toInt = if v.toUInt64.toNat < 2 ^ 63 then (v.toUInt64.toNat : ℤ)
      else v.toUInt64.toNat - 2 ^ 64 := by
  have h := BitVec.toInt_eq_toNat_cond v.toBitVec
  rw [Int64.toInt_toBitVec] at h
  have hnat : v.toBitVec.toNat = v.toUInt64.toNat := rfl
  rw [h, hnat]
  split_ifs <;> omega

@[simp] theorem ordered_toNat (value : Int64) : ((ordered value).toNat : ℤ) = value.toInt + 2 ^ 63 := by
  have hlt := value.toUInt64.toNat_lt
  have hsign : signBit.toNat = 2 ^ 63 := rfl
  rw [ordered, UInt64.toNat_xor, hsign, xor_signBit hlt, toInt_eq_toNat]
  split_ifs <;> omega

@[simp] theorem fromOrdered_toInt (value : UInt64) : (fromOrdered value).toInt = value.toNat - 2 ^ 63 := by
  have hlt := value.toNat_lt
  have hsign : signBit.toNat = 2 ^ 63 := rfl
  rw [fromOrdered, toInt_eq_toNat]
  have hword : (value ^^^ signBit).toInt64.toUInt64 = value ^^^ signBit := UInt64.toUInt64_toInt64 _
  rw [hword, UInt64.toNat_xor, hsign, xor_signBit hlt]
  split_ifs <;> omega

@[simp] theorem stepMagnitude_toNat (step : Int64) : (stepMagnitude step).toNat = step.toInt.natAbs := by
  have hlo := step.le_toInt
  have hhi := step.toInt_lt
  unfold stepMagnitude
  split_ifs with hneg
  · rw [Int64.le_iff_toInt_le, Int64.toInt_zero] at hneg
    have h := toInt_eq_toNat step
    have hlt := step.toUInt64.toNat_lt
    split_ifs at h <;> omega
  · rw [Int64.le_iff_toInt_le, Int64.toInt_zero] at hneg
    have hone : (step + 1).toInt = step.toInt + 1 := by
      rw [Int64.toInt_add]
      exact Int.bmod_eq_of_le (by have : (1 : Int64).toInt = 1 := rfl; omega)
        (by have : (1 : Int64).toInt = 1 := rfl; omega)
    have hflip : (-(step + 1)).toInt = -(step.toInt + 1) := by
      rw [Int64.toInt_neg, hone]
      exact Int.bmod_eq_of_le (by omega) (by omega)
    have h := toInt_eq_toNat (-(step + 1))
    have hlt := (-(step + 1)).toUInt64.toNat_lt
    have hsum : ((-(step + 1)).toUInt64 + 1).toNat = ((-(step + 1)).toUInt64.toNat + 1) % 2 ^ 64 :=
      UInt64.toNat_add _ _
    rw [hsum]
    split_ifs at h <;> omega

/-! ### The plan -/

inductive RangeErrorCode where
  | zeroStep
  | countOverflow
  | iterationLimitExceeded
  | indexOutOfRange
  | valueOverflow
  | budgetExceeded
  deriving DecidableEq, Repr

structure RangeError where
  code : RangeErrorCode
  message : String
  limit : Option UInt64 := none
  observed : Option UInt64 := none
  deriving DecidableEq, Repr

structure RangePlan where
  start : Int64
  stop : Int64
  step : Int64
  count : UInt64
  deriving DecidableEq, Repr

namespace RangePlan

def progresses (start stop step : Int64) : Bool :=
  if 0 < step then start < stop else stop < start

def distance (start stop step : Int64) : UInt64 :=
  if 0 < step then ordered stop - ordered start else ordered start - ordered stop

/-- The count of `build`. -/
def iterationCount (start stop step : Int64) : Except RangeError UInt64 :=
  if progresses start stop step then
    let quotient := distance start stop step / stepMagnitude step
    let hasRemainder := distance start stop step % stepMagnitude step ≠ 0
    if hasRemainder ∧ quotient = 0xffffffffffffffff then
      .error ⟨.countOverflow, "range iteration count does not fit in uint64_t", none, none⟩
    else .ok (quotient + if hasRemainder then 1 else 0)
  else .ok 0

/-- `build`; `maxIterations` is the limit that is asked for. -/
def build (start stop step : Int64) (maxIterations : Option UInt64) : Except RangeError RangePlan :=
  if step = 0 then .error ⟨.zeroStep, "range step must not be zero", none, none⟩
  else
    (iterationCount start stop step).bind fun count =>
      match maxIterations with
      | none => .ok ⟨start, stop, step, count⟩
      | some limit =>
          if limit < count then
            .error ⟨.iterationLimitExceeded, "range iteration count " ++ toString count.toNat ++
              " exceeds limit " ++ toString limit.toNat, some limit, some count⟩
          else .ok ⟨start, stop, step, count⟩

def valueAt (plan : RangePlan) (index : UInt64) : Except RangeError Int64 :=
  if plan.count ≤ index then
    .error ⟨.indexOutOfRange, "range index " ++ toString index.toNat ++ " is outside count " ++
      toString plan.count.toNat, some plan.count, some index⟩
  else if index ≠ 0 ∧ 0xffffffffffffffff / index < stepMagnitude plan.step then
    .error ⟨.valueOverflow, "range value offset does not fit in uint64_t", none, some index⟩
  else
    let offset := stepMagnitude plan.step * index
    if 0 < plan.step then
      if 0xffffffffffffffff - ordered plan.start < offset then
        .error ⟨.valueOverflow, "range value exceeds INT64_MAX", none, some index⟩
      else .ok (fromOrdered (ordered plan.start + offset))
    else if ordered plan.start < offset then
      .error ⟨.valueOverflow, "range value is below INT64_MIN", none, some index⟩
    else .ok (fromOrdered (ordered plan.start - offset))

end RangePlan

/-! ### Exactness -/

namespace RangePlan

variable {start stop step : Int64} {limits : Option UInt64} {plan : RangePlan}

theorem progresses_iff :
    progresses start stop step = true ↔ 0 < rangeDistance start.toInt stop.toInt step.toInt := by
  unfold progresses rangeDistance
  have hzero : (0 : Int64).toInt = 0 := Int64.toInt_zero
  by_cases hpos : 0 < step
  · have hpos' : 0 < step.toInt := by rwa [Int64.lt_iff_toInt_lt, hzero] at hpos
    rw [if_pos hpos, if_pos hpos', decide_eq_true_eq, Int64.lt_iff_toInt_lt]
    omega
  · have hpos' : ¬ 0 < step.toInt := by rwa [Int64.lt_iff_toInt_lt, hzero] at hpos
    rw [if_neg hpos, if_neg hpos', decide_eq_true_eq, Int64.lt_iff_toInt_lt]
    omega

/-- The distance between two words is a word. -/
theorem distance_toNat (h : progresses start stop step = true) :
    (distance start stop step).toNat = rangeDistance start.toInt stop.toInt step.toInt := by
  unfold progresses at h
  unfold distance rangeDistance
  have hstart := ordered_toNat start
  have hstop := ordered_toNat stop
  have hstartLt := (ordered start).toNat_lt
  have hstopLt := (ordered stop).toNat_lt
  by_cases hpos : 0 < step
  · have hpos' : 0 < step.toInt := by rwa [Int64.lt_iff_toInt_lt, Int64.toInt_zero] at hpos
    rw [if_pos hpos, decide_eq_true_eq, Int64.lt_iff_toInt_lt] at h
    rw [if_pos hpos, if_pos hpos', UInt64.toNat_sub]
    omega
  · have hpos' : ¬ 0 < step.toInt := by rwa [Int64.lt_iff_toInt_lt, Int64.toInt_zero] at hpos
    rw [if_neg hpos, decide_eq_true_eq, Int64.lt_iff_toInt_lt] at h
    rw [if_neg hpos, if_neg hpos', UInt64.toNat_sub]
    omega

theorem rangeDistance_lt : rangeDistance start.toInt stop.toInt step.toInt < 2 ^ 64 := by
  have := start.le_toInt
  have := start.toInt_lt
  have := stop.le_toInt
  have := stop.toInt_lt
  unfold rangeDistance
  split_ifs <;> omega

/-- **The count does not overflow, and it is the number of steps before the bound.** -/
theorem iterationCount_ok (hstep : step ≠ 0) :
    ∃ count, iterationCount start stop step = .ok count ∧
      count.toNat = (rangeSteps start.toInt stop.toInt step.toInt).ncard := by
  have hne : step.toInt ≠ 0 := by
    intro h
    exact hstep (Int64.toInt.inj (h.trans Int64.toInt_zero.symm))
  rw [rangeSteps_eq_Iio hne, Set.ncard_Iio_nat]
  unfold iterationCount
  by_cases hprogress : progresses start stop step = true
  · rw [if_pos hprogress]
    have hdistance := distance_toNat hprogress
    have hlt := @rangeDistance_lt start stop step
    have hmagnitude := stepMagnitude_toNat step
    have hpos : 1 ≤ step.toInt.natAbs := by omega
    have hquotient : (distance start stop step / stepMagnitude step).toNat =
        rangeDistance start.toInt stop.toInt step.toInt / step.toInt.natAbs := by
      rw [UInt64.toNat_div, hdistance, hmagnitude]
    have hremainder : distance start stop step % stepMagnitude step ≠ 0 ↔
        rangeDistance start.toInt stop.toInt step.toInt % step.toInt.natAbs ≠ 0 := by
      rw [ne_eq, ← UInt64.toNat_inj, UInt64.toNat_mod, hdistance, hmagnitude]
      rfl
    by_cases hexact : distance start stop step % stepMagnitude step ≠ 0
    -- with a remainder the step is at least two, so the quotient leaves room for one more
    · have hexact' := hremainder.1 hexact
      have hroom : rangeDistance start.toInt stop.toInt step.toInt / step.toInt.natAbs < 2 ^ 63 := by
        have htwo : 2 ≤ step.toInt.natAbs := by
          by_contra hone
          have hone' : step.toInt.natAbs = 1 := by omega
          rw [hone', Nat.mod_one] at hexact'
          exact hexact' rfl
        have hle := Nat.div_le_div_left htwo (by omega)
          (a := rangeDistance start.toInt stop.toInt step.toInt)
        omega
      have hnot : ¬ distance start stop step / stepMagnitude step = 0xffffffffffffffff := by
        rw [← UInt64.toNat_inj, hquotient]
        have hmax : (0xffffffffffffffff : UInt64).toNat = 2 ^ 64 - 1 := rfl
        omega
      refine ⟨_, if_neg fun hboth => hnot hboth.2, ?_⟩
      have hone : (1 : UInt64).toNat = 1 := rfl
      rw [if_pos hexact, if_pos hexact', UInt64.toNat_add, hquotient, hone]
      omega
    · refine ⟨_, if_neg fun hboth => hexact hboth.1, ?_⟩
      have hzero : (0 : UInt64).toNat = 0 := rfl
      rw [if_neg hexact, if_neg (by rwa [hremainder] at hexact), UInt64.toNat_add, hquotient, hzero]
      have hle := Nat.div_le_self (rangeDistance start.toInt stop.toInt step.toInt)
        step.toInt.natAbs
      omega
  · rw [if_neg hprogress]
    rw [progresses_iff] at hprogress
    have hnone : rangeDistance start.toInt stop.toInt step.toInt = 0 := by omega
    exact ⟨0, rfl, by simp [hnone]⟩

end RangePlan

/-! ### Values of a plan -/

namespace RangePlan

variable {start stop step : Int64} {plan : RangePlan}

/-- The values of the steps before the bound lie between the start and the bound. -/
theorem value_bounds {k : ℕ} (h : k ∈ rangeSteps start.toInt stop.toInt step.toInt)
    (hstep : step ≠ 0) :
    Fits64 (start.toInt + k * step.toInt) ∧
      (k * step.toInt.natAbs : ℕ) < rangeDistance start.toInt stop.toInt step.toInt := by
  have hlo := start.le_toInt
  have hhi := start.toInt_lt
  have hlo' := stop.le_toInt
  have hhi' := stop.toInt_lt
  have hcast : ((k * step.toInt.natAbs : ℕ) : ℤ) = k * |step.toInt| := by
    rw [Nat.cast_mul, Int.natCast_natAbs]
  unfold Fits64 rangeDistance
  by_cases hpos : 0 < step.toInt
  · rw [rangeSteps, Set.mem_ofPred_eq, if_pos hpos] at h
    rw [abs_of_pos hpos] at hcast
    rw [if_pos hpos]
    have hnonneg : 0 ≤ (k : ℤ) * step.toInt := by positivity
    omega
  · have hneg : step.toInt < 0 := by
      have hne : step.toInt ≠ 0 := fun h0 => hstep (Int64.toInt.inj (h0.trans Int64.toInt_zero.symm))
      omega
    rw [rangeSteps, Set.mem_ofPred_eq, if_neg hpos] at h
    rw [abs_of_neg hneg] at hcast
    rw [if_neg hpos]
    have hnonpos : (k : ℤ) * step.toInt ≤ 0 := mul_nonpos_of_nonneg_of_nonpos (by omega) hneg.le
    have hflip : (k : ℤ) * -step.toInt = -(k * step.toInt) := mul_neg _ _
    omega

/-- **Inside its count a plan yields the exact value.** -/
theorem valueAt_ok (hstep : plan.step ≠ 0) {index : UInt64}
    (hmem : index.toNat ∈ rangeSteps plan.start.toInt plan.stop.toInt plan.step.toInt)
    (hcount : index < plan.count) :
    ∃ value, plan.valueAt index = .ok value ∧
      value.toInt = plan.start.toInt + index.toNat * plan.step.toInt := by
  obtain ⟨⟨hlo, hhi⟩, hoffset⟩ := value_bounds hmem hstep
  have hdistance := @rangeDistance_lt plan.start plan.stop plan.step
  have hmagnitude := stepMagnitude_toNat plan.step
  have hstart := ordered_toNat plan.start
  have hmax : (0xffffffffffffffff : UInt64).toNat = 2 ^ 64 - 1 := rfl
  have hcast : ((index.toNat * plan.step.toInt.natAbs : ℕ) : ℤ) =
      index.toNat * |plan.step.toInt| := by
    rw [Nat.cast_mul, Int.natCast_natAbs]
  have hproduct : (stepMagnitude plan.step * index).toNat =
      index.toNat * plan.step.toInt.natAbs := by
    rw [UInt64.toNat_mul, hmagnitude, Nat.mul_comm, Nat.mod_eq_of_lt (by omega)]
  have hfits : ¬ (index ≠ 0 ∧ 0xffffffffffffffff / index < stepMagnitude plan.step) := by
    rintro ⟨hne, hlt⟩
    rw [UInt64.lt_iff_toNat_lt, UInt64.toNat_div, hmax, hmagnitude] at hlt
    have hpos : 0 < index.toNat := by
      have hnat : index.toNat ≠ 0 := fun h => hne (UInt64.toNat_inj.1 h)
      omega
    rw [Nat.div_lt_iff_lt_mul hpos, Nat.mul_comm] at hlt
    omega
  have hinside : ¬ plan.count ≤ index := by
    rw [UInt64.le_iff_toNat_le]
    rw [UInt64.lt_iff_toNat_lt] at hcount
    omega
  unfold valueAt
  rw [if_neg hinside, if_neg hfits]
  by_cases hpos : 0 < plan.step
  · have hpos' : 0 < plan.step.toInt := by rwa [Int64.lt_iff_toInt_lt, Int64.toInt_zero] at hpos
    rw [abs_of_pos hpos'] at hcast
    have hroom : ¬ 0xffffffffffffffff - ordered plan.start < stepMagnitude plan.step * index := by
      rw [UInt64.lt_iff_toNat_lt, hproduct, UInt64.toNat_sub, hmax]
      omega
    refine ⟨fromOrdered (ordered plan.start + stepMagnitude plan.step * index), ?_, ?_⟩
    · rw [if_pos hpos, if_neg hroom]
    · rw [fromOrdered_toInt, UInt64.toNat_add, hproduct]
      omega
  · have hpos' : ¬ 0 < plan.step.toInt := by rwa [Int64.lt_iff_toInt_lt, Int64.toInt_zero] at hpos
    rw [abs_of_nonpos (by omega), mul_neg] at hcast
    have hroom : ¬ ordered plan.start < stepMagnitude plan.step * index := by
      rw [UInt64.lt_iff_toNat_lt, hproduct]
      omega
    refine ⟨fromOrdered (ordered plan.start - stepMagnitude plan.step * index), ?_, ?_⟩
    · rw [if_neg hpos, if_neg hroom]
    · rw [fromOrdered_toInt, UInt64.toNat_sub, hproduct]
      omega

theorem valueAt_error {index : UInt64} (h : plan.count ≤ index) :
    ∃ message, plan.valueAt index =
      .error ⟨.indexOutOfRange, message, some plan.count, some index⟩ :=
  ⟨_, if_pos h⟩

end RangePlan

/-- What is asked of a plan: it counts the steps before the bound, and its values are those of the
steps, each of them an `int64_t`. -/
structure RangePlan.Exact (plan : RangePlan) : Prop where
  count : plan.count.toNat =
    (rangeSteps plan.start.toInt plan.stop.toInt plan.step.toInt).ncard
  steps : rangeSteps plan.start.toInt plan.stop.toInt plan.step.toInt = Set.Iio plan.count.toNat
  value : ∀ index < plan.count, ∃ value, plan.valueAt index = .ok value ∧
    value.toInt = plan.start.toInt + index.toNat * plan.step.toInt
  outside : ∀ index, plan.count ≤ index → ∃ error, plan.valueAt index = .error error ∧
    error.code = .indexOutOfRange

/-- **A plan is exact over all of `int64_t`.**  It is built exactly where the number of steps before
the bound is within the limit; the one error is the limit's. -/
theorem rangePlan_exact (start stop step : Int64) (limits : Option UInt64) (hstep : step ≠ 0) :
    ((∃ plan, RangePlan.build start stop step limits = .ok plan) ↔
      ∀ limit ∈ limits, (rangeSteps start.toInt stop.toInt step.toInt).ncard ≤ limit.toNat) ∧
    (∀ plan, RangePlan.build start stop step limits = .ok plan →
      plan.start = start ∧ plan.stop = stop ∧ plan.step = step ∧ plan.Exact) ∧
    (∀ error, RangePlan.build start stop step limits = .error error →
      error.code = .iterationLimitExceeded) := by
  obtain ⟨count, hcount, hcard⟩ := @RangePlan.iterationCount_ok start stop step hstep
  have hexact : RangePlan.Exact ⟨start, stop, step, count⟩ := by
    have hsteps : rangeSteps start.toInt stop.toInt step.toInt = Set.Iio count.toNat := by
      have hne : step.toInt ≠ 0 := fun h0 => hstep (Int64.toInt.inj (h0.trans Int64.toInt_zero.symm))
      rw [hcard, rangeSteps_eq_Iio hne, Set.ncard_Iio_nat]
    refine ⟨hcard, hsteps, ?_, ?_⟩
    · intro index hlt
      refine RangePlan.valueAt_ok hstep ?_ hlt
      rw [hsteps, Set.mem_Iio, ← UInt64.lt_iff_toNat_lt]
      exact hlt
    · intro index hle
      obtain ⟨message, herror⟩ := RangePlan.valueAt_error hle
      exact ⟨_, herror, rfl⟩
  unfold RangePlan.build
  rw [if_neg hstep, hcount]
  cases limits with
  | none =>
      refine ⟨iff_of_true ⟨_, rfl⟩ (by simp), ?_, ?_⟩
      · intro plan hplan
        obtain rfl := Except.ok.inj hplan
        exact ⟨rfl, rfl, rfl, hexact⟩
      · intro error herror
        cases herror
  | some limit =>
      simp only [Except.bind, Option.mem_some_iff, forall_eq', ← hcard]
      by_cases hlimit : limit < count
      · rw [if_pos hlimit]
        rw [UInt64.lt_iff_toNat_lt] at hlimit
        refine ⟨iff_of_false (by rintro ⟨plan, hplan⟩; cases hplan) (by omega), ?_, ?_⟩
        · intro plan hplan
          cases hplan
        · intro error herror
          obtain rfl := Except.error.inj herror
          rfl
      · rw [if_neg hlimit]
        rw [UInt64.lt_iff_toNat_lt] at hlimit
        refine ⟨iff_of_true ⟨_, rfl⟩ (by omega), ?_, ?_⟩
        · intro plan hplan
          obtain rfl := Except.ok.inj hplan
          exact ⟨rfl, rfl, rfl, hexact⟩
        · intro error herror
          cases herror

theorem rangePlan_exact_seven : ∃ plan, RangePlan.build 0 7 3 none = .ok plan ∧ plan.Exact := by
  have hexact := rangePlan_exact 0 7 3 none (by decide)
  obtain ⟨plan, hplan⟩ := hexact.1.2 nofun
  exact ⟨plan, hplan, (hexact.2.1 plan hplan).2.2.2⟩

end AtomicProof
