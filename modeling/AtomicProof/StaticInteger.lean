/-
Static evaluation of integers.

Loop bounds and array sizes are integers that the compiler knows.  `StaticIntegerEvaluator` in
`src/src/compiler/static_integer_evaluator.cpp` computes them: a value where every leaf is known and
nothing overflows, an error where something does, and neither where a leaf is not known.  Each operation
is guarded by tests that are signed operations themselves.

Main definitions:

* `evaluateExpression` — the evaluator; a signed operation that does not fit has no result at all;
* `ExprNode.value` — the mathematical value of an expression;
* `ExprNode.LeavesKnown`, `ExprNode.Sound` — what a known value needs.

Main results:

* `checkedAdd_spec`, `checkedMultiply_spec`, … — a guarded operation is exact, or an error where the
  exact result does not fit;
* `evaluate_exact` — **the evaluator is exact, and none of its signed operations overflows**.
-/

import AtomicProof.SignedWord
import Mathlib.Algebra.Order.Ring.Int
import Mathlib.Data.List.TakeWhile
import Mathlib.Tactic.Linarith

set_option autoImplicit false

namespace AtomicProof

/-! ### Results and literals -/

inductive StaticIntegerResult where
  | known (value : Int64)
  | unknown
  | error (diagnostic : String)
  deriving DecidableEq, Repr

/-- The types of literals, as far as the evaluator tells them apart. -/
inductive LiteralType where
  | number
  | other
  deriving DecidableEq, Repr

/-- The number of a row of decimal digits. -/
def decimalValue (digits : List Char) : ℕ :=
  digits.foldl (fun value digit => value * 10 + (digit.toNat - '0'.toNat)) 0

/-- How `std::from_chars` ends: with a value and the text behind it, or with an error code. -/
inductive FromChars where
  | parsed (value : Int64) (rest : List Char)
  | invalidArgument
  | resultOutOfRange
  deriving DecidableEq, Repr

/-- `std::from_chars` for `int64_t` and base ten: an optional minus sign and the digits up to the first
other character. -/
def fromChars (text : List Char) : FromChars :=
  let negative := text.head? = some '-'
  let body := if negative then text.tail else text
  let digits := body.takeWhile Char.isDigit
  if digits = [] then .invalidArgument
  else
    match signed (if negative then -(decimalValue digits : ℤ) else decimalValue digits) with
    | none => .resultOutOfRange
    | some value => .parsed value (body.dropWhile Char.isDigit)

def parseIntegerLiteral (type : LiteralType) (text : String) : StaticIntegerResult :=
  match type with
  | .other => .unknown
  | .number =>
      match fromChars text.toList with
      | .resultOutOfRange => .error "integer literal is outside the int64 range"
      | .invalidArgument => .error "invalid integer literal"
      | .parsed value rest => if rest = [] then .known value else .error "invalid integer literal"

/-! ### Guarded operations -/

/-- A result where the test for an overflow fails; the test is a signed computation itself. -/
def guarded (overflows : Option Bool) (diagnostic : String) (result : Option Int64) :
    Option StaticIntegerResult := do
  if ← overflows then pure (.error diagnostic)
  else pure (.known (← result))

def checkedAdd (lhs rhs : Int64) : Option StaticIntegerResult :=
  guarded
    (if 0 < rhs then (signed (Int64.maxValue.toInt - rhs.toInt)).map fun bound => bound < lhs
    else if rhs < 0 then (signed (Int64.minValue.toInt - rhs.toInt)).map fun bound => lhs < bound
    else some false)
    "integer addition overflow" (signed (lhs.toInt + rhs.toInt))

def checkedSubtract (lhs rhs : Int64) : Option StaticIntegerResult :=
  guarded
    (if rhs < 0 then (signed (Int64.maxValue.toInt + rhs.toInt)).map fun bound => bound < lhs
    else if 0 < rhs then (signed (Int64.minValue.toInt + rhs.toInt)).map fun bound => lhs < bound
    else some false)
    "integer subtraction overflow" (signed (lhs.toInt - rhs.toInt))

def checkedMultiply (lhs rhs : Int64) : Option StaticIntegerResult :=
  if lhs = 0 ∨ rhs = 0 then some (.known 0)
  else if lhs = -1 ∧ rhs = Int64.minValue ∨ rhs = -1 ∧ lhs = Int64.minValue then
    some (.error "integer multiplication overflow")
  else
    guarded
      (if 0 < lhs then
        if 0 < rhs then (signedDiv Int64.maxValue rhs).map fun bound => bound < lhs
        else (signedDiv Int64.minValue lhs).map fun bound => rhs < bound
      else
        if 0 < rhs then (signedDiv Int64.minValue rhs).map fun bound => lhs < bound
        else (signedDiv Int64.maxValue rhs).map fun bound => lhs < bound)
      "integer multiplication overflow" (signed (lhs.toInt * rhs.toInt))

def checkedDivide (lhs rhs : Int64) : Option StaticIntegerResult :=
  if rhs = 0 then some (.error "integer division by zero")
  else if lhs = Int64.minValue ∧ rhs = -1 then some (.error "integer division overflow")
  else (signedDiv lhs rhs).map .known

/-- `checkedModulo`; the remainder is refused where the quotient overflows. -/
def checkedModulo (lhs rhs : Int64) : Option StaticIntegerResult :=
  if rhs = 0 then some (.error "integer modulo by zero")
  else if lhs = Int64.minValue ∧ rhs = -1 then some (.error "integer modulo overflow")
  else (signedMod lhs rhs).map .known

/-! ### Expressions -/

/-- The operators of an `OpNode` with one operand. -/
inductive UnaryOp where
  | minus
  | not
  | other (op : String)
  deriving DecidableEq, Repr

/-- The operators of an `OpNode` with two operands. -/
inductive BinaryOp where
  | add
  | subtract
  | multiply
  | divide
  | modulo
  | equal
  | notEqual
  | less
  | greater
  | lessOrEqual
  | greaterOrEqual
  | and
  | or
  | other (op : String)
  deriving DecidableEq, Repr

/-- The expressions, as far as the evaluator looks into them; `other` is every other node. -/
inductive ExprNode where
  | literal (type : LiteralType) (value : String)
  | identifier (name : String)
  | methodCall (object : ExprNode) (methodName : String) (argCount : ℕ)
  | unary (op : UnaryOp) (rhs : ExprNode)
  | binary (op : BinaryOp) (lhs rhs : ExprNode)
  | other
  deriving DecidableEq, Repr

def knownIf (condition : Bool) : StaticIntegerResult := .known (if condition then 1 else 0)

def applyUnary (op : UnaryOp) (value : Int64) : Option StaticIntegerResult :=
  match op with
  | .minus =>
      if value = Int64.minValue then some (.error "integer negation overflow")
      else (signed (-value.toInt)).map .known
  | .not => some (knownIf (value = 0))
  | .other _ => some .unknown

/-- A binary operator on two known values. -/
def applyBinary (op : BinaryOp) (a b : Int64) : Option StaticIntegerResult :=
  match op with
  | .add => checkedAdd a b
  | .subtract => checkedSubtract a b
  | .multiply => checkedMultiply a b
  | .divide => checkedDivide a b
  | .modulo => checkedModulo a b
  | .equal => some (knownIf (a = b))
  | .notEqual => some (knownIf (a ≠ b))
  | .less => some (knownIf (a < b))
  | .greater => some (knownIf (b < a))
  | .lessOrEqual => some (knownIf (a ≤ b))
  | .greaterOrEqual => some (knownIf (b ≤ a))
  | .and => some (knownIf (a ≠ 0 ∧ b ≠ 0))
  | .or => some (knownIf (a ≠ 0 ∨ b ≠ 0))
  | .other _ => some .unknown

/-- `evaluateExpression`; there is no result where a signed operation overflows.  Both operands are
evaluated, and an error of either is the result. -/
def evaluateExpression (resolveIdentifier : String → StaticIntegerResult) :
    ExprNode → Option StaticIntegerResult
  | .literal type value => some (parseIntegerLiteral type value)
  | .identifier name => some (resolveIdentifier name)
  | .methodCall object methodName argCount =>
      if methodName = "Clone" ∧ argCount = 0 then evaluateExpression resolveIdentifier object
      else some .unknown
  | .unary op rhs =>
      (evaluateExpression resolveIdentifier rhs).bind fun rhs =>
        match rhs with
        | .known value => applyUnary op value
        | result => some result
  | .binary op lhs rhs =>
      (evaluateExpression resolveIdentifier lhs).bind fun lhs =>
        (evaluateExpression resolveIdentifier rhs).bind fun rhs =>
          match lhs, rhs with
          | .error diagnostic, _ => some (.error diagnostic)
          | _, .error diagnostic => some (.error diagnostic)
          | .known a, .known b => applyBinary op a b
          | _, _ => some .unknown
  | .other => some .unknown

/-- `StaticIntegerEvaluator::evaluate` with bindings. -/
def evaluate (bindings : String → Option Int64) (expression : ExprNode) :
    Option StaticIntegerResult :=
  evaluateExpression (fun name =>
    match bindings name with
    | none => .unknown
    | some value => .known value) expression

/-! ### Guarded operations are exact -/

/-- A computation has a result: a known `number` where `sound` holds and an error elsewhere. -/
structure Decides (result : Option StaticIntegerResult) (sound : Prop) (number : ℤ) : Prop where
  ok : sound → ∃ value, result = some (.known value) ∧ value.toInt = number
  fails : ¬ sound → ∃ diagnostic, result = some (.error diagnostic)

section Guarded

variable {value : Int64} {number : ℤ} {diagnostic : String}

/-- A test that is exact makes the operation exact. -/
theorem guarded_decides {overflows : Option Bool} {test : Bool} (htest : overflows = some test)
    (h : test = false ↔ Fits64 number) :
    Decides (guarded overflows diagnostic (signed number)) (Fits64 number) number := by
  subst htest
  refine ⟨?_, ?_⟩
  · intro hfits
    obtain ⟨value, hvalue, hnumber⟩ := exists_signed hfits
    refine ⟨value, ?_, hnumber⟩
    simp [guarded, h.2 hfits, hvalue]
  · intro hnot
    have htrue : test = true := by
      rw [← Bool.not_eq_false, h]
      exact hnot
    exact ⟨diagnostic, by simp [guarded, htrue]⟩

theorem toInt_zero_lt : 0 < value ↔ 0 < value.toInt := by
  rw [Int64.lt_iff_toInt_lt, Int64.toInt_zero]

theorem toInt_lt_zero : value < 0 ↔ value.toInt < 0 := by
  rw [Int64.lt_iff_toInt_lt, Int64.toInt_zero]

theorem test_of_fits {bound : ℤ} (hfits : Fits64 bound) (test : Int64 → Bool) :
    ∃ word, (signed bound).map test = some (test word) ∧ word.toInt = bound := by
  obtain ⟨word, hword, hnumber⟩ := exists_signed hfits
  exact ⟨word, by rw [hword]; rfl, hnumber⟩

theorem checkedAdd_spec (lhs rhs : Int64) :
    Decides (checkedAdd lhs rhs) (Fits64 (lhs.toInt + rhs.toInt)) (lhs.toInt + rhs.toInt) := by
  have hlo := lhs.le_toInt
  have hhi := lhs.toInt_lt
  have hlo' := rhs.le_toInt
  have hhi' := rhs.toInt_lt
  have hmax := Int64.toInt_maxValue
  have hmin := Int64.toInt_minValue
  unfold checkedAdd
  by_cases hpos : 0 < rhs
  · rw [if_pos hpos]
    rw [toInt_zero_lt] at hpos
    obtain ⟨bound, htest, hbound⟩ := @test_of_fits (Int64.maxValue.toInt - rhs.toInt)
      (by unfold Fits64; omega) fun bound => bound < lhs
    refine guarded_decides htest ?_
    rw [decide_eq_false_iff_not, Int64.lt_iff_toInt_lt, Fits64]
    omega
  · rw [if_neg hpos]
    rw [toInt_zero_lt] at hpos
    by_cases hneg : rhs < 0
    · rw [if_pos hneg]
      rw [toInt_lt_zero] at hneg
      obtain ⟨bound, htest, hbound⟩ := @test_of_fits (Int64.minValue.toInt - rhs.toInt)
        (by unfold Fits64; omega) fun bound => lhs < bound
      refine guarded_decides htest ?_
      rw [decide_eq_false_iff_not, Int64.lt_iff_toInt_lt, Fits64]
      omega
    · rw [if_neg hneg]
      rw [toInt_lt_zero] at hneg
      refine guarded_decides rfl (iff_of_true rfl ?_)
      unfold Fits64
      omega

theorem checkedSubtract_spec (lhs rhs : Int64) :
    Decides (checkedSubtract lhs rhs) (Fits64 (lhs.toInt - rhs.toInt)) (lhs.toInt - rhs.toInt) := by
  have hlo := lhs.le_toInt
  have hhi := lhs.toInt_lt
  have hlo' := rhs.le_toInt
  have hhi' := rhs.toInt_lt
  have hmax := Int64.toInt_maxValue
  have hmin := Int64.toInt_minValue
  unfold checkedSubtract
  by_cases hneg : rhs < 0
  · rw [if_pos hneg]
    rw [toInt_lt_zero] at hneg
    obtain ⟨bound, htest, hbound⟩ := @test_of_fits (Int64.maxValue.toInt + rhs.toInt)
      (by unfold Fits64; omega) fun bound => bound < lhs
    refine guarded_decides htest ?_
    rw [decide_eq_false_iff_not, Int64.lt_iff_toInt_lt, Fits64]
    omega
  · rw [if_neg hneg]
    rw [toInt_lt_zero] at hneg
    by_cases hpos : 0 < rhs
    · rw [if_pos hpos]
      rw [toInt_zero_lt] at hpos
      obtain ⟨bound, htest, hbound⟩ := @test_of_fits (Int64.minValue.toInt + rhs.toInt)
        (by unfold Fits64; omega) fun bound => lhs < bound
      refine guarded_decides htest ?_
      rw [decide_eq_false_iff_not, Int64.lt_iff_toInt_lt, Fits64]
      omega
    · rw [if_neg hpos]
      rw [toInt_zero_lt] at hpos
      refine guarded_decides rfl (iff_of_true rfl ?_)
      unfold Fits64
      omega

theorem test_of_div {a b : Int64} (hne : b ≠ 0) (hmin : ¬ (a.toInt = -2 ^ 63 ∧ b.toInt = -1))
    (test : Int64 → Bool) :
    ∃ word, (signedDiv a b).map test = some (test word) ∧ word.toInt = a.toInt.tdiv b.toInt := by
  rw [signedDiv, if_neg hne]
  exact test_of_fits ((fits64_tdiv_iff hne).2 hmin) test

theorem neg_tdiv_le_iff {n a b : ℤ} (hn : 0 ≤ n) (ha : 0 < a) : -(n.tdiv a) ≤ b ↔ -(b * a) ≤ n := by
  rw [Int.tdiv_eq_ediv_of_nonneg hn, neg_le, Int.le_ediv_iff_mul_le ha, neg_mul]

theorem le_tdiv_iff {n a b : ℤ} (hn : 0 ≤ n) (ha : 0 < a) : b ≤ n.tdiv a ↔ b * a ≤ n := by
  rw [Int.tdiv_eq_ediv_of_nonneg hn, Int.le_ediv_iff_mul_le ha]

theorem checkedMultiply_spec (lhs rhs : Int64) :
    Decides (checkedMultiply lhs rhs) (Fits64 (lhs.toInt * rhs.toInt)) (lhs.toInt * rhs.toInt) := by
  have hlo := lhs.le_toInt
  have hlo' := rhs.le_toInt
  have hmax := Int64.toInt_maxValue
  have hmin := Int64.toInt_minValue
  have hone : (-1 : Int64).toInt = -1 := rfl
  unfold checkedMultiply
  by_cases hzero : lhs = 0 ∨ rhs = 0
  · have hproduct : lhs.toInt * rhs.toInt = 0 := by
      rcases hzero with rfl | rfl <;> simp
    rw [if_pos hzero, hproduct]
    exact ⟨fun _ => ⟨0, rfl, rfl⟩, fun hnot => absurd (by decide) hnot⟩
  rw [if_neg hzero]
  obtain ⟨hlhs, hrhs⟩ := not_or.1 hzero
  -- the smallest number has no negation in range
  by_cases hflip : lhs = -1 ∧ rhs = Int64.minValue ∨ rhs = -1 ∧ lhs = Int64.minValue
  · have hproduct : lhs.toInt * rhs.toInt = 2 ^ 63 := by
      rcases hflip with ⟨rfl, rfl⟩ | ⟨rfl, rfl⟩ <;> rfl
    rw [if_pos hflip, hproduct]
    exact ⟨fun hfits => absurd hfits (by decide), fun _ => ⟨_, rfl⟩⟩
  rw [if_neg hflip]
  have hlhs' := toInt_ne_zero.2 hlhs
  have hrhs' := toInt_ne_zero.2 hrhs
  -- one division test for each pair of signs
  by_cases hpos : 0 < lhs
  · rw [if_pos hpos]
    rw [toInt_zero_lt] at hpos
    by_cases hpos' : 0 < rhs
    · rw [if_pos hpos']
      rw [toInt_zero_lt] at hpos'
      have hproduct := mul_pos hpos hpos'
      obtain ⟨bound, htest, hbound⟩ :=
        @test_of_div Int64.maxValue rhs hrhs (by omega) fun bound => bound < lhs
      refine guarded_decides htest ?_
      rw [decide_eq_false_iff_not, Int64.lt_iff_toInt_lt, not_lt, hbound, hmax,
        le_tdiv_iff (by omega) hpos', Fits64]
      omega
    · rw [if_neg hpos']
      rw [toInt_zero_lt] at hpos'
      have hproduct := mul_neg_of_pos_of_neg hpos (show rhs.toInt < 0 by omega)
      obtain ⟨bound, htest, hbound⟩ :=
        @test_of_div Int64.minValue lhs hlhs (by omega) fun bound => rhs < bound
      refine guarded_decides htest ?_
      rw [decide_eq_false_iff_not, Int64.lt_iff_toInt_lt, not_lt, hbound, hmin, Int.neg_tdiv,
        neg_tdiv_le_iff (by omega) hpos, mul_comm rhs.toInt, Fits64]
      omega
  · rw [if_neg hpos]
    rw [toInt_zero_lt] at hpos
    have hneg : lhs.toInt < 0 := by omega
    by_cases hpos' : 0 < rhs
    · rw [if_pos hpos']
      rw [toInt_zero_lt] at hpos'
      have hproduct := mul_neg_of_neg_of_pos hneg hpos'
      obtain ⟨bound, htest, hbound⟩ :=
        @test_of_div Int64.minValue rhs hrhs (by omega) fun bound => lhs < bound
      refine guarded_decides htest ?_
      rw [decide_eq_false_iff_not, Int64.lt_iff_toInt_lt, not_lt, hbound, hmin, Int.neg_tdiv,
        neg_tdiv_le_iff (by omega) hpos', Fits64]
      omega
    · rw [if_neg hpos']
      rw [toInt_zero_lt] at hpos'
      have hneg' : rhs.toInt < 0 := by omega
      have hproduct := mul_pos_of_neg_of_neg hneg hneg'
      obtain ⟨bound, htest, hbound⟩ :=
        @test_of_div Int64.maxValue rhs hrhs (by omega) fun bound => lhs < bound
      refine guarded_decides htest ?_
      have hquotient : (2 ^ 63 - 1 : ℤ).tdiv rhs.toInt = -((2 ^ 63 - 1 : ℤ).tdiv (-rhs.toInt)) := by
        rw [Int.tdiv_neg, neg_neg]
      rw [decide_eq_false_iff_not, Int64.lt_iff_toInt_lt, not_lt, hbound, hmax, hquotient,
        neg_tdiv_le_iff (by omega) (by omega), mul_neg, neg_neg, Fits64]
      omega

/-- A quotient and a remainder are refused in the same two cases: a zero divisor, and the one quotient
that does not fit. -/
theorem quotient_decides {lhs rhs : Int64} {number : ℤ} {result : Option Int64}
    {byZero overflow : String} (hresult : rhs ≠ 0 → Fits64 (lhs.toInt.tdiv rhs.toInt) →
      ∃ value, result = some value ∧ value.toInt = number) :
    Decides (if rhs = 0 then some (.error byZero)
        else if lhs = Int64.minValue ∧ rhs = -1 then some (.error overflow)
        else result.map .known)
      (rhs.toInt ≠ 0 ∧ Fits64 (lhs.toInt.tdiv rhs.toInt)) number := by
  by_cases hzero : rhs = 0
  · rw [if_pos hzero]
    exact ⟨fun hsound => absurd hzero (toInt_ne_zero.1 hsound.1), fun _ => ⟨_, rfl⟩⟩
  rw [if_neg hzero]
  have hflip : lhs = Int64.minValue ∧ rhs = -1 ↔ lhs.toInt = -2 ^ 63 ∧ rhs.toInt = -1 := by
    rw [← Int64.toInt_inj, ← Int64.toInt_inj]
    rfl
  by_cases hmin : lhs = Int64.minValue ∧ rhs = -1
  · rw [if_pos hmin]
    refine ⟨?_, fun _ => ⟨_, rfl⟩⟩
    rintro ⟨-, hfits⟩
    exact absurd (hflip.1 hmin) ((fits64_tdiv_iff hzero).1 hfits)
  · rw [if_neg hmin]
    have hfits := (fits64_tdiv_iff hzero).2 fun h => hmin (hflip.2 h)
    obtain ⟨value, rfl, hnumber⟩ := hresult hzero hfits
    exact ⟨fun _ => ⟨value, rfl, hnumber⟩, fun hnot => absurd ⟨toInt_ne_zero.2 hzero, hfits⟩ hnot⟩

theorem checkedDivide_spec (lhs rhs : Int64) :
    Decides (checkedDivide lhs rhs) (rhs.toInt ≠ 0 ∧ Fits64 (lhs.toInt.tdiv rhs.toInt))
      (lhs.toInt.tdiv rhs.toInt) := by
  refine quotient_decides fun hzero hfits => ?_
  rw [signedDiv, if_neg hzero]
  exact exists_signed hfits

theorem checkedModulo_spec (lhs rhs : Int64) :
    Decides (checkedModulo lhs rhs) (rhs.toInt ≠ 0 ∧ Fits64 (lhs.toInt.tdiv rhs.toInt))
      (lhs.toInt.tmod rhs.toInt) := by
  refine quotient_decides fun hzero hfits => ?_
  rw [signedMod, if_neg (by simp [hzero, hfits])]
  exact exists_signed (@fits64_tmod lhs rhs hzero)

end Guarded

/-! ### The mathematical value -/

/-- The number a text spells: an optional minus sign and a row of at least one digit. -/
def numeral? (text : List Char) : Option ℤ :=
  let negative := text.head? = some '-'
  let body := if negative then text.tail else text
  if body ≠ [] ∧ body.all Char.isDigit = true then
    some (if negative then -(decimalValue body : ℤ) else decimalValue body)
  else none

/-- The operator is one the evaluator knows. -/
def UnaryOp.IsKnown : UnaryOp → Prop
  | .other _ => False
  | _ => True

/-- The exact result of a unary operator. -/
def UnaryOp.value : UnaryOp → ℤ → ℤ
  | .minus, n => -n
  | .not, n => if n = 0 then 1 else 0
  | .other _, _ => 0

/-- The operator is one the evaluator knows. -/
def BinaryOp.IsKnown : BinaryOp → Prop
  | .other _ => False
  | _ => True

/-- The exact result of a binary operator; division truncates toward zero. -/
def BinaryOp.value : BinaryOp → ℤ → ℤ → ℤ
  | .add, a, b => a + b
  | .subtract, a, b => a - b
  | .multiply, a, b => a * b
  | .divide, a, b => a.tdiv b
  | .modulo, a, b => a.tmod b
  | .equal, a, b => if a = b then 1 else 0
  | .notEqual, a, b => if a ≠ b then 1 else 0
  | .less, a, b => if a < b then 1 else 0
  | .greater, a, b => if b < a then 1 else 0
  | .lessOrEqual, a, b => if a ≤ b then 1 else 0
  | .greaterOrEqual, a, b => if b ≤ a then 1 else 0
  | .and, a, b => if a ≠ 0 ∧ b ≠ 0 then 1 else 0
  | .or, a, b => if a ≠ 0 ∨ b ≠ 0 then 1 else 0
  | .other _, _, _ => 0

/-- A binary operator has a result that fits: the divisor is not zero, and for a remainder the quotient
fits as well. -/
def BinaryOp.Sound : BinaryOp → ℤ → ℤ → Prop
  | .divide, a, b => b ≠ 0 ∧ Fits64 (a.tdiv b)
  | .modulo, a, b => b ≠ 0 ∧ Fits64 (a.tdiv b) ∧ Fits64 (a.tmod b)
  | op, a, b => Fits64 (op.value a b)

namespace ExprNode

variable (bindings : String → Option Int64)

/-- The mathematical value of an expression whose leaves are known. -/
def value : ExprNode → ℤ
  | literal _ text => (numeral? text.toList).getD 0
  | identifier name => ((bindings name).map Int64.toInt).getD 0
  | methodCall object _ _ => object.value
  | unary op rhs => op.value rhs.value
  | binary op lhs rhs => op.value lhs.value rhs.value
  | other => 0

/-- Every leaf is a number literal or a bound identifier, and every node above them is one the
evaluator knows. -/
def LeavesKnown : ExprNode → Prop
  | literal type text => type = .number ∧ (numeral? text.toList).isSome
  | identifier name => (bindings name).isSome
  | methodCall object methodName argCount =>
      (methodName = "Clone" ∧ argCount = 0) ∧ object.LeavesKnown
  | unary op rhs => op.IsKnown ∧ rhs.LeavesKnown
  | binary op lhs rhs => op.IsKnown ∧ lhs.LeavesKnown ∧ rhs.LeavesKnown
  | other => False

/-- The result of the node itself fits, and its divisor is not zero. -/
def StepSound : ExprNode → Prop
  | binary op lhs rhs => op.Sound (lhs.value bindings) (rhs.value bindings)
  | e => Fits64 (e.value bindings)

/-- The expressions inside an expression, itself included. -/
def subtrees : ExprNode → List ExprNode
  | methodCall object methodName argCount =>
      methodCall object methodName argCount ::
        if methodName = "Clone" ∧ argCount = 0 then object.subtrees else []
  | unary op rhs => unary op rhs :: rhs.subtrees
  | binary op lhs rhs => binary op lhs rhs :: (lhs.subtrees ++ rhs.subtrees)
  | e => [e]

/-- A number literal that spells no number. -/
def Malformed : ExprNode → Prop
  | literal type text => type = .number ∧ numeral? text.toList = none
  | _ => False

/-- No divisor is zero and every intermediate result fits. -/
def Sound (e : ExprNode) : Prop := ∀ sub ∈ e.subtrees, sub.StepSound bindings

/-- Some part holds a malformed literal, or its leaves are known and its result does not fit. -/
def Faulty (e : ExprNode) : Prop :=
  ∃ sub ∈ e.subtrees, sub.Malformed ∨ sub.LeavesKnown bindings ∧ ¬ sub.StepSound bindings

/-- What the evaluator may say about an expression. -/
inductive Verdict (e : ExprNode) : StaticIntegerResult → Prop
  | known {v : Int64} (leaves : e.LeavesKnown bindings) (sound : e.Sound bindings)
      (exact : v.toInt = e.value bindings) : Verdict e (.known v)
  | unknown (leaves : ¬ e.LeavesKnown bindings) (faultless : ¬ e.Faulty bindings) :
      Verdict e .unknown
  | error {diagnostic : String} (faulty : e.Faulty bindings) : Verdict e (.error diagnostic)

variable {bindings} {e lhs rhs object : ExprNode} {op : UnaryOp}

theorem mem_subtrees_self (e : ExprNode) : e ∈ e.subtrees := by
  cases e <;> simp [subtrees]

/-- The leaves of a part are leaves of the whole. -/
theorem leavesKnown_of_mem {sub : ExprNode} (hmem : sub ∈ e.subtrees)
    (h : e.LeavesKnown bindings) : sub.LeavesKnown bindings := by
  induction e with
  | literal type text =>
      obtain rfl := List.mem_singleton.1 hmem
      exact h
  | identifier name =>
      obtain rfl := List.mem_singleton.1 hmem
      exact h
  | methodCall object methodName argCount ih =>
      rw [subtrees, if_pos h.1, List.mem_cons] at hmem
      rcases hmem with rfl | hmem
      · exact h
      · exact ih hmem h.2
  | unary op rhs ih =>
      rw [subtrees, List.mem_cons] at hmem
      rcases hmem with rfl | hmem
      · exact h
      · exact ih hmem h.2
  | binary op lhs rhs ihl ihr =>
      rw [subtrees, List.mem_cons, List.mem_append] at hmem
      rcases hmem with rfl | hmem | hmem
      · exact h
      · exact ihl hmem h.2.1
      · exact ihr hmem h.2.2
  | other => exact absurd h id

theorem not_malformed_of_leavesKnown (h : e.LeavesKnown bindings) : ¬ e.Malformed := by
  cases e with
  | literal type text =>
      rintro ⟨-, hnone⟩
      have hsome := h.2
      rw [hnone] at hsome
      cases hsome
  | _ => exact id

/-- **With known leaves an expression is sound or faulty, never both.** -/
theorem sound_iff_not_faulty (h : e.LeavesKnown bindings) :
    e.Sound bindings ↔ ¬ e.Faulty bindings := by
  constructor
  · rintro hsound ⟨sub, hmem, hbad | ⟨-, hbad⟩⟩
    · exact not_malformed_of_leavesKnown (leavesKnown_of_mem hmem h) hbad
    · exact hbad (hsound sub hmem)
  · intro hfaultless sub hmem
    by_contra hbad
    exact hfaultless ⟨sub, hmem, .inr ⟨leavesKnown_of_mem hmem h, hbad⟩⟩

end ExprNode

/-! ### The evaluator is exact -/

/-- A literal is read as the number it spells. -/
theorem parseIntegerLiteral_spec (text : String) :
    (∀ n, numeral? text.toList = some n →
      Decides (some (parseIntegerLiteral .number text)) (Fits64 n) n) ∧
    (numeral? text.toList = none →
      ∃ diagnostic, parseIntegerLiteral .number text = .error diagnostic) := by
  unfold parseIntegerLiteral numeral? fromChars
  simp only
  generalize htext : (if text.toList.head? = some '-' then text.toList.tail else text.toList) = body
  by_cases hgood : body ≠ [] ∧ body.all Char.isDigit = true
  · have hall : ∀ c ∈ body, c.isDigit = true := by simpa using hgood.2
    have htake : body.takeWhile Char.isDigit = body := List.takeWhile_eq_self_iff.2 hall
    have hdrop : body.dropWhile Char.isDigit = [] := List.dropWhile_eq_nil_iff.2 hall
    rw [if_pos hgood, htake, hdrop, if_neg hgood.1]
    refine ⟨?_, by simp⟩
    intro n hn
    obtain rfl := Option.some.inj hn
    refine ⟨?_, ?_⟩
    · intro hfits
      obtain ⟨value, hvalue, hnumber⟩ := exists_signed hfits
      exact ⟨value, by simp [hvalue], hnumber⟩
    · intro hnot
      rw [signed_eq_none.2 hnot]
      exact ⟨_, rfl⟩
  · rw [if_neg hgood]
    refine ⟨by simp, ?_⟩
    intro _
    by_cases hnone : body.takeWhile Char.isDigit = []
    · rw [if_pos hnone]
      exact ⟨_, rfl⟩
    · rw [if_neg hnone]
      have hrest : body.dropWhile Char.isDigit ≠ [] := by
        intro hnil
        refine hgood ⟨?_, ?_⟩
        · rintro rfl
          exact hnone rfl
        · simpa using List.dropWhile_eq_nil_iff.1 hnil
      cases hsigned : signed (if text.toList.head? = some '-' then
          -(decimalValue (body.takeWhile Char.isDigit) : ℤ)
        else decimalValue (body.takeWhile Char.isDigit)) with
      | none => exact ⟨_, rfl⟩
      | some value => exact ⟨_, if_neg hrest⟩

theorem decides_knownIf {p q : Prop} [Decidable p] [Decidable q] (h : p ↔ q) :
    Decides (some (knownIf (decide p))) (Fits64 (if q then 1 else 0)) (if q then 1 else 0) := by
  have hsame : (if decide p = true then (1 : Int64) else 0).toInt = if q then 1 else 0 := by
    by_cases hp : p
    · rw [if_pos (by simpa using hp), if_pos (h.1 hp)]
      rfl
    · rw [if_neg (by simpa using hp), if_neg fun hq => hp (h.2 hq)]
      rfl
  refine ⟨fun _ => ⟨_, rfl, hsame⟩, fun hnot => absurd ?_ hnot⟩
  split_ifs <;> decide

theorem applyUnary_spec {op : UnaryOp} (h : op.IsKnown) (v : Int64) :
    Decides (applyUnary op v) (Fits64 (op.value v.toInt)) (op.value v.toInt) := by
  cases op with
  | minus =>
      have hlo := v.le_toInt
      have hhi := v.toInt_lt
      simp only [applyUnary, UnaryOp.value]
      by_cases hmin : v = Int64.minValue
      · subst hmin
        rw [if_pos rfl]
        exact ⟨fun hfits => absurd hfits (by decide), fun _ => ⟨_, rfl⟩⟩
      · rw [if_neg hmin]
        have hne : v.toInt ≠ -2 ^ 63 := fun h => hmin (Int64.toInt.inj h)
        obtain ⟨word, hword, hnumber⟩ := @exists_signed (-v.toInt) (by unfold Fits64; omega)
        refine ⟨fun _ => ⟨word, by rw [hword]; rfl, hnumber⟩, fun hnot => absurd ?_ hnot⟩
        unfold Fits64
        omega
  | not =>
      refine decides_knownIf ?_
      rw [← Int64.toInt_inj, Int64.toInt_zero]
  | other op => exact absurd h id

/-- **An operator on known values is exact, or an error.** -/
theorem applyBinary_spec {op : BinaryOp} (h : op.IsKnown) (a b : Int64) :
    Decides (applyBinary op a b) (op.Sound a.toInt b.toInt) (op.value a.toInt b.toInt) := by
  have heq : a = b ↔ a.toInt = b.toInt := Int64.toInt_inj.symm
  cases op with
  | add => exact checkedAdd_spec a b
  | subtract => exact checkedSubtract_spec a b
  | multiply => exact checkedMultiply_spec a b
  | divide => exact checkedDivide_spec a b
  | modulo =>
      obtain ⟨hok, hfails⟩ := checkedModulo_spec a b
      refine ⟨fun hsound => hok ⟨hsound.1, hsound.2.1⟩, fun hnot => hfails ?_⟩
      rintro ⟨hne, hfits⟩
      exact hnot ⟨hne, hfits, fits64_tmod (toInt_ne_zero.1 hne)⟩
  | equal => exact decides_knownIf heq
  | notEqual => exact decides_knownIf (not_congr heq)
  | less => exact decides_knownIf Int64.lt_iff_toInt_lt
  | greater => exact decides_knownIf Int64.lt_iff_toInt_lt
  | lessOrEqual => exact decides_knownIf Int64.le_iff_toInt_le
  | greaterOrEqual => exact decides_knownIf Int64.le_iff_toInt_le
  | and => exact decides_knownIf (and_congr toInt_ne_zero.symm toInt_ne_zero.symm)
  | or => exact decides_knownIf (or_congr toInt_ne_zero.symm toInt_ne_zero.symm)
  | other op => exact absurd h id

namespace ExprNode

variable {bindings : String → Option Int64} {e : ExprNode}

theorem faulty_iff {parts : List ExprNode} (h : ∀ sub, sub ∈ e.subtrees ↔
      sub = e ∨ ∃ part ∈ parts, sub ∈ part.subtrees) (hself : ¬ e.Malformed) :
    e.Faulty bindings ↔ (∃ part ∈ parts, part.Faulty bindings) ∨
      e.LeavesKnown bindings ∧ ¬ e.StepSound bindings := by
  constructor
  · rintro ⟨sub, hmem, hbad⟩
    rcases (h sub).1 hmem with rfl | ⟨part, hpart, hsub⟩
    · exact .inr (hbad.resolve_left hself)
    · exact .inl ⟨part, hpart, sub, hsub, hbad⟩
  · rintro (⟨part, hpart, sub, hsub, hbad⟩ | hbad)
    · exact ⟨sub, (h sub).2 (.inr ⟨part, hpart, hsub⟩), hbad⟩
    · exact ⟨e, mem_subtrees_self e, .inr hbad⟩

theorem sound_iff {parts : List ExprNode} (h : ∀ sub, sub ∈ e.subtrees ↔
      sub = e ∨ ∃ part ∈ parts, sub ∈ part.subtrees) :
    e.Sound bindings ↔ e.StepSound bindings ∧ ∀ part ∈ parts, part.Sound bindings := by
  constructor
  · intro hsound
    refine ⟨hsound e (mem_subtrees_self e), ?_⟩
    intro part hpart sub hsub
    exact hsound sub ((h sub).2 (.inr ⟨part, hpart, hsub⟩))
  · rintro ⟨hstep, hparts⟩ sub hmem
    rcases (h sub).1 hmem with rfl | ⟨part, hpart, hsub⟩
    · exact hstep
    · exact hparts part hpart sub hsub

end ExprNode

namespace ExprNode

variable {bindings : String → Option Int64} {e : ExprNode}

theorem verdict_of_decides {result : Option StaticIntegerResult} {parts : List ExprNode}
    (h : ∀ sub, sub ∈ e.subtrees ↔ sub = e ∨ ∃ part ∈ parts, sub ∈ part.subtrees)
    (hdecides : Decides result (e.StepSound bindings) (e.value bindings))
    (hleaves : e.LeavesKnown bindings) (hparts : ∀ part ∈ parts, part.Sound bindings) :
    ∃ r, result = some r ∧ e.Verdict bindings r := by
  by_cases hstep : e.StepSound bindings
  · obtain ⟨v, hresult, hvalue⟩ := hdecides.ok hstep
    exact ⟨_, hresult, .known hleaves ((sound_iff h).2 ⟨hstep, hparts⟩) hvalue⟩
  · obtain ⟨diagnostic, hresult⟩ := hdecides.fails hstep
    exact ⟨_, hresult, .error ⟨e, mem_subtrees_self e, .inr ⟨hleaves, hstep⟩⟩⟩

theorem verdict_unknown {parts : List ExprNode}
    (h : ∀ sub, sub ∈ e.subtrees ↔ sub = e ∨ ∃ part ∈ parts, sub ∈ part.subtrees)
    (hself : ¬ e.Malformed) (hleaves : ¬ e.LeavesKnown bindings)
    (hparts : ∀ part ∈ parts, ¬ part.Faulty bindings) : e.Verdict bindings .unknown := by
  refine .unknown hleaves ?_
  rw [faulty_iff h hself]
  rintro (⟨part, hpart, hfaulty⟩ | hstep)
  · exact hparts part hpart hfaulty
  · exact hleaves hstep.1

theorem verdict_error {part : ExprNode} {diagnostic : String}
    (h : ∀ sub ∈ part.subtrees, sub ∈ e.subtrees) (hfaulty : part.Faulty bindings) :
    e.Verdict bindings (.error diagnostic) := by
  obtain ⟨sub, hmem, hbad⟩ := hfaulty
  exact .error ⟨sub, h sub hmem, hbad⟩

theorem mem_unary {op : UnaryOp} {rhs sub : ExprNode} :
    sub ∈ (unary op rhs).subtrees ↔ sub = unary op rhs ∨ ∃ part ∈ [rhs], sub ∈ part.subtrees := by
  simp [subtrees]

theorem mem_binary {op : BinaryOp} {lhs rhs sub : ExprNode} :
    sub ∈ (binary op lhs rhs).subtrees ↔
      sub = binary op lhs rhs ∨ ∃ part ∈ [lhs, rhs], sub ∈ part.subtrees := by
  simp [subtrees]

theorem mem_leaf (h : e.subtrees = [e]) (sub : ExprNode) :
    sub ∈ e.subtrees ↔ sub = e ∨ ∃ part ∈ ([] : List ExprNode), sub ∈ part.subtrees := by
  rw [h]
  simp

theorem evaluate_unary (op : UnaryOp) (rhs : ExprNode) :
    evaluate bindings (unary op rhs) = (evaluate bindings rhs).bind fun rhs =>
      match rhs with
      | .known v => applyUnary op v
      | result => some result := rfl

theorem evaluate_binary (op : BinaryOp) (lhs rhs : ExprNode) :
    evaluate bindings (binary op lhs rhs) = (evaluate bindings lhs).bind fun lhs =>
      (evaluate bindings rhs).bind fun rhs =>
        match lhs, rhs with
        | .error diagnostic, _ => some (.error diagnostic)
        | _, .error diagnostic => some (.error diagnostic)
        | .known a, .known b => applyBinary op a b
        | _, _ => some .unknown := rfl

/-- **The evaluator says of every expression what is true of it.** -/
theorem evaluate_verdict (bindings : String → Option Int64) (e : ExprNode) :
    ∃ result, evaluate bindings e = some result ∧ e.Verdict bindings result := by
  induction e with
  | literal type text =>
      cases type with
      | other =>
          refine ⟨.unknown, rfl, verdict_unknown (mem_leaf rfl) ?_ ?_ (by simp)⟩
          · rintro ⟨htype, -⟩
            cases htype
          · rintro ⟨htype, -⟩
            cases htype
      | number =>
          obtain ⟨hsome, hnone⟩ := parseIntegerLiteral_spec text
          cases hnumeral : numeral? text.toList with
          | none =>
              obtain ⟨diagnostic, herror⟩ := hnone hnumeral
              refine ⟨_, congrArg some herror, .error ⟨_, mem_subtrees_self _, .inl ⟨rfl, hnumeral⟩⟩⟩
          | some n =>
              have hvalue : (literal .number text).value bindings = n := by simp [value, hnumeral]
              refine verdict_of_decides (mem_leaf rfl) ?_ ⟨rfl, by simp [hnumeral]⟩ (by simp)
              rw [StepSound, hvalue]
              · exact hsome n hnumeral
              · exact nofun
  | identifier name =>
      cases hbound : bindings name with
      | none =>
          refine ⟨.unknown, by simp [evaluate, evaluateExpression, hbound],
            verdict_unknown (mem_leaf rfl) id (by simp [LeavesKnown, hbound]) (by simp)⟩
      | some v =>
          have hvalue : (identifier name).value bindings = v.toInt := by simp [value, hbound]
          refine verdict_of_decides (mem_leaf rfl) ⟨?_, ?_⟩ (by simp [LeavesKnown, hbound]) (by simp)
          · intro _
            exact ⟨v, by simp [evaluate, evaluateExpression, hbound], hvalue.symm⟩
          · intro hnot
            rw [StepSound, hvalue] at hnot
            · exact absurd (fits64_toInt v) hnot
            · exact nofun
  | methodCall object methodName argCount ih =>
      by_cases hclone : methodName = "Clone" ∧ argCount = 0
      · have hmem : ∀ sub, sub ∈ (methodCall object methodName argCount).subtrees ↔
            sub = methodCall object methodName argCount ∨
              ∃ part ∈ [object], sub ∈ part.subtrees := by
          intro sub
          rw [subtrees, if_pos hclone]
          simp
        obtain ⟨result, hresult, hverdict⟩ := ih
        refine ⟨result, by rw [evaluate, evaluateExpression, if_pos hclone]; exact hresult, ?_⟩
        cases hverdict with
        | known leaves sound exact =>
            refine .known ⟨hclone, leaves⟩ ((sound_iff hmem).2 ⟨?_, by simpa using sound⟩) exact
            rw [StepSound, value, ← exact]
            · exact fits64_toInt _
            · exact nofun
        | unknown leaves faultless =>
            exact verdict_unknown hmem id (fun h => leaves h.2) (by simpa using faultless)
        | error faulty =>
            refine verdict_error ?_ faulty
            intro sub hsub
            exact (hmem sub).2 (.inr ⟨object, by simp, hsub⟩)
      · refine ⟨.unknown, by rw [evaluate, evaluateExpression, if_neg hclone],
          verdict_unknown (mem_leaf ?_) id (fun h => hclone h.1) (by simp)⟩
        rw [subtrees, if_neg hclone]
  | unary op rhs ih =>
      obtain ⟨result, hresult, hverdict⟩ := ih
      rw [evaluate_unary, hresult, Option.bind_some]
      cases hverdict with
      | known leaves sound exact =>
          by_cases hknown : op.IsKnown
          · refine verdict_of_decides (fun sub => mem_unary) ?_ ⟨hknown, leaves⟩ (by simpa using sound)
            rw [StepSound, value, ← exact]
            · exact applyUnary_spec hknown _
            · exact nofun
          · cases op with
            | other op =>
                exact ⟨.unknown, rfl, verdict_unknown (fun sub => mem_unary) id
                  (fun h => hknown h.1) (by simpa using (sound_iff_not_faulty leaves).1 sound)⟩
            | _ => exact absurd trivial hknown
      | unknown leaves faultless =>
          exact ⟨.unknown, rfl, verdict_unknown (fun sub => mem_unary) id (fun h => leaves h.2)
            (by simpa using faultless)⟩
      | error faulty =>
          exact ⟨_, rfl, verdict_error (fun sub hsub => mem_unary.2 (.inr ⟨rhs, by simp, hsub⟩)) faulty⟩
  | binary op lhs rhs ihl ihr =>
      obtain ⟨left, hleft, hverdictl⟩ := ihl
      obtain ⟨right, hright, hverdictr⟩ := ihr
      have hin : ∀ sub ∈ lhs.subtrees, sub ∈ (binary op lhs rhs).subtrees :=
        fun sub hsub => mem_binary.2 (.inr ⟨lhs, by simp, hsub⟩)
      have hin' : ∀ sub ∈ rhs.subtrees, sub ∈ (binary op lhs rhs).subtrees :=
        fun sub hsub => mem_binary.2 (.inr ⟨rhs, by simp, hsub⟩)
      -- neither side is at fault, one of them is not known
      have hunknown : ¬ lhs.Faulty bindings → ¬ rhs.Faulty bindings →
          ¬ (binary op lhs rhs).LeavesKnown bindings →
            (binary op lhs rhs).Verdict bindings .unknown := by
        intro hl hr hleaves
        refine verdict_unknown (fun sub => mem_binary) id hleaves ?_
        simp [hl, hr]
      rw [evaluate_binary, hleft, hright, Option.bind_some, Option.bind_some]
      cases hverdictl with
      | error faulty => exact ⟨_, by cases right <;> rfl, verdict_error hin faulty⟩
      | unknown leaves faultless =>
          cases hverdictr with
          | error faulty => exact ⟨_, rfl, verdict_error hin' faulty⟩
          | unknown leaves' faultless' =>
              exact ⟨_, rfl, hunknown faultless faultless' fun h => leaves h.2.1⟩
          | known leaves' sound' exact' =>
              exact ⟨_, rfl, hunknown faultless ((sound_iff_not_faulty leaves').1 sound')
                fun h => leaves h.2.1⟩
      | known leaves sound exact =>
          cases hverdictr with
          | error faulty => exact ⟨_, rfl, verdict_error hin' faulty⟩
          | unknown leaves' faultless' =>
              exact ⟨_, rfl, hunknown ((sound_iff_not_faulty leaves).1 sound) faultless'
                fun h => leaves' h.2.2⟩
          | known leaves' sound' exact' =>
              by_cases hknown : op.IsKnown
              · refine verdict_of_decides (fun sub => mem_binary) ?_ ⟨hknown, leaves, leaves'⟩
                  (by simp [sound, sound'])
                rw [StepSound, value, ← exact, ← exact']
                exact applyBinary_spec hknown _ _
              · cases op with
                | other op =>
                    exact ⟨_, rfl, hunknown ((sound_iff_not_faulty leaves).1 sound)
                      ((sound_iff_not_faulty leaves').1 sound') fun h => hknown h.1⟩
                | _ => exact absurd trivial hknown
  | other => exact ⟨.unknown, rfl, verdict_unknown (mem_leaf rfl) id id (by simp)⟩

end ExprNode

/-- **Static evaluation is exact.**  No signed operation of the evaluator overflows; it knows a value
exactly where every leaf is known and every step is sound, and then it is the mathematical value; and it
reports an error exactly where some part is at fault. -/
theorem evaluate_exact (bindings : String → Option Int64) (e : ExprNode) :
    (evaluate bindings e).isSome ∧
    (∀ v, evaluate bindings e = some (.known v) ↔
      e.LeavesKnown bindings ∧ e.Sound bindings ∧ v.toInt = e.value bindings) ∧
    ((∃ diagnostic, evaluate bindings e = some (.error diagnostic)) ↔ e.Faulty bindings) := by
  obtain ⟨result, hresult, hverdict⟩ := ExprNode.evaluate_verdict bindings e
  rw [hresult]
  refine ⟨rfl, ?_, ?_⟩
  · intro v
    rw [Option.some.injEq]
    cases hverdict with
    | known leaves sound exact =>
        rw [StaticIntegerResult.known.injEq]
        constructor
        · rintro rfl
          exact ⟨leaves, sound, exact⟩
        · rintro ⟨-, -, hvalue⟩
          exact Int64.toInt.inj (exact.trans hvalue.symm)
    | unknown leaves faultless => exact iff_of_false nofun fun h => leaves h.1
    | error faulty =>
        exact iff_of_false nofun fun h => (ExprNode.sound_iff_not_faulty h.1).1 h.2.1 faulty
  · cases hverdict with
    | known leaves sound exact =>
        exact iff_of_false nofun ((ExprNode.sound_iff_not_faulty leaves).1 sound)
    | unknown leaves faultless => exact iff_of_false nofun faultless
    | error faulty => exact iff_of_true ⟨_, rfl⟩ faulty

end AtomicProof
