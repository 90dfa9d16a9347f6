/-
The arithmetic of the machine.

The numeric opcodes of `src/src/debugger/vm/bvm_simulator.cpp` decode their operands to `int64_t`,
compute on these and encode the result.  Division is guarded against a zero divisor and a shift against
a negative count; nothing guards a result that is no `int64_t`, nor a shift by the size of a word or
more.

Main definitions:

* `NumericOp` — the arithmetic, shift and comparison opcodes, with their exact results;
* `NumericOp.step` — an opcode on the main stack;
* `ExactOrFails` — what is asked of an opcode;
* `ResultInRange` — the operands on which it does so.

Main results:

* `NumericOp.step_of_exact` — an opcode pushes the exact result where that is in range;
* `exactOrFails_iff` — **an opcode is exact exactly where its result is in range**.
-/

import AtomicProof.SignMagnitude
import AtomicProof.SignedWord

set_option autoImplicit false

namespace AtomicProof

open Stack

/-! ### Opcodes and their exact results -/

/-- The arithmetic, shift and numeric comparison opcodes. -/
inductive NumericOp where
  | add
  | sub
  | mul
  | div
  | mod
  | negate
  | abs
  | oneAdd
  | oneSub
  | zeroNotEqual
  | lshift
  | rshift
  | numEqual
  | numNotEqual
  | lessThan
  | greaterThan
  | lessThanOrEqual
  | greaterThanOrEqual
  | min
  | max
  | within
  deriving DecidableEq, Repr

namespace NumericOp

def opcode : NumericOp → BytOpcode
  | add => .opAdd
  | sub => .opSub
  | mul => .opMul
  | div => .opDiv
  | mod => .opMod
  | negate => .opNegate
  | abs => .opAbs
  | oneAdd => .op1add
  | oneSub => .op1sub
  | zeroNotEqual => .op0notequal
  | lshift => .opLshift
  | rshift => .opRshift
  | numEqual => .opNumequal
  | numNotEqual => .opNumnotequal
  | lessThan => .opLessthan
  | greaterThan => .opGreaterthan
  | lessThanOrEqual => .opLessthanorequal
  | greaterThanOrEqual => .opGreaterthanorequal
  | min => .opMin
  | max => .opMax
  | within => .opWithin

def arity : NumericOp → ℕ
  | negate | abs | oneAdd | oneSub | zeroNotEqual => 1
  | within => 3
  | _ => 2

def step (env : Env) (op : NumericOp) (main : Stack) : Except String Stack :=
  match mainOp env [] op.opcode with
  | some f => f main
  | none => .error ""

/-- The exact result on operands, the lowest one first: truncating division and remainder, shifts as
multiplication and floor division by a power of two. -/
def exact : NumericOp → List ℤ → Option ℤ
  | add, [a, b] => some (a + b)
  | sub, [a, b] => some (a - b)
  | mul, [a, b] => some (a * b)
  | div, [a, b] => if b = 0 then none else some (a.tdiv b)
  | mod, [a, b] => if b = 0 then none else some (a.tmod b)
  | negate, [a] => some (-a)
  | abs, [a] => some |a|
  | oneAdd, [a] => some (a + 1)
  | oneSub, [a] => some (a - 1)
  | zeroNotEqual, [a] => some (if a ≠ 0 then 1 else 0)
  | lshift, [a, b] => if b < 0 then none else some (a * 2 ^ b.toNat)
  | rshift, [a, b] => if b < 0 then none else some (a / 2 ^ b.toNat)
  | numEqual, [a, b] => some (if a = b then 1 else 0)
  | numNotEqual, [a, b] => some (if a ≠ b then 1 else 0)
  | lessThan, [a, b] => some (if a < b then 1 else 0)
  | greaterThan, [a, b] => some (if b < a then 1 else 0)
  | lessThanOrEqual, [a, b] => some (if a ≤ b then 1 else 0)
  | greaterThanOrEqual, [a, b] => some (if b ≤ a then 1 else 0)
  | min, [a, b] => some (Min.min a b)
  | max, [a, b] => some (Max.max a b)
  | within, [x, lo, hi] => some (if lo ≤ x ∧ x < hi then 1 else 0)
  | _, _ => none

/-- The operands on a stack, where there are enough and all of them are numbers. -/
def operands (op : NumericOp) (main : Stack) : Option (List ℤ) :=
  if main.length < op.arity then none else (main.take op.arity).reverse.mapM toInt

def shiftCount : NumericOp → List ℤ → ℤ
  | lshift, [_, b] => b
  | rshift, [_, b] => b
  | _, _ => 0

/-- The exact results of the signed computations of an opcode: the operator itself, the quotient that
a remainder is computed through, and the negation with which the encoder takes the magnitude. -/
def computations (op : NumericOp) (numbers : List ℤ) (result : ℤ) : List ℤ :=
  (match op, numbers with
    | mod, [a, b] => [a.tdiv b]
    | _, _ => []) ++ [result] ++ if result < 0 then [-result] else []

/-- The result that an opcode computes: the exact one with the count of a shift reduced to less than
the size of a word. -/
def computed : NumericOp → List ℤ → ℤ → ℤ
  | lshift, [a, b], _ => a * 2 ^ (b.toNat % 64)
  | rshift, [a, b], _ => a / 2 ^ (b.toNat % 64)
  | _, _, result => result

end NumericOp

/-! ### What an opcode does -/

namespace NumericOp

variable {env : Env} {op : NumericOp} {main : Stack} {numbers : List ℤ} {result : ℤ}

theorem operands_one (h : op.arity = 1) (x : Bytes) (rest : Stack) :
    op.operands (x :: rest) = (toInt x).map fun a => [a] := by
  rw [operands, h, if_neg (by simp)]
  cases hx : toInt x <;> simp [hx]

theorem operands_two (h : op.arity = 2) (x y : Bytes) (rest : Stack) :
    op.operands (y :: x :: rest) = (toInt x).bind fun a => (toInt y).map fun b => [a, b] := by
  rw [operands, h, if_neg (by simp)]
  cases hx : toInt x <;> cases hy : toInt y <;> simp [hx, hy]

theorem operands_three (h : op.arity = 3) (x y z : Bytes) (rest : Stack) :
    op.operands (z :: y :: x :: rest) =
      (toInt x).bind fun a => (toInt y).bind fun b => (toInt z).map fun c => [a, b, c] := by
  rw [operands, h, if_neg (by simp)]
  cases hx : toInt x <;> cases hy : toInt y <;> cases hz : toInt z <;> simp [hx, hy, hz]

theorem exists_of_mapM_eq_some {stack : List Bytes} (h : stack.mapM toInt = some numbers) {n : ℤ}
    (hn : n ∈ numbers) : ∃ x ∈ stack, toInt x = some n := by
  induction stack generalizing numbers with
  | nil =>
      obtain rfl := Option.some.inj h
      exact absurd hn List.not_mem_nil
  | cons x stack ih =>
      rw [List.mapM_cons] at h
      obtain ⟨m, hm, h⟩ := Option.bind_eq_some_iff.1 h
      obtain ⟨rest, hrest, h⟩ := Option.bind_eq_some_iff.1 h
      obtain rfl := Option.some.inj h
      rcases List.mem_cons.1 hn with rfl | hn
      · exact ⟨x, List.mem_cons_self, hm⟩
      · obtain ⟨y, hy, hvalue⟩ := ih hrest hn
        exact ⟨y, List.mem_cons_of_mem x hy, hvalue⟩

theorem natAbs_lt_of_operands (h : op.operands main = some numbers) {n : ℤ} (hn : n ∈ numbers) :
    n.natAbs < 2 ^ 63 := by
  unfold operands at h
  split_ifs at h
  obtain ⟨x, -, hx⟩ := exists_of_mapM_eq_some h hn
  exact natAbs_lt_of_toInt hx

/-- The opcode fails where an operand is missing or is no number, or where no exact result exists;
otherwise it pushes the result it computes, reduced to a word. -/
inductive Performs (env : Env) (op : NumericOp) (main : Stack) : Prop where
  | undecoded (h : op.operands main = none) (e : String) (hstep : op.step env main = .error e)
  | refused (numbers : List ℤ) (h : op.operands main = some numbers) (hexact : op.exact numbers = none)
      (e : String) (hstep : op.step env main = .error e)
  | pushed (numbers : List ℤ) (result : ℤ) (h : op.operands main = some numbers)
      (hexact : op.exact numbers = some result)
      (hstep : op.step env main =
        .ok (pushInt (wrap64 (op.computed numbers result)) (List.drop op.arity main)))

/-! ### The shapes of the instructions -/

variable {error : String}

theorem unaryNum_cons (f : ℤ → ℤ) (x : Bytes) (rest : Stack) :
    unaryNum error f (x :: rest) =
      match toInt x with
      | some a => .ok (pushInt (f a) rest)
      | none => .error error := rfl

theorem performs_unary {f : ℤ → ℤ} (hone : op.arity = 1) (hop : op.step env = unaryNum error f)
    (hf : ∀ a, a.natAbs < 2 ^ 63 →
      ∃ result, op.exact [a] = some result ∧ f a = wrap64 (op.computed [a] result)) :
    op.Performs env main := by
  rcases main with _ | ⟨x, rest⟩
  · exact .undecoded (by rw [operands, hone, if_pos (by decide)]) _ (by rw [hop]; rfl)
  · cases hx : toInt x with
    | none =>
        refine .undecoded (by rw [operands_one hone, hx]; rfl) error ?_
        rw [hop, unaryNum_cons, hx]
    | some a =>
        obtain ⟨result, hexact, hvalue⟩ := hf a (natAbs_lt_of_toInt hx)
        refine .pushed [a] result (by rw [operands_one hone, hx]; rfl) hexact ?_
        rw [hop, unaryNum_cons, hx, hone, ← hvalue]
        rfl

/-- Two numbers that are popped and combined: `g` is the combination. -/
theorem performs_two (error : String) (g : ℤ → ℤ → Except String ℤ) (htwo : op.arity = 2)
    (hempty : ∃ e, op.step env [] = .error e) (hshort : ∀ y, ∃ e, op.step env [y] = .error e)
    (hcons : ∀ x y rest, op.step env (y :: x :: rest) =
      match toInt x, toInt y with
      | some a, some b => (g a b).map fun n => pushInt n rest
      | _, _ => .error error)
    (hg : ∀ a b, a.natAbs < 2 ^ 63 → b.natAbs < 2 ^ 63 →
      (op.exact [a, b] = none ∧ ∃ e, g a b = .error e) ∨
      ∃ result, op.exact [a, b] = some result ∧
        g a b = .ok (wrap64 (op.computed [a, b] result))) :
    op.Performs env main := by
  rcases main with _ | ⟨y, _ | ⟨x, rest⟩⟩
  · obtain ⟨e, he⟩ := hempty
    exact .undecoded (by rw [operands, htwo, if_pos (by decide)]) e he
  · obtain ⟨e, he⟩ := hshort y
    exact .undecoded (by rw [operands, htwo, if_pos (by simp)]) e he
  · have hstep := hcons x y rest
    have hnumbers := operands_two htwo x y rest
    cases hx : toInt x with
    | none =>
        rw [hx] at hstep hnumbers
        exact .undecoded hnumbers error hstep
    | some a =>
        cases hy : toInt y with
        | none =>
            rw [hx, hy] at hstep hnumbers
            exact .undecoded hnumbers error hstep
        | some b =>
            rw [hx, hy] at hstep hnumbers
            rcases hg a b (natAbs_lt_of_toInt hx) (natAbs_lt_of_toInt hy) with
              ⟨hexact, e, he⟩ | ⟨result, hexact, hvalue⟩
            · refine .refused [a, b] hnumbers hexact e ?_
              rw [hstep]
              simp only [he]
              rfl
            · refine .pushed [a, b] result hnumbers hexact ?_
              rw [hstep]
              simp only [hvalue]
              rw [htwo]
              rfl

theorem performs_binary {f : ℤ → ℤ → ℤ} (htwo : op.arity = 2)
    (hop : op.step env = binaryNum error f)
    (hf : ∀ a b, a.natAbs < 2 ^ 63 → b.natAbs < 2 ^ 63 →
      ∃ result, op.exact [a, b] = some result ∧ f a b = wrap64 (op.computed [a, b] result)) :
    op.Performs env main := by
  refine performs_two error (fun a b => .ok (f a b)) htwo ⟨_, by rw [hop]; rfl⟩
    (fun y => ⟨_, by rw [hop]; rfl⟩) (fun x y rest => by rw [hop]; rfl) ?_
  intro a b ha hb
  obtain ⟨result, hexact, hvalue⟩ := hf a b ha hb
  exact .inr ⟨result, hexact, by rw [hvalue]⟩

theorem performs_divide {zero : String} {f : ℤ → ℤ → ℤ} (htwo : op.arity = 2)
    (hop : op.step env = divide error zero f)
    (hexact : ∀ a b, op.exact [a, b] = if b = 0 then none else some (f a b))
    (hcomputed : ∀ a b result, op.computed [a, b] result = result) :
    op.Performs env main := by
  refine performs_two error (fun a b => if b = 0 then .error zero else .ok (wrap64 (f a b))) htwo
    ⟨_, by rw [hop]; rfl⟩ (fun y => ⟨_, by rw [hop]; rfl⟩) ?_ ?_
  · intro x y rest
    rw [hop]
    show (match toInt x, toInt y with
      | some a, some b =>
          if b = 0 then throw zero else pure (pushInt (wrap64 (f a b)) rest)
      | _, _ => throw error) = _
    cases toInt x with
    | none => rfl
    | some a =>
        cases toInt y with
        | none => rfl
        | some b =>
            by_cases hb : b = 0
            · simp only [if_pos hb]
              rfl
            · simp only [if_neg hb]
              rfl
  · intro a b _ _
    by_cases hb : b = 0
    · exact .inl ⟨by rw [hexact, if_pos hb], zero, if_pos hb⟩
    · exact .inr ⟨f a b, by rw [hexact, if_neg hb], by rw [if_neg hb, hcomputed]⟩

theorem performs_shift {f : ℤ → ℕ → ℤ} (htwo : op.arity = 2) (hop : op.step env = shift error f)
    (hexact : ∀ a b, op.exact [a, b] = if b < 0 then none else some (f a b.toNat))
    (hcomputed : ∀ a b result, op.computed [a, b] result = f a (b.toNat % 64)) :
    op.Performs env main := by
  refine performs_two error
    (fun a b => if b < 0 then .error error else .ok (wrap64 (f a (b.toNat % 64)))) htwo
    ⟨_, by rw [hop]; rfl⟩ (fun y => ⟨_, by rw [hop]; rfl⟩) ?_ ?_
  · intro x y rest
    rw [hop]
    show (match toInt x, toInt y with
      | some a, some b =>
          if b < 0 then throw error else pure (pushInt (wrap64 (f a (b.toNat % 64))) rest)
      | _, _ => throw error) = _
    cases toInt x with
    | none => rfl
    | some a =>
        cases toInt y with
        | none => rfl
        | some b =>
            by_cases hb : b < 0
            · simp only [if_pos hb]
              rfl
            · simp only [if_neg hb]
              rfl
  · intro a b _ _
    by_cases hb : b < 0
    · exact .inl ⟨by rw [hexact, if_pos hb], error, if_pos hb⟩
    · exact .inr ⟨f a b.toNat, by rw [hexact, if_neg hb], by rw [if_neg hb, hcomputed]⟩

theorem wrap64_of_natAbs_lt {n : ℤ} (h : n.natAbs < 2 ^ 63) : wrap64 n = n :=
  wrap64_of_lt (by omega) (by omega)

theorem wrap64_flag (p : Prop) [Decidable p] : wrap64 (if p then 1 else 0) = if p then 1 else 0 := by
  refine wrap64_of_natAbs_lt ?_
  split_ifs <;> decide

theorem performs_compare {f : ℤ → ℤ → Bool} (htwo : op.arity = 2)
    (hop : op.step env = compareNum error f)
    (hexact : ∀ a b, op.exact [a, b] = some (if f a b then 1 else 0))
    (hcomputed : ∀ a b result, op.computed [a, b] result = result) :
    op.Performs env main := by
  refine performs_binary htwo hop fun a b _ _ => ⟨_, hexact a b, ?_⟩
  rw [hcomputed, wrap64_flag]

theorem performs_within : within.Performs env main := by
  rcases main with _ | ⟨z, _ | ⟨y, _ | ⟨x, rest⟩⟩⟩
  · exact .undecoded rfl _ rfl
  · exact .undecoded rfl _ rfl
  · exact .undecoded rfl _ rfl
  · have hnumbers : within.operands (z :: y :: x :: rest) =
        (toInt x).bind fun a => (toInt y).bind fun b => (toInt z).map fun c => [a, b, c] :=
      operands_three rfl x y z rest
    have hstep : within.step env (z :: y :: x :: rest) = opWithin (z :: y :: x :: rest) := rfl
    cases hx : toInt x with
    | none =>
        rw [hx] at hnumbers
        refine .undecoded hnumbers "OP_WITHIN requires numeric operands" ?_
        simp [hstep, opWithin, pop, bind, Except.bind, hx]
        rfl
    | some a =>
        cases hy : toInt y with
        | none =>
            rw [hx, hy] at hnumbers
            refine .undecoded hnumbers "OP_WITHIN requires numeric operands" ?_
            simp [hstep, opWithin, pop, bind, Except.bind, hx, hy]
            rfl
        | some lo =>
            cases hz : toInt z with
            | none =>
                rw [hx, hy, hz] at hnumbers
                refine .undecoded hnumbers "OP_WITHIN requires numeric operands" ?_
                simp [hstep, opWithin, pop, bind, Except.bind, hx, hy, hz]
                rfl
            | some hi =>
                rw [hx, hy, hz] at hnumbers
                refine .pushed [a, lo, hi] _ hnumbers rfl ?_
                simp only [hstep, computed, wrap64_flag]
                simp [opWithin, pop, bind, Except.bind, hx, hy, hz]
                rfl

theorem step_zeroNotEqual (env : Env) (x : Bytes) (rest : Stack) :
    zeroNotEqual.step env (x :: rest) =
      match toInt x with
      | some a => .ok (pushInt (if a ≠ 0 then 1 else 0) rest)
      | none => .ok (pushInt 0 rest) := rfl

theorem performs_zeroNotEqual (h : main ≠ [] → zeroNotEqual.operands main ≠ none) :
    zeroNotEqual.Performs env main := by
  rcases main with _ | ⟨x, rest⟩
  · exact .undecoded rfl _ rfl
  · have hnumbers : zeroNotEqual.operands (x :: rest) = (toInt x).map fun a => [a] :=
      operands_one rfl x rest
    cases hx : toInt x with
    | none => exact absurd (by rw [hnumbers, hx]; rfl) (h (List.cons_ne_nil x rest))
    | some a =>
        refine .pushed [a] _ (by rw [hnumbers, hx]; rfl) rfl ?_
        rw [step_zeroNotEqual, hx]
        simp only [computed, wrap64_flag]
        rfl

/-- **Every opcode performs its computation**, but for `op_0notequal` on bytes that are no number. -/
theorem performs (env : Env) (h : op = zeroNotEqual → main ≠ [] → op.operands main ≠ none) :
    op.Performs env main := by
  cases op with
  | add => exact performs_binary rfl rfl fun a b _ _ => ⟨a + b, rfl, rfl⟩
  | sub => exact performs_binary rfl rfl fun a b _ _ => ⟨a - b, rfl, rfl⟩
  | mul => exact performs_binary rfl rfl fun a b _ _ => ⟨a * b, rfl, rfl⟩
  | div => exact performs_divide rfl rfl (fun _ _ => rfl) fun _ _ _ => rfl
  | mod => exact performs_divide rfl rfl (fun _ _ => rfl) fun _ _ _ => rfl
  | negate => exact performs_unary rfl rfl fun a _ => ⟨-a, rfl, rfl⟩
  | abs => exact performs_unary rfl rfl fun a _ => ⟨|a|, rfl, rfl⟩
  | oneAdd => exact performs_unary rfl rfl fun a _ => ⟨a + 1, rfl, rfl⟩
  | oneSub => exact performs_unary rfl rfl fun a _ => ⟨a - 1, rfl, rfl⟩
  | zeroNotEqual => exact performs_zeroNotEqual (h rfl)
  | lshift =>
      have hop : lshift.step env = shift _ fun a b => a * 2 ^ b := rfl
      exact performs_shift rfl hop (fun a b => by rw [exact]) fun a b result => by rw [computed]
  | rshift =>
      have hop : rshift.step env = shift _ fun a b => a / 2 ^ b := rfl
      exact performs_shift rfl hop (fun a b => by rw [exact]) fun a b result => by rw [computed]
  | numEqual => exact performs_compare rfl rfl (fun _ _ => by simp [exact]) fun _ _ _ => rfl
  | numNotEqual => exact performs_compare rfl rfl (fun _ _ => by simp [exact]) fun _ _ _ => rfl
  | lessThan => exact performs_compare rfl rfl (fun _ _ => by simp [exact]) fun _ _ _ => rfl
  | greaterThan => exact performs_compare rfl rfl (fun _ _ => by simp [exact]) fun _ _ _ => rfl
  | lessThanOrEqual => exact performs_compare rfl rfl (fun _ _ => by simp [exact]) fun _ _ _ => rfl
  | greaterThanOrEqual =>
      exact performs_compare rfl rfl (fun _ _ => by simp [exact]) fun _ _ _ => rfl
  | min =>
      refine performs_binary rfl rfl fun a b ha hb => ⟨Min.min a b, rfl, ?_⟩
      show (if a ≤ b then a else b) = wrap64 (Min.min a b)
      rw [wrap64_of_natAbs_lt (by omega), min_def]
  | max =>
      refine performs_binary rfl rfl fun a b ha hb => ⟨Max.max a b, rfl, ?_⟩
      show (if a ≥ b then a else b) = wrap64 (Max.max a b)
      rw [wrap64_of_natAbs_lt (by omega), max_comm, max_def]
  | within => exact performs_within

/-- An exact result that is a word of the right size is the computed one. -/
theorem wrap64_computed (h : op.exact numbers = some result) (hresult : result.natAbs < 2 ^ 63)
    (hcount : op.shiftCount numbers < 64) : wrap64 (op.computed numbers result) = result := by
  have hsame : op.computed numbers result = result := by
    unfold computed
    split
    · rename_i a b
      have hb : b < 64 := hcount
      rw [exact] at h
      split_ifs at h with hneg
      rw [Nat.mod_eq_of_lt (by omega)]
      exact Option.some.inj h
    · rename_i a b
      have hb : b < 64 := hcount
      rw [exact] at h
      split_ifs at h with hneg
      rw [Nat.mod_eq_of_lt (by omega)]
      exact Option.some.inj h
    · rfl
  rw [hsame, wrap64_of_natAbs_lt hresult]

/-- **An opcode pushes the exact result** where that is in range. -/
theorem step_of_exact (h : op.operands main = some numbers) (hexact : op.exact numbers = some result)
    (hresult : result.natAbs < 2 ^ 63) (hcount : op.shiftCount numbers < 64) :
    op.step env main = .ok (pushInt result (List.drop op.arity main)) := by
  have hnumeric : op = zeroNotEqual → main ≠ [] → op.operands main ≠ none := by
    intro _ _ hnone
    rw [h] at hnone
    exact Option.some_ne_none _ hnone
  cases performs env hnumeric with
  | undecoded hnone => rw [h] at hnone; exact absurd hnone (Option.some_ne_none _)
  | refused numbers' h' hnone =>
      obtain rfl := Option.some.inj (h.symm.trans h')
      rw [hexact] at hnone
      exact absurd hnone (Option.some_ne_none _)
  | pushed numbers' result' h' hexact' hstep =>
      obtain rfl := Option.some.inj (h.symm.trans h')
      obtain rfl := Option.some.inj (hexact.symm.trans hexact')
      rw [hstep, wrap64_computed hexact hresult hcount]

/-- The computations of an opcode with an exact result in range are all defined. -/
theorem fits64_of_mem_computations (h : op.operands main = some numbers)
    (hresult : result.natAbs < 2 ^ 63) : ∀ c ∈ op.computations numbers result, Fits64 c := by
  intro c hc
  have hsmall : c.natAbs < 2 ^ 63 := by
    rcases List.mem_append.1 hc with hc | hc
    · rcases List.mem_append.1 hc with hc | hc
      · split at hc
        · rename_i a b _ _
          -- a quotient is no larger than the dividend
          obtain rfl := List.mem_singleton.1 hc
          have ha : a.natAbs < 2 ^ 63 := natAbs_lt_of_operands h (List.mem_cons_self)
          exact (Int.natAbs_tdiv_le_natAbs a b).trans_lt ha
        · exact absurd hc List.not_mem_nil
      · obtain rfl := List.mem_singleton.1 hc
        exact hresult
    · split_ifs at hc with hneg
      · obtain rfl := List.mem_singleton.1 hc
        rwa [Int.natAbs_neg]
      · exact absurd hc List.not_mem_nil
  unfold Fits64
  omega

end NumericOp

/-! ### Exactness -/

/-- The opcode fails, or its operands are numbers and it pushes the minimal encoding of the exact
result; and on operands that are numbers no signed computation overflows and no shift is by the size
of a word or more. -/
structure ExactOrFails (env : Env) (op : NumericOp) (main : Stack) : Prop where
  result : (∃ e, op.step env main = .error e) ∨
    ∃ numbers result bytes, op.operands main = some numbers ∧ op.exact numbers = some result ∧
      op.step env main = .ok (bytes :: List.drop op.arity main) ∧ IsMinimalEncoding bytes result
  defined : ∀ numbers result, op.operands main = some numbers → op.exact numbers = some result →
    (∀ c ∈ op.computations numbers result, Fits64 c) ∧ op.shiftCount numbers < 64

/-- The exact result is less than `2 ^ 63` in magnitude and a shift is by less than the size of a word;
the operand of `op_0notequal` is a number. -/
structure ResultInRange (op : NumericOp) (main : Stack) : Prop where
  magnitude : ∀ numbers result, op.operands main = some numbers → op.exact numbers = some result →
    result.natAbs < 2 ^ 63
  count : ∀ numbers result, op.operands main = some numbers → op.exact numbers = some result →
    op.shiftCount numbers < 64
  numeric : op = .zeroNotEqual → main ≠ [] → op.operands main ≠ none

/-- **An opcode is exact or fails exactly where its result is in range.** -/
theorem exactOrFails_iff (env : Env) (op : NumericOp) (main : Stack) :
    ExactOrFails env op main ↔ ResultInRange op main := by
  constructor
  · rintro ⟨hresult, hdefined⟩
    refine ⟨?_, fun numbers result h hexact => (hdefined numbers result h hexact).2, ?_⟩
    · intro numbers result h hexact
      obtain ⟨hcomputations, -⟩ := hdefined numbers result h hexact
      have hself : Fits64 result := by
        refine hcomputations result (List.mem_append_left _ (List.mem_append_right _ ?_))
        exact List.mem_singleton.2 rfl
      by_cases hneg : result < 0
      · have hopposite : Fits64 (-result) := by
          refine hcomputations _ (List.mem_append_right _ ?_)
          rw [if_pos hneg]
          exact List.mem_singleton.2 rfl
        unfold Fits64 at hopposite
        omega
      · unfold Fits64 at hself
        omega
    · rintro rfl hne hnone
      obtain ⟨x, rest, rfl⟩ := List.exists_cons_of_ne_nil hne
      have hx : toInt x = none := by
        rw [NumericOp.operands_one rfl] at hnone
        exact Option.map_eq_none_iff.1 hnone
      have hstep := NumericOp.step_zeroNotEqual env x rest
      rw [hx] at hstep
      rcases hresult with ⟨e, he⟩ | ⟨numbers, result, bytes, hsome, -⟩
      · exact nomatch hstep.symm.trans he
      · exact nomatch hnone.symm.trans hsome
  · rintro ⟨hmagnitude, hcount, hnumeric⟩
    refine ⟨?_, ?_⟩
    · cases NumericOp.performs env hnumeric with
      | undecoded _ e he => exact .inl ⟨e, he⟩
      | refused _ _ _ e he => exact .inl ⟨e, he⟩
      | pushed numbers result h hexact hstep =>
          have hsmall := hmagnitude numbers result h hexact
          rw [NumericOp.wrap64_computed hexact hsmall (hcount numbers result h hexact)] at hstep
          exact .inr ⟨numbers, result, _, h, hexact, hstep, isMinimalEncoding_serialize hsmall⟩
    · intro numbers result h hexact
      exact ⟨NumericOp.fits64_of_mem_computations h (hmagnitude numbers result h hexact),
        hcount numbers result h hexact⟩

/-- The largest number and one add up to the smallest one, a shift by a whole word is carried out, and
nine bytes are taken for zero. -/
theorem opAdd_wraps :
    NumericOp.add.step ⟨id, id, id, id, id, none, none⟩
        [[0x01], [0xff, 0xff, 0xff, 0xff, 0xff, 0xff, 0xff, 0x7f]] =
      .ok [[0x00, 0x00, 0x00, 0x00, 0x00, 0x00, 0x00, 0x80, 0x80]] ∧
    ¬ ExactOrFails ⟨id, id, id, id, id, none, none⟩ .add
        [[0x01], [0xff, 0xff, 0xff, 0xff, 0xff, 0xff, 0xff, 0x7f]] ∧
    ¬ ExactOrFails ⟨id, id, id, id, id, none, none⟩ .lshift [[0x40], [0x01]] ∧
    ¬ ExactOrFails ⟨id, id, id, id, id, none, none⟩ .zeroNotEqual
        [[0x01, 0x01, 0x01, 0x01, 0x01, 0x01, 0x01, 0x01, 0x01]] := by
  refine ⟨by decide +kernel, ?_, ?_, ?_⟩
  · rintro ⟨-, hdefined⟩
    have hoverflow := (hdefined [2 ^ 63 - 1, 1] (2 ^ 63) (by decide) rfl).1 (2 ^ 63)
    exact absurd (hoverflow (by decide)) (by decide)
  · rintro ⟨-, hdefined⟩
    exact absurd (hdefined [1, 64] (2 ^ 64) (by decide) rfl).2 (by decide)
  · rintro ⟨⟨e, he⟩ | ⟨numbers, result, bytes, h, -⟩, -⟩
    · exact nomatch he
    · exact nomatch h

end AtomicProof
