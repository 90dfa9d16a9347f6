/-
The operand stack of the simulator.

`StackState` in `src/src/debugger/vm/stack_state.cpp` is a vector of byte strings whose last
element is the top of the stack.  Here a stack is the list of its elements from the top down, so
the element at depth `d` is the one at index `d`.  An operation that throws is an `Except.error`
with the text of the exception.

Main definitions:

* `Stack.pop`, `Stack.drop`, `Stack.swap`, `Stack.pick`, `Stack.roll` — the operations;
* `Stack.binaryNum` — the shape shared by the instructions that pop two numbers.

Main results:

* `Stack.pick_toOption`, `Stack.roll_toOption` — what the two indexed operations return.
-/

import AtomicProof.ScriptNum
import Mathlib.Data.List.Basic

set_option autoImplicit false

namespace AtomicProof

abbrev Stack := List Bytes

namespace Stack

/-! ### Operations of `StackState` -/

def pop : Stack → Except String (Bytes × Stack)
  | [] => .error "Stack underflow: cannot pop from empty stack"
  | element :: s => .ok (element, s)

def pushInt (scriptNumValue : ℤ) (s : Stack) : Stack := serializeScriptNum scriptNumValue :: s

/-- `StackState::checkDepth` followed by the indexed read: the element at a depth. -/
def elementAt (operation : String) (depth : ℕ) (s : Stack) : Except String Bytes :=
  match s[depth]? with
  | some element => .ok element
  | none => .error ("Stack underflow in " ++ operation ++ ": depth " ++ toString depth ++
      " exceeds stack size " ++ toString s.length)

def peek (depth : ℕ) (s : Stack) : Except String Bytes := elementAt "peek" depth s

def dup : Stack → Except String Stack
  | [] => .error "Stack underflow: cannot dup empty stack"
  | element :: s => .ok (element :: element :: s)

def drop : Stack → Except String Stack
  | [] => .error "Stack underflow: cannot drop from empty stack"
  | _ :: s => .ok s

/-- `StackState::drop(size_t)`. -/
def dropN (n : ℕ) (s : Stack) : Except String Stack :=
  if s.length < n then
    .error ("Stack underflow: cannot drop " ++ toString n ++ " elements from stack of size " ++
      toString s.length)
  else .ok (List.drop n s)

def swap : Stack → Except String Stack
  | x :: y :: s => .ok (y :: x :: s)
  | _ => .error "Stack underflow: need at least 2 elements to swap"

/-- `StackState::pick`: the element at `depth` is copied to the top. -/
def pick (depth : ℕ) (s : Stack) : Except String Stack := do
  let element ← elementAt "pick" depth s
  pure (element :: s)

/-- `StackState::roll`: the element at `depth` is moved to the top. -/
def roll (depth : ℕ) (s : Stack) : Except String Stack := do
  let element ← elementAt "roll" depth s
  pure (element :: s.eraseIdx depth)

@[simp] theorem pop_cons (x : Bytes) (s : Stack) : pop (x :: s) = .ok (x, s) := rfl

@[simp] theorem pop_nil : pop [] = .error "Stack underflow: cannot pop from empty stack" := rfl

theorem elementAt_of_lt {operation : String} {depth : ℕ} {s : Stack} (h : depth < s.length) :
    elementAt operation depth s = .ok s[depth] := by
  simp [elementAt, List.getElem?_eq_getElem h]

theorem roll_of_lt {depth : ℕ} {s : Stack} (h : depth < s.length) :
    roll depth s = .ok (s[depth] :: s.eraseIdx depth) := by
  rw [roll, elementAt_of_lt h]
  rfl

theorem elementAt_toOption (operation : String) (depth : ℕ) (s : Stack) :
    (elementAt operation depth s).toOption = s[depth]? := by
  unfold elementAt
  cases h : s[depth]? <;> rfl

theorem pick_toOption (depth : ℕ) (s : Stack) :
    (pick depth s).toOption = (s[depth]?).map (· :: s) := by
  rw [pick, ← elementAt_toOption "pick"]
  cases elementAt "pick" depth s <;> rfl

theorem roll_toOption (depth : ℕ) (s : Stack) :
    (roll depth s).toOption = (s[depth]?).map (· :: s.eraseIdx depth) := by
  rw [roll, ← elementAt_toOption "roll"]
  cases elementAt "roll" depth s <;> rfl

theorem dropN_of_le {n : ℕ} {s : Stack} (h : n ≤ s.length) : dropN n s = .ok (List.drop n s) := by
  rw [dropN, if_neg (by omega)]

/-! ### Shapes shared by the instructions -/

def unaryNum (error : String) (f : ℤ → ℤ) (s : Stack) : Except String Stack := do
  let (a, s) ← pop s
  match toInt a with
  | some a => pure (pushInt (f a) s)
  | none => throw error

/-- Pop `b`, then `a`, and push a number computed from them. -/
def binaryNum (error : String) (f : ℤ → ℤ → ℤ) (s : Stack) : Except String Stack := do
  let (b, s) ← pop s
  let (a, s) ← pop s
  match toInt a, toInt b with
  | some a, some b => pure (pushInt (f a b) s)
  | _, _ => throw error

/-- A comparison pushes the number one or the number zero. -/
def compareNum (error : String) (f : ℤ → ℤ → Bool) : Stack → Except String Stack :=
  binaryNum error fun a b => if f a b then 1 else 0

/-- Pop two byte strings and combine them byte by byte, as far as the shorter one reaches. -/
def binaryBits (f : UInt8 → UInt8 → UInt8) (s : Stack) : Except String Stack := do
  let (b, s) ← pop s
  let (a, s) ← pop s
  pure (List.zipWith f a b :: s)

/-- Pop a byte string and push its digest. -/
def digest (f : Bytes → Bytes) (s : Stack) : Except String Stack := do
  let (x, s) ← pop s
  pure (f x :: s)

end Stack

end AtomicProof
