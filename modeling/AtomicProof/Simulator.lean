/-
The script machine of the debugger.

`BVMSimulator` in `src/src/debugger/vm/bvm_simulator.cpp` runs a list of decoded instructions on a
main stack, an alt stack and a stack of conditions.  Without debug information the call stack stays
empty, so `OP_RETURN` ends the run at once; that is the case modelled here.  Signed overflow and
shift counts of 64 and more, which C++ leaves open, are taken as the usual hardware does: modulo
`2 ^ 64`, and with the shift count reduced modulo 64.

Main definitions:

* `Env` — what the machine is given from outside: the hash functions, the signature callback and
  the transaction data;
* `VM` — the machine state;
* `executeOpcode` — one instruction;
* `Instruction` — an opcode byte with its operand.

Main results:

* `mainOp_of_smallInteger` — the constants push their numbers.
-/

import AtomicProof.Opcode
import AtomicProof.Hex
import AtomicProof.StackState
import Mathlib.Data.Int.Init

set_option autoImplicit false

namespace AtomicProof

/-! ### The machine and its surroundings -/

structure TransactionData where
  version : UInt32 := 1
  lockTime : UInt32 := 0
  inputCount : UInt32 := 1
  outputCount : UInt32 := 1
  inputsHash : Bytes := []
  unlockingInput : Bytes := []
  outputsHash : Bytes := []

/-- What the machine uses from outside: the digests of `apc_crypto`, the transaction data and the
signature callback, which receives the signature without its last byte, the public key and the
signature hash. -/
structure Env where
  ripemd160Digest : Bytes → Bytes
  sha1Digest : Bytes → Bytes
  sha256Digest : Bytes → Bytes
  hash160Digest : Bytes → Bytes
  hash256Digest : Bytes → Bytes
  transactionData : Option TransactionData
  checkSigCallback : Option (Bytes → Bytes → Bytes → Bool)

/-- The state of the machine.  `conds` is the condition stack with the innermost condition first;
`finished` is set by `OP_RETURN`. -/
structure VM where
  main : Stack
  alt : Stack
  conds : List Bool := []
  finished : Bool := false
  deriving DecidableEq, Repr

/-- `isCurrentlyExecuting`: every open condition is true. -/
def VM.isCurrentlyExecuting (vm : VM) : Bool := vm.conds.all id

theorem VM.isCurrentlyExecuting_mk (main alt : Stack) (conds : List Bool) (finished : Bool) :
    (⟨main, alt, conds, finished⟩ : VM).isCurrentlyExecuting = conds.all id := rfl

/-- An instruction as `script_decoder::decode_instruction` yields it. -/
structure Instruction where
  opcode : UInt8
  operand : Bytes
  deriving DecidableEq, Repr

/-! ### Instructions on the main stack -/

section MainStack

open Stack

/-- The little-endian bytes of a `uint32_t`, as `memcpy` copies them. -/
def leBytes32 (n : UInt32) : Bytes :=
  [UInt8.ofNat n.toNat, UInt8.ofNat (n.toNat / 256), UInt8.ofNat (n.toNat / 65536),
    UInt8.ofNat (n.toNat / 16777216)]

/-- The little-endian bytes of a `uint64_t`. -/
def leBytes64 (n : ℕ) : Bytes := (List.range 8).map fun i => UInt8.ofNat (n / 256 ^ i)

def opPush (operand : Bytes) (s : Stack) : Except String Stack :=
  if operand.isEmpty then .error "OP_PUSH requires an operand" else .ok (operand :: s)

def op2dup (s : Stack) : Except String Stack := do
  let (x2, s) ← pop s
  let (x1, s) ← pop s
  pure (x2 :: x1 :: x2 :: x1 :: s)

def op3dup (s : Stack) : Except String Stack := do
  let (x3, s) ← pop s
  let (x2, s) ← pop s
  let (x1, s) ← pop s
  pure (x3 :: x2 :: x1 :: x3 :: x2 :: x1 :: s)

def op2over (s : Stack) : Except String Stack := do
  let s ← pick 3 s
  pick 3 s

def opRot (s : Stack) : Except String Stack := do
  let (x3, s) ← pop s
  let (x2, s) ← pop s
  let (x1, s) ← pop s
  pure (x1 :: x3 :: x2 :: s)

def op2rot (s : Stack) : Except String Stack := do
  let (x6, s) ← pop s
  let (x5, s) ← pop s
  let (x4, s) ← pop s
  let (x3, s) ← pop s
  let (x2, s) ← pop s
  let (x1, s) ← pop s
  pure (x2 :: x1 :: x6 :: x5 :: x4 :: x3 :: s)

def op2swap (s : Stack) : Except String Stack := do
  let (x4, s) ← pop s
  let (x3, s) ← pop s
  let (x2, s) ← pop s
  let (x1, s) ← pop s
  pure (x2 :: x1 :: x4 :: x3 :: s)

def opIfdup (s : Stack) : Except String Stack := do
  let top ← peek 0 s
  match toInt top with
  | some val => if val ≠ 0 then dup s else pure s
  | none => pure s

def opNip (s : Stack) : Except String Stack := do
  let s ← roll 1 s
  drop s

def opTuck (s : Stack) : Except String Stack := do
  let (x2, s) ← pop s
  let (x1, s) ← pop s
  pure (x2 :: x1 :: x2 :: s)

def opPick (s : Stack) : Except String Stack := do
  let (nElem, s) ← pop s
  match toInt nElem with
  | some depth =>
      if depth < 0 then throw "OP_PICK requires a non-negative numeric operand on stack"
      else pick depth.toNat s
  | none => throw "OP_PICK requires a non-negative numeric operand on stack"

def opRoll (s : Stack) : Except String Stack := do
  let (nElem, s) ← pop s
  match toInt nElem with
  | some depth =>
      if depth < 0 then throw "OP_ROLL requires a non-negative numeric operand on stack"
      else roll depth.toNat s
  | none => throw "OP_ROLL requires a non-negative numeric operand on stack"

def opCat (s : Stack) : Except String Stack := do
  let (b, s) ← pop s
  let (a, s) ← pop s
  pure ((a ++ b) :: s)

def opSplit (s : Stack) : Except String Stack := do
  let (nElem, s) ← pop s
  let (x, s) ← pop s
  match toInt nElem with
  | some n =>
      if n < 0 then throw "OP_SPLIT requires non-negative index"
      else if x.length < n.toNat then throw "OP_SPLIT index out of range"
      else pure (x.drop n.toNat :: x.take n.toNat :: s)
  | none => throw "OP_SPLIT requires non-negative index"

/-- The loop of `op_num2bin`: `while (v != 0 && bytes.size() < len)` with the low byte of `v` put
in front and `v` shifted arithmetically; `len` is the room left. -/
def num2binLoop : ℕ → ℤ → Bytes → Bytes
  | 0, _, bytes => bytes
  | len + 1, v, bytes =>
      if v = 0 then bytes else num2binLoop len (v / 256) (UInt8.ofNat (v % 256).toNat :: bytes)

def opNum2bin (s : Stack) : Except String Stack := do
  let (bElem, s) ← pop s
  let (aElem, s) ← pop s
  match toInt aElem, toInt bElem with
  | some aVal, some bVal =>
      if bVal < 0 then throw "OP_NUM2BIN requires numeric operands"
      else
        let len := bVal.toNat
        if len = 0 then pure ([] :: s)
        else
          let bytes := num2binLoop len aVal []
          if len < bytes.length then throw "OP_NUM2BIN: overflow for target length"
          else pure ((List.replicate (len - bytes.length) 0x00 ++ bytes) :: s)
  | _, _ => throw "OP_NUM2BIN requires numeric operands"

/-- `op_bin2num`: `v = (v << 8) | c` on an `int64_t`. -/
def opBin2num (s : Stack) : Except String Stack := do
  let (x, s) ← pop s
  pure (pushInt (x.foldl (fun v c => wrap64 (v * 256 + c.toNat)) 0) s)

def opSize (s : Stack) : Except String Stack := do
  let (x, s) ← pop s
  pure (pushInt x.length (x :: s))

def opInvert (s : Stack) : Except String Stack := do
  let (x, s) ← pop s
  pure (x.map (~~~ ·) :: s)

def opEqual (s : Stack) : Except String Stack := do
  let (b, s) ← pop s
  let (a, s) ← pop s
  pure (pushInt (if a = b then 1 else 0) s)

def opVerify (s : Stack) : Except String Stack := do
  let (a, s) ← pop s
  match toInt a with
  | some val => if val = 0 then throw "OP_VERIFY failed: value is false or zero" else pure s
  | none => throw "OP_VERIFY failed: value is false or zero"

/-- `op_0notequal`: a byte string that is not a number counts as zero. -/
def op0notequal (s : Stack) : Except String Stack := do
  let (a, s) ← pop s
  match toInt a with
  | some val => pure (pushInt (if val ≠ 0 then 1 else 0) s)
  | none => pure (pushInt 0 s)

/-- `op_not`: a byte string that is not a number gives zero. -/
def opNot (s : Stack) : Except String Stack := do
  let (a, s) ← pop s
  match toInt a with
  | none => pure (pushInt 0 s)
  | some val => pure (pushInt (if val = 0 then 1 else 0) s)

/-- `op_div` and `op_mod`: division truncates toward zero. -/
def divide (operands zero : String) (f : ℤ → ℤ → ℤ) (s : Stack) : Except String Stack := do
  let (b, s) ← pop s
  let (a, s) ← pop s
  match toInt a, toInt b with
  | some a, some b => if b = 0 then throw zero else pure (pushInt (wrap64 (f a b)) s)
  | _, _ => throw operands

/-- `op_lshift` and `op_rshift`. -/
def shift (operands : String) (f : ℤ → ℕ → ℤ) (s : Stack) : Except String Stack := do
  let (b, s) ← pop s
  let (a, s) ← pop s
  match toInt a, toInt b with
  | some a, some b =>
      if b < 0 then throw operands else pure (pushInt (wrap64 (f a (b.toNat % 64))) s)
  | _, _ => throw operands

def opWithin (s : Stack) : Except String Stack := do
  let (maxElem, s) ← pop s
  let (minElem, s) ← pop s
  let (xElem, s) ← pop s
  match toInt xElem, toInt minElem, toInt maxElem with
  | some x, some lo, some hi => pure (pushInt (if lo ≤ x ∧ x < hi then 1 else 0) s)
  | _, _, _ => throw "OP_WITHIN requires numeric operands"

def opChecksig (env : Env) (verifyOnly : Bool) (s : Stack) : Except String Stack := do
  let (pubkey, s) ← pop s
  let (sig, s) ← pop s
  let sighash := (env.transactionData.map (·.inputsHash)).getD []
  let ok := match env.checkSigCallback with
    | some callback => callback sig.dropLast pubkey sighash
    | none => true
  if verifyOnly then
    if ok then pure s else throw "OP_CHECKSIGVERIFY failed"
  else pure (pushInt (if ok then 1 else 0) s)

def opCheckmultisig (_s : Stack) : Except String Stack :=
  .error ("OP_CHECKMULTISIG is not implemented in BVMSimulator; " ++
    "real multisig verification requires full stack-layout support")

/-- A hash of the transaction data, or zero bytes where it is missing. -/
def TransactionData.hashOr (data : Option TransactionData) (field : TransactionData → Bytes)
    (size : ℕ) : Bytes :=
  match data with
  | some data => if (field data).isEmpty then List.replicate size 0 else field data
  | none => List.replicate size 0

def opPushMeta (env : Env) (s : Stack) : Except String Stack :=
  if s.length < 1 then .error "OP_PUSH_META requires at least 1 element on stack"
  else do
    let (vch, s) ← pop s
    let data := env.transactionData
    let fields := data.getD {}
    match vch with
    | [condition] =>
        match condition.toNat with
        | 1 => pure (leBytes32 fields.version :: s)
        | 2 => pure (leBytes32 fields.lockTime :: s)
        | 3 => pure (leBytes32 fields.inputCount :: s)
        | 4 => pure (leBytes32 fields.outputCount :: s)
        | 5 => pure (TransactionData.hashOr data (·.inputsHash) 32 :: s)
        | 6 => pure (TransactionData.hashOr data (·.unlockingInput) 40 :: s)
        | 7 => pure (TransactionData.hashOr data (·.outputsHash) 32 :: s)
        | _ => throw "OP_PUSH_META: condition must be between 1 and 7"
    | _ => throw "OP_PUSH_META: condition must be 1 byte"

def opPartialHash (env : Env) (s : Stack) : Except String Stack :=
  if s.length < 3 then .error "OP_PARTIAL_HASH requires at least 3 elements on stack"
  else do
    let (vchSize, s) ← pop s
    let (vchPartHash, s) ← pop s
    let (vch, s) ← pop s
    let size := leNat (vchSize.take 8)
    if vchPartHash.length = 0 then
      if size ≠ vch.length then
        throw "OP_PARTIAL_HASH: size mismatch when vchPartHash is empty"
      else pure (env.sha256Digest vch :: s)
    else if vchPartHash.length = 32 then
      if size < vch.length then
        throw "OP_PARTIAL_HASH: size mismatch when vchPartHash is present"
      else pure (env.sha256Digest (vchPartHash ++ leBytes64 (size - vch.length) ++ vch) :: s)
    else throw "OP_PARTIAL_HASH: invalid vchPartHash size (must be 0 or 32)"

end MainStack

/-! ### Conditionals, the alt stack and the end of a run -/

namespace VM

/-- An instruction that works on the main stack alone. -/
def onMain (f : Stack → Except String Stack) (vm : VM) : Except String VM := do
  let main ← f vm.main
  pure { vm with main }

def opToaltstack (vm : VM) : Except String VM := do
  let (elem, main) ← Stack.pop vm.main
  pure { vm with main, alt := elem :: vm.alt }

def opFromaltstack (vm : VM) : Except String VM := do
  let (elem, alt) ← Stack.pop vm.alt
  pure { vm with main := elem :: vm.main, alt }

/-- The truth value `op_if` gives a stack element. -/
def condTrue (condition : Bytes) : Bool :=
  match toInt condition with
  | some condVal => condVal ≠ 0
  | none => false

/-- `op_if`, and `op_notif` with `negated`.  The condition is taken from the main stack only where
the enclosing conditions all hold. -/
def openIf (negated : Bool) (vm : VM) : Except String VM :=
  if vm.isCurrentlyExecuting then do
    let (condition, main) ← Stack.pop vm.main
    pure { vm with main, conds := (condTrue condition ^^ negated) :: vm.conds }
  else .ok { vm with conds := false :: vm.conds }

def opIf : VM → Except String VM := openIf false

def opNotif : VM → Except String VM := openIf true

def opElse (vm : VM) : Except String VM :=
  match vm.conds with
  | [] => .error "OP_ELSE without matching OP_IF"
  | current :: parents =>
      let parentExec := parents.all id
      .ok { vm with conds := (parentExec && !current) :: parents }

def opEndif (vm : VM) : Except String VM :=
  match vm.conds with
  | [] => .error "OP_ENDIF without matching OP_IF"
  | _ :: parents => .ok { vm with conds := parents }

/-- `op_return` with an empty call stack. -/
def opReturn (vm : VM) : Except String VM := .ok { vm with finished := true }

end VM

/-! ### Dispatch -/

/-- The number that a constant opcode pushes. -/
def smallInteger : BytOpcode → Option ℤ
  | .op0 => some 0
  | .op1negate => some (-1)
  | .op1 => some 1
  | .op2 => some 2
  | .op3 => some 3
  | .op4 => some 4
  | .op5 => some 5
  | .op6 => some 6
  | .op7 => some 7
  | .op8 => some 8
  | .op9 => some 9
  | .op10 => some 10
  | .op11 => some 11
  | .op12 => some 12
  | .op13 => some 13
  | .op14 => some 14
  | .op15 => some 15
  | .op16 => some 16
  | _ => none

open Stack in
/-- The instruction of an opcode on the main stack, for the opcodes that use nothing else. -/
def mainOp (env : Env) (operand : Bytes) (op : BytOpcode) : Option (Stack → Except String Stack) :=
  match smallInteger op with
  | some value => some fun s => pure (pushInt value s)
  | none =>
    match op with
      | .opPushdata1 => some (opPush operand)
      | .opPushdata2 => some (opPush operand)
      | .opPushdata4 => some (opPush operand)
      | .opDup => some dup
      | .opDrop => some drop
      | .op2drop => some (dropN 2)
      | .op2dup => some op2dup
      | .op3dup => some op3dup
      | .opOver => some (pick 1)
      | .op2over => some op2over
      | .opRot => some opRot
      | .op2rot => some op2rot
      | .opSwap => some swap
      | .op2swap => some op2swap
      | .opIfdup => some opIfdup
      | .opDepth => some fun s => pure (pushInt s.length s)
      | .opNip => some opNip
      | .opTuck => some opTuck
      | .opPick => some opPick
      | .opRoll => some opRoll
      | .opCat => some opCat
      | .opSplit => some opSplit
      | .opNum2bin => some opNum2bin
      | .opBin2num => some opBin2num
      | .opSize => some opSize
      | .opInvert => some opInvert
      | .opAnd => some (binaryBits (· &&& ·))
      | .opOr => some (binaryBits (· ||| ·))
      | .opXor => some (binaryBits (· ^^^ ·))
      | .opAdd => some (binaryNum "OP_ADD requires numeric operands" fun a b => wrap64 (a + b))
      | .opSub => some (binaryNum "OP_SUB requires numeric operands" fun a b => wrap64 (a - b))
      | .opMul => some (binaryNum "OP_MUL requires numeric operands" fun a b => wrap64 (a * b))
      | .opDiv => some (divide "OP_DIV requires numeric operands" "Division by zero" Int.tdiv)
      | .opMod => some (divide "OP_MOD requires numeric operands" "Modulo by zero" Int.tmod)
      | .opNegate => some (unaryNum "OP_NEG requires numeric operand" fun a => wrap64 (-a))
      | .opAbs => some (unaryNum "OP_ABS requires numeric operand" fun a => wrap64 |a|)
      | .op1add => some (unaryNum "OP_1ADD requires numeric operand" fun a => wrap64 (a + 1))
      | .op1sub => some (unaryNum "OP_1SUB requires numeric operand" fun a => wrap64 (a - 1))
      | .op0notequal => some op0notequal
      | .opLshift => some (shift "OP_LSHIFT requires non-negative shift" fun a b => a * 2 ^ b)
      | .opRshift => some (shift "OP_RSHIFT requires non-negative shift" fun a b => a / 2 ^ b)
      | .opEqual => some opEqual
      | .opEqualverify => some fun s => do
          let s ← opEqual s
          opVerify s
      | .opNumequal => some (compareNum "OP_NUMEQUAL requires numeric operands" fun a b => a == b)
      | .opNumequalverify => some fun s => do
          let s ← compareNum "OP_NUMEQUAL requires numeric operands" (fun a b => a == b) s
          opVerify s
      | .opNumnotequal =>
          some (compareNum "OP_NUMNOTEQUAL requires numeric operands" fun a b => a != b)
      | .opLessthan => some (compareNum "OP_LESSTHAN requires numeric operands" fun a b => a < b)
      | .opGreaterthan => some (compareNum "OP_GREATERTHAN requires numeric operands" fun a b => a > b)
      | .opLessthanorequal =>
          some (compareNum "OP_LESSTHANOREQUAL requires numeric operands" fun a b => a ≤ b)
      | .opGreaterthanorequal =>
          some (compareNum "OP_GREATERTHANOREQUAL requires numeric operands" fun a b => a ≥ b)
      | .opMin => some (binaryNum "OP_MIN requires numeric operands" fun a b => if a ≤ b then a else b)
      | .opMax => some (binaryNum "OP_MAX requires numeric operands" fun a b => if a ≥ b then a else b)
      | .opWithin => some opWithin
      | .opNot => some opNot
      | .opBooland =>
          some (compareNum "OP_BOOLAND requires numeric operands" fun a b => a ≠ 0 ∧ b ≠ 0)
      | .opBoolor => some (compareNum "OP_BOOLOR requires numeric operands" fun a b => a ≠ 0 ∨ b ≠ 0)
      | .opNop => some pure
      | .opVerify => some opVerify
      | .opRipemd160 => some (digest env.ripemd160Digest)
      | .opSha1 => some (digest env.sha1Digest)
      | .opSha256 => some (digest env.sha256Digest)
      | .opHash160 => some (digest env.hash160Digest)
      | .opHash256 => some (digest env.hash256Digest)
      | .opCodeseparator => some pure
      | .opChecksig => some (opChecksig env false)
      | .opChecksigverify => some (opChecksig env true)
      | .opCheckmultisig => some opCheckmultisig
      | .opCheckmultisigverify => some opCheckmultisig
      | .opChecklocktimeverify => some pure
      | .opChecksequenceverify => some pure
      | .opPushMeta => some (opPushMeta env)
      | .opPartialHash => some (opPartialHash env)
      | .opInvalidopcode => some fun _ => throw "Unknown opcode: OP_INVALIDOPCODE"
      | _ => none

variable {env : Env} {operand : Bytes} {op : BytOpcode}

theorem mainOp_of_smallInteger {n : ℤ} (h : smallInteger op = some n) :
    mainOp env operand op = some fun s => .ok (Stack.pushInt n s) := by
  unfold mainOp
  simp only [h]
  rfl

/-- The instruction of a known opcode on the machine. -/
def executeKnown (env : Env) (operand : Bytes) (op : BytOpcode) (vm : VM) : Except String VM :=
  match mainOp env operand op with
  | some f => vm.onMain f
  | none =>
      match op with
      | .opIf => vm.opIf
      | .opNotif => vm.opNotif
      | .opElse => vm.opElse
      | .opEndif => vm.opEndif
      | .opToaltstack => vm.opToaltstack
      | .opFromaltstack => vm.opFromaltstack
      | _ => vm.opReturn

/-- The opcodes that act in a branch that is not taken. -/
def isConditional (op : BytOpcode) : Bool :=
  op = .opIf || op = .opNotif || op = .opElse || op = .opEndif

theorem mainOp_of_isConditional (h : isConditional op = true) : mainOp env operand op = none := by
  simp only [isConditional, Bool.or_eq_true, decide_eq_true_eq] at h
  rcases h with ((rfl | rfl) | rfl) | rfl <;> rfl

theorem of_mainOp_eq_none (h : mainOp env operand op = none) :
    isConditional op = true ∨ op = .opToaltstack ∨ op = .opFromaltstack ∨ op = .opReturn := by
  cases op <;> first | decide | exact absurd h (Option.some_ne_none _)

def executeOpcode (env : Env) (instr : Instruction) (vm : VM) : Except String VM :=
  match BytOpcode.ofByte? instr.opcode with
  | some op =>
      if !vm.isCurrentlyExecuting && !isConditional op then .ok vm
      else executeKnown env instr.operand op vm
  | none =>
      if !vm.isCurrentlyExecuting then .ok vm
      -- a direct push: the opcode is the number of bytes
      else if instr.opcode ≤ 0x4b then vm.onMain (opPush instr.operand)
      else .error ("Unknown opcode: OP_UNKNOWN(0x" ++ String.ofList (byteToHex instr.opcode) ++ ")")

end AtomicProof
