/-
The builtins of the interpreter.

`BuiltinRuntime` in `src/src/interpreter/builtin_runtime.cpp` evaluates a builtin function of the
language on runtime values.  Arithmetic is that of `int64_t`, taken modulo `2 ^ 64` where C++ leaves
it open.  The hash functions are those the script machine is given.

Main definitions:

* `Builtin` — the names the interpreter knows;
* `numToBin`, `sliceBytes` — the two builtins with a body of their own;
* `callFunction` — the evaluation of a builtin.

Main results:

* `callFunction_name` — a known name evaluates its builtin.
-/

import AtomicProof.RuntimeValue
import AtomicProof.Simulator

set_option autoImplicit false

namespace AtomicProof

namespace BuiltinRuntime

open RuntimeValue

/-! ### Names -/

/-- The names of `isBuiltinFunction`. -/
inductive Builtin
  | push | clone | ripemd160 | sha1 | sha256 | hash160 | hash256 | cat | concat | slice | size
  | numToBin | binToNum | partialHash | equal | equalVerify | require | verify | numEqual
  | numEqualVerify | numNotEqual | lessThan | greaterThan | lessThanOrEqual | greaterThanOrEqual
  | add | sub | mul | div | mod | inc | dec | neg | abs | not | zeroNotEqual | checkSig
  | checkSigVerify | multiSig | multiSigVerify | delete | keep | move | setAlt | setMain
  deriving DecidableEq, Repr

def Builtin.name : Builtin → String
  | .push => "Push"
  | .clone => "Clone"
  | .ripemd160 => "Ripemd160"
  | .sha1 => "Sha1"
  | .sha256 => "Sha256"
  | .hash160 => "Hash160"
  | .hash256 => "Hash256"
  | .cat => "Cat"
  | .concat => "Concat"
  | .slice => "Slice"
  | .size => "Size"
  | .numToBin => "NumToBin"
  | .binToNum => "BinToNum"
  | .partialHash => "PartialHash"
  | .equal => "Equal"
  | .equalVerify => "EqualVerify"
  | .require => "Require"
  | .verify => "Verify"
  | .numEqual => "NumEqual"
  | .numEqualVerify => "NumEqualVerify"
  | .numNotEqual => "NumNotEqual"
  | .lessThan => "LessThan"
  | .greaterThan => "GreaterThan"
  | .lessThanOrEqual => "LessThanOrEqual"
  | .greaterThanOrEqual => "GreaterThanOrEqual"
  | .add => "Add"
  | .sub => "Sub"
  | .mul => "Mul"
  | .div => "Div"
  | .mod => "Mod"
  | .inc => "Inc"
  | .dec => "Dec"
  | .neg => "Neg"
  | .abs => "Abs"
  | .not => "Not"
  | .zeroNotEqual => "ZeroNotEqual"
  | .checkSig => "CheckSig"
  | .checkSigVerify => "CheckSigVerify"
  | .multiSig => "MultiSig"
  | .multiSigVerify => "MultiSigVerify"
  | .delete => "Delete"
  | .keep => "Keep"
  | .move => "Move"
  | .setAlt => "SetAlt"
  | .setMain => "SetMain"

def Builtin.all : List Builtin :=
  [.push, .clone, .ripemd160, .sha1, .sha256, .hash160, .hash256, .cat, .concat, .slice, .size,
    .numToBin, .binToNum, .partialHash, .equal, .equalVerify, .require, .verify, .numEqual,
    .numEqualVerify, .numNotEqual, .lessThan, .greaterThan, .lessThanOrEqual, .greaterThanOrEqual,
    .add, .sub, .mul, .div, .mod, .inc, .dec, .neg, .abs, .not, .zeroNotEqual, .checkSig,
    .checkSigVerify, .multiSig, .multiSigVerify, .delete, .keep, .move, .setAlt, .setMain]

def Builtin.ofName? (name : String) : Option Builtin := Builtin.all.find? (·.name = name)

def isBuiltinFunction (name : String) : Bool := (Builtin.ofName? name).isSome

theorem Builtin.ofName?_name (b : Builtin) : Builtin.ofName? b.name = some b := by
  cases b <;> decide

/-! ### Evaluation -/

/-- `expectArgCount` where it throws. -/
def argCountError (name : String) (args : List RuntimeValue) (expected : ℕ) : RuntimeError :=
  ⟨.builtinError, name ++ "(...) expects " ++ toString expected ++ " argument(s), got " ++
    toString args.length⟩

def withOne (b : Builtin) (args : List RuntimeValue)
    (f : RuntimeValue → Except RuntimeError RuntimeValue) : Except RuntimeError RuntimeValue :=
  match args with
  | [a] => f a
  | _ => .error (argCountError b.name args 1)

def withTwo (b : Builtin) (args : List RuntimeValue)
    (f : RuntimeValue → RuntimeValue → Except RuntimeError RuntimeValue) :
    Except RuntimeError RuntimeValue :=
  match args with
  | [a, c] => f a c
  | _ => .error (argCountError b.name args 2)

def withThree (b : Builtin) (args : List RuntimeValue)
    (f : RuntimeValue → RuntimeValue → RuntimeValue → Except RuntimeError RuntimeValue) :
    Except RuntimeError RuntimeValue :=
  match args with
  | [a, c, d] => f a c d
  | _ => .error (argCountError b.name args 3)

/-- A number computed from the number of an argument. -/
def numeric1 (f : ℤ → RuntimeValue) (a : RuntimeValue) : Except RuntimeError RuntimeValue := do
  let n ← a.toScriptNum
  pure (f n)

/-- A value computed from the numbers of two arguments. -/
def numeric2 (f : ℤ → ℤ → RuntimeValue) (a c : RuntimeValue) :
    Except RuntimeError RuntimeValue := do
  let n ← a.toScriptNum
  let m ← c.toScriptNum
  pure (f n m)

def verifyTruthy (name : String) (value : RuntimeValue) : Except RuntimeError RuntimeValue :=
  if value.truthy then .ok voidValue
  else .error ⟨.builtinError, name ++ "(...) verification failed"⟩

def verifyEqual (name : String) (lhs rhs : RuntimeValue) : Except RuntimeError RuntimeValue :=
  if lhs.eq rhs then .ok voidValue
  else .error ⟨.builtinError, name ++ "(...) verification failed: left=" ++ lhs.toDisplayString ++
    ", right=" ++ rhs.toDisplayString⟩

/-- `fromDigest` of a hash of the script bytes. -/
def fromDigest (f : Bytes → Bytes) (declaredType : String) (a : RuntimeValue) :
    Except RuntimeError RuntimeValue := do
  let data ← a.toScriptBytes
  pure (fromBytes (f data) declaredType)

/-- `numToBin`: the script number with its sign taken out, filled up with zero bytes, and with the
sign put into the last byte. -/
def numToBin (number rawSize : ℤ) : Except RuntimeError RuntimeValue :=
  if rawSize < 0 then .error ⟨.builtinError, "NumToBin(...) size cannot be negative"⟩
  else
    let size := rawSize.toNat
    let bytes := RuntimeCodec.serializeScriptNum number
    if bytes = [] then .ok (fromBytes (List.replicate size 0x00))
    else
      let negative := 128 ≤ (bytes.getLastD 0).toNat
      let bytes := if negative then bytes.dropLast ++ [bytes.getLastD 0 &&& 0x7f] else bytes
      if size < bytes.length then
        .error ⟨.builtinError, "NumToBin(...) size is too small for the number"⟩
      else
        let bytes := bytes ++ List.replicate (size - bytes.length) 0x00
        .ok (fromBytes
          (if negative ∧ bytes ≠ [] then bytes.dropLast ++ [bytes.getLastD 0 ||| 0x80] else bytes))

def sliceBytes (value : RuntimeValue) (rawStart rawLength : ℤ) :
    Except RuntimeError RuntimeValue := do
  let data ← value.toScriptBytes
  let start := min (if rawStart < 0 then 0 else rawStart.toNat) data.length
  let stop := if 0 ≤ rawLength then min data.length (start + rawLength.toNat) else data.length
  pure (fromBytes ((data.take stop).drop start)
    (if value.declaredType = "" then "bytes" else value.declaredType))

def partialHash (env : Env) (a c d : RuntimeValue) : Except RuntimeError RuntimeValue := do
  let vch ← a.toScriptBytes
  let vchPartHash ← c.toScriptBytes
  let total ← d.toScriptNum
  let totalSize := (total % 2 ^ 64).toNat
  if vchPartHash = [] then
    if totalSize ≠ vch.length then
      throw ⟨.builtinError, "PartialHash(...) size mismatch for full hash"⟩
    else pure (fromBytes (env.sha256Digest vch) "sha256")
  else if vchPartHash.length ≠ 32 ∨ totalSize < vch.length then
    throw ⟨.builtinError, "PartialHash(...) expects empty or 32-byte partial hash"⟩
  else pure (fromBytes
    (env.sha256Digest (vchPartHash ++ leBytes64 (totalSize - vch.length) ++ vch)) "sha256")

/-- `Div` and `Mod`: division truncates toward zero. -/
def divide (b : Builtin) (f : ℤ → ℤ → ℤ) (a c : RuntimeValue) :
    Except RuntimeError RuntimeValue := do
  let divisor ← c.toScriptNum
  if divisor = 0 then throw ⟨.builtinError, b.name ++ "(...) division by zero"⟩
  else
    let n ← a.toScriptNum
    pure (fromInt (wrap64 (f n divisor)))

/-- The signature builtins have no meaning without a policy. -/
def signaturePolicyError (b : Builtin) : RuntimeError :=
  ⟨.builtinError, b.name ++ "(...) requires an interpreter signature policy; AST mode " ++
    "uses BVM.checkSigResult/BVM.multiSigResult and bytecode mode " ++
    "uses BVMSimulator::setCheckSigCallback"⟩

/-- `Cat` and `Concat`. -/
def cat (a c : RuntimeValue) : Except RuntimeError RuntimeValue := do
  let lhs ← a.toScriptBytes
  let rhs ← c.toScriptBytes
  pure (fromBytes (lhs ++ rhs))

/-- The evaluation of a builtin the interpreter knows. -/
def call (env : Env) (b : Builtin) (args : List RuntimeValue) : Except RuntimeError RuntimeValue :=
  match b with
  | .push => withOne b args .ok
  | .clone => withOne b args .ok
  | .ripemd160 => withOne b args (fromDigest env.ripemd160Digest "ripemd160")
  | .sha1 => withOne b args (fromDigest env.sha1Digest "sha1")
  | .sha256 => withOne b args (fromDigest env.sha256Digest "sha256")
  | .hash160 => withOne b args (fromDigest env.hash160Digest "hash160")
  | .hash256 => withOne b args (fromDigest env.hash256Digest "hash256")
  | .cat => withTwo b args cat
  | .concat => withTwo b args cat
  | .size => withOne b args fun a => do
      let data ← a.toScriptBytes
      pure (fromInt data.length)
  | .slice => withThree b args fun a c d => do
      let start ← c.toScriptNum
      let length ← d.toScriptNum
      sliceBytes a start length
  | .binToNum => withOne b args (numeric1 fromInt)
  | .numToBin => withTwo b args fun a c => do
      let number ← a.toScriptNum
      let size ← c.toScriptNum
      numToBin number size
  | .partialHash => withThree b args (partialHash env)
  | .equal => withTwo b args fun a c => .ok (fromBool (a.eq c))
  | .equalVerify => withTwo b args (verifyEqual b.name)
  | .require => withTwo b args (verifyEqual b.name)
  | .verify => withOne b args (verifyTruthy b.name)
  | .numEqual => withTwo b args (numeric2 fun n m => fromBool (n = m))
  | .numEqualVerify => withTwo b args fun a c => do
      let value ← numeric2 (fun n m => fromBool (n = m)) a c
      verifyTruthy b.name value
  | .numNotEqual => withTwo b args (numeric2 fun n m => fromBool (n ≠ m))
  | .lessThan => withTwo b args (numeric2 fun n m => fromBool (n < m))
  | .greaterThan => withTwo b args (numeric2 fun n m => fromBool (n > m))
  | .lessThanOrEqual => withTwo b args (numeric2 fun n m => fromBool (n ≤ m))
  | .greaterThanOrEqual => withTwo b args (numeric2 fun n m => fromBool (n ≥ m))
  | .add => withTwo b args (numeric2 fun n m => fromInt (wrap64 (n + m)))
  | .sub => withTwo b args (numeric2 fun n m => fromInt (wrap64 (n - m)))
  | .mul => withTwo b args (numeric2 fun n m => fromInt (wrap64 (n * m)))
  | .div => withTwo b args (divide b Int.tdiv)
  | .mod => withTwo b args (divide b Int.tmod)
  | .inc => withOne b args (numeric1 fun n => fromInt (wrap64 (n + 1)))
  | .dec => withOne b args (numeric1 fun n => fromInt (wrap64 (n - 1)))
  | .neg => withOne b args (numeric1 fun n => fromInt (wrap64 (-n)))
  | .abs => withOne b args (numeric1 fun n => fromInt (wrap64 |n|))
  | .not => withOne b args fun a => .ok (fromBool (!a.truthy))
  | .zeroNotEqual => withOne b args (numeric1 fun n => fromBool (n ≠ 0))
  | .checkSig => withTwo b args fun _ _ => .error (signaturePolicyError b)
  | .multiSig => withTwo b args fun _ _ => .error (signaturePolicyError b)
  | .checkSigVerify => withTwo b args fun _ _ => .error (signaturePolicyError b)
  | .multiSigVerify => withTwo b args fun _ _ => .error (signaturePolicyError b)
  | .delete => withOne b args fun _ => .ok voidValue
  | .keep => withOne b args .ok
  | .move => withOne b args .ok
  | .setAlt => withOne b args .ok
  | .setMain => withOne b args .ok

def callFunction (env : Env) (name : String) (args : List RuntimeValue) :
    Except RuntimeError RuntimeValue :=
  match Builtin.ofName? name with
  | some b => call env b args
  | none => .error ⟨.builtinError, "unsupported builtin function '" ++ name ++ "'"⟩

theorem callFunction_name (env : Env) (b : Builtin) (args : List RuntimeValue) :
    callFunction env b.name args = call env b args := by
  rw [callFunction, Builtin.ofName?_name]

end BuiltinRuntime

end AtomicProof
