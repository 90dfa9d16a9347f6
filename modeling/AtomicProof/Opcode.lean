/-
The opcodes of the script machine.

`src/src/bytecode/bytecode_opcodes.h` lists the opcodes the compiler emits and the simulator
executes, with the byte each of them is encoded as.  `BytOpcode` is that enumeration, without the
two alternative names `OP_FALSE` and `OP_TRUE` of `OP_0` and `OP_1`.

* `BytOpcode.toByte` — the byte of an opcode;
* `BytOpcode.ofByte?` — the opcode of a byte, when there is one, and `BytOpcode.ofByte?_toByte`.
-/

import Mathlib.Data.List.Basic

set_option autoImplicit false

namespace AtomicProof

/-- The enumeration `tbc::BytOpcode`. -/
inductive BytOpcode
  | op0 | opPushdata1 | opPushdata2 | opPushdata4 | op1negate
  | op1 | op2 | op3 | op4 | op5 | op6 | op7 | op8
  | op9 | op10 | op11 | op12 | op13 | op14 | op15 | op16
  | opNop | opIf | opNotif | opElse | opEndif | opVerify | opReturn
  | opToaltstack | opFromaltstack | op2drop | op2dup | op3dup | op2over | op2rot | op2swap
  | opIfdup | opDepth | opDrop | opDup | opNip | opOver | opPick | opRoll | opRot | opSwap | opTuck
  | opCat | opSplit | opNum2bin | opBin2num | opSize
  | opInvert | opAnd | opOr | opXor
  | opEqual | opEqualverify
  | op1add | op1sub | opNegate | opAbs | opNot | op0notequal
  | opAdd | opSub | opMul | opDiv | opMod | opLshift | opRshift
  | opBooland | opBoolor
  | opNumequal | opNumequalverify | opNumnotequal | opLessthan | opGreaterthan
  | opLessthanorequal | opGreaterthanorequal | opMin | opMax | opWithin
  | opRipemd160 | opSha1 | opSha256 | opHash160 | opHash256 | opCodeseparator
  | opChecksig | opChecksigverify | opCheckmultisig | opCheckmultisigverify
  | opChecklocktimeverify | opChecksequenceverify
  | opPushMeta | opPartialHash | opInvalidopcode
  deriving DecidableEq, Repr

namespace BytOpcode

/-- The value of the enumerator, the byte an opcode is encoded as. -/
def toByte : BytOpcode → UInt8
  | op0 => 0x00 | opPushdata1 => 0x4c | opPushdata2 => 0x4d | opPushdata4 => 0x4e
  | op1negate => 0x4f
  | op1 => 0x51 | op2 => 0x52 | op3 => 0x53 | op4 => 0x54 | op5 => 0x55 | op6 => 0x56
  | op7 => 0x57 | op8 => 0x58 | op9 => 0x59 | op10 => 0x5a | op11 => 0x5b | op12 => 0x5c
  | op13 => 0x5d | op14 => 0x5e | op15 => 0x5f | op16 => 0x60
  | opNop => 0x61 | opIf => 0x63 | opNotif => 0x64 | opElse => 0x67 | opEndif => 0x68
  | opVerify => 0x69 | opReturn => 0x6a
  | opToaltstack => 0x6b | opFromaltstack => 0x6c | op2drop => 0x6d | op2dup => 0x6e
  | op3dup => 0x6f | op2over => 0x70 | op2rot => 0x71 | op2swap => 0x72 | opIfdup => 0x73
  | opDepth => 0x74 | opDrop => 0x75 | opDup => 0x76 | opNip => 0x77 | opOver => 0x78
  | opPick => 0x79 | opRoll => 0x7a | opRot => 0x7b | opSwap => 0x7c | opTuck => 0x7d
  | opCat => 0x7e | opSplit => 0x7f | opNum2bin => 0x80 | opBin2num => 0x81 | opSize => 0x82
  | opInvert => 0x83 | opAnd => 0x84 | opOr => 0x85 | opXor => 0x86
  | opEqual => 0x87 | opEqualverify => 0x88
  | op1add => 0x8b | op1sub => 0x8c | opNegate => 0x8f | opAbs => 0x90 | opNot => 0x91
  | op0notequal => 0x92 | opAdd => 0x93 | opSub => 0x94 | opMul => 0x95 | opDiv => 0x96
  | opMod => 0x97 | opLshift => 0x98 | opRshift => 0x99 | opBooland => 0x9a | opBoolor => 0x9b
  | opNumequal => 0x9c | opNumequalverify => 0x9d | opNumnotequal => 0x9e | opLessthan => 0x9f
  | opGreaterthan => 0xa0 | opLessthanorequal => 0xa1 | opGreaterthanorequal => 0xa2
  | opMin => 0xa3 | opMax => 0xa4 | opWithin => 0xa5
  | opRipemd160 => 0xa6 | opSha1 => 0xa7 | opSha256 => 0xa8 | opHash160 => 0xa9
  | opHash256 => 0xaa | opCodeseparator => 0xab | opChecksig => 0xac | opChecksigverify => 0xad
  | opCheckmultisig => 0xae | opCheckmultisigverify => 0xaf
  | opChecklocktimeverify => 0xb1 | opChecksequenceverify => 0xb2
  | opPushMeta => 0xba | opPartialHash => 0xbb | opInvalidopcode => 0xff

/-- Every opcode, in the order of the enumeration. -/
def all : List BytOpcode :=
  [op0, opPushdata1, opPushdata2, opPushdata4, op1negate,
    op1, op2, op3, op4, op5, op6, op7, op8, op9, op10, op11, op12, op13, op14, op15, op16,
    opNop, opIf, opNotif, opElse, opEndif, opVerify, opReturn,
    opToaltstack, opFromaltstack, op2drop, op2dup, op3dup, op2over, op2rot, op2swap,
    opIfdup, opDepth, opDrop, opDup, opNip, opOver, opPick, opRoll, opRot, opSwap, opTuck,
    opCat, opSplit, opNum2bin, opBin2num, opSize, opInvert, opAnd, opOr, opXor,
    opEqual, opEqualverify, op1add, op1sub, opNegate, opAbs, opNot, op0notequal,
    opAdd, opSub, opMul, opDiv, opMod, opLshift, opRshift, opBooland, opBoolor,
    opNumequal, opNumequalverify, opNumnotequal, opLessthan, opGreaterthan,
    opLessthanorequal, opGreaterthanorequal, opMin, opMax, opWithin,
    opRipemd160, opSha1, opSha256, opHash160, opHash256, opCodeseparator,
    opChecksig, opChecksigverify, opCheckmultisig, opCheckmultisigverify,
    opChecklocktimeverify, opChecksequenceverify, opPushMeta, opPartialHash, opInvalidopcode]

/-- The opcode encoded as the byte `b`, when there is one. -/
def ofByte? (b : UInt8) : Option BytOpcode := all.find? fun op => op.toByte == b

theorem ofByte?_toByte (op : BytOpcode) : ofByte? op.toByte = some op := by
  cases op <;> rfl

theorem toByte_of_ofByte? {b : UInt8} {op : BytOpcode} (h : ofByte? b = some op) :
    op.toByte = b := by
  have := List.find?_some h
  simpa using this

theorem toByte_injective {op op' : BytOpcode} (h : op.toByte = op'.toByte) : op = op' := by
  have h' : some op = some op' := by rw [← ofByte?_toByte op, ← ofByte?_toByte op', h]
  exact Option.some_inj.1 h'

end BytOpcode

end AtomicProof
