/-
The typed form of a script.

`src/src/bytecode/bytecode_ir.h` gives every atom of a script a body, a region and the record of
where it came from.  The passes that rewrite the strings keep the typed script beside them.
-/

import AtomicProof.Opcode
import AtomicProof.ScriptNum

set_option autoImplicit false

namespace AtomicProof

inductive ScriptRegion
  | executable | padding | immutableSuffix
  deriving DecidableEq, Repr

inductive ArtifactFormat
  | legacyV1 | canonicalV2
  deriving DecidableEq, Repr

/-- The underlying value of an opcode.  `BytOpcode` is an enumeration over 16-bit words, and the
readers of scripts put any byte into it. -/
def BytOpcode.toWord (op : BytOpcode) : UInt16 := op.toByte.toUInt16

inductive InstructionBody
  | opcode (opcode : UInt16)
  | pushData (payload : Bytes)
  | placeholderPush (label : String) (expectedPayloadSize : Option ℕ)
  | rawSuffix (raw : String)
  | legacyBarrier (raw : String)
  deriving DecidableEq, Repr

structure BytecodeInstruction where
  id : ℕ
  body : InstructionBody
  region : ScriptRegion
  origins : List ℕ
  legacyEncoding : Option String
  deriving DecidableEq, Repr

structure ConstructorFieldSchema where
  name : String
  type : String
  fixedPayloadSize : Option ℕ
  deriving DecidableEq, Repr

structure LayoutDirectives where
  executableAlignment : Option ℕ
  requiresMaterialization : Bool
  deriving DecidableEq, Repr

structure BytecodeArtifact where
  format : ArtifactFormat
  lockingScript : List BytecodeInstruction
  unlockingScripts : List (String × String)
  constructorSchema : List ConstructorFieldSchema
  layout : LayoutDirectives
  deriving DecidableEq, Repr

end AtomicProof
