/-
The values of the interpreter.

`RuntimeValue` in `src/src/interpreter/runtime_value.cpp` is a tagged value with the type it was
declared with.  The script machine knows byte strings only; the functions that connect the two
views of a value are `toScriptBytes`, `toScriptNum` and `truthy`.  The fields of a structure are
listed in the order of their names, as `std::map` holds them.

Main definitions:

* `RuntimeValue` — a value;
* `RuntimeValue.toScriptNum`, `RuntimeValue.truthy`, `RuntimeValue.toScriptBytes` — what it is as a
  number, as a condition and on the stack;
* `RuntimeValue.eq` — `operator==`.

Main results:

* `RuntimeValue.eq_of_scalar` — scalars are compared by their script bytes.
-/

import AtomicProof.Hex
import AtomicProof.RuntimeCodec

set_option autoImplicit false

namespace AtomicProof

inductive RuntimeType
  | void | int | bool | bytes | string | address | array | struct | builtinObject
  deriving DecidableEq, Repr

/-- `RuntimeValue`: the storage of each type, and the declared type. -/
inductive RuntimeValue
  | void (declaredType : String)
  | int (value : ℤ) (declaredType : String)
  | bool (value : Bool) (declaredType : String)
  | bytes (data : Bytes) (declaredType : String)
  | string (value : String) (declaredType : String)
  | address (value : String) (declaredType : String)
  | array (values : List RuntimeValue) (declaredType : String)
  | struct (fields : List (String × RuntimeValue)) (declaredType : String)
  | builtinObject (name : String) (fields : List (String × RuntimeValue)) (declaredType : String)

namespace RuntimeValue

/-! ### Constructors and accessors -/

def voidValue : RuntimeValue := .void "void"

def fromInt (value : ℤ) (declaredType : String := "int") : RuntimeValue := .int value declaredType

def fromBool (value : Bool) : RuntimeValue := .bool value "bool"

def fromBytes (data : Bytes) (declaredType : String := "bytes") : RuntimeValue :=
  .bytes data declaredType

def fromString (value : String) : RuntimeValue := .string value "string"

def type : RuntimeValue → RuntimeType
  | void _ => .void
  | int _ _ => .int
  | bool _ _ => .bool
  | bytes _ _ => .bytes
  | string _ _ => .string
  | address _ _ => .address
  | array _ _ => .array
  | struct _ _ => .struct
  | builtinObject _ _ _ => .builtinObject

def declaredType : RuntimeValue → String
  | void t => t
  | int _ t => t
  | bool _ t => t
  | bytes _ t => t
  | string _ t => t
  | address _ t => t
  | array _ t => t
  | struct _ t => t
  | builtinObject _ _ t => t

/-- The types whose values are compared by their script bytes. -/
def isScalar (v : RuntimeValue) : Bool :=
  v.type = .int || v.type = .bool || v.type = .bytes || v.type = .void

/-! ### A value as a number, as a condition and as bytes -/

def toScriptNum : RuntimeValue → Except RuntimeError ℤ
  | int value _ => .ok value
  | bool value _ => .ok (if value then 1 else 0)
  | bytes data _ => RuntimeCodec.deserializeScriptNum data
  | void _ => .ok 0
  | _ => .error ⟨.typeMismatch, "runtime value cannot be converted to script number"⟩

def truthy : RuntimeValue → Bool
  | void _ => false
  | int value _ => value ≠ 0
  | bool value _ => value
  | bytes data _ => data.any (· ≠ 0)
  | string value _ => value ≠ ""
  | address value _ => value ≠ ""
  | array values _ => !values.isEmpty
  | struct fields _ => !fields.isEmpty
  | builtinObject _ _ _ => true

mutual

def toScriptBytes : RuntimeValue → Except RuntimeError Bytes
  | void _ => .ok []
  | int value _ => .ok (RuntimeCodec.serializeScriptNum value)
  | bool value _ => .ok (if value then [0x01] else [])
  | bytes data _ => .ok data
  | string value _ => .ok value.toUTF8.toList
  | address value _ => .ok value.toUTF8.toList
  | array values _ => toScriptBytesList values
  | struct fields _ => toScriptBytesFields fields
  | builtinObject _ _ _ =>
      .error ⟨.typeMismatch, "builtin object cannot be converted to script bytes"⟩

/-- The elements of an array, one after the other. -/
def toScriptBytesList : List RuntimeValue → Except RuntimeError Bytes
  | [] => .ok []
  | value :: values => do
      let bytes ← toScriptBytes value
      let rest ← toScriptBytesList values
      pure (bytes ++ rest)

/-- The fields of a structure, one after the other. -/
def toScriptBytesFields : List (String × RuntimeValue) → Except RuntimeError Bytes
  | [] => .ok []
  | (_, value) :: fields => do
      let bytes ← toScriptBytes value
      let rest ← toScriptBytesFields fields
      pure (bytes ++ rest)

end

/-- `runtime_codec::bytesToHex` with the prefix. -/
def hexText (data : Bytes) : String := "0x" ++ String.ofList (bytesToHex data)

def toDisplayString : RuntimeValue → String
  | void _ => "<void>"
  | int value _ => toString value
  | bool value _ => if value then "true" else "false"
  | bytes data _ => hexText data
  | string value _ => value
  | address value _ => value
  | array values _ => "<array:" ++ toString values.length ++ ">"
  | struct _ declaredType => "<struct:" ++ declaredType ++ ">"
  | builtinObject name _ _ => "<builtin:" ++ name ++ ">"

mutual

/-- `RuntimeValue::operator==`. -/
def eq : RuntimeValue → RuntimeValue → Bool
  | string a _, string b _ => a = b
  | address a _, address b _ => a = b
  | array as _, array bs _ => eqList as bs
  | struct as _, struct bs _ => eqFields as bs
  | builtinObject a as _, builtinObject b bs _ => a = b && eqFields as bs
  | a, b => a.isScalar && b.isScalar && a.toScriptBytes.toOption = b.toScriptBytes.toOption

/-- Arrays are compared element by element. -/
def eqList : List RuntimeValue → List RuntimeValue → Bool
  | [], [] => true
  | a :: as, b :: bs => eq a b && eqList as bs
  | _, _ => false

/-- Structures are compared field by field, names included. -/
def eqFields : List (String × RuntimeValue) → List (String × RuntimeValue) → Bool
  | [], [] => true
  | (n, a) :: as, (m, b) :: bs => n = m && eq a b && eqFields as bs
  | _, _ => false

end

/-! ### Comparison -/

theorem eq_of_scalar {a b : RuntimeValue} (ha : a.isScalar) (hb : b.isScalar) :
    a.eq b = decide (a.toScriptBytes.toOption = b.toScriptBytes.toOption) := by
  cases a <;> cases b <;> simp_all [isScalar, type, eq]

end RuntimeValue

end AtomicProof
