/-
The numbers of the interpreter.

`runtime_codec` in `src/src/interpreter/runtime_codec.cpp` is the interpreter's own codec for script
numbers.  The encoders of the compiler, of the machine and of the interpreter differ in how they
take the absolute value of a number and agree in everything after it.

Main definitions:

* `RuntimeError` — what the interpreter throws;
* `serializeMagnitude` — the bytes of a sign and a magnitude, common to the encoders;
* `RuntimeCodec.serializeScriptNum`, `RuntimeCodec.deserializeScriptNum` — the interpreter's codec.

Main results:

* `RuntimeCodec.serializeScriptNum_eq` — the interpreter encodes as the machine does;
* `RuntimeCodec.deserializeScriptNum_toOption` — and decodes as the machine does.
-/

import AtomicProof.ScriptNum

set_option autoImplicit false

namespace AtomicProof

inductive RuntimeErrorKind
  | generic | typeMismatch | undefinedVariable | duplicateVariable | ownershipViolation
  | invalidFieldAccess | invalidIndexAccess | builtinError
  deriving DecidableEq, Repr

/-- `RuntimeError`, without its place in the source. -/
structure RuntimeError where
  kind : RuntimeErrorKind
  message : String
  deriving DecidableEq, Repr

/-- The bytes of a sign and of a magnitude that is not zero: the magnitude in little-endian digits,
and the sign in the highest bit, which needs a digit of its own where the magnitude uses it. -/
def serializeMagnitude (negative : Bool) (absolute : ℕ) : Bytes :=
  let result := magnitudeBytes 8 absolute
  let last := result.getLastD 0
  if 128 ≤ last.toNat then result ++ [if negative then 0x80 else 0x00]
  else if negative then result.dropLast ++ [last ||| 0x80]
  else result

theorem serializeScriptNum_eq (value : ℤ) :
    serializeScriptNum value =
      if value = 0 then [] else serializeMagnitude (value < 0) value.natAbs := by
  simp [serializeScriptNum, serializeMagnitude]

namespace RuntimeCodec

/-- `absolute` of `runtime_codec::serializeScriptNum`. -/
def absolute (value : ℤ) : ℕ :=
  if value = -2 ^ 63 then (2 ^ 63 - 1) + 1
  else if value < 0 then (-value).toNat
  else value.toNat

def serializeScriptNum (value : ℤ) : Bytes :=
  if value = 0 then [] else serializeMagnitude (value < 0) (absolute value)

def deserializeScriptNum (bytes : Bytes) : Except RuntimeError ℤ :=
  if bytes = [] then .ok 0
  else if 8 < bytes.length then .error ⟨.typeMismatch, "script number is wider than int64"⟩
  else
    let value := leNat bytes
    if 128 ≤ (bytes.getLastD 0).toNat then
      -- `value &= ~signMask`
      let value := value - 128 * 256 ^ (bytes.length - 1)
      if value = 2 ^ 63 then .ok (-2 ^ 63)
      else if 2 ^ 63 - 1 < value then
        .error ⟨.typeMismatch, "negative script number overflows int64"⟩
      else .ok (-value)
    else if 2 ^ 63 - 1 < value then
      .error ⟨.typeMismatch, "script number overflows int64"⟩
    else .ok value

theorem serializeScriptNum_eq (value : ℤ) :
    serializeScriptNum value = AtomicProof.serializeScriptNum value := by
  have habs : absolute value = value.natAbs := by
    unfold absolute
    split_ifs <;> omega
  rw [serializeScriptNum, AtomicProof.serializeScriptNum_eq, habs]

/-- The interpreter decodes a number as the machine does. -/
theorem deserializeScriptNum_toOption (bytes : Bytes) :
    (deserializeScriptNum bytes).toOption = toInt bytes := by
  unfold deserializeScriptNum toInt
  by_cases hnil : bytes = []
  · rw [if_pos hnil, if_pos hnil]
    rfl
  rw [if_neg hnil, if_neg hnil]
  by_cases hlen : 8 < bytes.length
  · rw [if_pos hlen, if_pos hlen]
    rfl
  rw [if_neg hlen, if_neg hlen]
  by_cases hsign : 128 ≤ (bytes.getLastD 0).toNat
  · simp only [if_pos hsign]
    generalize leNat bytes - 128 * 256 ^ (bytes.length - 1) = absVal
    by_cases heq : absVal = 2 ^ 63
    · rw [if_pos heq, if_neg (by omega), if_pos heq]
      rfl
    · rw [if_neg heq]
      by_cases hbig : 2 ^ 63 - 1 < absVal
      · rw [if_pos hbig, if_pos (by omega)]
        rfl
      · rw [if_neg hbig, if_neg (by omega), if_neg heq]
        rfl
  · simp only [if_neg hsign]
    by_cases hbig : 2 ^ 63 - 1 < leNat bytes
    · rw [if_pos hbig, if_pos hbig]
      rfl
    · rw [if_neg hbig, if_neg hbig]
      rfl

end RuntimeCodec

end AtomicProof
