/-
The codec for pushes, and the instructions of a byte string.

`ScriptCodec` in `src/src/bytecode/script_codec.h` is the one codec of the compiler for concrete
pushes; `script_decoder::decode_instruction` in `src/src/bytecode/script_decoder.cpp` reads one
instruction of any kind.  The two agree on pushes, which is what the rewriting passes rest on when
they look at an atom through the codec and the machine runs it through the decoder.

Main definitions:

* `ScriptCodec.encodePush`, `ScriptCodec.decodePushPrefix`, `ScriptCodec.decodePush`;
* `ScriptCodec.hexToBytes` — the bytes of hexadecimal text, with or without `0x`;
* `decodeInstruction` — the first instruction of a byte string and its size;
* `completeInstruction` — the instruction that a piece of text consists of.

Main results:

* `exactInstruction_push`, `exactInstruction_of_lt` — when a byte string is one instruction.
-/

import AtomicProof.Simulator

set_option autoImplicit false

namespace AtomicProof

/-! ### The push codec -/

inductive PushEncodingPolicy
  | legacy | canonical
  deriving DecidableEq, Repr

inductive PushForm
  | op0 | smallInteger | direct | pushData1 | pushData2 | pushData4
  deriving DecidableEq, Repr

/-- `ScriptCodecError`, without `None`. -/
inductive ScriptCodecError
  | emptyInput | invalidHex | oddHexLength | notPush | truncatedLength | truncatedPayload
  | trailingBytes | nonMinimalPush | payloadTooLarge
  deriving DecidableEq, Repr

structure DecodedPush where
  payload : Bytes
  form : PushForm
  encodedSize : ℕ
  deriving DecidableEq, Repr

namespace ScriptCodec

/-- The little-endian bytes that `littleEndianHex` writes. -/
def littleEndian (value byteCount : ℕ) : Bytes :=
  (List.range byteCount).map fun i => UInt8.ofNat (value / 256 ^ i)

/-- The bytes of `legacyPushPrefixHex`. -/
def legacyPushPrefix (payloadSize : ℕ) : Option Bytes :=
  if payloadSize < 76 then some [UInt8.ofNat payloadSize]
  else if payloadSize ≤ 255 then some (0x4c :: littleEndian payloadSize 1)
  else if payloadSize ≤ 65535 then some (0x4d :: littleEndian payloadSize 2)
  else if payloadSize ≤ 4294967295 then some (0x4e :: littleEndian payloadSize 4)
  else none

/-- The bytes whose text `encodePush` returns. -/
def encodePush (payload : Bytes) (policy : PushEncodingPolicy) : Option Bytes :=
  if 4294967295 < payload.length then none
  else
    let short : Option Bytes :=
      if policy = .canonical then
        match payload with
        | [] => some [0x00]
        | [value] =>
            if 0x01 ≤ value ∧ value ≤ 0x10 then some [0x50 + value]
            else if value = 0x81 then some [0x4f]
            else none
        | _ => none
      else none
    short <|> (legacyPushPrefix payload.length).map (· ++ payload)

def serializedPushSize (payload : Bytes) (policy : PushEncodingPolicy) : Option ℕ :=
  (encodePush payload policy).map List.length

/-- What the leading bytes of a push announce: its form, the size of the header, the size of the
payload, and the payload of the opcodes that stand for one. -/
structure PushHeader where
  form : PushForm
  headerSize : ℕ
  payloadSize : ℕ
  syntheticPayload : Bytes

/-- The first half of `decodePushPrefix`. -/
def pushHeader : Bytes → Except ScriptCodecError PushHeader
  | [] => .error .emptyInput
  | opcode :: rest =>
      if opcode = 0x00 then .ok ⟨.op0, 1, 0, []⟩
      else if opcode ≤ 0x4b then .ok ⟨.direct, 1, opcode.toNat, []⟩
      else if opcode = 0x4c then
        if rest.length < 1 then .error .truncatedLength
        else .ok ⟨.pushData1, 2, leNat (rest.take 1), []⟩
      else if opcode = 0x4d then
        if rest.length < 2 then .error .truncatedLength
        else .ok ⟨.pushData2, 3, leNat (rest.take 2), []⟩
      else if opcode = 0x4e then
        if rest.length < 4 then .error .truncatedLength
        else .ok ⟨.pushData4, 5, leNat (rest.take 4), []⟩
      else if opcode = 0x4f then .ok ⟨.smallInteger, 1, 0, [0x81]⟩
      else if 0x51 ≤ opcode ∧ opcode ≤ 0x60 then .ok ⟨.smallInteger, 1, 0, [opcode - 0x50]⟩
      else .error .notPush

def decodePushPrefix (encoding : Bytes) (requireCanonical : Bool) :
    Except ScriptCodecError DecodedPush := do
  let header ← pushHeader encoding
  let encodedSize ←
    if header.syntheticPayload.isEmpty then
      if encoding.length - header.headerSize < header.payloadSize then throw .truncatedPayload
      else pure (header.headerSize + header.payloadSize)
    else pure 1
  let payload :=
    if header.syntheticPayload.isEmpty then
      (encoding.drop header.headerSize).take header.payloadSize
    else header.syntheticPayload
  if requireCanonical && encodePush payload .canonical != some (encoding.take encodedSize) then
    throw .nonMinimalPush
  pure ⟨payload, header.form, encodedSize⟩

def decodePush (encoding : Bytes) (requireCanonical : Bool) :
    Except ScriptCodecError DecodedPush := do
  let decoded ← decodePushPrefix encoding requireCanonical
  if decoded.encodedSize ≠ encoding.length then throw .trailingBytes
  pure decoded

/-- `hex.remove_prefix(2)` on text that starts with `0x`. -/
def stripHexPrefix : List Char → List Char
  | '0' :: 'x' :: rest => rest
  | '0' :: 'X' :: rest => rest
  | hex => hex

def hexToBytes (hex : String) : Except ScriptCodecError Bytes :=
  let digits := stripHexPrefix hex.toList
  if digits = [] then .error .emptyInput
  else if digits.length % 2 ≠ 0 then .error .oddHexLength
  else
    match hexPairs digits with
    | some bytes => .ok bytes
    | none => .error .invalidHex

def decodePushHex (encoding : String) (requireCanonical : Bool) :
    Except ScriptCodecError DecodedPush := do
  let bytes ← hexToBytes encoding
  decodePush bytes requireCanonical

end ScriptCodec

variable {bs : Bytes} {opcode : UInt8}

theorem stripHexPrefix_of_hexPairs {cs : List Char} (h : hexPairs cs = some bs) :
    ScriptCodec.stripHexPrefix cs = cs := by
  unfold ScriptCodec.stripHexPrefix
  split
  · obtain ⟨_, _, _, _, hx, _⟩ := hexPairs_cons_cons.1 h
    simp [show hexDigit 'x' = none by decide] at hx
  · obtain ⟨_, _, _, _, hx, _⟩ := hexPairs_cons_cons.1 h
    simp [show hexDigit 'X' = none by decide] at hx
  · rfl

theorem hexToBytes_of_strip {s : String} (hne : bs ≠ [])
    (h : hexPairs (ScriptCodec.stripHexPrefix s.toList) = some bs) :
    ScriptCodec.hexToBytes s = .ok bs := by
  have hlen := length_of_hexPairs h
  have hpos : 0 < bs.length := List.length_pos_iff.2 hne
  have hcs : ScriptCodec.stripHexPrefix s.toList ≠ [] := by
    intro hnil
    rw [hnil, List.length_nil] at hlen
    omega
  simp only [ScriptCodec.hexToBytes]
  rw [if_neg hcs, if_neg (by omega), h]

theorem hexToBytes_of_hexPairs {s : String} (hne : bs ≠ [])
    (h : hexPairs s.toList = some bs) : ScriptCodec.hexToBytes s = .ok bs :=
  hexToBytes_of_strip hne (by rw [stripHexPrefix_of_hexPairs h, h])

/-! ### The instruction decoder -/

/-- The size of the length field of a push opcode, as `decode_instruction` reads it. -/
def lengthBytes (opcode : UInt8) : ℕ :=
  if opcode = 0x4c then 1 else if opcode = 0x4d then 2 else if opcode = 0x4e then 4 else 0

theorem lengthBytes_pos (h : 0 < lengthBytes opcode) :
    opcode = 0x4c ∨ opcode = 0x4d ∨ opcode = 0x4e := by
  unfold lengthBytes at h
  split at h
  · exact .inl ‹_›
  · split at h
    · exact .inr (.inl ‹_›)
    · split at h
      · exact .inr (.inr ‹_›)
      · omega

/-- The size of the data of a push whose bytes after the opcode are `rest`. -/
def dataLength (opcode : UInt8) (rest : Bytes) : ℕ :=
  if opcode < 0x4c then opcode.toNat else leNat (rest.take (lengthBytes opcode))

/-- `decode_instruction`: the first instruction and the number of bytes it takes. -/
def decodeInstruction : Bytes → Option (Instruction × ℕ)
  | [] => none
  | opcode :: rest =>
      if opcode ≤ 0x4e then
        if rest.length < lengthBytes opcode then none
        else if rest.length < lengthBytes opcode + dataLength opcode rest then none
        else some (⟨opcode, (rest.drop (lengthBytes opcode)).take (dataLength opcode rest)⟩,
          1 + lengthBytes opcode + dataLength opcode rest)
      else some (⟨opcode, []⟩, 1)

/-- The instruction that a byte string consists of. -/
def exactInstruction (bytes : Bytes) : Option Instruction :=
  match decodeInstruction bytes with
  | some (instr, consumed) => if consumed = bytes.length then some instr else none
  | none => none

/-- The instruction whose text a string is. -/
def completeInstruction (text : String) : Option Instruction :=
  match ScriptCodec.hexToBytes text with
  | .ok bytes => exactInstruction bytes
  | .error _ => none

theorem exactInstruction_of_lt {rest : Bytes} (h : 0x4e < opcode) :
    exactInstruction (opcode :: rest) = if rest = [] then some ⟨opcode, []⟩ else none := by
  have h' : ¬ opcode ≤ 0x4e := UInt8.not_le.2 h
  cases rest <;> simp [exactInstruction, decodeInstruction, h']

/-- A push is complete when its length field and its data are all there and nothing follows. -/
theorem exactInstruction_push {rest : Bytes} (h : opcode ≤ 0x4e) :
    exactInstruction (opcode :: rest) =
      if rest.length = lengthBytes opcode + dataLength opcode rest then
        some ⟨opcode, rest.drop (lengthBytes opcode)⟩
      else none := by
  simp only [exactInstruction, decodeInstruction, h, if_true]
  by_cases hlen : rest.length = lengthBytes opcode + dataLength opcode rest
  · have htake : (rest.drop (lengthBytes opcode)).take (dataLength opcode rest) =
        rest.drop (lengthBytes opcode) := by
      apply List.take_of_length_le
      rw [List.length_drop]
      omega
    rw [if_neg (by omega), if_neg (by omega), if_pos hlen, htake]
    simp only [List.length_cons]
    rw [if_pos (by omega)]
  · rw [if_neg hlen]
    by_cases h1 : rest.length < lengthBytes opcode
    · rw [if_pos h1]
    · by_cases h2 : rest.length < lengthBytes opcode + dataLength opcode rest
      · rw [if_neg h1, if_pos h2]
      · rw [if_neg h1, if_neg h2]
        simp only [List.length_cons]
        rw [if_neg (by omega)]

/-- The bytes of an instruction whose opcode is above the pushes. -/
theorem eq_singleton_of_exactInstruction {instr : Instruction}
    (h : exactInstruction bs = some instr) (hgt : 0x4e < instr.opcode) : bs = [instr.opcode] := by
  match bs with
  | [] => simp [exactInstruction, decodeInstruction] at h
  | opcode :: rest =>
      by_cases hle : opcode ≤ 0x4e
      · rw [exactInstruction_push hle] at h
        split_ifs at h
        obtain rfl := Option.some_inj.1 h
        exact absurd hgt (UInt8.not_lt.2 hle)
      · rw [exactInstruction_of_lt (UInt8.not_le.1 hle)] at h
        split_ifs at h with hrest
        obtain rfl := Option.some_inj.1 h
        rw [hrest]

/-! ### The value of a push -/

/-- The stack element that an instruction pushes, for the instructions the codec knows as pushes. -/
def pushValue (instr : Instruction) : Option Bytes :=
  if instr.opcode ≤ 0x4e then some instr.operand
  else if instr.opcode = 0x4f then some [0x81]
  else if 0x51 ≤ instr.opcode ∧ instr.opcode ≤ 0x60 then some [instr.opcode - 0x50]
  else none

/-- A push with a length field and no data.  The machine refuses it. -/
def isEmptyPushdata (instr : Instruction) : Bool :=
  0x4c ≤ instr.opcode && instr.opcode ≤ 0x4e && instr.operand.isEmpty

end AtomicProof
