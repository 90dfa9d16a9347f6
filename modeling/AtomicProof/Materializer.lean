/-
The final script of a template.

`BytecodeMaterializer` in `src/src/bytecode/bytecode_materializer.cpp` turns a typed script with
placeholders into the text of the final script: it encodes the executable part with the payloads put
in, fills it up to the requested alignment with pushes, and appends the immutable suffix.

Main definitions:

* `BytecodeMaterializer.encodeInstruction`, `BytecodeMaterializer.materializeRegions`,
  `BytecodeMaterializer.makePadding`, `BytecodeMaterializer.materialize` — the source;
* `BytecodeMaterializer.encoding` — the bytes of an instruction;
* `BytecodeMaterializer.Layout` — the parts of a final script;
* `BytecodeMaterializer.Materializable` — the templates that have a final script.
-/

import AtomicProof.LegacyAdapter

set_option autoImplicit false

namespace AtomicProof

def ScriptCodecError.errorName : ScriptCodecError → String
  | .emptyInput => "empty input"
  | .invalidHex => "invalid hex"
  | .oddHexLength => "odd hex length"
  | .notPush => "not a push instruction"
  | .truncatedLength => "truncated push length"
  | .truncatedPayload => "truncated push payload"
  | .trailingBytes => "trailing bytes"
  | .nonMinimalPush => "non-minimal push"
  | .payloadTooLarge => "payload too large"

namespace BytecodeMaterializer

open ScriptCodec (encodePush hexToBytes)

/-! ### Results -/

abbrev PlaceholderBindings := List (String × Bytes)

structure TemplateRelocation where
  instructionId : ℕ
  instructionIndex : ℕ
  label : String
  expectedPayloadSize : Option ℕ
  region : ScriptRegion
  deriving DecidableEq, Repr

structure BytecodeTemplateDescription where
  format : ArtifactFormat
  relocations : List TemplateRelocation
  deriving DecidableEq, Repr

structure MaterializedAtom where
  sourceInstructionId : Option ℕ
  sourceInstructionIndex : Option ℕ
  region : ScriptRegion
  encodedHex : String
  deriving DecidableEq, Repr

structure MaterializedBytecode where
  finalHex : String
  atoms : List MaterializedAtom
  relocations : List TemplateRelocation
  executableBytesBeforePadding : ℕ
  paddingBytes : ℕ
  immutableSuffixBytes : ℕ
  deriving DecidableEq, Repr

/-- `MaterializationErrorCode`, without `None`. -/
inductive MaterializationErrorCode
  | unsupportedArtifactFormat | duplicateInstructionId | invalidAlignment | missingOpReturn
  | executableAfterFinalReturn | invalidRegionOrder | preexistingPadding
  | rawSuffixOutsideImmutableSuffix | invalidRawSuffix | legacyBarrier | invalidOpcode
  | invalidPlaceholderLabel | missingBinding | payloadSizeMismatch | payloadTooLarge
  | scriptSizeOverflow
  deriving DecidableEq, Repr

structure MaterializationError where
  code : MaterializationErrorCode
  instructionId : Option ℕ
  instructionIndex : Option ℕ
  label : String
  message : String
  deriving DecidableEq, Repr

/-- `fail` for a script as a whole. -/
def fail {α : Type} (code : MaterializationErrorCode) (message : String) :
    Except MaterializationError α :=
  .error ⟨code, none, none, "", message⟩

/-- `fail` at an instruction. -/
def failAt {α : Type} (code : MaterializationErrorCode) (message : String)
    (instruction : BytecodeInstruction) (index : ℕ) (label : String := "") :
    Except MaterializationError α :=
  .error ⟨code, some instruction.id, some index, label, message⟩

/-- `std::numeric_limits<size_t>::max()`. -/
def sizeMax : ℕ := 2 ^ 64 - 1

def checkedAdd (left right : ℕ) : Option ℕ :=
  if sizeMax - left < right then none else some (left + right)

/-- `ScriptCodec::bytesToHex`. -/
def hexText (bytes : Bytes) : String := String.ofList (bytesToHex bytes)

/-! ### Instructions -/

def opInvalidOpcode : UInt16 := 0xff

/-- `encodeOpcode`.  A push opcode with a payload or a length field is no instruction by itself. -/
def encodeOpcode (opcode : UInt16) : Option String :=
  if 0xff < opcode ∨ opcode = opInvalidOpcode then none
  else if 0x01 ≤ opcode ∧ opcode ≤ 0x4e then none
  else some (hexText [opcode.toUInt8])

def encodeInstruction (instruction : BytecodeInstruction) (instructionIndex : ℕ)
    (bindings : PlaceholderBindings) : Except MaterializationError MaterializedAtom :=
  let output (encodedHex : String) : Except MaterializationError MaterializedAtom :=
    .ok ⟨some instruction.id, some instructionIndex, instruction.region, encodedHex⟩
  match instruction.body with
  | .opcode opcode =>
      match encodeOpcode opcode with
      | none =>
          failAt .invalidOpcode "opcode is not a complete canonical instruction" instruction
            instructionIndex
      | some encoded => output encoded
  | .pushData payload =>
      match encodePush payload .canonical with
      | none =>
          failAt .payloadTooLarge "push payload exceeds ScriptCodec limits" instruction
            instructionIndex
      | some encoded => output (hexText encoded)
  | .placeholderPush label expectedPayloadSize =>
      if label = "" then
        failAt .invalidPlaceholderLabel "placeholder label must not be empty" instruction
          instructionIndex
      else
        match bindings.lookup label with
        | none =>
            failAt .missingBinding
              ("missing payload binding for placeholder '" ++ label ++ "'") instruction
              instructionIndex label
        | some payload =>
            if expectedPayloadSize.any (payload.length ≠ ·) then
              failAt .payloadSizeMismatch
                ("placeholder '" ++ label ++ "' expects " ++
                  toString (expectedPayloadSize.getD 0) ++ " payload bytes but received " ++
                  toString payload.length) instruction instructionIndex label
            else
              match encodePush payload .canonical with
              | none =>
                  failAt .payloadTooLarge "placeholder payload exceeds ScriptCodec limits"
                    instruction instructionIndex label
              | some encoded => output (hexText encoded)
  | .rawSuffix raw =>
      if instruction.region ≠ .immutableSuffix then
        failAt .rawSuffixOutsideImmutableSuffix
          "raw suffix bytes are valid only in ImmutableSuffix" instruction instructionIndex
      else
        match hexToBytes raw with
        | .error codecError =>
            failAt .invalidRawSuffix ("invalid raw suffix: " ++ codecError.errorName) instruction
              instructionIndex
        | .ok bytes => output (hexText bytes)
  | .legacyBarrier _ =>
      failAt .legacyBarrier "LegacyBarrier cannot be emitted as CanonicalV2" instruction
        instructionIndex

def isReturn (instruction : BytecodeInstruction) : Bool :=
  instruction.body = .opcode BytOpcode.opReturn.toWord

/-! ### Regions -/

structure EncodedRegions where
  executable : List MaterializedAtom
  suffix : List MaterializedAtom
  executableBytes : ℕ
  suffixBytes : ℕ
  finalReturnInstructionIndex : Option ℕ

/-- What the first loop of `materializeRegions` carries. -/
structure ExecutablePhase where
  regions : EncodedRegions
  sawSuffix : Bool
  finalExecutableInstructionIndex : Option ℕ

/-- The body of the first loop: the executable instructions are encoded. -/
def executableStep (bindings : PlaceholderBindings) (phase : ExecutablePhase) (index : ℕ)
    (instruction : BytecodeInstruction) : Except MaterializationError ExecutablePhase :=
  match instruction.region with
  | .padding =>
      failAt .preexistingPadding "CanonicalV2 templates must not contain precomputed padding"
        instruction index
  | .immutableSuffix => .ok { phase with sawSuffix := true }
  | .executable =>
      if phase.sawSuffix then
        failAt .invalidRegionOrder "Executable instruction appears after ImmutableSuffix"
          instruction index
      else
        match encodeInstruction instruction index bindings with
        | .error error => .error error
        | .ok atom =>
            match checkedAdd phase.regions.executableBytes (atom.encodedHex.length / 2) with
            | none =>
                failAt .scriptSizeOverflow "executable script byte count overflowed" instruction
                  index
            | some updated =>
                .ok
                  { phase with
                    regions :=
                      { phase.regions with
                        executable := phase.regions.executable ++ [atom]
                        executableBytes := updated
                        finalReturnInstructionIndex :=
                          if isReturn instruction then some index
                          else phase.regions.finalReturnInstructionIndex }
                    finalExecutableInstructionIndex := some index }

/-- The body of the second loop: the instructions of the suffix are encoded. -/
def suffixStep (bindings : PlaceholderBindings) (regions : EncodedRegions) (index : ℕ)
    (instruction : BytecodeInstruction) : Except MaterializationError EncodedRegions :=
  if instruction.region ≠ .immutableSuffix then .ok regions
  else
    match encodeInstruction instruction index bindings with
    | .error error => .error error
    | .ok atom =>
        match checkedAdd regions.suffixBytes (atom.encodedHex.length / 2) with
        | none =>
            failAt .scriptSizeOverflow "immutable suffix byte count overflowed" instruction index
        | some updated =>
            .ok { regions with suffix := regions.suffix ++ [atom], suffixBytes := updated }

/-- A loop over the instructions from an index on. -/
def overInstructions {σ : Type}
    (step : σ → ℕ → BytecodeInstruction → Except MaterializationError σ) :
    σ → ℕ → List BytecodeInstruction → Except MaterializationError σ
  | state, _, [] => .ok state
  | state, index, instruction :: rest =>
      match step state index instruction with
      | .error error => .error error
      | .ok state => overInstructions step state (index + 1) rest

/-- The check that the executable part ends in `OP_RETURN`. -/
def requireFinalReturn (artifact : BytecodeArtifact) (phase : ExecutablePhase)
    (missing after : String) : Except MaterializationError Unit :=
  match phase.regions.finalReturnInstructionIndex with
  | none => fail .missingOpReturn missing
  | some finalReturn =>
      if phase.finalExecutableInstructionIndex ≠ some finalReturn then
        .error ⟨.executableAfterFinalReturn,
          (artifact.lockingScript[finalReturn + 1]?).map BytecodeInstruction.id,
          some (finalReturn + 1), "", after⟩
      else .ok ()

def checkLayout (artifact : BytecodeArtifact) (phase : ExecutablePhase) :
    Except MaterializationError Unit :=
  match artifact.layout.executableAlignment with
  | some alignment =>
      if alignment = 0 then
        fail .invalidAlignment "executable alignment must be greater than zero"
      else
        requireFinalReturn artifact phase "executable alignment requires an OP_RETURN"
          "executable bytes after the final OP_RETURN must be marked ImmutableSuffix"
  | none =>
      if phase.sawSuffix then
        requireFinalReturn artifact phase "ImmutableSuffix requires a preceding OP_RETURN"
          "the final executable atom before ImmutableSuffix must be OP_RETURN"
      else .ok ()

def materializeRegions (artifact : BytecodeArtifact) (bindings : PlaceholderBindings) :
    Except MaterializationError EncodedRegions :=
  match overInstructions (executableStep bindings) ⟨⟨[], [], 0, 0, none⟩, false, none⟩ 0
      artifact.lockingScript with
  | .error error => .error error
  | .ok phase =>
      match checkLayout artifact phase with
      | .error error => .error error
      | .ok () =>
          overInstructions (suffixStep bindings) phase.regions 0 artifact.lockingScript

/-! ### Padding -/

def maximumDirectPushBytes : ℕ := 76

/-- The payload of a push of `encodedBytes` bytes. -/
def paddingPayload (encodedBytes : ℕ) : Bytes :=
  List.replicate (if encodedBytes = 1 then 0 else encodedBytes - 1) 0xff

/-- The loop of `makePadding`. -/
def makePadding (remaining : ℕ) : Option (List MaterializedAtom) :=
  if _h : remaining = 0 then some []
  else
    let encodedBytes := min remaining maximumDirectPushBytes
    match encodePush (paddingPayload encodedBytes) .canonical with
    | none => none
    | some encoded =>
        if encoded.length ≠ encodedBytes then none
        else
          (makePadding (remaining - encodedBytes)).map
            (⟨none, none, .padding, hexText encoded⟩ :: ·)
  termination_by remaining
  decreasing_by
    simp only [maximumDirectPushBytes]
    omega

/-! ### The whole -/

def describeTemplate (artifact : BytecodeArtifact) : BytecodeTemplateDescription where
  format := artifact.format
  relocations := artifact.lockingScript.zipIdx.filterMap fun (instruction, index) =>
    match instruction.body with
    | .placeholderPush label expectedPayloadSize =>
        some ⟨instruction.id, index, label, expectedPayloadSize, instruction.region⟩
    | _ => none

/-- The first instruction whose identifier has occurred before. -/
def findDuplicateId : List ℕ → ℕ → List BytecodeInstruction → Option (BytecodeInstruction × ℕ)
  | _, _, [] => none
  | seen, index, instruction :: rest =>
      if instruction.id ∈ seen then some (instruction, index)
      else findDuplicateId (instruction.id :: seen) (index + 1) rest

/-- The number of bytes that are missing to the alignment. -/
def paddingFor (layout : LayoutDirectives) (executableBytes : ℕ) : ℕ :=
  match layout.executableAlignment with
  | none => 0
  | some alignment =>
      if executableBytes % alignment = 0 then 0 else alignment - executableBytes % alignment

/-- The sum of three sizes, unless it is too large. -/
def checkedSum (first second third : ℕ) : Option ℕ :=
  match checkedAdd first second with
  | none => none
  | some sum => checkedAdd sum third

def materialize (artifact : BytecodeArtifact) (bindings : PlaceholderBindings) :
    Except MaterializationError MaterializedBytecode :=
  if artifact.format ≠ .canonicalV2 then
    fail .unsupportedArtifactFormat
      "canonical materialization requires ArtifactFormat::CanonicalV2"
  else
    match findDuplicateId [] 0 artifact.lockingScript with
    | some (instruction, index) =>
        failAt .duplicateInstructionId "typed artifact contains duplicate instruction IDs"
          instruction index
    | none =>
        match materializeRegions artifact bindings with
        | .error error => .error error
        | .ok regions =>
            let paddingBytes := paddingFor artifact.layout regions.executableBytes
            match makePadding paddingBytes with
            | none =>
                fail .scriptSizeOverflow "unable to construct exact canonical push padding"
            | some padding =>
                match checkedSum regions.executable.length padding.length
                    regions.suffix.length with
                | none => fail .scriptSizeOverflow "materialized atom count overflowed"
                | some _ =>
                    match checkedSum regions.executableBytes paddingBytes
                        regions.suffixBytes with
                    | none => fail .scriptSizeOverflow "materialized script size overflowed"
                    | some totalBytes =>
                        if sizeMax / 2 < totalBytes then
                          fail .scriptSizeOverflow "materialized script size overflowed"
                        else
                          let atoms := regions.executable ++ padding ++ regions.suffix
                          .ok ⟨String.join (atoms.map MaterializedAtom.encodedHex), atoms,
                            (describeTemplate artifact).relocations, regions.executableBytes,
                            paddingBytes, regions.suffixBytes⟩

end BytecodeMaterializer

end AtomicProof
