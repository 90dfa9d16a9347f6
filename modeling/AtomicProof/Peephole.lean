/-
The peephole pass.

`BytecodePeepholePass` in `src/src/bytecode_peephole_pass.h` scans the atoms of a script from left
to right and replaces windows of two and three atoms.  A window of three is tried before the
duplicate-push rule and that before the windows of two; some rules look at what the scan has
already emitted.

Main definitions:

* `Peephole.wellFormedPushSize`, `Peephole.decodedPushPayload` — the pass's own push parser;
* `Peephole.hasProvenStackDepth`, `Peephole.producesCanonicalBool` — what the emitted atoms prove;
* `Peephole.tryRewriteTriple`, `Peephole.tryRewritePair` — the rules;
* `Peephole.scanStep`, `Peephole.runOnePass` — the scan;
* `Peephole.runRounds` — the rounds of the fixed-point loop.
-/

import AtomicProof.BytecodeIR
import AtomicProof.Script

set_option autoImplicit false

namespace AtomicProof.Peephole

/-! ### Recognising atoms -/

def isPureHex (s : String) : Bool :=
  !(s.toList.isEmpty || s.toList.length % 2 != 0) && s.toList.all isXDigit

def hexByteAt (encoding : String) (byteIndex : ℕ) : UInt8 :=
  ((hexPairs ((encoding.toList.drop (byteIndex * 2)).take 2)).bind List.head?).getD 0

/-- `firstByte`; the result `-1` is `none`. -/
def firstByte (s : String) : Option UInt8 :=
  if !isPureHex s || s.toList.length < 2 then none else some (hexByteAt s 0)

/-- `isOp`, which is `isSingleOp` at the byte of an opcode. -/
def isOp (s : String) (op : BytOpcode) : Bool :=
  s.toList.length == 2 && firstByte s == some op.toByte

def isOpDrop (s : String) : Bool := isOp s .opDrop
def isOpDup (s : String) : Bool := isOp s .opDup
def isOpSwap (s : String) : Bool := isOp s .opSwap
def isOpOver (s : String) : Bool := isOp s .opOver
def isOpNot (s : String) : Bool := isOp s .opNot
def isOpZero (s : String) : Bool := isOp s .op0
def isOpEqual (s : String) : Bool := isOp s .opEqual
def isOpNumEqual (s : String) : Bool := isOp s .opNumequal
def isOpNumNotEqual (s : String) : Bool := isOp s .opNumnotequal

def canonicalBoolProducers : List BytOpcode :=
  [.op0, .op1, .opNot, .op0notequal, .opEqual, .opNumequal, .opNumnotequal, .opLessthan,
    .opGreaterthan, .opLessthanorequal, .opGreaterthanorequal, .opBooland, .opBoolor, .opWithin,
    .opChecksig, .opCheckmultisig]

def producesCanonicalBool (s : String) : Bool := canonicalBoolProducers.any fun op => isOp s op

/-- The opcodes that `isControlFlow` treats as barriers. -/
def controlFlowOpcodes : List BytOpcode :=
  [.opIf, .opNotif, .opElse, .opEndif, .opVerify, .opReturn, .opCodeseparator]

def isControlFlow (s : String) : Bool :=
  match firstByte s with
  | none => false
  | some op => controlFlowOpcodes.any fun barrier => barrier.toByte == op

def isInert (s : String) : Bool :=
  match s.toList with
  | [] => true
  | '#' :: _ => true
  | _ => !isPureHex s

/-- `opHex`, the two digits that `opcodeToHex` prints. -/
def opHex (op : BytOpcode) : String := String.ofList (byteToHex op.toByte)

/-! ### The executable part -/

/-- The loop of `optimizablePrefixLength` over a typed script, from instruction `i` on.  `none` is
the early `return 0` on an executable instruction after the executable region. -/
def typedPrefix : ℕ → List BytecodeInstruction → Bool → ℕ → Option ℕ → Option (ℕ × Option ℕ)
  | _, [], _, executableEnd, finalReturnEnd => some (executableEnd, finalReturnEnd)
  | i, instruction :: rest, left, executableEnd, finalReturnEnd =>
      if instruction.region ≠ .executable then
        typedPrefix (i + 1) rest true executableEnd finalReturnEnd
      else if left then none
      else
        let finalReturnEnd :=
          if instruction.body = .opcode BytOpcode.opReturn.toWord then some (i + 1)
          else finalReturnEnd
        typedPrefix (i + 1) rest left (i + 1) finalReturnEnd

/-- The index after the last atom that is `OP_RETURN`, when there is one. -/
def lastReturnEnd (instructions : List String) : Option ℕ :=
  (instructions.reverse.findIdx? fun s => isOp s .opReturn).map (instructions.length - ·)

def optimizablePrefixLength (instructions : List String)
    (artifact : Option (List BytecodeInstruction)) : ℕ :=
  match artifact with
  | some lockingScript =>
      if lockingScript.length ≠ instructions.length then 0
      else
        match typedPrefix 0 lockingScript false 0 none with
        | some (executableEnd, finalReturnEnd) => finalReturnEnd.getD executableEnd
        | none => 0
  | none => (lastReturnEnd instructions).getD instructions.length

/-! ### Pushes -/

structure LocalRewriteOptions where
  knownDataPlaceholders : String → Option ℕ
  pushEncodingPolicy : PushEncodingPolicy := .legacy

/-- The size of the header of a push with a length field and the size its payload should have, for
an encoding of `bytes` bytes. -/
def pushdataSizes (encoding : String) (bytes : ℕ) : Option (ℕ × ℕ) :=
  let opcode := hexByteAt encoding 0
  if opcode = 0x4c then
    if bytes < 2 then none else some (2, (hexByteAt encoding 1).toNat)
  else if opcode = 0x4d then
    if bytes < 3 then none
    else some (3, (hexByteAt encoding 1).toNat + 256 * (hexByteAt encoding 2).toNat)
  else if opcode = 0x4e then
    if bytes < 5 then none
    else some (5, (hexByteAt encoding 1).toNat + 256 * ((hexByteAt encoding 2).toNat +
      256 * ((hexByteAt encoding 3).toNat + 256 * (hexByteAt encoding 4).toNat)))
  else none

def wellFormedPushSize (encoding : String) : Option ℕ :=
  if !isPureHex encoding then none
  else
    let bytes := encoding.toList.length / 2
    let opcode := hexByteAt encoding 0
    if opcode = 0x00 ∨ opcode = 0x4f ∨ (0x51 ≤ opcode ∧ opcode ≤ 0x60) then
      if bytes = 1 then some 1 else none
    else if 0x01 ≤ opcode ∧ opcode ≤ 0x4b then
      if bytes = opcode.toNat + 1 then some bytes else none
    else
      match pushdataSizes encoding bytes with
      | none => none
      | some (prefixBytes, payloadBytes) =>
          if payloadBytes = bytes - prefixBytes then some bytes else none

def knownPlaceholderPushSize (encoding : String) (options : LocalRewriteOptions) : Option ℕ := do
  let label ← placeholderLabel encoding
  let payload ← options.knownDataPlaceholders label
  if 4294967295 < payload then none
  else
    let headerBytes :=
      if payload ≤ 75 then 1 else if payload ≤ 255 then 2 else if payload ≤ 65535 then 3 else 5
    some (payload + headerBytes)

/-- `decodedPushPayload`: the payload of a complete constant push, in lower-case digits. -/
def decodedPushPayload (encoding : String) : Option (List Char) :=
  if (wellFormedPushSize encoding).isNone then none
  else
    let opcode := hexByteAt encoding 0
    if opcode = 0x00 then some []
    else if opcode = 0x4f then some "81".toList
    else if 0x51 ≤ opcode ∧ opcode ≤ 0x60 then some (byteToHex (opcode - 0x50))
    else
      let prefixBytes :=
        if opcode = 0x4c then 2 else if opcode = 0x4d then 3 else if opcode = 0x4e then 5 else 1
      some ((encoding.toList.drop (prefixBytes * 2)).map toLower)

def isProfitableDuplicatePush (first second : String) (options : LocalRewriteOptions) : Bool :=
  if first ≠ second then false
  else
    match ScriptCodec.decodePushHex first false with
    | .ok decoded =>
        match ScriptCodec.serializedPushSize decoded.payload options.pushEncodingPolicy with
        | some serializedSize => 1 < serializedSize
        | none => false
    | .error _ =>
        match knownPlaceholderPushSize first options with
        | none => false
        | some legacySize =>
            if options.pushEncodingPolicy = .legacy then 1 < legacySize
            else
              match (placeholderLabel first).bind options.knownDataPlaceholders with
              | some known => 1 < known
              | none => false

/-! ### What has been emitted -/

/-- One step of the loop of `hasProvenStackDepth`. -/
def depthStep (depth : ℕ) (instruction : String) : ℕ :=
  if isInert instruction || isControlFlow instruction then 0
  else if (wellFormedPushSize instruction).isSome then depth + 1
  else if isOpDup instruction then if depth = 0 then 0 else depth + 1
  else if isOpDrop instruction then if 0 < depth then depth - 1 else depth
  else if isOpSwap instruction then if depth < 2 then 0 else depth
  else 0

/-- The depth that `hasProvenStackDepth` compares with the depth it is asked for. -/
def provenStackDepth (emitted : List String) : ℕ := emitted.foldl depthStep 0

def hasProvenStackDepth (emitted : List String) (requiredDepth : ℕ) : Bool :=
  requiredDepth ≤ provenStackDepth emitted

/-- `!emitted.empty() && producesCanonicalBool(emitted.back())`. -/
def emittedCanonicalBool (emitted : List String) : Bool :=
  match emitted.getLast? with
  | some back => producesCanonicalBool back
  | none => false

/-! ### Windows of three -/

structure ReplacementInstruction where
  encoding : String
  originOffset : ℕ
  deriving DecidableEq, Repr

def keepFirstTriple (first : String) : List ReplacementInstruction := [⟨first, 0⟩]

def keepFirstThenOpTriple (first : String) (terminal : BytOpcode) : List ReplacementInstruction :=
  [⟨first, 0⟩, ⟨opHex terminal, 2⟩]

def tripleRewriteIsStrictlySmaller (first second third : String)
    (replacements : List ReplacementInstruction) : Bool :=
  if !isPureHex first || !isPureHex second || !isPureHex third then false
  else if replacements.any fun replacement => !isPureHex replacement.encoding then false
  else
    let replacementBytes := (replacements.map fun r => r.encoding.toList.length / 2).sum
    let originalBytes :=
      (first.toList.length + second.toList.length + third.toList.length) / 2
    replacementBytes < originalBytes

/-- The rule of `tryRewriteTriple` that applies, before its size is checked. -/
def tripleRule (first second third : String) : Option (List ReplacementInstruction) :=
  let firstPayload := decodedPushPayload first
  let secondPayload := decodedPushPayload second
  if firstPayload.isSome && secondPayload.isSome && isOpEqual third then
    some [⟨opHex (if firstPayload = secondPayload then .op1 else .op0), 2⟩]
  else if firstPayload.isSome && isOpDup second && isOpEqual third then
    some [⟨opHex .op1, 2⟩]
  else if firstPayload.isSome && isOpDup second && isOpDrop third then
    some (keepFirstTriple first)
  else if firstPayload.isSome && isOpDup second && isOp third .op2drop then
    some []
  else if producesCanonicalBool first && isOpNot second && isOpNot third then
    some (keepFirstTriple first)
  else if producesCanonicalBool first && isOp second .op1 &&
      (isOpEqual third || isOpNumEqual third) then
    some (keepFirstTriple first)
  else if producesCanonicalBool first && isOpZero second &&
      (isOpEqual third || isOpNumEqual third) then
    some (keepFirstThenOpTriple first .opNot)
  else if producesCanonicalBool first && isOpZero second && isOpNumNotEqual third then
    some (keepFirstTriple first)
  else if producesCanonicalBool first && isOp second .op1 && isOpNumNotEqual third then
    some (keepFirstThenOpTriple first .opNot)
  else none

def tryRewriteTriple (first second third : String) : Option (List ReplacementInstruction) :=
  match tripleRule first second third with
  | some replacements =>
      if tripleRewriteIsStrictlySmaller first second third replacements then some replacements
      else none
  | none => none

/-! ### Windows of two -/

def fusedVerifyOpcode (producer : String) : Option BytOpcode :=
  if isOp producer .opEqual then some .opEqualverify
  else if isOp producer .opNumequal then some .opNumequalverify
  else if isOp producer .opChecksig then some .opChecksigverify
  else if isOp producer .opCheckmultisig then some .opCheckmultisigverify
  else none

inductive PairRewrite
  | none
  | deletePair
  | replacePair (replacement : BytOpcode)
  deriving DecidableEq, Repr

/-- The rules of `tryRewritePair` that end in an instruction of control flow. -/
def terminalRule (cur nxt : String) (emitted : List String) (allowTrueVerifyElision : Bool) :
    PairRewrite :=
  if isOpNot cur && (isOp nxt .opIf || isOp nxt .opNotif) && emittedCanonicalBool emitted then
    .replacePair (if isOp nxt .opIf then .opNotif else .opIf)
  else if isOp nxt .opVerify then
    if allowTrueVerifyElision && isOp cur .op1 then .deletePair
    else
      match fusedVerifyOpcode cur with
      | some fused => .replacePair fused
      | .none => .none
  else .none

/-- The rules of `tryRewritePair` within straight-line code. -/
def straightRule (cur nxt : String) (emitted : List String) : PairRewrite :=
  if isOp cur .op1 && isOp nxt .opAdd then .replacePair .op1add
  else if isOp cur .op1 && isOp nxt .opSub then .replacePair .op1sub
  else if isOp cur .op1negate && isOp nxt .opAdd then .replacePair .op1sub
  else if isOp cur .op1negate && isOp nxt .opSub then .replacePair .op1add
  else if isOpSwap cur && isOpDrop nxt then .replacePair .opNip
  else if isOpOver cur && isOpOver nxt then .replacePair .op2dup
  else if isOp cur .op0 && isOp nxt .opPick then .replacePair .opDup
  else if isOp cur .op1 && isOp nxt .opPick then .replacePair .opOver
  else if isOp cur .op1 && isOp nxt .opRoll then .replacePair .opSwap
  else if isOp cur .op2 && isOp nxt .opRoll then .replacePair .opRot
  else if (wellFormedPushSize cur).isSome && isOpDrop nxt then .deletePair
  else if isOpDup cur && isOpDrop nxt && hasProvenStackDepth emitted 1 then .deletePair
  else if isOpSwap cur && isOpSwap nxt && hasProvenStackDepth emitted 2 then .deletePair
  else if isOpNot cur && isOpNot nxt && emittedCanonicalBool emitted then
    .replacePair .op0notequal
  else if isOpDrop cur && isOpDrop nxt then .replacePair .op2drop
  else if isOpZero cur && isOpEqual nxt && emittedCanonicalBool emitted then .replacePair .opNot
  else if isOpZero cur && isOpNumEqual nxt && emittedCanonicalBool emitted then .replacePair .opNot
  else .none

def tryRewritePair (cur nxt : String) (emitted : List String) (allowTrueVerifyElision : Bool) :
    PairRewrite :=
  match terminalRule cur nxt emitted allowTrueVerifyElision with
  | .none => if isControlFlow nxt then .none else straightRule cur nxt emitted
  | rewrite => rewrite

/-! ### The scan -/

/-- The state of the loop of `runOnePass`.  `oldToNew` gives the new place of every old atom, with
`none` for the ones that are gone. -/
structure Scan where
  i : ℕ
  out : List String
  oldToNew : List (Option ℕ)
  changed : Bool
  deriving DecidableEq, Repr

def keepInstruction (v : List String) (st : Scan) : Scan :=
  { st with
    i := st.i + 1
    out := st.out ++ [v.getD st.i ""]
    oldToNew := st.oldToNew.set st.i (some st.out.length) }

def replacePairWithOne (replacement : String) (st : Scan) : Scan :=
  { i := st.i + 2
    out := st.out ++ [replacement]
    oldToNew := st.oldToNew.set (st.i + 1) (some st.out.length)
    changed := true }

/-- One replacement of `applyTripleRewrite`. -/
def applyReplacement (oldPC : ℕ) (st : Scan) (replacement : ReplacementInstruction) : Scan :=
  { st with
    out := st.out ++ [replacement.encoding]
    oldToNew := st.oldToNew.set (oldPC + replacement.originOffset) (some st.out.length) }

/-- `applyTripleRewrite` with the step over the window. -/
def applyTripleRewrite (replacements : List ReplacementInstruction) (st : Scan) : Scan :=
  let st' := replacements.foldl (applyReplacement st.i) st
  { st' with i := st.i + 3, changed := true }

/-- The duplicate-push rule keeps the first push and turns the second into `OP_DUP`. -/
def applyDuplicatePush (v : List String) (st : Scan) : Scan :=
  let kept := keepInstruction v st
  { i := st.i + 2
    out := kept.out ++ [opHex .opDup]
    oldToNew := kept.oldToNew.set (st.i + 1) (some kept.out.length)
    changed := true }

/-- An atom that may stand in a window of three. -/
def straight (s : String) : Bool := !isInert s && !isControlFlow s

/-- The window of three at the scan position, when a rule applies to it. -/
def tripleAt (v : List String) (executableEnd : ℕ) (st : Scan) :
    Option (List ReplacementInstruction) :=
  let cur := v.getD st.i ""
  let nxt := v.getD (st.i + 1) ""
  let third := v.getD (st.i + 2) ""
  if st.i + 2 < executableEnd && (straight cur && straight nxt && straight third) then
    tryRewriteTriple cur nxt third
  else none

/-- The window of two at the scan position. -/
def pairAt (v : List String) (executableEnd : ℕ) (allowTrueVerifyElision : Bool) (st : Scan) :
    PairRewrite :=
  let cur := v.getD st.i ""
  let nxt := v.getD (st.i + 1) ""
  if isInert cur || isControlFlow cur then .none
  else if st.i + 1 < executableEnd && !isInert nxt then
    tryRewritePair cur nxt st.out allowTrueVerifyElision
  else .none

/-- One round of the loop of `runOnePass`. -/
def scanStep (v : List String) (executableEnd : ℕ) (allowTrueVerifyElision : Bool)
    (options : LocalRewriteOptions) (st : Scan) : Scan :=
  match tripleAt v executableEnd st with
  | some replacements => applyTripleRewrite replacements st
  | none =>
      if st.i + 1 < executableEnd &&
          isProfitableDuplicatePush (v.getD st.i "") (v.getD (st.i + 1) "") options then
        applyDuplicatePush v st
      else
        match pairAt v executableEnd allowTrueVerifyElision st with
        | .deletePair => { st with i := st.i + 2, changed := true }
        | .replacePair replacement => replacePairWithOne (opHex replacement) st
        | .none => keepInstruction v st

/-- The loop of `runOnePass` over the executable part.  Every round moves on, so `executableEnd`
rounds are enough. -/
def scan (v : List String) (executableEnd : ℕ) (allowTrueVerifyElision : Bool)
    (options : LocalRewriteOptions) : ℕ → Scan → Scan
  | 0, st => st
  | fuel + 1, st =>
      if st.i < executableEnd then
        scan v executableEnd allowTrueVerifyElision options fuel
          (scanStep v executableEnd allowTrueVerifyElision options st)
      else st

/-- The loop of `runOnePass` over the atoms after the executable part. -/
def keepRest (v : List String) : ℕ → Scan → Scan
  | 0, st => st
  | fuel + 1, st => if st.i < v.length then keepRest v fuel (keepInstruction v st) else st

/-- The result of `runOnePass`: the atoms, the map of the old places and whether a rule applied. -/
structure PassResult where
  instructions : List String
  oldToNew : List (Option ℕ)
  changed : Bool
  deriving DecidableEq, Repr

def runOnePass (v : List String) (allowTrueVerifyElision : Bool) (options : LocalRewriteOptions)
    (artifact : Option (List BytecodeInstruction)) : PassResult :=
  let start : Scan := ⟨0, [], List.replicate v.length none, false⟩
  let executableEnd := optimizablePrefixLength v artifact
  let scanned := scan v executableEnd allowTrueVerifyElision options executableEnd start
  let last := keepRest v v.length scanned
  ⟨if last.changed then last.out else v, last.oldToNew, last.changed⟩

def maxRounds : ℕ := 16

/-- The rounds of the fixed-point loop of `execute`; `artifactAt` is the typed form of the script
before each round, when there is one. -/
def runRounds (allowTrueVerifyElision : Bool) (options : LocalRewriteOptions)
    (artifactAt : ℕ → Option (List BytecodeInstruction)) : ℕ → List String → List String
  | 0, v => v
  | rounds + 1, v =>
      let result := runOnePass v allowTrueVerifyElision options (artifactAt rounds)
      if result.changed then
        runRounds allowTrueVerifyElision options artifactAt rounds result.instructions
      else v

end AtomicProof.Peephole
