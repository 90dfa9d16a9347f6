/-
The lowering of `Slice`.

`processSliceBuiltin` in `src/src/compiler/ast_to_bytecode_visitor.cpp` cuts a byte string with
`OP_SPLIT`, in a shape that depends on what its bounds are: numbers known to the compiler, scripts
that push a number or slots of the stack.  A bound of `-1` that is known stands for the beginning or
the end.  `sliceBytes` of the interpreter clamps every bound; `OP_SPLIT` refuses a bound that is
negative or out of range.

Main definitions:

* `SliceOperand`, `classify` — the kinds of bounds;
* `processSliceBuiltin` — the lowering;
* `SliceExact` — the code leaves what `sliceBytes` returns;
* `SliceInRange` — the bounds the code can cut at.

Main results:

* `strict_push` — a strict number is pushed as the number the compiler reads;
* `slice_exact_iff` — **the code agrees with the interpreter exactly on the bounds in range**.
-/

import AtomicProof.BuiltinAgreement
import AtomicProof.Visitor

set_option autoImplicit false

namespace AtomicProof

open ScriptCodec BuiltinRuntime

/-! ### Bytes that stand for a number -/

/-- Bytes of the stack that stand for a number of `int64_t`: the machine reads it from them, or they
are the encoding of the smallest number, which the machine does not read. -/
def Denotes (value : Bytes) (number : ℤ) : Prop :=
  toInt value = some number ∨ number = -2 ^ 63 ∧ value = serializeScriptNum number

variable {value bytes : Bytes} {x : String × Bytes} {name name' : String}
  {element first second : StackElement} {st : SymbolTable} {keepRight : Bool} {n m : ℤ}

/-- `OP_SPLIT` cuts at a number between zero and the length, and fails at every other. -/
theorem opSplit_of_denotes {x : Bytes} {number : ℤ} (h : Denotes value number) (rest : Stack) :
    (0 ≤ number ∧ number ≤ x.length →
      opSplit (value :: x :: rest) = .ok (x.drop number.toNat :: x.take number.toNat :: rest)) ∧
    (¬ (0 ≤ number ∧ number ≤ x.length) → ∃ error, opSplit (value :: x :: rest) = .error error) := by
  rcases h with h | ⟨rfl, rfl⟩
  · by_cases hneg : number < 0
    · refine ⟨fun hrange => absurd hrange.1 (by omega),
        fun _ => ⟨"OP_SPLIT requires non-negative index", ?_⟩⟩
      simp only [opSplit, Stack.pop_cons, bind, Except.bind, h, if_pos hneg]
      rfl
    · by_cases hlong : x.length < number.toNat
      · refine ⟨fun hrange => absurd hrange.2 (by omega),
          fun _ => ⟨"OP_SPLIT index out of range", ?_⟩⟩
        simp only [opSplit, Stack.pop_cons, bind, Except.bind, h, if_neg hneg, if_pos hlong]
        rfl
      · refine ⟨fun _ => ?_, fun hrange => absurd ⟨by omega, by omega⟩ hrange⟩
        simp only [opSplit, Stack.pop_cons, bind, Except.bind, h, if_neg hneg, if_neg hlong]
        rfl
  · have hnone : toInt (serializeScriptNum (-2 ^ 63)) = none := by decide
    refine ⟨fun hrange => absurd hrange.1 (by omega),
      fun _ => ⟨"OP_SPLIT requires non-negative index", ?_⟩⟩
    simp only [opSplit, Stack.pop_cons, bind, Except.bind, hnone]
    rfl

theorem isEmptyPushdata_of_pushValue {instr : Instruction}
    (h : pushValue instr = some value) (hne : value ≠ []) : isEmptyPushdata instr = false := by
  by_cases hle : instr.opcode ≤ 0x4e
  · rw [pushValue, if_pos hle] at h
    obtain rfl := Option.some.inj h
    simp [isEmptyPushdata, hne]
  · simp [isEmptyPushdata, hle]

theorem isPush_of_decodePush {decoded : DecodedPush}
    (h : decodePush bytes false = .ok decoded) (hne : decoded.payload ≠ []) :
    IsPush bytes decoded.payload := by
  obtain ⟨hdecoded, hsize⟩ := decodePush_ok_iff.1 h
  obtain ⟨instr, hexact, hvalue⟩ := exactInstruction_of_decodePush h
  exact ⟨⟨decoded, hdecoded, hsize⟩, instr, hexact, hvalue, isEmptyPushdata_of_pushValue hvalue hne⟩

/-- The opcodes that stand for a number push it. -/
theorem isPush_of_numberOfOpcode {number : ℤ}
    (h : numberOfOpcode bytes = some number) : IsPush bytes (serializeScriptNum number) := by
  match bytes with
  | [] => simp [numberOfOpcode] at h
  | _ :: _ :: _ => simp [numberOfOpcode] at h
  | [opcode] =>
      refine isPush_numberOpcode ?_
      simp only [numberOfOpcode] at h
      split_ifs at h with h0 hneg hsmall
      · obtain rfl := Option.some.inj h
        rw [h0]
        rfl
      · obtain rfl := Option.some.inj h
        rw [hneg]
        rfl
      · obtain rfl := Option.some.inj h
        obtain ⟨hlo, hhi⟩ := hsmall
        rw [UInt8.le_iff_toNat_le] at hlo hhi
        have hnat : (opcode - 0x50).toNat = opcode.toNat - 0x50 := by
          rw [UInt8.toNat_sub_of_le _ _ (by rw [UInt8.le_iff_toNat_le]; exact le_trans (by decide) hlo)]
          rfl
        have hlo' : (0x51 : UInt8).toNat = 0x51 := rfl
        have hhi' : (0x60 : UInt8).toNat = 0x60 := rfl
        rw [numberOpcode, hnat, if_neg (by omega), if_neg (by omega), if_pos (by omega)]
        congr 1
        apply UInt8.toNat_inj.1
        rw [Int.toNat_natCast, UInt8.toNat_add, UInt8.toNat_ofNat']
        have h50 : (0x50 : UInt8).toNat = 0x50 := rfl
        have hlt := opcode.toNat_lt
        omega

/-- The header of a strict number with data, as the codec and as the compiler read it. -/
theorem strict_header {headerSize dataSize : ℕ}
    (h : strictNumberSizes bytes = some (headerSize, dataSize)) (hdata : 1 ≤ dataSize)
    (hlen : bytes.length = headerSize + dataSize) :
    (∃ form, pushHeader bytes = .ok ⟨form, headerSize, dataSize, []⟩) ∧
      scriptNumberRange bytes = some (headerSize, dataSize) ∧ 1 ≤ headerSize := by
  match bytes with
  | [] => simp [strictNumberSizes] at h
  | first :: rest =>
      rw [List.length_cons] at hlen
      simp only [strictNumberSizes, List.headD_cons, List.length_cons, List.drop_succ_cons,
        List.drop_zero] at h
      have hwithin : ∀ width : ℕ, ∀ form opcode, lengthField form = some (opcode, width) →
          (1 + width, leNat (rest.take width)) = (headerSize, dataSize) →
          ∃ form, pushHeader (opcode :: rest) = .ok ⟨form, headerSize, dataSize, []⟩ := by
        intro width form opcode hfield hsizes
        obtain ⟨rfl, rfl⟩ := Prod.mk.inj hsizes
        refine ⟨form, ?_⟩
        rw [pushHeader_pushData hfield, if_neg (by omega)]
      split_ifs at h with h1 h2 h3 h4
      · obtain ⟨rfl, rfl⟩ := Prod.mk.inj (Option.some.inj h)
        have hne : first ≠ 0 := by
          rintro rfl
          exact absurd h1.1 (by decide)
        refine ⟨⟨.direct, pushHeader_direct hne h1.2 rest⟩, ?_, le_rfl⟩
        simp only [scriptNumberRange, List.headD_cons, if_pos h1, List.length_cons]
        exact if_neg (by omega)
      · obtain ⟨rfl, hlong⟩ := h2
        have hsizes := Prod.mk.inj (Option.some.inj h)
        refine ⟨hwithin 1 .pushData1 _ rfl (Option.some.inj h), ?_, by omega⟩
        simp only [scriptNumberRange, List.headD_cons, List.length_cons, List.drop_succ_cons,
          List.drop_zero, if_neg (show ¬ ((1 : UInt8) ≤ 0x4c ∧ (0x4c : UInt8) ≤ 75) by decide),
          if_true, hsizes.2]
        rw [if_neg (by omega), if_neg (by omega), hsizes.1]
      · obtain ⟨rfl, hlong⟩ := h3
        have hsizes := Prod.mk.inj (Option.some.inj h)
        refine ⟨hwithin 2 .pushData2 _ rfl (Option.some.inj h), ?_, by omega⟩
        simp only [scriptNumberRange, List.headD_cons, List.length_cons, List.drop_succ_cons,
          List.drop_zero, if_neg (show ¬ ((1 : UInt8) ≤ 0x4d ∧ (0x4d : UInt8) ≤ 75) by decide),
          if_neg (show ¬ (0x4d : UInt8) = 0x4c by decide), if_true, hsizes.2]
        rw [if_neg (by omega), if_neg (by omega), hsizes.1]
      · obtain ⟨rfl, hlong⟩ := h4
        have hsizes := Prod.mk.inj (Option.some.inj h)
        refine ⟨hwithin 4 .pushData4 _ rfl (Option.some.inj h), ?_, by omega⟩
        simp only [scriptNumberRange, List.headD_cons, List.length_cons, List.drop_succ_cons,
          List.drop_zero, if_neg (show ¬ ((1 : UInt8) ≤ 0x4e ∧ (0x4e : UInt8) ≤ 75) by decide),
          if_neg (show ¬ (0x4e : UInt8) = 0x4c by decide),
          if_neg (show ¬ (0x4e : UInt8) = 0x4d by decide), if_true, hsizes.2]
        rw [if_neg (by omega), if_neg (by omega), hsizes.1]

/-- A push of one to nine bytes of data whose payload is read as a number. -/
theorem strict_data {headerSize dataSize : ℕ} (hne : bytes ≠ []) (hop : numberOfOpcode bytes = none)
    (hsizes : strictNumberSizes bytes = some (headerSize, dataSize))
    (hgood : 1 ≤ dataSize ∧ dataSize ≤ 9 ∧ bytes.length = headerSize + dataSize)
    (hmin : dataSize = 9 → bytes.drop headerSize = minimumEncoding) :
    ∃ value, IsPush bytes value ∧ Denotes value (scriptBytesToNumber bytes) := by
  obtain ⟨hpos, hnine, hlen⟩ := hgood
  obtain ⟨⟨form, hheader⟩, hrange, -⟩ := strict_header hsizes hpos hlen
  have hpayload : (bytes.drop headerSize).length = dataSize := by
    rw [List.length_drop]
    omega
  have htake : (bytes.drop headerSize).take dataSize = bytes.drop headerSize := by
    rw [← hpayload, List.take_length]
  have hdecode : decodePush bytes false =
      .ok ⟨bytes.drop headerSize, form, headerSize + dataSize⟩ := by
    refine decodePush_ok_iff.2 ⟨?_, hlen.symm⟩
    rw [decodePushPrefix_of_header hheader, if_neg (by omega), htake]
  have hnonempty : bytes.drop headerSize ≠ [] := by
    intro hnil
    rw [hnil, List.length_nil] at hpayload
    omega
  refine ⟨_, isPush_of_decodePush hdecode hnonempty, ?_⟩
  have hread : scriptBytesToNumber bytes =
      (CScriptNum.deserialize (bytes.drop headerSize) 9).getD 0 := by
    simp only [scriptBytesToNumber, if_neg hne, hop, hrange, htake]
    rw [if_neg (by omega)]
  rw [hread]
  by_cases h9 : dataSize = 9
  · rw [hmin h9]
    have hsame : minimumEncoding =
        serializeScriptNum ((CScriptNum.deserialize minimumEncoding 9).getD 0) := by decide
    exact .inr ⟨by decide, hsame⟩
  · have hshort : (bytes.drop headerSize).length ≤ 8 := by omega
    obtain ⟨number, hnumber, -⟩ := toInt_of_length hshort
    left
    rw [CScriptNum.deserialize, if_neg (by omega), CScriptNum.deserialize_eq_toInt hshort, hnumber]
    rfl

/-- The bytes of a strict number are a push of bytes that stand for the number the compiler reads
from them. -/
theorem strict_bytes (h : isStrictScriptNumber bytes = true) :
    ∃ value, IsPush bytes value ∧ Denotes value (scriptBytesToNumber bytes) := by
  have hne : bytes ≠ [] := by
    rintro rfl
    exact absurd h (by decide)
  unfold isStrictScriptNumber at h
  cases hop : numberOfOpcode bytes with
  | some number =>
      refine ⟨_, isPush_of_numberOfOpcode hop, .inl ?_⟩
      have hread : scriptBytesToNumber bytes = number := by
        simp only [scriptBytesToNumber, if_neg hne, hop]
      rw [hread]
      refine toInt_serializeScriptNum ?_
      rcases bytes with _ | ⟨opcode, _ | ⟨byte, rest⟩⟩
      · cases hop
      · simp only [numberOfOpcode] at hop
        split_ifs at hop with h0 hneg hsmall
        · obtain rfl := Option.some.inj hop
          decide
        · obtain rfl := Option.some.inj hop
          decide
        · obtain rfl := Option.some.inj hop
          have := (opcode - 0x50).toNat_lt
          rw [Int.natAbs_natCast]
          omega
      · cases hop
  | none =>
      rw [hop] at h
      cases hsizes : strictNumberSizes bytes with
      | none => simp [hsizes] at h
      | some sizes =>
          obtain ⟨headerSize, dataSize⟩ := sizes
          simp only [hsizes, Option.isSome_none, Bool.false_eq_true, if_false] at h
          split_ifs at h with hbad hnine
          · have hgood : 1 ≤ dataSize ∧ dataSize ≤ 9 ∧ bytes.length = headerSize + dataSize := by
              omega
            exact strict_data hne hop hsizes hgood fun _ => by simpa using h
          · have hgood : 1 ≤ dataSize ∧ dataSize ≤ 9 ∧ bytes.length = headerSize + dataSize := by
              omega
            exact strict_data hne hop hsizes hgood fun h9 => absurd h9 hnine

/-- **A strict number is pushed as bytes that stand for the number the compiler reads.** -/
theorem strict_push {env : ScriptEnv} (h : isStrictScriptNumberHex name = true) :
    ∃ value, Denotes value (scriptHexToNumber name) ∧
      ∀ main alt : Stack, Takes env (emitText name) (main, alt) (value :: main, alt) := by
  unfold isStrictScriptNumberHex at h
  split_ifs at h with hprefix
  simp only at h
  split_ifs at h with hclean
  have hnonempty : (hexData name).toList ≠ [] := fun hnil => hclean (.inl hnil)
  have heven : (hexData name).toList.length % 2 = 0 := by
    by_contra hodd
    exact hclean (.inr hodd)
  have hdigits : ∀ c ∈ (hexData name).toList, isXDigit c := by
    simp only [hexData] at hnonempty ⊢
    split_ifs at hnonempty ⊢ with hall
    · simpa using hall
    · simp at hnonempty
  obtain ⟨bytes, hpairs⟩ := Option.isSome_iff_exists.1
    ((hexPairs_isSome_iff (hexData name).toList).2 ⟨heven, hdigits⟩)
  rw [hpairs, Option.getD_some] at h
  obtain ⟨value, hpush, hdenotes⟩ := strict_bytes h
  have hread : scriptHexToNumber name = scriptBytesToNumber bytes := by
    have htake : (hexData name).toList.length / 2 * 2 = (hexData name).toList.length := by omega
    simp only [scriptHexToNumber, htake, List.take_length, hpairs, Option.getD_some]
  have hprocessed : processedOperand name = String.ofList (hexData name).toList := by
    rw [processedOperand, if_neg (by intro hnil; simp [hnil] at hnonempty), String.ofList_toList]
  exact ⟨value, by rw [hread]; exact hdenotes,
    fun main alt => takes_pushText hprocessed hpairs hpush main alt⟩

/-! ### The lowering -/

inductive SliceOperandKind where
  | immediate
  | inlineScript
  | stackValue
  deriving DecidableEq, Repr

structure SliceOperand where
  element : StackElement
  kind : SliceOperandKind
  immediateValue : Option ℤ
  deriving DecidableEq, Repr

def isAnglePlaceholder (name : String) : Bool :=
  2 ≤ name.toList.length && name.toList.head? = some '<' && name.toList.getLast? = some '>'

/-- A name that starts with `0x`. -/
def isHexName (name : String) : Bool :=
  match name.toList with
  | '0' :: 'x' :: _ => true
  | '0' :: 'X' :: _ => true
  | _ => false

def classify (element : StackElement) : Except String SliceOperand :=
  if element.type = "builtin_member" ∨ isAnglePlaceholder element.name = true then
    .ok ⟨element, .inlineScript, none⟩
  else if isHexName element.name then
    if isStrictScriptNumberHex element.name then
      .ok ⟨element, .immediate, some (scriptHexToNumber element.name)⟩
    else .error "Slice bound is not a valid Script number"
  else .ok ⟨element, .stackValue, none⟩

namespace SliceOperand

/-- `startIsBeginning`. -/
def isBeginning (start : SliceOperand) : Bool :=
  start.immediateValue = some (-1) || start.immediateValue = some 0

/-- `lengthIsToEnd`. -/
def isToEnd (length : SliceOperand) : Bool := length.immediateValue = some (-1)

/-- The text that `materialize` emits for an operand without a slot. -/
def script (operand : SliceOperand) : String :=
  if operand.element.type = "builtin_member" ∧ operand.element.data ≠ "" then operand.element.data
  else operand.element.name

end SliceOperand

/-- `requireUniqueStackValue`: the result is `runtimePositions` with one more position. -/
def requireUniqueStackValue (st : SymbolTable) (runtimePositions : List ℕ) (element : StackElement)
    (role : String) : Except String (List ℕ) :=
  match st.getPos element.name with
  | none => .error ("Slice cannot find " ++ role ++ " '" ++ element.name ++ "' on the main stack")
  | some pos =>
      if pos ∈ runtimePositions then
        .error ("Slice " ++ role ++ " '" ++ element.name ++
          "' reuses the same runtime stack slot as another input")
      else .ok (pos :: runtimePositions)

/-- The check of an operand, which a slot alone needs. -/
def requireUniqueOperand (st : SymbolTable) (runtimePositions : List ℕ) (operand : SliceOperand)
    (role : String) : Except String (List ℕ) :=
  if operand.kind = .stackValue then
    requireUniqueStackValue st runtimePositions operand.element role
  else .ok runtimePositions

/-- The checks before anything is emitted. -/
def checkSliceInputs (st : SymbolTable) (object : StackElement) (start length : SliceOperand) :
    Except String (List ℕ) :=
  (requireUniqueStackValue st [] object "object").bind fun positions =>
    (requireUniqueOperand st positions start "start argument").bind fun positions =>
      requireUniqueOperand st positions length "length argument"

/-- A name is brought to the top; `missing` is thrown where it has no slot. -/
def bringName (name missing : String) : Visit := fun s =>
  match s.table.getPos name with
  | none => .error missing
  | some pos => Visit.rollToTop pos s

def materializeObject (object : StackElement) : Visit :=
  bringName object.name ("Slice object disappeared during stack preparation: " ++ object.name)

def materialize (operand : SliceOperand) : Visit :=
  if operand.kind = .stackValue then
    bringName operand.element.name
      ("Slice operand disappeared during stack preparation: " ++ operand.element.name)
  else
    Visit.seq (Visit.emit (emitText operand.script)) (Visit.pushPlaceholder operand.element.type)

/-- `stackBlockIsReady`: the names are the tops of the stack, the last one the topmost. -/
def stackBlockIsReady (st : SymbolTable) (names : List String) : Bool :=
  names.zipIdx.all fun (name, i) => st.getPos name = some (names.length - i - 1)

def prepareObjectAnd (object : StackElement) (operand : SliceOperand) : Visit := fun s =>
  if operand.kind = .stackValue ∧
      stackBlockIsReady s.table [object.name, operand.element.name] = true then .ok ([], s)
  else Visit.seq (materializeObject object) (materialize operand) s

def splitToResult (keepRight : Bool) : Visit := fun s =>
  if s.table.main.length < 2 then .error "Slice symbolic stack underflow"
  else
    (Visit.emit (emitOp .opSplit ++ emitOp (if keepRight then .opNip else .opDrop))).seq
      (Visit.pop.seq (Visit.pop.seq (Visit.pushPlaceholder "bytes"))) s

/-- The length is brought above the suffix; `notPreserved` is thrown where it is not right below. -/
def rollLength (length : SliceOperand) : Visit := fun s =>
  if s.table.getPos length.element.name = some 1 then Visit.rollToTop 1 s
  else .error "Slice length was not preserved below the suffix"

/-- The block `[length, object, start]`. -/
def prepareLengthBlock (object : StackElement) (start length : SliceOperand) : Visit := fun s =>
  if stackBlockIsReady s.table [length.element.name, object.name, start.element.name] then .ok ([], s)
  else ((materialize length).seq (materializeObject object)).seq (materialize start) s

/-- The instructions of `processSliceBuiltin`, after its checks. -/
def sliceSteps (object : StackElement) (start length : SliceOperand) : Visit :=
  if start.isBeginning then (prepareObjectAnd object length).seq (splitToResult false)
  else if length.isToEnd then (prepareObjectAnd object start).seq (splitToResult true)
  else if length.kind = .stackValue then
    (((prepareLengthBlock object start length).seq (splitToResult true)).seq (rollLength length)).seq
      (splitToResult false)
  else
    (((prepareObjectAnd object start).seq (splitToResult true)).seq (materialize length)).seq
      (splitToResult false)

def processSliceBuiltin (object : StackElement) (processedArgs : List StackElement) : Visit :=
  fun s =>
    match processedArgs with
    | [first, second] =>
        (classify first).bind fun start =>
          (classify second).bind fun length =>
            if start.isBeginning && length.isToEnd then
              .error "Slice does not support two boundary sentinel arguments"
            else
              (checkSliceInputs s.table object start length).bind fun _ =>
                sliceSteps object start length s
    | _ => .error "Slice expects exactly two arguments"

/-! ### Operands on the stack -/

variable {env : ScriptEnv} {s s' : VisitorState} {slots : NamedStacks} {code : List String}
  {object : StackElement} {operand start length : SliceOperand} {number : ℤ}

/-- The number an operand stands for: a known one, one that the slot of its name holds, or one that
its script pushes. -/
def Stands (env : ScriptEnv) (st : SymbolTable) (main : List (String × Bytes))
    (operand : SliceOperand) (number : ℤ) : Prop :=
  match operand.kind with
  | .immediate => operand.immediateValue = some number
  | .stackValue =>
      ∃ slot, findNamed (st.resolveBindSymbol operand.element.name) main = some slot ∧
        Denotes slot.2 number
  | .inlineScript =>
      ∃ value, Denotes value number ∧
        ∀ main alt : Stack, Takes env (emitText operand.script) (main, alt) (value :: main, alt)

theorem Stands.congr {st st' : SymbolTable} {main main' : List (String × Bytes)}
    {operand : SliceOperand} {number : ℤ} (h : Stands env st main operand number)
    (hslot : operand.kind = .stackValue →
      findNamed (st'.resolveBindSymbol operand.element.name) main' =
        findNamed (st.resolveBindSymbol operand.element.name) main) :
    Stands env st' main' operand number := by
  cases hkind : operand.kind with
  | immediate => simpa only [Stands, hkind] using h
  | inlineScript => simpa only [Stands, hkind] using h
  | stackValue => simpa only [Stands, hkind, hslot hkind] using h

/-- The stack without the slot of an operand, if it has one. -/
def withoutOperand (st : SymbolTable) (operand : SliceOperand) (main : List (String × Bytes)) :
    List (String × Bytes) :=
  if operand.kind = .stackValue then
    takeNamed (st.resolveBindSymbol operand.element.name) main
  else main

theorem withoutOperand_of_ne (h : operand.kind ≠ .stackValue) (st : SymbolTable)
    (main : List (String × Bytes)) : withoutOperand st operand main = main := if_neg h

variable (env) in
theorem reaches_bringName {missing : String} (h : Depicts s.table slots)
    (hrun : bringName name missing s = .ok (code, s')) :
    ∃ slot, findNamed (s.table.resolveBindSymbol name) slots.1 = some slot ∧
      Reaches env s slots code s'
        (slot :: takeNamed (s.table.resolveBindSymbol name) slots.1, slots.2) := by
  unfold bringName at hrun
  cases hpos : s.table.getPos name with
  | none => simp [hpos] at hrun
  | some pos =>
      obtain ⟨s₁, slot, hroll, -, -, hfind, hreaches⟩ := reaches_bring env h hpos
      simp only [hpos, hroll, Except.ok.injEq, Prod.mk.injEq] at hrun
      obtain ⟨rfl, rfl⟩ := hrun
      exact ⟨slot, hfind, hreaches⟩

/-- What `classify` lets through without a slot pushes its number. -/
theorem pushes_of_classify (h : classify element = .ok operand)
    (hkind : operand.kind ≠ .stackValue) {main : List (String × Bytes)}
    (hstands : Stands env st main operand number) :
    ∃ value, Denotes value number ∧
      ∀ main alt : Stack, Takes env (emitText operand.script) (main, alt) (value :: main, alt) := by
  unfold classify at h
  split_ifs at h with hinline hhex hstrict
  · obtain rfl := Except.ok.inj h
    exact hstands
  · obtain rfl := Except.ok.inj h
    obtain rfl : scriptHexToNumber element.name = number := Option.some.inj hstands
    have hscript : SliceOperand.script ⟨element, .immediate, some (scriptHexToNumber element.name)⟩ =
        element.name := if_neg fun hmember => hinline (.inl hmember.1)
    rw [hscript]
    exact strict_push hstrict
  · obtain rfl := Except.ok.inj h
    exact absurd rfl hkind

/-- An operand is brought or pushed to the top. -/
theorem reaches_materialize (h : Depicts s.table slots) (hclass : classify element = .ok operand)
    (hstands : Stands env s.table slots.1 operand number)
    (hrun : materialize operand s = .ok (code, s')) :
    ∃ slot, Denotes slot.2 number ∧
      Reaches env s slots code s' (slot :: withoutOperand s.table operand slots.1, slots.2) := by
  unfold materialize at hrun
  split_ifs at hrun with hkind
  · obtain ⟨slot, hfind, hreaches⟩ := reaches_bringName env h hrun
    simp only [Stands, hkind] at hstands
    obtain ⟨slot', hfind', hdenotes⟩ := hstands
    obtain rfl := Option.some.inj (hfind.symm.trans hfind')
    refine ⟨slot, hdenotes, ?_⟩
    rw [withoutOperand, if_pos hkind]
    exact hreaches
  · obtain ⟨value, hdenotes, htakes⟩ := pushes_of_classify hclass hkind hstands
    obtain ⟨code₁, s₁, code₂, hemit, hpush, rfl⟩ := Visit.seq_ok hrun
    cases hemit
    obtain ⟨rfl, -, -, hreaches⟩ := reaches_push
      (s := { s with nextId := s.nextId + 1 }) h (htakes _ _) hpush
    refine ⟨(compilerPlaceholder s.nextId, value), hdenotes, ?_⟩
    rw [withoutOperand_of_ne hkind, List.append_nil]
    exact ⟨hreaches.takes, hreaches.depicts, hreaches.resolve⟩

theorem resolve_ne_of_getPos {pos pos' : ℕ}
    (h : st.getPos name = some pos) (h' : st.getPos name' = some pos') (hne : pos ≠ pos') :
    st.resolveBindSymbol name ≠ st.resolveBindSymbol name' := by
  intro hsame
  rw [SymbolTable.getPos, hsame, ← SymbolTable.getPos, h'] at h
  exact hne (Option.some.inj h).symm

/-- A block of two names that is ready. -/
theorem ready_pair (h : Depicts s.table slots)
    (hready : stackBlockIsReady s.table [name, name'] = true) :
    ∃ slot slot', findNamed (s.table.resolveBindSymbol name) slots.1 = some slot ∧
      findNamed (s.table.resolveBindSymbol name') slots.1 = some slot' ∧
      slots.1 = slot' :: slot :: takeNamed (s.table.resolveBindSymbol name')
        (takeNamed (s.table.resolveBindSymbol name) slots.1) := by
  simp only [stackBlockIsReady, List.zipIdx_cons, List.zipIdx_nil, List.all_cons, List.all_nil,
    List.length_cons, List.length_nil, Bool.and_true, Bool.and_eq_true, decide_eq_true_eq] at hready
  obtain ⟨hname, hname'⟩ := hready
  obtain ⟨hlt, hfind, htake⟩ := h.findNamed_of_getPos hname
  obtain ⟨hlt', hfind', -⟩ := h.findNamed_of_getPos hname'
  refine ⟨_, _, hfind, hfind', ?_⟩
  obtain ⟨main, alt⟩ := slots
  match main, hlt with
  | slot' :: slot :: rest, _ =>
      have hname : slot'.1 = _ := name_of_findNamed hfind'
      rw [htake, ← hname]
      simp [takeNamed_cons_self]

/-- The object and an operand with a slot of its own are brought to the top. -/
theorem reaches_prepareObjectAnd
    (h : Depicts s.table slots) (hclass : classify element = .ok operand)
    (hobject : findNamed (s.table.resolveBindSymbol object.name) slots.1 = some x)
    (hne : operand.kind = .stackValue → s.table.resolveBindSymbol operand.element.name ≠
      s.table.resolveBindSymbol object.name)
    (hstands : Stands env s.table slots.1 operand number)
    (hrun : prepareObjectAnd object operand s = .ok (code, s')) :
    ∃ slot, Denotes slot.2 number ∧
      Reaches env s slots code s' (slot :: x :: withoutOperand s.table operand
        (takeNamed (s.table.resolveBindSymbol object.name) slots.1), slots.2) := by
  unfold prepareObjectAnd at hrun
  split_ifs at hrun with hready
  · obtain ⟨hkind, hready⟩ := hready
    cases hrun
    obtain ⟨x', slot, hfindx, hfind, hmain⟩ := ready_pair h hready
    obtain rfl := Option.some.inj (hfindx.symm.trans hobject)
    simp only [Stands, hkind] at hstands
    obtain ⟨slot', hfind', hdenotes⟩ := hstands
    obtain rfl := Option.some.inj (hfind.symm.trans hfind')
    refine ⟨slot, hdenotes, ?_⟩
    rw [withoutOperand, if_pos hkind, ← hmain]
    exact Reaches.refl h
  · obtain ⟨code₁, s₁, code₂, hbring, hmaterialize, rfl⟩ := Visit.seq_ok hrun
    obtain ⟨x', hfindx, hfirst⟩ := reaches_bringName env h hbring
    obtain rfl := Option.some.inj (hfindx.symm.trans hobject)
    have hx := name_of_findNamed hfindx
    have hstands' : Stands env s₁.table
        (x' :: takeNamed (s.table.resolveBindSymbol object.name) slots.1) operand number := by
      refine hstands.congr fun hkind => ?_
      rw [hfirst.resolve, findNamed_cons_ne (by rw [hx]; exact (hne hkind).symm),
        findNamed_takeNamed (hne hkind)]
    obtain ⟨slot, hdenotes, hsecond⟩ := reaches_materialize hfirst.depicts hclass hstands' hmaterialize
    refine ⟨slot, hdenotes, ?_⟩
    have hrest : withoutOperand s₁.table operand
          (x' :: takeNamed (s.table.resolveBindSymbol object.name) slots.1) =
        x' :: withoutOperand s.table operand
          (takeNamed (s.table.resolveBindSymbol object.name) slots.1) := by
      unfold withoutOperand
      split_ifs with hkind
      · rw [hfirst.resolve, takeNamed_cons_ne (by rw [hx]; exact (hne hkind).symm)]
      · rfl
    rw [hrest] at hsecond
    exact hfirst.trans hsecond

/-! ### Cutting -/

/-- The instructions of `splitToResult`. -/
def splitCode (keepRight : Bool) : List String :=
  emitOp .opSplit ++ emitOp (if keepRight then .opNip else .opDrop)

/-- What `splitToResult` does: it emits a cut and puts a fresh name in place of two slots. -/
theorem splitToResult_run (hrun : splitToResult keepRight s = .ok (code, s')) :
    code = splitCode keepRight ∧
      Visit.pushPlaceholder "bytes" { s with table := s.table.pop.pop } = .ok ([], s') := by
  unfold splitToResult at hrun
  by_cases hsize : s.table.main.length < 2
  · rw [if_pos hsize] at hrun
    cases hrun
  · rw [if_neg hsize] at hrun
    obtain ⟨code₁, s₁, code₂, hemit, hpops, rfl⟩ := Visit.seq_ok hrun
    obtain ⟨code₃, s₂, code₄, hpop, hpops', rfl⟩ := Visit.seq_ok hpops
    obtain ⟨code₅, s₃, code₆, hpop', hpush, rfl⟩ := Visit.seq_ok hpops'
    cases hemit
    cases hpop
    cases hpop'
    have hnil : code₆ = [] := by
      unfold Visit.pushPlaceholder Visit.push at hpush
      simp only at hpush
      cases hslot : pushSlot s.table.pop.pop.main
          ⟨compilerPlaceholder s.nextId, "bytes", compilerPlaceholder s.nextId⟩ with
      | error error => simp [hslot, Except.map] at hpush
      | ok main =>
          simp only [hslot, Except.map, Except.ok.injEq, Prod.mk.injEq] at hpush
          exact hpush.1.symm
    subst hnil
    exact ⟨by simp [splitCode], hpush⟩

theorem splitToResult_ok {slot : String × Bytes}
    {main alt : List (String × Bytes)} (h : Depicts s.table (slot :: x :: main, alt))
    (hrun : splitToResult keepRight s = .ok (code, s')) :
    code = splitCode keepRight ∧ s'.table.resolveBindSymbol = s.table.resolveBindSymbol ∧
      ∃ name, ∀ value, Depicts s'.table ((name, value) :: main, alt) := by
  obtain ⟨rfl, hpush⟩ := splitToResult_run hrun
  obtain ⟨hfirst, hresolve⟩ := depicts_pop h
  obtain ⟨hsecond, hresolve'⟩ := depicts_pop (s := { s with table := s.table.pop }) hfirst
  obtain ⟨-, -, -, hpushed, hdepicts⟩ := depicts_push
    (s := { s with table := s.table.pop.pop, nextId := s.nextId + 1 }) hsecond hpush
  exact ⟨rfl, hpushed.trans (hresolve'.trans hresolve), _, hdepicts⟩

theorem takes_split {x : Bytes} (h : Denotes value number)
    (hrange : 0 ≤ number ∧ number ≤ x.length) (main alt : Stack) :
    Takes env (splitCode keepRight) (value :: x :: main, alt)
      ((if keepRight then x.drop number.toNat else x.take number.toNat) :: main, alt) := by
  have hsplit : Takes env (emitOp .opSplit) (value :: x :: main, alt)
      (x.drop number.toNat :: x.take number.toNat :: main, alt) :=
    takes_op alt (by decide) rfl ((opSplit_of_denotes h main).1 hrange)
  cases keepRight with
  | true => exact hsplit.trans (takes_nip _ _ _ _)
  | false => exact hsplit.trans (takes_drop _ _ _)

theorem not_takes_split {main alt : Stack} {error : String} (h : opSplit main = .error error)
    (code : List String) (t : Stack × Stack) :
    ¬ Takes env (emitOp .opSplit ++ code) (main, alt) t := by
  intro htakes
  have hfinal := htakes [] rfl
  have hatom : MainAtom env (opcodeToHex .opSplit) opSplit :=
    mainAtom_of_mainOp (completeInstruction_opcodeToHex (by decide)) rfl
  rw [final_append, emitOp, final_singleton rfl, hatom, if_pos (by rfl), VM.onMain_toOption] at hfinal
  simp [h, Except.toOption] at hfinal

theorem not_takes_splitCode {x : Bytes} (h : Denotes value number)
    (hrange : ¬ (0 ≤ number ∧ number ≤ x.length)) (main alt : Stack) (code : List String)
    (t : Stack × Stack) : ¬ Takes env (splitCode keepRight ++ code) (value :: x :: main, alt) t := by
  obtain ⟨error, herror⟩ := (opSplit_of_denotes h main).2 hrange
  rw [splitCode, List.append_assoc]
  exact not_takes_split herror _ t

/-- The code cuts where `ok` holds: it leaves `result` on top of `rest`, and fails otherwise. -/
structure CutsTo (env : ScriptEnv) (s : VisitorState) (slots : NamedStacks) (code : List String)
    (s' : VisitorState) (rest : List (String × Bytes)) (ok : Prop) (result : Bytes) : Prop where
  reaches : ok → ∃ name, Reaches env s slots code s' ((name, result) :: rest, slots.2)
  fails : ¬ ok → ∀ code' t, ¬ Takes env (code ++ code') slots.values t

/-- One cut. -/
theorem cutsTo_split {slot : String × Bytes} {rest : List (String × Bytes)}
    {s₁ : VisitorState} {code' : List String}
    (h : Reaches env s slots code s₁ (slot :: x :: rest, slots.2))
    (hdenotes : Denotes slot.2 number) (hrun : splitToResult keepRight s₁ = .ok (code', s')) :
    CutsTo env s slots (code ++ code') s' rest (0 ≤ number ∧ number ≤ x.2.length)
      (if keepRight then x.2.drop number.toNat else x.2.take number.toNat) := by
  obtain ⟨rfl, hresolve, name, hdepicts⟩ := splitToResult_ok h.depicts hrun
  refine ⟨?_, ?_⟩
  · intro hrange
    exact ⟨name, h.trans ⟨takes_split hdenotes hrange _ _, hdepicts _, hresolve⟩⟩
  · intro hrange code'' t htakes
    rw [List.append_assoc] at htakes
    exact not_takes_splitCode hdenotes hrange _ _ code'' t (takes_of_append h.takes htakes)

/-- A second cut, in what the first one left. -/
theorem CutsTo.andThen {rest rest' : List (String × Bytes)} {ok ok' : Prop} {result result' : Bytes}
    {s₁ : VisitorState} {code' : List String} (h : CutsTo env s slots code s₁ rest ok result)
    (h' : ∀ name, Reaches env s slots code s₁ ((name, result) :: rest, slots.2) →
      CutsTo env s slots (code ++ code') s' rest' ok' result') :
    CutsTo env s slots (code ++ code') s' rest' (ok ∧ ok') result' := by
  by_cases hok : ok
  · obtain ⟨name, hreaches⟩ := h.reaches hok
    refine ⟨fun hboth => (h' name hreaches).reaches hboth.2, ?_⟩
    intro hnot
    exact (h' name hreaches).fails fun hok' => hnot ⟨hok, hok'⟩
  · refine ⟨fun hboth => absurd hboth.1 hok, ?_⟩
    intro _ code'' t
    rw [List.append_assoc]
    exact h.fails hok _ t

/-! ### The shapes of a slice -/

/-- What the checks establish: the slots of the inputs are different. -/
theorem distinct_of_checkSliceInputs {positions : List ℕ}
    (h : checkSliceInputs st object start length = .ok positions) :
    (start.kind = .stackValue →
      st.resolveBindSymbol start.element.name ≠ st.resolveBindSymbol object.name) ∧
    (length.kind = .stackValue →
      st.resolveBindSymbol length.element.name ≠ st.resolveBindSymbol object.name) ∧
    (start.kind = .stackValue → length.kind = .stackValue →
      st.resolveBindSymbol length.element.name ≠ st.resolveBindSymbol start.element.name) := by
  have hunique : ∀ {runtimePositions : List ℕ} {element : StackElement} {role : String}
      {positions : List ℕ},
      requireUniqueStackValue st runtimePositions element role = .ok positions →
      ∃ pos, st.getPos element.name = some pos ∧ pos ∉ runtimePositions ∧
        positions = pos :: runtimePositions := by
    intro runtimePositions element role positions hok
    unfold requireUniqueStackValue at hok
    cases hpos : st.getPos element.name with
    | none => simp [hpos] at hok
    | some pos =>
        simp only [hpos] at hok
        split_ifs at hok with hmem
        exact ⟨pos, rfl, hmem, (Except.ok.inj hok).symm⟩
  unfold checkSliceInputs requireUniqueOperand at h
  cases hobject : requireUniqueStackValue st [] object "object" with
  | error error => simp [hobject, Except.bind] at h
  | ok positions₁ =>
      obtain ⟨posObject, hposObject, -, rfl⟩ := hunique hobject
      simp only [hobject, Except.bind] at h
      by_cases hstart : start.kind = .stackValue
      · rw [if_pos hstart] at h
        cases hfirst : requireUniqueStackValue st [posObject] start.element "start argument" with
        | error error => simp [hfirst] at h
        | ok positions₂ =>
            obtain ⟨posStart, hposStart, hnew, rfl⟩ := hunique hfirst
            simp only [hfirst] at h
            have hstartNe : posStart ≠ posObject := by simpa using hnew
            refine ⟨fun _ => resolve_ne_of_getPos hposStart hposObject hstartNe, ?_, ?_⟩
            · intro hlength
              rw [if_pos hlength] at h
              obtain ⟨posLength, hposLength, hnew', -⟩ := hunique h
              have hne : posLength ≠ posObject := fun hsame => hnew' (by simp [hsame])
              exact resolve_ne_of_getPos hposLength hposObject hne
            · intro _ hlength
              rw [if_pos hlength] at h
              obtain ⟨posLength, hposLength, hnew', -⟩ := hunique h
              have hne : posLength ≠ posStart := fun hsame => hnew' (by simp [hsame])
              exact resolve_ne_of_getPos hposLength hposStart hne
      · rw [if_neg hstart] at h
        refine ⟨fun hkind => absurd hkind hstart, ?_, fun hkind => absurd hkind hstart⟩
        intro hlength
        simp only [if_pos hlength] at h
        obtain ⟨posLength, hposLength, hnew', -⟩ := hunique h
        exact resolve_ne_of_getPos hposLength hposObject (by simpa using hnew')

/-- A slice with one cut. -/
theorem cutsTo_oneCut (h : Depicts s.table slots) (hclass : classify element = .ok operand)
    (hobject : findNamed (s.table.resolveBindSymbol object.name) slots.1 = some x)
    (hne : operand.kind = .stackValue → s.table.resolveBindSymbol operand.element.name ≠
      s.table.resolveBindSymbol object.name)
    (hstands : Stands env s.table slots.1 operand number)
    (hrun : (prepareObjectAnd object operand).seq (splitToResult keepRight) s = .ok (code, s')) :
    CutsTo env s slots code s'
      (withoutOperand s.table operand (takeNamed (s.table.resolveBindSymbol object.name) slots.1))
      (0 ≤ number ∧ number ≤ x.2.length)
      (if keepRight then x.2.drop number.toNat else x.2.take number.toNat) := by
  obtain ⟨code₁, s₁, code₂, hprepare, hsplit, rfl⟩ := Visit.seq_ok hrun
  obtain ⟨slot, hdenotes, hreaches⟩ := reaches_prepareObjectAnd h hclass hobject hne hstands hprepare
  exact cutsTo_split hreaches hdenotes hsplit

/-- A slice whose length has no slot. -/
theorem cutsTo_twoCuts (h : Depicts s.table slots) (hfirst : classify first = .ok start)
    (hsecond : classify second = .ok length)
    (hobject : findNamed (s.table.resolveBindSymbol object.name) slots.1 = some x)
    (hne : start.kind = .stackValue → s.table.resolveBindSymbol start.element.name ≠
      s.table.resolveBindSymbol object.name)
    (hkind : length.kind ≠ .stackValue) (hstart : Stands env s.table slots.1 start n)
    (hlength : Stands env s.table slots.1 length m)
    (hrun : (((prepareObjectAnd object start).seq (splitToResult true)).seq
      (materialize length)).seq (splitToResult false) s = .ok (code, s')) :
    CutsTo env s slots code s'
      (withoutOperand s.table start (takeNamed (s.table.resolveBindSymbol object.name) slots.1))
      ((0 ≤ n ∧ n ≤ x.2.length) ∧ 0 ≤ m ∧ m ≤ (x.2.drop n.toNat).length)
      ((x.2.drop n.toNat).take m.toNat) := by
  obtain ⟨code₁, s₂, code₂, hcut, hsplit, rfl⟩ := Visit.seq_ok hrun
  obtain ⟨code₃, s₁, code₄, hprepared, hmaterialize, rfl⟩ := Visit.seq_ok hcut
  have hone := cutsTo_oneCut h hfirst hobject hne hstart hprepared
  rw [List.append_assoc]
  refine hone.andThen ?_
  intro name hreaches
  obtain ⟨slot, hdenotes, hpushed⟩ := reaches_materialize hreaches.depicts hsecond
    (hlength.congr fun hslot => absurd hslot hkind) hmaterialize
  rw [withoutOperand_of_ne hkind] at hpushed
  have := cutsTo_split (hreaches.trans hpushed) hdenotes hsplit
  rw [List.append_assoc] at this
  exact this

/-- A block of three names that is ready. -/
theorem ready_triple {name'' : String} (h : Depicts s.table slots)
    (hready : stackBlockIsReady s.table [name, name', name''] = true) :
    ∃ slot slot' slot'', findNamed (s.table.resolveBindSymbol name) slots.1 = some slot ∧
      findNamed (s.table.resolveBindSymbol name') slots.1 = some slot' ∧
      findNamed (s.table.resolveBindSymbol name'') slots.1 = some slot'' ∧
      slots.1 = slot'' :: slot' :: slot :: takeNamed (s.table.resolveBindSymbol name'')
        (takeNamed (s.table.resolveBindSymbol name')
          (takeNamed (s.table.resolveBindSymbol name) slots.1)) := by
  simp only [stackBlockIsReady, List.zipIdx_cons, List.zipIdx_nil, List.all_cons, List.all_nil,
    List.length_cons, List.length_nil, Bool.and_true, Bool.and_eq_true, decide_eq_true_eq] at hready
  obtain ⟨hname, hname', hname''⟩ := hready
  have hne := resolve_ne_of_getPos hname' hname'' (by decide)
  obtain ⟨hlt, hfind, htake⟩ := h.findNamed_of_getPos hname
  obtain ⟨hlt', hfind', -⟩ := h.findNamed_of_getPos hname'
  obtain ⟨hlt'', hfind'', -⟩ := h.findNamed_of_getPos hname''
  refine ⟨_, _, _, hfind, hfind', hfind'', ?_⟩
  obtain ⟨main, alt⟩ := slots
  match main, hlt with
  | slot'' :: slot' :: slot :: rest, _ =>
      have hslot' : slot'.1 = _ := name_of_findNamed hfind'
      have hslot'' : slot''.1 = _ := name_of_findNamed hfind''
      rw [← hslot', ← hslot''] at hne
      have herase : (slot'' :: slot' :: slot :: rest).eraseIdx (2 : ℕ) = slot'' :: slot' :: rest := rfl
      rw [htake, ← hslot', ← hslot'']
      simp [takeNamed_cons_ne hne.symm, takeNamed_cons_self]

/-- Where the block `[length, object, start]` finds a slot that is not the start's. -/
def StartShadowed (st : SymbolTable) (object : StackElement) (start length : SliceOperand) : Prop :=
  start.isBeginning = false ∧ length.kind = .stackValue ∧ start.kind ≠ .stackValue ∧
    stackBlockIsReady st [length.element.name, object.name, start.element.name] = true

instance (st : SymbolTable) (object : StackElement) (start length : SliceOperand) :
    Decidable (StartShadowed st object start length) :=
  inferInstanceAs (Decidable (_ ∧ _ ∧ _ ∧ _))

section LengthBlock

variable (h : Depicts s.table slots) (hfirst : classify first = .ok start)
  (hsecond : classify second = .ok length)
  (hobject : findNamed (s.table.resolveBindSymbol object.name) slots.1 = some x)
  (hstartNe : start.kind = .stackValue → s.table.resolveBindSymbol start.element.name ≠
    s.table.resolveBindSymbol object.name)
  (hlengthNe : s.table.resolveBindSymbol length.element.name ≠
    s.table.resolveBindSymbol object.name)
  (hlengthStart : start.kind = .stackValue → s.table.resolveBindSymbol length.element.name ≠
    s.table.resolveBindSymbol start.element.name)
  (hkind : length.kind = .stackValue) (hstart : Stands env s.table slots.1 start n)
  (hlength : Stands env s.table slots.1 length m)
  (hplain : start.kind ≠ .stackValue →
    stackBlockIsReady s.table [length.element.name, object.name, start.element.name] = false)

include h hfirst hsecond hobject hstartNe hlengthNe hlengthStart hkind hstart hlength hplain

/-- The block `[length, object, start]` is brought to the top. -/
theorem reaches_prepareLengthBlock (hrun : prepareLengthBlock object start length s = .ok (code, s')) :
    ∃ slotStart slotLength, Denotes slotStart.2 n ∧ Denotes slotLength.2 m ∧
      Reaches env s slots code s' (slotStart :: x :: slotLength :: withoutOperand s.table start
        (takeNamed (s.table.resolveBindSymbol object.name)
          (takeNamed (s.table.resolveBindSymbol length.element.name) slots.1)), slots.2) := by
  have hlengthSlot := hlength
  simp only [Stands, hkind] at hlengthSlot
  obtain ⟨slotLength, hfindLength, hdenotesLength⟩ := hlengthSlot
  unfold prepareLengthBlock at hrun
  split_ifs at hrun with hready
  · cases hrun
    have hstartKind : start.kind = .stackValue := by
      by_contra hnot
      rw [hplain hnot] at hready
      exact absurd hready (by decide)
    simp only [Stands, hstartKind] at hstart
    obtain ⟨slotStart, hfindStart, hdenotesStart⟩ := hstart
    obtain ⟨_, _, _, hfind, hfind', hfind'', hmain⟩ := ready_triple h hready
    obtain rfl := Option.some.inj (hfind.symm.trans hfindLength)
    obtain rfl := Option.some.inj (hfind'.symm.trans hobject)
    obtain rfl := Option.some.inj (hfind''.symm.trans hfindStart)
    refine ⟨_, _, hdenotesStart, hdenotesLength, ?_⟩
    rw [withoutOperand, if_pos hstartKind, ← hmain]
    exact Reaches.refl h
  · obtain ⟨code₁, s₂, code₂, hblock, hmaterializeStart, rfl⟩ := Visit.seq_ok hrun
    obtain ⟨code₃, s₁, code₄, hmaterializeLength, hbring, rfl⟩ := Visit.seq_ok hblock
    obtain ⟨slot, -, hreachesLength⟩ := reaches_materialize h hsecond hlength hmaterializeLength
    -- the slot that is brought up is the one of the length
    rw [materialize, if_pos hkind] at hmaterializeLength
    obtain ⟨slot', hfind', hreachesLength⟩ := reaches_bringName env h hmaterializeLength
    obtain rfl := Option.some.inj (hfind'.symm.trans hfindLength)
    have hnameLength := name_of_findNamed hfind'
    obtain ⟨slotObject, hfindObject, hreachesObject⟩ :=
      reaches_bringName env hreachesLength.depicts hbring
    rw [hreachesLength.resolve] at hfindObject hreachesObject
    rw [findNamed_cons_ne (by rw [hnameLength]; exact hlengthNe), findNamed_takeNamed hlengthNe.symm]
      at hfindObject
    rw [takeNamed_cons_ne (by rw [hnameLength]; exact hlengthNe)] at hreachesObject
    obtain rfl := Option.some.inj (hfindObject.symm.trans hobject)
    have hnameObject := name_of_findNamed hobject
    have hresolve := hreachesObject.resolve.trans hreachesLength.resolve
    have hblockReaches := hreachesLength.trans hreachesObject
    have hstart' : Stands env s₂.table (slotObject :: slot' ::
        takeNamed (s.table.resolveBindSymbol object.name)
          (takeNamed (s.table.resolveBindSymbol length.element.name) slots.1)) start n := by
      refine hstart.congr fun hstartKind => ?_
      have hne := hstartNe hstartKind
      have hne' := (hlengthStart hstartKind).symm
      rw [hresolve, findNamed_cons_ne (by rw [hnameObject]; exact hne.symm),
        findNamed_cons_ne (by rw [hnameLength]; exact hne'.symm), findNamed_takeNamed hne,
        findNamed_takeNamed hne']
    obtain ⟨slotStart, hdenotesStart, hreachesStart⟩ := reaches_materialize hblockReaches.depicts
      hfirst hstart' hmaterializeStart
    refine ⟨slotStart, slot', hdenotesStart, hdenotesLength, ?_⟩
    have hrest : withoutOperand s₂.table start (slotObject :: slot' ::
          takeNamed (s.table.resolveBindSymbol object.name)
            (takeNamed (s.table.resolveBindSymbol length.element.name) slots.1)) =
        slotObject :: slot' :: withoutOperand s.table start
          (takeNamed (s.table.resolveBindSymbol object.name)
            (takeNamed (s.table.resolveBindSymbol length.element.name) slots.1)) := by
      unfold withoutOperand
      split_ifs with hstartKind
      · rw [hresolve, takeNamed_cons_ne (by rw [hnameObject]; exact (hstartNe hstartKind).symm),
          takeNamed_cons_ne (by rw [hnameLength]; exact hlengthStart hstartKind)]
      · rfl
    rw [hrest] at hreachesStart
    exact hblockReaches.trans hreachesStart

/-- A slice whose length has a slot. -/
theorem cutsTo_lengthBlock
    (hrun : (((prepareLengthBlock object start length).seq (splitToResult true)).seq
      (rollLength length)).seq (splitToResult false) s = .ok (code, s')) :
    CutsTo env s slots code s'
      (withoutOperand s.table start (takeNamed (s.table.resolveBindSymbol object.name)
        (takeNamed (s.table.resolveBindSymbol length.element.name) slots.1)))
      ((0 ≤ n ∧ n ≤ x.2.length) ∧ 0 ≤ m ∧ m ≤ (x.2.drop n.toNat).length)
      ((x.2.drop n.toNat).take m.toNat) := by
  obtain ⟨code₁, s₃, code₂, hrolled, hsplit, rfl⟩ := Visit.seq_ok hrun
  obtain ⟨code₃, s₂, code₄, hcut, hroll, rfl⟩ := Visit.seq_ok hrolled
  obtain ⟨code₅, s₁, code₆, hblock, hfirstSplit, rfl⟩ := Visit.seq_ok hcut
  obtain ⟨slotStart, slotLength, hdenotesStart, hdenotesLength, hreaches⟩ :=
    reaches_prepareLengthBlock h hfirst hsecond hobject hstartNe hlengthNe hlengthStart hkind hstart
      hlength hplain hblock
  have hone := cutsTo_split hreaches hdenotesStart hfirstSplit
  rw [List.append_assoc]
  refine hone.andThen ?_
  intro name hsuffix
  unfold rollLength at hroll
  split_ifs at hroll with hpos
  obtain ⟨hlt, -, -⟩ := hsuffix.depicts.findNamed_of_getPos hpos
  obtain ⟨s₃', hrun', -, -, hswapped⟩ := reaches_rollToTop env hsuffix.depicts hlt
  rw [hroll] at hrun'
  obtain ⟨rfl, rfl⟩ := Prod.mk.inj (Except.ok.inj hrun')
  have hsecondCut := cutsTo_split (hsuffix.trans hswapped) hdenotesLength hsplit
  rw [List.append_assoc] at hsecondCut
  exact hsecondCut

end LengthBlock

/-! ### The interpreter -/

/-- The bounds the code can cut at: a known `-1` apart, the start lies in the byte string and the
length in what follows the start. -/
def SliceInRange (start length : SliceOperand) (n m : ℤ) (x : Bytes) : Prop :=
  (start.isBeginning = false → 0 ≤ n ∧ n ≤ x.length) ∧
    (length.isToEnd = false → 0 ≤ m ∧ (if start.isBeginning then 0 else n) + m ≤ x.length)

instance (start length : SliceOperand) (n m : ℤ) (x : Bytes) :
    Decidable (SliceInRange start length n m x) :=
  inferInstanceAs (Decidable ((_ → _) ∧ (_ → _)))

/-- The main stack without the slots of the inputs. -/
def sliceRest (st : SymbolTable) (object : StackElement) (start length : SliceOperand)
    (main : List (String × Bytes)) : List (String × Bytes) :=
  withoutOperand st length (withoutOperand st start (takeNamed (st.resolveBindSymbol object.name) main))

/-- **The code leaves what the interpreter returns**: in place of the inputs the bytes of
`sliceBytes` are on top of the stack, every other slot is as it was, and the picture shows this. -/
def SliceExact (env : ScriptEnv) (s : VisitorState) (slots : NamedStacks) (object : StackElement)
    (start length : SliceOperand) (value : RuntimeValue) (n m : ℤ) (code : List String)
    (s' : VisitorState) : Prop :=
  ∃ result bytes name, sliceBytes value n m = .ok result ∧ result.toScriptBytes = .ok bytes ∧
    Takes env code slots.values
      (NamedStacks.values ((name, bytes) :: sliceRest s.table object start length slots.1, slots.2)) ∧
    Depicts s'.table ((name, bytes) :: sliceRest s.table object start length slots.1, slots.2)

/-- The window of a byte string that `sliceBytes` returns. -/
def sliceWindow (x : Bytes) (n m : ℤ) : Bytes :=
  (x.take (if 0 ≤ m then min x.length (min (if n < 0 then 0 else n.toNat) x.length + m.toNat)
    else x.length)).drop (min (if n < 0 then 0 else n.toNat) x.length)

theorem sliceBytes_bytes (x : Bytes) (declaredType : String) (n m : ℤ) :
    ∃ result, sliceBytes (.bytes x declaredType) n m = .ok result ∧
      result.toScriptBytes = .ok (sliceWindow x n m) := by
  refine ⟨RuntimeValue.fromBytes (sliceWindow x n m) _, rfl, ?_⟩
  exact rfl

theorem sliceWindow_of_inRange {x : Bytes} (hn : 0 ≤ n) (hlen : n ≤ x.length)
    (hm : 0 ≤ m) (hend : n + m ≤ x.length) :
    sliceWindow x n m = (x.drop n.toNat).take m.toNat := by
  have hmin : min n.toNat x.length = n.toNat := by omega
  have hmin' : min x.length (n.toNat + m.toNat) = n.toNat + m.toNat := by omega
  rw [sliceWindow, if_neg (by omega), if_pos hm, hmin, hmin', List.drop_take]
  congr 1
  omega

theorem sliceWindow_beginning {x : Bytes} (hn : n ≤ 0) (hm : 0 ≤ m)
    (hend : m ≤ x.length) : sliceWindow x n m = x.take m.toNat := by
  have hzero : min (if n < 0 then 0 else n.toNat) x.length = 0 := by
    split_ifs <;> omega
  have hmin : min x.length (0 + m.toNat) = m.toNat := by omega
  rw [sliceWindow, hzero, if_pos hm, hmin, List.drop_zero]

theorem sliceWindow_toEnd {x : Bytes} (hn : 0 ≤ n) (hlen : n ≤ x.length) (hm : m < 0) :
    sliceWindow x n m = x.drop n.toNat := by
  have hmin : min n.toNat x.length = n.toNat := by omega
  rw [sliceWindow, if_neg (by omega), if_neg (by omega), hmin, List.take_length]

/-- Code that cuts where `ok` holds is exact where `ok` holds. -/
theorem sliceExact_iff_of_cutsTo {declaredType : String} {ok : Prop} {result : Bytes}
    (h : CutsTo env s slots code s' (sliceRest s.table object start length slots.1) ok result)
    (hwindow : ok → sliceWindow x.2 n m = result) :
    SliceExact env s slots object start length (.bytes x.2 declaredType) n m code s' ↔ ok := by
  obtain ⟨value, hvalue, hbytes⟩ := sliceBytes_bytes x.2 declaredType n m
  constructor
  · rintro ⟨_, bytes, name, -, -, htakes, -⟩
    by_contra hnot
    exact h.fails hnot [] _ (by rw [List.append_nil]; exact htakes)
  · intro hok
    obtain ⟨name, hreaches⟩ := h.reaches hok
    refine ⟨value, _, name, hvalue, hbytes, ?_⟩
    rw [hwindow hok]
    exact ⟨hreaches.takes, hreaches.depicts⟩

/-- A cut, where it succeeds, leaves one slot for two. -/
theorem takes_splitCode_of_ok {value x : Bytes} {main t : Stack} (keepRight : Bool) (alt : Stack)
    (h : opSplit (value :: x :: main) = .ok t) :
    ∃ result, Takes env (splitCode keepRight) (value :: x :: main, alt) (result :: main, alt) := by
  obtain ⟨right, left, rfl⟩ : ∃ right left, t = right :: left :: main := by
    simp only [opSplit, Stack.pop_cons, bind, Except.bind] at h
    split at h
    · split_ifs at h
      exact ⟨_, _, (Except.ok.inj h).symm⟩
    · cases h
  have hsplit : Takes env (emitOp .opSplit) (value :: x :: main, alt) (right :: left :: main, alt) :=
    takes_op alt (by decide) rfl h
  cases keepRight with
  | true => exact ⟨_, hsplit.trans (takes_nip _ _ _ _)⟩
  | false => exact ⟨_, hsplit.trans (takes_drop _ _ _)⟩

/-- **A slot that passes for the start is cut away**: the code is never exact. -/
theorem not_sliceExact_of_shadowed {value : RuntimeValue} (h : Depicts s.table slots)
    (hshadow : StartShadowed s.table object start length)
    (hrun : (((prepareLengthBlock object start length).seq (splitToResult true)).seq
      (rollLength length)).seq (splitToResult false) s = .ok (code, s')) :
    ¬ SliceExact env s slots object start length value n m code s' := by
  obtain ⟨-, hlengthKind, hstartKind, hready⟩ := hshadow
  obtain ⟨code₁, s₃, code₂, hrolled, hsplit, rfl⟩ := Visit.seq_ok hrun
  obtain ⟨code₃, s₂, code₄, hcut, hroll, rfl⟩ := Visit.seq_ok hrolled
  obtain ⟨code₅, s₁, code₆, hblock, hfirstSplit, rfl⟩ := Visit.seq_ok hcut
  rw [prepareLengthBlock, if_pos hready] at hblock
  cases hblock
  obtain ⟨slotL, slotO, slotS, hfindL, hfindO, hfindS, hmain⟩ := ready_triple h hready
  simp only [stackBlockIsReady, List.zipIdx_cons, List.zipIdx_nil, List.all_cons, List.all_nil,
    List.length_cons, List.length_nil, Bool.and_true, Bool.and_eq_true, decide_eq_true_eq] at hready
  obtain ⟨hposL, hposO, hposS⟩ := hready
  have hSO := resolve_ne_of_getPos hposS hposO (by decide)
  have hSL := resolve_ne_of_getPos hposS hposL (by decide)
  generalize takeNamed (s.table.resolveBindSymbol start.element.name)
    (takeNamed (s.table.resolveBindSymbol object.name)
      (takeNamed (s.table.resolveBindSymbol length.element.name) slots.1)) = rest at hmain
  have hrest : sliceRest s.table object start length slots.1 = slotS :: rest := by
    rw [← name_of_findNamed hfindS, ← name_of_findNamed hfindO] at hSO
    rw [← name_of_findNamed hfindS, ← name_of_findNamed hfindL] at hSL
    rw [sliceRest, withoutOperand_of_ne hstartKind, withoutOperand, if_pos hlengthKind, hmain,
      ← name_of_findNamed hfindO, ← name_of_findNamed hfindL, takeNamed_cons_ne hSO,
      takeNamed_cons_self, takeNamed_cons_ne hSL, takeNamed_cons_self]
  obtain ⟨main, alt⟩ := slots
  simp only at hmain
  subst hmain
  obtain ⟨rfl, -, name, hdepicts⟩ := splitToResult_ok h hfirstSplit
  have hrollCode : code₄ = emitOp .opSwap := by
    unfold rollLength at hroll
    split_ifs at hroll with hpos
    rw [Visit.rollToTop, if_neg (by decide)] at hroll
    cases hone : s₂.table.roll 1 with
    | error error => simp [hone, Except.map] at hroll
    | ok table =>
        simp only [hone, Except.map, Except.ok.injEq, Prod.mk.injEq] at hroll
        exact hroll.1.symm
  rintro ⟨_, bytes, name', -, -, htakes, -⟩
  rw [hrest, List.nil_append] at htakes
  subst hrollCode
  cases hfirst : opSplit (slotS.2 :: slotO.2 :: slotL.2 :: rest.map Prod.snd) with
  | error error =>
      rw [splitCode, List.append_assoc, List.append_assoc] at htakes
      exact not_takes_split hfirst _ _ htakes
  | ok t =>
      obtain ⟨suffix, hsuffix⟩ := @takes_splitCode_of_ok env _ _ _ _ true (alt.map Prod.snd) hfirst
      have hswap : Takes env (emitOp .opSwap) (suffix :: slotL.2 :: rest.map Prod.snd, alt.map Prod.snd)
          (slotL.2 :: suffix :: rest.map Prod.snd, alt.map Prod.snd) := takes_op _ (by decide) rfl rfl
      have hprefix := hsuffix.trans hswap
      have hlast := takes_of_append hprefix htakes
      obtain rfl := (splitToResult_run hsplit).1
      cases hsecond : opSplit (slotL.2 :: suffix :: rest.map Prod.snd) with
      | error error =>
          rw [splitCode] at hlast
          exact not_takes_split hsecond _ _ hlast
      | ok t' =>
          obtain ⟨window, hwindow⟩ := @takes_splitCode_of_ok env _ _ _ _ false (alt.map Prod.snd) hsecond
          have hsame := takes_unique hlast hwindow
          have hlen := congrArg (fun stack => stack.1.length) hsame
          simp [NamedStacks.values] at hlen

/-! ### Agreement -/

theorem takeNamed_comm (name name' : String) (slots : List (String × Bytes)) :
    takeNamed name (takeNamed name' slots) = takeNamed name' (takeNamed name slots) := by
  by_cases hsame : name = name'
  · rw [hsame]
  induction slots with
  | nil => rfl
  | cons slot slots ih =>
      by_cases hslot : slot.1 = name
      · subst hslot
        rw [takeNamed_cons_self, takeNamed_cons_ne hsame, takeNamed_cons_self]
      · by_cases hslot' : slot.1 = name'
        · subst hslot'
          rw [takeNamed_cons_self, takeNamed_cons_ne hslot, takeNamed_cons_self]
        · rw [takeNamed_cons_ne hslot, takeNamed_cons_ne hslot', takeNamed_cons_ne hslot,
            takeNamed_cons_ne hslot', ih]

theorem kind_of_immediateValue (h : classify element = .ok operand)
    (hvalue : operand.immediateValue = some number) : operand.kind = .immediate := by
  unfold classify at h
  split_ifs at h
  · obtain rfl := Except.ok.inj h
    cases hvalue
  · obtain rfl := Except.ok.inj h
    rfl
  · obtain rfl := Except.ok.inj h
    cases hvalue

/-- **The code of a slice agrees with the interpreter exactly on the bounds in range.**  For every
picture of two stacks of named values, every object and every pair of bounds that the lowering
accepts, the code leaves the bytes of `sliceBytes` in place of the inputs, and the picture shows
this, if and only if the bounds that are not a known boundary lie in the byte string and no slot
passes for a start that has none. -/
theorem slice_exact_iff (env : ScriptEnv) {s s' : VisitorState} {slots : NamedStacks}
    {code : List String} {object first second : StackElement} {start length : SliceOperand}
    {x : String × Bytes} {n m : ℤ} (declaredType : String) (h : Depicts s.table slots)
    (hfirst : classify first = .ok start) (hsecond : classify second = .ok length)
    (hobject : findNamed (s.table.resolveBindSymbol object.name) slots.1 = some x)
    (hstart : Stands env s.table slots.1 start n) (hlength : Stands env s.table slots.1 length m)
    (hrun : processSliceBuiltin object [first, second] s = .ok (code, s')) :
    SliceExact env s slots object start length (.bytes x.2 declaredType) n m code s' ↔
      SliceInRange start length n m x.2 ∧ ¬ StartShadowed s.table object start length := by
  simp only [processSliceBuiltin, hfirst, hsecond, Except.bind] at hrun
  split_ifs at hrun with hboth
  cases hcheck : checkSliceInputs s.table object start length with
  | error error => simp [hcheck] at hrun
  | ok positions =>
  obtain ⟨hstartNe, hlengthNe, hlengthStart⟩ := distinct_of_checkSliceInputs hcheck
  simp only [hcheck] at hrun
  unfold sliceSteps at hrun
  split_ifs at hrun with hbegin hend hkind
  -- the prefix
  · have hvalue : start.immediateValue = some (-1) ∨ start.immediateValue = some 0 := by
      simpa [SliceOperand.isBeginning] using hbegin
    have hstartKind : start.kind = .immediate := by
      rcases hvalue with hvalue | hvalue <;> exact kind_of_immediateValue hfirst hvalue
    have hn : n ≤ 0 := by
      simp only [Stands, hstartKind] at hstart
      rcases hvalue with hvalue | hvalue <;> rw [hvalue] at hstart <;>
        obtain rfl := Option.some.inj hstart <;> omega
    have hplain : ¬ StartShadowed s.table object start length := by
      rintro ⟨hnot, -⟩
      rw [hbegin] at hnot
      cases hnot
    have hnotEnd : length.isToEnd = false := by simpa [hbegin] using hboth
    have hcut := cutsTo_oneCut h hsecond hobject hlengthNe hlength hrun
    have hrest : sliceRest s.table object start length slots.1 = withoutOperand s.table length
        (takeNamed (s.table.resolveBindSymbol object.name) slots.1) := by
      rw [sliceRest, @withoutOperand_of_ne start (by simp [hstartKind])]
    rw [← hrest] at hcut
    rw [sliceExact_iff_of_cutsTo hcut fun hok => sliceWindow_beginning hn hok.1 hok.2]
    simp only [SliceInRange, hbegin, hnotEnd, hplain, not_false_eq_true, and_true, if_true]
    constructor
    · rintro ⟨hlo, hhi⟩
      exact ⟨by simp, fun _ => ⟨hlo, by omega⟩⟩
    · rintro ⟨-, hrange⟩
      obtain ⟨hlo, hhi⟩ := hrange trivial
      exact ⟨hlo, by omega⟩
  -- the suffix
  · have hvalue : length.immediateValue = some (-1) := by
      simpa [SliceOperand.isToEnd] using hend
    have hlengthKind := kind_of_immediateValue hsecond hvalue
    have hm : m < 0 := by
      simp only [Stands, hlengthKind, hvalue] at hlength
      obtain rfl := Option.some.inj hlength
      omega
    have hplain : ¬ StartShadowed s.table object start length := by
      rintro ⟨-, hnot, -⟩
      rw [hlengthKind] at hnot
      cases hnot
    have hcut := cutsTo_oneCut h hfirst hobject hstartNe hstart hrun
    have hrest : sliceRest s.table object start length slots.1 = withoutOperand s.table start
        (takeNamed (s.table.resolveBindSymbol object.name) slots.1) := by
      rw [sliceRest, @withoutOperand_of_ne length (by simp [hlengthKind])]
    rw [← hrest] at hcut
    rw [sliceExact_iff_of_cutsTo hcut fun hok => sliceWindow_toEnd hok.1 hok.2 hm]
    simp [SliceInRange, hbegin, hend, hplain]
  -- the window with a length on the stack
  · by_cases hshadow : StartShadowed s.table object start length
    · exact iff_of_false (not_sliceExact_of_shadowed h hshadow hrun) fun hboth => hboth.2 hshadow
    · have hplain : start.kind ≠ .stackValue →
          stackBlockIsReady s.table [length.element.name, object.name, start.element.name] = false := by
        intro hstartKind
        by_contra hready
        exact hshadow ⟨by simpa using hbegin, hkind, hstartKind, by simpa using hready⟩
      have hcut := cutsTo_lengthBlock h hfirst hsecond hobject hstartNe (hlengthNe hkind)
        (fun hstartKind => hlengthStart hstartKind hkind) hkind hstart hlength hplain hrun
      have hrest : sliceRest s.table object start length slots.1 = withoutOperand s.table start
          (takeNamed (s.table.resolveBindSymbol object.name)
            (takeNamed (s.table.resolveBindSymbol length.element.name) slots.1)) := by
        rw [sliceRest, withoutOperand, if_pos hkind]
        unfold withoutOperand
        split_ifs
        · rw [takeNamed_comm, takeNamed_comm (s.table.resolveBindSymbol length.element.name)]
        · rw [takeNamed_comm]
      rw [← hrest] at hcut
      rw [sliceExact_iff_of_cutsTo hcut fun hok => sliceWindow_of_inRange hok.1.1 hok.1.2 hok.2.1
        (by have := hok.2.2; rw [List.length_drop] at this; omega)]
      simp only [SliceInRange, List.length_drop]
      simp only [hbegin, hend, hshadow, not_false_eq_true, and_true, Bool.false_eq_true, if_false]
      constructor
      · rintro ⟨hn, hm⟩
        exact ⟨fun _ => hn, fun _ => ⟨hm.1, by omega⟩⟩
      · rintro ⟨hn, hm⟩
        have hn' := hn trivial
        have hm' := hm trivial
        exact ⟨hn', hm'.1, by omega⟩
  -- the window with a length that is pushed
  · have hplain : ¬ StartShadowed s.table object start length := fun hshadow => hkind hshadow.2.1
    have hcut := cutsTo_twoCuts h hfirst hsecond hobject hstartNe hkind hstart hlength hrun
    have hrest : sliceRest s.table object start length slots.1 = withoutOperand s.table start
        (takeNamed (s.table.resolveBindSymbol object.name) slots.1) := by
      rw [sliceRest, @withoutOperand_of_ne length hkind]
    rw [← hrest] at hcut
    rw [sliceExact_iff_of_cutsTo hcut fun hok => sliceWindow_of_inRange hok.1.1 hok.1.2 hok.2.1
      (by have := hok.2.2; rw [List.length_drop] at this; omega)]
    simp only [SliceInRange, List.length_drop]
    simp only [hbegin, hend, hplain, not_false_eq_true, and_true, Bool.false_eq_true, if_false]
    constructor
    · rintro ⟨hn, hm⟩
      exact ⟨fun _ => hn, fun _ => ⟨hm.1, by omega⟩⟩
    · rintro ⟨hn, hm⟩
      have hn' := hn trivial
      have hm' := hm trivial
      exact ⟨hn', hm'.1, by omega⟩

/-- A picture of a length below a byte string: `data.Slice(1, n)`. -/
def lengthBelowData : VisitorState where
  table := ⟨[⟨"n", "", ""⟩, ⟨"data", "", ""⟩], [], [], [], [], [], [], 0, 0⟩

theorem processSliceBuiltin_lengthBelowData :
    processSliceBuiltin ⟨"data", "", ""⟩ [⟨"0x51", "", ""⟩, ⟨"n", "", ""⟩] lengthBelowData =
      .ok (["7c", "51", "7f", "77", "7c", "7f", "75"],
        ⟨⟨[⟨"/CompilerPlaceholder_2/", "bytes", "/CompilerPlaceholder_2/"⟩], [],
          ["/CompilerPlaceholder_2/"], [], [], [], [], 0, 0⟩, [], 3⟩) := by
  decide +kernel

/-- Where the length is two, the slice is exact. -/
theorem slice_exact_iff_two :
    SliceExact ScriptEnv.plain lengthBelowData
      ([("n", [0x02]), ("data", [0x01, 0x02, 0x03, 0x04])], []) ⟨"data", "", ""⟩
      ⟨⟨"0x51", "", ""⟩, .immediate, some 1⟩ ⟨⟨"n", "", ""⟩, .stackValue, none⟩
      (.bytes [0x01, 0x02, 0x03, 0x04] "bytes") 1 2
      ["7c", "51", "7f", "77", "7c", "7f", "75"]
      ⟨⟨[⟨"/CompilerPlaceholder_2/", "bytes", "/CompilerPlaceholder_2/"⟩], [],
        ["/CompilerPlaceholder_2/"], [], [], [], [], 0, 0⟩, [], 3⟩ := by
  have hdepicts : Depicts lengthBelowData.table
      ([("n", [0x02]), ("data", [0x01, 0x02, 0x03, 0x04])], []) := ⟨rfl, by decide, by decide⟩
  have hfirst : classify ⟨"0x51", "", ""⟩ = .ok ⟨⟨"0x51", "", ""⟩, .immediate, some 1⟩ := by
    decide +kernel
  have hsecond : classify ⟨"n", "", ""⟩ = .ok ⟨⟨"n", "", ""⟩, .stackValue, none⟩ := by
    decide +kernel
  have hstart : Stands ScriptEnv.plain lengthBelowData.table
      [("n", [0x02]), ("data", [0x01, 0x02, 0x03, 0x04])]
      ⟨⟨"0x51", "", ""⟩, .immediate, some 1⟩ 1 := rfl
  have hlength : Stands ScriptEnv.plain lengthBelowData.table
      [("n", [0x02]), ("data", [0x01, 0x02, 0x03, 0x04])]
      ⟨⟨"n", "", ""⟩, .stackValue, none⟩ 2 := ⟨("n", [0x02]), rfl, .inl rfl⟩
  exact (slice_exact_iff ScriptEnv.plain "bytes" hdepicts hfirst hsecond rfl hstart hlength
    processSliceBuiltin_lengthBelowData).2 ⟨by decide, by decide +kernel⟩

/-- **A length of `-1` on the stack**: the interpreter takes the bytes to the end, the code fails at
its second cut. -/
theorem slice_disagrees :
    ∃ code s',
      processSliceBuiltin ⟨"data", "", ""⟩ [⟨"0x51", "", ""⟩, ⟨"n", "", ""⟩] lengthBelowData =
          .ok (code, s') ∧
        outcome ScriptEnv.plain code [[0x81], [0x01, 0x02, 0x03, 0x04]] [] = none ∧
        (∃ result, sliceBytes (.bytes [0x01, 0x02, 0x03, 0x04] "bytes") 1 (-1) = .ok result ∧
          result.toScriptBytes = .ok [0x02, 0x03, 0x04]) ∧
        ¬ SliceExact ScriptEnv.plain lengthBelowData
          ([("n", [0x81]), ("data", [0x01, 0x02, 0x03, 0x04])], []) ⟨"data", "", ""⟩
          ⟨⟨"0x51", "", ""⟩, .immediate, some 1⟩ ⟨⟨"n", "", ""⟩, .stackValue, none⟩
          (.bytes [0x01, 0x02, 0x03, 0x04] "bytes") 1 (-1) code s' := by
  have hfails : outcome ScriptEnv.plain ["7c", "51", "7f", "77", "7c", "7f", "75"]
      [[0x81], [0x01, 0x02, 0x03, 0x04]] [] = none := by decide +kernel
  refine ⟨_, _, processSliceBuiltin_lengthBelowData, hfails, ?_, ?_⟩
  · exact sliceBytes_bytes [0x01, 0x02, 0x03, 0x04] "bytes" 1 (-1)
  · rintro ⟨_, bytes, name, -, -, htakes, -⟩
    have houtcome := htakes.outcome
    rw [show NamedStacks.values ([("n", [0x81]), ("data", [0x01, 0x02, 0x03, 0x04])], []) =
      ([[0x81], [0x01, 0x02, 0x03, 0x04]], []) from rfl, hfails] at houtcome
    cases houtcome

end AtomicProof
