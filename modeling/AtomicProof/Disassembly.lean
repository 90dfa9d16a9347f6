/-
Scripts as text.

The debugger does not run the bytes of a script.  `script_decoder::bytes_to_asm` writes one word for
each instruction, `CompilerDriver::hexToAsmInstructions` splits the text at white space, and
`BVMSimulator` reads every word again: `parseInstruction` takes it apart and `executeOpcode` compares
names.  Here the text machine is set beside the instructions that the bytes decode to.

A push with a length field and no data is the one form that does not survive: its word is the bare
name of the opcode, and the machine asks for an operand.

Main definitions:

* `BytOpcode.name` — the names of the opcodes;
* `ScriptDecoder.instructionText`, `ScriptDecoder.bytesToAsm` — the disassembler;
* `words` — the words of a text;
* `BVMSimulator.parseInstruction`, `BVMSimulator.executeWord` — the text machine;
* `Decodes` — the instructions of a byte string;
* `executeDecoded` — what a decoded instruction should do.

Main results:

* `words_bytesToAsm` — there is one word for each instruction;
* `BVMSimulator.executeWord_instructionText` — **a word does what the instruction does on the
  machine of `AtomicProof/Simulator.lean`**;
* `disassemblyExact_iff` — **the disassembly is the script exactly when no push has a length field
  and no data**.
-/

import AtomicProof.ScriptCodec
import Mathlib.Data.List.Forall2
import Mathlib.Data.List.Nodup

set_option autoImplicit false

namespace AtomicProof

/-! ### The disassembler -/

namespace BytOpcode

/-- `OpcodeMapper::g_opcodeToString`. -/
def name : BytOpcode → String
  | op0 => "OP_0" | opPushdata1 => "OP_PUSHDATA1" | opPushdata2 => "OP_PUSHDATA2"
  | opPushdata4 => "OP_PUSHDATA4" | op1negate => "OP_1NEGATE" | op1 => "OP_1" | op2 => "OP_2"
  | op3 => "OP_3" | op4 => "OP_4" | op5 => "OP_5" | op6 => "OP_6" | op7 => "OP_7" | op8 => "OP_8"
  | op9 => "OP_9" | op10 => "OP_10" | op11 => "OP_11" | op12 => "OP_12" | op13 => "OP_13"
  | op14 => "OP_14" | op15 => "OP_15" | op16 => "OP_16" | opNop => "OP_NOP" | opIf => "OP_IF"
  | opNotif => "OP_NOTIF" | opElse => "OP_ELSE" | opEndif => "OP_ENDIF" | opVerify => "OP_VERIFY"
  | opReturn => "OP_RETURN" | opToaltstack => "OP_TOALTSTACK"
  | opFromaltstack => "OP_FROMALTSTACK" | op2drop => "OP_2DROP" | op2dup => "OP_2DUP"
  | op3dup => "OP_3DUP" | op2over => "OP_2OVER" | op2rot => "OP_2ROT" | op2swap => "OP_2SWAP"
  | opIfdup => "OP_IFDUP" | opDepth => "OP_DEPTH" | opDrop => "OP_DROP" | opDup => "OP_DUP"
  | opNip => "OP_NIP" | opOver => "OP_OVER" | opPick => "OP_PICK" | opRoll => "OP_ROLL"
  | opRot => "OP_ROT" | opSwap => "OP_SWAP" | opTuck => "OP_TUCK" | opCat => "OP_CAT"
  | opSplit => "OP_SPLIT" | opNum2bin => "OP_NUM2BIN" | opBin2num => "OP_BIN2NUM"
  | opSize => "OP_SIZE" | opInvert => "OP_INVERT" | opAnd => "OP_AND" | opOr => "OP_OR"
  | opXor => "OP_XOR" | opEqual => "OP_EQUAL" | opEqualverify => "OP_EQUALVERIFY"
  | op1add => "OP_1ADD" | op1sub => "OP_1SUB" | opNegate => "OP_NEGATE" | opAbs => "OP_ABS"
  | opNot => "OP_NOT" | op0notequal => "OP_0NOTEQUAL" | opAdd => "OP_ADD" | opSub => "OP_SUB"
  | opMul => "OP_MUL" | opDiv => "OP_DIV" | opMod => "OP_MOD" | opLshift => "OP_LSHIFT"
  | opRshift => "OP_RSHIFT" | opBooland => "OP_BOOLAND" | opBoolor => "OP_BOOLOR"
  | opNumequal => "OP_NUMEQUAL" | opNumequalverify => "OP_NUMEQUALVERIFY"
  | opNumnotequal => "OP_NUMNOTEQUAL" | opLessthan => "OP_LESSTHAN"
  | opGreaterthan => "OP_GREATERTHAN" | opLessthanorequal => "OP_LESSTHANOREQUAL"
  | opGreaterthanorequal => "OP_GREATERTHANOREQUAL" | opMin => "OP_MIN" | opMax => "OP_MAX"
  | opWithin => "OP_WITHIN" | opRipemd160 => "OP_RIPEMD160" | opSha1 => "OP_SHA1"
  | opSha256 => "OP_SHA256" | opHash160 => "OP_HASH160" | opHash256 => "OP_HASH256"
  | opCodeseparator => "OP_CODESEPARATOR" | opChecksig => "OP_CHECKSIG"
  | opChecksigverify => "OP_CHECKSIGVERIFY" | opCheckmultisig => "OP_CHECKMULTISIG"
  | opCheckmultisigverify => "OP_CHECKMULTISIGVERIFY"
  | opChecklocktimeverify => "OP_CHECKLOCKTIMEVERIFY"
  | opChecksequenceverify => "OP_CHECKSEQUENCEVERIFY" | opPushMeta => "OP_PUSH_META"
  | opPartialHash => "OP_PARTIAL_HASH" | opInvalidopcode => "OP_INVALIDOPCODE"

end BytOpcode

namespace ScriptDecoder

def opcodeToName (opcode : UInt8) : String :=
  match BytOpcode.ofByte? opcode with
  | some op => op.name
  | none => "OP_UNKNOWN(0x" ++ String.ofList (byteToHex opcode) ++ ")"

/-- The digits of the length of a push: those of the length field, or of the one byte that is the
opcode of a direct push. -/
def lengthHex (opcode : UInt8) (dataLength : ℕ) : List Char :=
  if 0x4c ≤ opcode then bytesToHex (ScriptCodec.littleEndian dataLength (lengthBytes opcode))
  else byteToHex (UInt8.ofNat dataLength)

/-- The word that `bytes_to_asm` writes for an instruction. -/
def instructionText (instr : Instruction) : String :=
  if instr.opcode ≤ 0x4e && !instr.operand.isEmpty then
    (if 0x4c ≤ instr.opcode then opcodeToName instr.opcode else "") ++
      String.ofList (lengthHex instr.opcode instr.operand.length ++ bytesToHex instr.operand)
  else opcodeToName instr.opcode

/-- The loop of `bytes_to_asm`, which may take as many rounds as there are bytes. -/
def asmLoop : ℕ → Bool → Bytes → String
  | 0, _, _ => ""
  | fuel + 1, first, bytes =>
      if bytes = [] then ""
      else
        (if first then "" else " ") ++
          match decodeInstruction bytes with
          | none => "[error]"
          | some (instr, consumed) =>
              instructionText instr ++ asmLoop fuel false (bytes.drop consumed)

def bytesToAsm (bytes : Bytes) : String := asmLoop bytes.length true bytes

end ScriptDecoder

/-! ### Words -/

/-- The words of a text, with the characters of the word that has been begun. -/
def wordsFrom (current : List Char) : List Char → List String
  | [] => if current = [] then [] else [String.ofList current.reverse]
  | c :: rest =>
      if isSpace c then
        if current = [] then wordsFrom [] rest
        else String.ofList current.reverse :: wordsFrom [] rest
      else wordsFrom (c :: current) rest

/-- The words that `>>` reads from a stream. -/
def words (text : String) : List String := wordsFrom [] text.toList

/-! ### Numbers -/

/-- The value of a character as a digit in a base of ten or sixteen. -/
def digitValue (base : ℕ) (c : Char) : Option ℕ := (hexDigit c).filter (· < base)

/-- `std::stoi` and `std::stoll` without their range: white space, a sign, `0x` in base sixteen, and
the digits up to the first other character. -/
def readInteger (base : ℕ) (text : List Char) : Option ℤ :=
  let text := text.dropWhile isSpace
  let (negative, text) :=
    match text with
    | '-' :: rest => (true, rest)
    | '+' :: rest => (false, rest)
    | _ => (false, text)
  let text :=
    match text with
    | '0' :: x :: c :: rest =>
        if base = 16 && (x = 'x' || x = 'X') && isXDigit c then c :: rest else text
    | _ => text
  let digits := text.takeWhile fun c => (digitValue base c).isSome
  if digits = [] then none
  else
    let value := digits.foldl (fun value c => value * base + (digitValue base c).getD 0) 0
    some (if negative then -value else value)

/-- `parseInteger` of the simulator. -/
def parseInteger (text : List Char) : Option ℤ :=
  if text = [] then some 0
  else
    let unsigned := match text with
      | '+' :: rest => rest
      | '-' :: rest => rest
      | _ => text
    let base := if unsigned.take 2 = ['0', 'x'] || unsigned.take 2 = ['0', 'X'] then 16 else 10
    (readInteger base text).filter fun value => -(2 ^ 63) ≤ value ∧ value < 2 ^ 63

/-! ### The text machine -/

namespace BVMSimulator

/-- `erase(0, find_first_not_of(" \t"))`. -/
def dropBlanks (text : List Char) : List Char := text.dropWhile fun c => c = ' ' || c = '\t'

/-- What follows the name of a push and the digits of its length. -/
def afterLength (digits : ℕ) (text : List Char) : String :=
  let remaining := dropBlanks text
  if digits ≤ remaining.length then String.ofList (dropBlanks (remaining.drop digits)) else ""

/-- The name of a push with a length field that a text begins with, and the digits of the field. -/
def pushdataName (text : List Char) : Option (String × ℕ) :=
  [("OP_PUSHDATA1", 2), ("OP_PUSHDATA2", 4), ("OP_PUSHDATA4", 8)].find? fun entry =>
    entry.1.toList.isPrefixOf text

/-- `BVMSimulator::parseInstruction`: the opcode and the operand of a word. -/
def parseInstruction (instruction : String) : Option (String × String) :=
  let text := instruction.toList
  let firstTwo := text.take 2
  if text = [] then none
  else if 2 ≤ text.length && (readInteger 16 firstTwo).any fun num => 1 ≤ num ∧ num ≤ 75 then
    some (String.ofList firstTwo, String.ofList (dropBlanks (text.drop 2)))
  else
    match pushdataName text with
    | some (opcode, digits) => some (opcode, afterLength digits (text.drop 12))
    | none => some (instruction, "")

/-- `parseHexToBytes`: the bytes of hexadecimal text with or without `0x`, where white space is
skipped, a missing first digit is zero and so is what is no digit. -/
def parseHexToBytes (hex : List Char) : Bytes :=
  let digits := (ScriptCodec.stripHexPrefix hex).filter fun c => !isSpace c
  let digits := if digits.length % 2 = 0 then digits else '0' :: digits
  bytesOf digits
where
  /-- Two digits a byte. -/
  bytesOf : List Char → Bytes
    | high :: low :: rest =>
        UInt8.ofNat (16 * (hexDigit high).getD 0 + (hexDigit low).getD 0) :: bytesOf rest
    | _ => []

def opPush (operand : String) (s : Stack) : Except String Stack :=
  if operand = "" then .error "OP_PUSH requires an operand"
  else .ok (parseHexToBytes operand.toList :: s)

/-- `::toupper` on a character. -/
def upper (c : Char) : Char := if 'a' ≤ c ∧ c ≤ 'z' then Char.ofNat (c.toNat - 32) else c

/-- The branch of `executeOpcode` that an opcode in capitals is handled by. -/
inductive Branch
  | constant (value : ℤ)
  | invalidConstant
  | push
  | unknownByte
  | named (op : BytOpcode)
  | unknown
  deriving DecidableEq, Repr

/-- The opcodes that `executeOpcode` compares with one after the other, once constants and pushes
have been dealt with. -/
def namedOpcodes : List BytOpcode :=
  [.opDup, .opDrop, .op2drop, .op2dup, .op3dup, .opOver, .op2over, .opRot, .op2rot, .opSwap,
    .op2swap, .opIfdup, .opDepth, .opNip, .opTuck, .opPick, .opRoll, .opToaltstack,
    .opFromaltstack, .opCat, .opSplit, .opNum2bin, .opBin2num, .opSize, .opInvert, .opAnd, .opOr,
    .opXor, .opAdd, .opSub, .opMul, .opDiv, .opNegate, .opAbs, .op1add, .op1sub, .op0notequal,
    .opMod, .opLshift, .opRshift, .opEqual, .opEqualverify, .opNumequal, .opNumequalverify,
    .opNumnotequal, .opLessthan, .opGreaterthan, .opLessthanorequal, .opGreaterthanorequal,
    .opMin, .opMax, .opWithin, .opIf, .opNotif, .opElse, .opEndif, .opNot, .opBooland, .opBoolor,
    .opNop, .opReturn, .opVerify, .opRipemd160, .opSha1, .opSha256, .opHash160, .opHash256,
    .opCodeseparator, .opChecksig, .opChecksigverify, .opCheckmultisig, .opCheckmultisigverify,
    .opChecklocktimeverify, .opChecksequenceverify, .opPushMeta, .opPartialHash]

def branchOf (op : String) : Branch :=
  if op = "OP_0" || op = "OP_FALSE" then .constant 0
  else if op = "OP_1" || op = "OP_TRUE" then .constant 1
  else if op = "OP_1NEGATE" then .constant (-1)
  else if 3 < op.toList.length && op.toList.take 3 = "OP_".toList && op.toList.length ≤ 5 &&
      (op.toList.getD 3 ' ').isDigit then
    match parseInteger (op.toList.drop 3) with
    | some value => .constant value
    | none => .invalidConstant
  else if op.toList.length = 2 && op.toList.all isXDigit then
    if (readInteger 16 op.toList).any fun opByte => 1 ≤ opByte ∧ opByte ≤ 0x4b then .push
    else .unknownByte
  else if op = "OP_PUSHDATA1" || op = "OP_PUSHDATA2" || op = "OP_PUSHDATA4" then .push
  else
    match namedOpcodes.find? fun known => known.name = op with
    | some known => .named known
    | none => .unknown

/-- Whether an opcode in capitals acts in a branch of the script that is not taken. -/
def isControlFlow (op : String) : Bool :=
  op = "OP_IF" || op = "OP_NOTIF" || op = "OP_ELSE" || op = "OP_ENDIF"

def executeOpcode (env : Env) (opcode operand : String) (vm : VM) : Except String VM :=
  let op := String.ofList (opcode.toList.map upper)
  if !vm.isCurrentlyExecuting && !isControlFlow op then .ok vm
  else
    match branchOf op with
    | .constant value => vm.onMain fun s => pure (Stack.pushInt value s)
    | .invalidConstant => .error ("Invalid OP_n constant: " ++ op)
    | .push => vm.onMain (opPush operand)
    | .unknownByte => .error ("Unknown opcode byte: 0x" ++ op)
    | .named known => executeKnown env [] known vm
    | .unknown => .error ("Unknown opcode: " ++ opcode)

/-- The part of `executeInstruction` that acts on the machine: a word is parsed and executed. -/
def executeWord (env : Env) (instruction : String) (vm : VM) : Except String VM :=
  match parseInstruction instruction with
  | some (opcode, operand) => executeOpcode env opcode operand vm
  | none => .error ("Failed to parse instruction: " ++ instruction)

end BVMSimulator

/-! ### Names -/

namespace BytOpcode

theorem mem_all (op : BytOpcode) : op ∈ all := by
  cases op <;> decide

theorem ofByte?_eq_none_of_direct : ∀ n : Fin 76, 0 < n.val → ofByte? (UInt8.ofNat n) = none := by
  decide +kernel

def nameKey (op : BytOpcode) : ℕ :=
  op.name.toByteArray.data.toList.foldl (fun key byte => key * 256 + byte.toNat) 0

theorem name_injective : Function.Injective name := by
  intro op op' h
  -- one evaluation for all names
  have hnodup : (all.map nameKey).Nodup := by decide +kernel
  refine List.inj_on_of_nodup_map hnodup op.mem_all op'.mem_all ?_
  rw [nameKey, nameKey, h]

theorem name_eq_iff {op op' : BytOpcode} : op.name = op'.name ↔ op = op' := name_injective.eq_iff

end BytOpcode

namespace BVMSimulator

/-- The branch of an opcode that is written by its name. -/
def branchFor (op : BytOpcode) : Branch :=
  match smallInteger op with
  | some value => .constant value
  | none =>
      if op = .opPushdata1 || op = .opPushdata2 || op = .opPushdata4 then .push
      else if op = .opInvalidopcode then .unknown
      else .named op

/-- What there is to know about the name of an opcode. -/
structure NameSpec (op : BytOpcode) : Prop where
  upper : op.name.toList.map upper = op.name.toList
  branch : branchOf op.name = branchFor op
  control : isControlFlow op.name = isConditional op
  parse : parseInstruction op.name = some (op.name, "")
  paren : '(' ∉ op.name.toList
  nonempty : op.name.toList ≠ []
  spaces : ∀ c ∈ op.name.toList, isSpace c = false

/-- A word that begins with `OP` is no direct push. -/
theorem parseInstruction_of_take {instruction : String}
    (h : instruction.toList.take 2 = ['O', 'P']) :
    parseInstruction instruction =
      match pushdataName instruction.toList with
      | some (opcode, digits) => some (opcode, afterLength digits (instruction.toList.drop 12))
      | none => some (instruction, "") := by
  have hne : instruction.toList ≠ [] := by
    intro hnil
    rw [hnil] at h
    cases h
  have hread : readInteger 16 ['O', 'P'] = none := by rfl
  simp only [parseInstruction, if_neg hne, h, hread, Option.any_none, Bool.and_false,
    Bool.false_eq_true, if_false]

/-- The name of a push that a text begins with. -/
theorem pushdataName_spec {text : List Char} {entry : String × ℕ}
    (h : pushdataName text = some entry) :
    (entry.1.toList.length = 12 ∧
      entry.1.toList.take 11 = ['O', 'P', '_', 'P', 'U', 'S', 'H', 'D', 'A', 'T', 'A']) ∧
    entry.1.toList <+: text := by
  have hmem := List.mem_of_find?_eq_some h
  have hprefix := List.find?_some h
  refine ⟨?_, List.isPrefixOf_iff_prefix.1 hprefix⟩
  simp only [List.mem_cons, List.not_mem_nil, or_false] at hmem
  rcases hmem with rfl | rfl | rfl
  · rw [show "OP_PUSHDATA1".toList = _ from String.toList_ofList]
    exact ⟨rfl, rfl⟩
  · rw [show "OP_PUSHDATA2".toList = _ from String.toList_ofList]
    exact ⟨rfl, rfl⟩
  · rw [show "OP_PUSHDATA4".toList = _ from String.toList_ofList]
    exact ⟨rfl, rfl⟩

/-- The branch of the opcode `op` with the name `cs`. -/
def branchOfChars (op : BytOpcode) (cs : List Char) : Branch :=
  if op = .op0 then .constant 0
  else if op = .op1 then .constant 1
  else if op = .op1negate then .constant (-1)
  else if 3 < cs.length && cs.take 3 = ['O', 'P', '_'] && cs.length ≤ 5 && (cs.getD 3 ' ').isDigit then
    match parseInteger (cs.drop 3) with
    | some value => .constant value
    | none => .invalidConstant
  else if op = .opPushdata1 || op = .opPushdata2 || op = .opPushdata4 then .push
  else
    match namedOpcodes.find? fun known => known = op with
    | some known => .named known
    | none => .unknown

/-- What is evaluated for the characters of every name. -/
def nameChecks (op : BytOpcode) (cs : List Char) : Bool :=
  cs.map upper = cs && branchOfChars op cs = branchFor op && cs.take 2 = ['O', 'P'] &&
    cs ≠ ['O', 'P', '_', 'F', 'A', 'L', 'S', 'E'] && cs ≠ ['O', 'P', '_', 'T', 'R', 'U', 'E'] &&
    2 < cs.length && !cs.contains '(' && (cs.all fun c => !isSpace c) &&
    (cs.take 11 ≠ ['O', 'P', '_', 'P', 'U', 'S', 'H', 'D', 'A', 'T', 'A'] || cs.length = 12)

theorem name_chars (op : BytOpcode) : ∃ cs, op.name = String.ofList cs ∧ nameChecks op cs = true := by
  cases op <;> exact ⟨_, rfl, by decide +kernel⟩

theorem branchOf_name {op : BytOpcode} {cs : List Char} (hname : op.name = String.ofList cs)
    (hfalse : cs ≠ ['O', 'P', '_', 'F', 'A', 'L', 'S', 'E'])
    (htrue : cs ≠ ['O', 'P', '_', 'T', 'R', 'U', 'E']) (hlength : 2 < cs.length) :
    branchOf op.name = branchOfChars op cs := by
  have hchars : op.name.toList = cs := by rw [hname, String.toList_ofList]
  have hconst : ∀ known : BytOpcode, decide (op.name = known.name) = decide (op = known) :=
    fun known => decide_eq_decide.2 BytOpcode.name_eq_iff
  have h0 := hconst .op0
  have h1 := hconst .op1
  have hneg := @BytOpcode.name_eq_iff op .op1negate
  have hpush1 := hconst .opPushdata1
  have hpush2 := hconst .opPushdata2
  have hpush4 := hconst .opPushdata4
  have hfalse' : decide (op.name = "OP_FALSE") = false := by
    refine decide_eq_false fun h => hfalse ?_
    rw [← hchars, h]
    exact String.toList_ofList
  have htrue' : decide (op.name = "OP_TRUE") = false := by
    refine decide_eq_false fun h => htrue ?_
    rw [← hchars, h]
    exact String.toList_ofList
  have hshape : "OP_".toList = ['O', 'P', '_'] := String.toList_ofList
  have htwo : ¬ cs.length = 2 := by omega
  have hfind : (namedOpcodes.find? fun known => decide (known.name = op.name)) =
      namedOpcodes.find? fun known => decide (known = op) :=
    congrArg (List.find? · namedOpcodes) <| funext fun known =>
      decide_eq_decide.2 BytOpcode.name_eq_iff
  unfold branchOf branchOfChars
  rw [hfind, show "OP_0" = BytOpcode.op0.name from rfl, show "OP_1" = BytOpcode.op1.name from rfl,
    show "OP_1NEGATE" = BytOpcode.op1negate.name from rfl,
    show "OP_PUSHDATA1" = BytOpcode.opPushdata1.name from rfl,
    show "OP_PUSHDATA2" = BytOpcode.opPushdata2.name from rfl,
    show "OP_PUSHDATA4" = BytOpcode.opPushdata4.name from rfl]
  simp only [h0, h1, hneg, hpush1, hpush2, hpush4, hfalse', htrue', hshape, htwo, hchars,
    Bool.or_false, decide_false, Bool.false_and, Bool.false_eq_true, if_false, decide_eq_true_eq]

theorem isControlFlow_name (op : BytOpcode) : isControlFlow op.name = isConditional op := by
  have hconst : ∀ known : BytOpcode, decide (op.name = known.name) = decide (op = known) :=
    fun known => decide_eq_decide.2 BytOpcode.name_eq_iff
  have hif := hconst .opIf
  have hnotif := hconst .opNotif
  have helse := hconst .opElse
  have hendif := hconst .opEndif
  rw [isControlFlow, show "OP_IF" = BytOpcode.opIf.name from rfl,
    show "OP_NOTIF" = BytOpcode.opNotif.name from rfl,
    show "OP_ELSE" = BytOpcode.opElse.name from rfl,
    show "OP_ENDIF" = BytOpcode.opEndif.name from rfl, hif, hnotif, helse, hendif]
  rfl

/-- The names are in capitals, lead to the branches of their opcodes and are words of their own. -/
theorem name_spec (op : BytOpcode) : NameSpec op := by
  obtain ⟨cs, hname, hchecks⟩ := name_chars op
  have hchars : op.name.toList = cs := by rw [hname, String.toList_ofList]
  simp only [nameChecks, Bool.and_eq_true, decide_eq_true_eq, Bool.not_eq_true',
    List.all_eq_true, Bool.or_eq_true] at hchecks
  obtain ⟨⟨⟨⟨⟨⟨⟨⟨hupper, hbranch⟩, htake⟩, hfalse⟩, htrue⟩, hlength⟩, hparen⟩, hspaces⟩, hpush⟩ := hchecks
  refine ⟨?_, ?_, isControlFlow_name op, ?_, ?_, ?_, ?_⟩
  · rw [hchars, hupper]
  · rw [branchOf_name hname hfalse htrue hlength, hbranch]
  · rw [parseInstruction_of_take (by rw [hchars, htake]), hchars]
    cases hpushdata : pushdataName cs with
    | none => rfl
    | some entry =>
        obtain ⟨⟨hlengthName, htakeName⟩, hprefix⟩ := pushdataName_spec hpushdata
        have htwelve : cs.length = 12 := by
          refine hpush.resolve_left fun hne => hne ?_
          rw [← htakeName]
          obtain ⟨rest, hrest⟩ := hprefix
          rw [← hrest, List.take_append_of_le_length (by omega)]
        have hsame : entry.1.toList = cs := hprefix.eq_of_length (by omega)
        have hopcode : entry.1 = op.name := by rw [hname, ← hsame, String.ofList_toList]
        have hoperand : afterLength entry.2 (cs.drop 12) = "" := by
          rw [List.drop_of_length_le (by omega)]
          simp only [afterLength, dropBlanks, List.dropWhile_nil, List.drop_nil]
          split_ifs <;> rfl
        show some (entry.1, afterLength entry.2 (cs.drop 12)) = some (op.name, "")
        rw [hopcode, hoperand]
  · intro hmem
    rw [hchars] at hmem
    rw [List.contains_iff_mem.mpr hmem] at hparen
    cases hparen
  · intro hnil
    rw [hchars] at hnil
    rw [hnil] at hlength
    exact absurd hlength (by simp)
  · rw [hchars]
    exact hspaces

/-- The word of a byte that is no opcode. -/
def unknownName (opcode : UInt8) : String :=
  "OP_UNKNOWN(0x" ++ String.ofList (byteToHex opcode) ++ ")"

theorem toList_unknownName (opcode : UInt8) : (unknownName opcode).toList =
    ['O', 'P', '_', 'U', 'N', 'K', 'N', 'O', 'W', 'N', '(', '0', 'x'] ++
      (byteToHex opcode ++ [')']) := by
  rw [unknownName, String.toList_append, String.toList_append, String.toList_ofList,
    String.toList_ofList, List.append_assoc]
  rfl

theorem parseInstruction_unknownName (opcode : UInt8) :
    parseInstruction (unknownName opcode) = some (unknownName opcode, "") := by
  have htext := toList_unknownName opcode
  have hnone : pushdataName (unknownName opcode).toList = none := by
    rw [htext]
    rfl
  rw [parseInstruction_of_take (by rw [htext]; rfl), hnone]

/-- No name of an opcode contains a parenthesis, and neither do the other words of the machine. -/
theorem branchOf_of_mem {op : String} (hmem : '(' ∈ op.toList) (hlength : 5 < op.toList.length) :
    branchOf op = .unknown := by
  have hne : ∀ text : String, '(' ∉ text.toList → op ≠ text := by
    rintro text h rfl
    exact h hmem
  have hfind : namedOpcodes.find? (fun known => known.name = op) = none := by
    rw [List.find?_eq_none]
    intro known _ h
    exact hne known.name (name_spec known).paren (of_decide_eq_true h).symm
  have h0 := hne "OP_0" (name_spec .op0).paren
  have hfalse := hne "OP_FALSE" (by rw [String.toList_ofList]; decide)
  have h1 := hne "OP_1" (name_spec .op1).paren
  have htrue := hne "OP_TRUE" (by rw [String.toList_ofList]; decide)
  have hneg := hne "OP_1NEGATE" (name_spec .op1negate).paren
  have hpush1 := hne "OP_PUSHDATA1" (name_spec .opPushdata1).paren
  have hpush2 := hne "OP_PUSHDATA2" (name_spec .opPushdata2).paren
  have hpush4 := hne "OP_PUSHDATA4" (name_spec .opPushdata4).paren
  have hlong : ¬ op.toList.length ≤ 5 := by omega
  have htwo : ¬ op.toList.length = 2 := by omega
  unfold branchOf
  simp only [h0, hfalse, h1, htrue, hneg, hpush1, hpush2, hpush4, hlong, htwo, decide_false,
    Bool.or_self, Bool.and_false, Bool.false_and, Bool.false_eq_true, if_false, hfind]

/-- A byte that is no opcode is not known by its word either. -/
theorem branchOf_unknownName (opcode : UInt8) :
    isControlFlow (String.ofList ((unknownName opcode).toList.map upper)) = false ∧
    branchOf (String.ofList ((unknownName opcode).toList.map upper)) = .unknown := by
  have hmem : '(' ∈ (String.ofList ((unknownName opcode).toList.map upper)).toList := by
    rw [String.toList_ofList]
    have hparen : '(' ∈ (unknownName opcode).toList := by
      rw [toList_unknownName]
      exact List.mem_append_left _ (by decide)
    exact List.mem_map.2 ⟨'(', hparen, by decide⟩
  have hne : ∀ text : String, '(' ∉ text.toList →
      String.ofList ((unknownName opcode).toList.map upper) ≠ text := by
    rintro text h rfl
    exact h hmem
  constructor
  · have hif := hne "OP_IF" (name_spec .opIf).paren
    have hnotif := hne "OP_NOTIF" (name_spec .opNotif).paren
    have helse := hne "OP_ELSE" (name_spec .opElse).paren
    have hendif := hne "OP_ENDIF" (name_spec .opEndif).paren
    simp only [isControlFlow, hif, hnotif, helse, hendif, decide_false, Bool.or_self]
  · refine branchOf_of_mem hmem ?_
    rw [String.toList_ofList, List.length_map, toList_unknownName]
    simp only [List.cons_append, List.length_cons, List.nil_append]
    omega

theorem direct_spec : ∀ n : Fin 76, 0 < n.val →
    ((readInteger 16 (byteToHex (UInt8.ofNat n))).any fun num => 1 ≤ num ∧ num ≤ 75) = true ∧
    isControlFlow (String.ofList ((byteToHex (UInt8.ofNat n)).map upper)) = false ∧
    branchOf (String.ofList ((byteToHex (UInt8.ofNat n)).map upper)) = .push := by
  decide +kernel

end BVMSimulator

/-! ### Digits in words -/

theorem isSpace_hexChar : ∀ n : Fin 16, isSpace (hexChar n) = false := by
  decide

theorem not_isSpace_of_mem_bytesToHex {bs : Bytes} {c : Char} (h : c ∈ bytesToHex bs) :
    isSpace c = false := by
  obtain ⟨b, _, hc⟩ := List.mem_flatMap.1 h
  have hb : b.toNat < 256 := b.toNat_lt
  rw [byteToHex, List.mem_cons, List.mem_singleton] at hc
  rcases hc with rfl | rfl
  · exact isSpace_hexChar ⟨b.toNat / 16, by omega⟩
  · exact isSpace_hexChar ⟨b.toNat % 16, by omega⟩

namespace BVMSimulator

theorem dropBlanks_bytesToHex (bs : Bytes) : dropBlanks (bytesToHex bs) = bytesToHex bs := by
  cases hbs : bytesToHex bs with
  | nil => rfl
  | cons c rest =>
      have hc : isSpace c = false :=
        not_isSpace_of_mem_bytesToHex (by rw [hbs]; exact List.mem_cons_self : c ∈ bytesToHex bs)
      rw [dropBlanks, List.dropWhile_cons_of_neg]
      intro hblank
      rw [Bool.or_eq_true, decide_eq_true_eq, decide_eq_true_eq] at hblank
      rcases hblank with rfl | rfl
      · exact absurd hc (by decide)
      · exact absurd hc (by decide)

/-- Digits are read as the bytes they were written for. -/
theorem parseHexToBytes_bytesToHex (bs : Bytes) : parseHexToBytes (bytesToHex bs) = bs := by
  have hfilter : (bytesToHex bs).filter (fun c => !isSpace c) = bytesToHex bs := by
    rw [List.filter_eq_self]
    intro c hc
    rw [not_isSpace_of_mem_bytesToHex hc]
    rfl
  have hlength : (bytesToHex bs).length % 2 = 0 := by
    rw [bytesToHex_length]
    omega
  have hbytes : ∀ bs : Bytes, parseHexToBytes.bytesOf (bytesToHex bs) = bs := by
    intro bs
    induction bs with
    | nil => rfl
    | cons b bs ih =>
        have hb : b.toNat < 256 := b.toNat_lt
        have hsum : 16 * (b.toNat / 16) + b.toNat % 16 = b.toNat := by omega
        rw [bytesToHex_cons, byteToHex, List.cons_append, List.cons_append, List.nil_append,
          parseHexToBytes.bytesOf, hexDigit_hexChar (by omega), hexDigit_hexChar (by omega),
          Option.getD_some, Option.getD_some, hsum, UInt8.ofNat_toNat, ih]
  unfold parseHexToBytes
  simp only [stripHexPrefix_of_hexPairs (hexPairs_bytesToHex bs), hfilter, hlength, if_true, hbytes]

theorem opPush_bytesToHex {bs : Bytes} (hne : bs ≠ []) (s : Stack) :
    opPush (String.ofList (bytesToHex bs)) s = .ok (bs :: s) := by
  have htext : String.ofList (bytesToHex bs) ≠ "" := by
    intro h
    have hlength := congrArg (fun text => text.toList.length) h
    simp only [String.toList_ofList, bytesToHex_length] at hlength
    have hpos : 0 < bs.length := List.length_pos_iff.2 hne
    have hzero : "".toList.length = 0 := rfl
    omega
  rw [opPush, if_neg htext, String.toList_ofList, parseHexToBytes_bytesToHex]

/-! ### A word does what its instruction does -/

section Words

variable (env : Env) (vm : VM)

/-- A word that is the name of an opcode. -/
theorem executeWord_name (op : BytOpcode) :
    executeWord env op.name vm =
      if !vm.isCurrentlyExecuting && !isConditional op then .ok vm
      else executeKnown env [] op vm := by
  have hop : String.ofList (op.name.toList.map upper) = op.name := by
    rw [(name_spec op).upper, String.ofList_toList]
  simp only [executeWord, (name_spec op).parse, executeOpcode, hop,
    (name_spec op).control, (name_spec op).branch]
  split_ifs with hskip
  · rfl
  · cases hvalue : smallInteger op with
    | some value =>
        simp only [branchFor, hvalue, executeKnown, mainOp_of_smallInteger hvalue]
        rfl
    | none =>
        simp only [branchFor, hvalue]
        by_cases hpush : op = .opPushdata1 ∨ op = .opPushdata2 ∨ op = .opPushdata4
        · rcases hpush with rfl | rfl | rfl <;> rfl
        · rw [not_or, not_or] at hpush
          simp only [hpush.1, hpush.2.1, hpush.2.2, decide_false, Bool.or_self,
            Bool.false_eq_true, if_false]
          by_cases hinvalid : op = .opInvalidopcode
          · subst hinvalid
            have hmessage : "Unknown opcode: " ++ BytOpcode.opInvalidopcode.name
                = "Unknown opcode: OP_INVALIDOPCODE" := by rfl
            rw [if_pos rfl, hmessage]
            rfl
          · rw [if_neg hinvalid]

theorem executeWord_unknownName (opcode : UInt8) :
    executeWord env (unknownName opcode) vm =
      if !vm.isCurrentlyExecuting then .ok vm
      else .error ("Unknown opcode: " ++ unknownName opcode) := by
  obtain ⟨hcontrol, hbranch⟩ := branchOf_unknownName opcode
  simp only [executeWord, parseInstruction_unknownName, executeOpcode, hcontrol, hbranch,
    Bool.not_false, Bool.and_true]

/-- The word of a direct push. -/
theorem executeWord_direct {operand : Bytes} (hpos : 0 < operand.length)
    (hlength : operand.length ≤ 75) :
    executeWord env (String.ofList
        (byteToHex (UInt8.ofNat operand.length) ++ bytesToHex operand)) vm =
      if !vm.isCurrentlyExecuting then .ok vm else .ok { vm with main := operand :: vm.main } := by
  obtain ⟨hread, hcontrol, hbranch⟩ := direct_spec ⟨operand.length, by omega⟩ hpos
  have hne : operand ≠ [] := List.length_pos_iff.1 hpos
  have hparse : parseInstruction (String.ofList
      (byteToHex (UInt8.ofNat operand.length) ++ bytesToHex operand)) =
      some (String.ofList (byteToHex (UInt8.ofNat operand.length)),
        String.ofList (bytesToHex operand)) := by
    have htext : byteToHex (UInt8.ofNat operand.length) ++ bytesToHex operand ≠ [] := by
      simp [byteToHex]
    have htake : (byteToHex (UInt8.ofNat operand.length) ++ bytesToHex operand).take 2
        = byteToHex (UInt8.ofNat operand.length) := rfl
    have hdrop : (byteToHex (UInt8.ofNat operand.length) ++ bytesToHex operand).drop 2
        = bytesToHex operand := rfl
    have htwo : 2 ≤ (byteToHex (UInt8.ofNat operand.length) ++ bytesToHex operand).length := by
      rw [List.length_append, byteToHex_length]
      omega
    simp only [parseInstruction, String.toList_ofList, if_neg htext, htake, hdrop, htwo, hread,
      decide_true, Bool.and_self, if_true, dropBlanks_bytesToHex]
  simp only [executeWord, hparse, executeOpcode, String.toList_ofList, hcontrol, hbranch,
    Bool.not_false, Bool.and_true]
  split_ifs
  · rfl
  · rw [VM.onMain, opPush_bytesToHex hne]
    rfl

/-- The word of a push with a length field and data. -/
theorem executeWord_pushdata {op : BytOpcode}
    (hop : op = .opPushdata1 ∨ op = .opPushdata2 ∨ op = .opPushdata4) {lengthField operand : Bytes}
    (hfield : lengthField.length = lengthBytes op.toByte) (hne : operand ≠ []) :
    executeWord env (op.name ++ String.ofList (bytesToHex lengthField ++ bytesToHex operand)) vm =
      if !vm.isCurrentlyExecuting then .ok vm else .ok { vm with main := operand :: vm.main } := by
  have hdigits : (bytesToHex lengthField).length = 2 * lengthBytes op.toByte := by
    rw [bytesToHex_length, hfield]
  have hafter : afterLength (2 * lengthBytes op.toByte) (bytesToHex lengthField ++ bytesToHex operand)
      = String.ofList (bytesToHex operand) := by
    have hblanks : dropBlanks (bytesToHex lengthField ++ bytesToHex operand)
        = bytesToHex lengthField ++ bytesToHex operand := by
      rw [← bytesToHex_append, dropBlanks_bytesToHex]
    have hle : 2 * lengthBytes op.toByte ≤ (bytesToHex lengthField ++ bytesToHex operand).length := by
      rw [List.length_append, hdigits]
      omega
    rw [afterLength]
    simp only [hblanks, hle, if_true]
    rw [← hdigits, List.drop_left, dropBlanks_bytesToHex]
  have hparse : parseInstruction
      (op.name ++ String.ofList (bytesToHex lengthField ++ bytesToHex operand)) =
      some (op.name, String.ofList (bytesToHex operand)) := by
    have htext : (op.name ++ String.ofList (bytesToHex lengthField ++ bytesToHex operand)).toList
        = op.name.toList ++ (bytesToHex lengthField ++ bytesToHex operand) := by
      rw [String.toList_append, String.toList_ofList]
    rcases hop with rfl | rfl | rfl
    · rw [parseInstruction_of_take (by rw [htext]; rfl), htext]
      exact congrArg (fun text => some ("OP_PUSHDATA1", text)) hafter
    · rw [parseInstruction_of_take (by rw [htext]; rfl), htext]
      exact congrArg (fun text => some ("OP_PUSHDATA2", text)) hafter
    · rw [parseInstruction_of_take (by rw [htext]; rfl), htext]
      exact congrArg (fun text => some ("OP_PUSHDATA4", text)) hafter
  have hupper : String.ofList (op.name.toList.map upper) = op.name := by
    rw [(name_spec op).upper, String.ofList_toList]
  have hcontrol : isControlFlow op.name = false := by
    rw [(name_spec _).control]
    rcases hop with rfl | rfl | rfl <;> rfl
  have hbranch : branchOf op.name = .push := by
    rw [(name_spec _).branch]
    rcases hop with rfl | rfl | rfl <;> rfl
  simp only [executeWord, hparse, executeOpcode, hupper, hcontrol, hbranch, Bool.not_false,
    Bool.and_true]
  split_ifs
  · rfl
  · rw [VM.onMain, opPush_bytesToHex hne]
    rfl

end Words

open ScriptDecoder

theorem eq_of_pushdata {opcode : UInt8} (hlow : 0x4c ≤ opcode) (hhigh : opcode ≤ 0x4e) :
    opcode = 0x4c ∨ opcode = 0x4d ∨ opcode = 0x4e := by
  rw [UInt8.le_iff_toNat_le] at hlow hhigh
  have h4c : (0x4c : UInt8).toNat = 76 := rfl
  have h4e : (0x4e : UInt8).toNat = 78 := rfl
  have hnat : opcode.toNat = 76 ∨ opcode.toNat = 77 ∨ opcode.toNat = 78 := by omega
  rcases hnat with h | h | h
  · exact Or.inl (UInt8.toNat_inj.1 h)
  · exact Or.inr (Or.inl (UInt8.toNat_inj.1 h))
  · exact Or.inr (Or.inr (UInt8.toNat_inj.1 h))

/-- What the decoder guarantees about an instruction: the data of a direct push is as long as its
opcode says, and no opcode above the pushes has data. -/
structure WellSized (instr : Instruction) : Prop where
  direct : instr.opcode < 0x4c → instr.operand.length = instr.opcode.toNat
  bare : 0x4e < instr.opcode → instr.operand = []

/-- **A word does what its instruction does on the byte machine.** -/
theorem executeWord_instructionText {instr : Instruction} (h : WellSized instr) (env : Env)
    (vm : VM) : executeWord env (instructionText instr) vm = AtomicProof.executeOpcode env instr vm := by
  obtain ⟨opcode, operand⟩ := instr
  by_cases hbare : operand = []
  -- the word is the name of the opcode
  · subst hbare
    have htext : instructionText ⟨opcode, []⟩ = opcodeToName opcode := by simp [instructionText]
    rw [htext, AtomicProof.executeOpcode, opcodeToName]
    cases hop : BytOpcode.ofByte? opcode with
    | some op => exact executeWord_name env vm op
    | none =>
        -- a direct push would have had operand bytes
        have hlarge : ¬ opcode ≤ 0x4b := by
          intro hle
          have hlt : opcode < 0x4c := by
            rw [UInt8.lt_iff_toNat_lt]
            rw [UInt8.le_iff_toNat_le] at hle
            exact Nat.lt_succ_of_le hle
          have hzero : opcode.toNat = 0 := (h.direct hlt).symm
          have hopcode : opcode = 0 := UInt8.toNat_inj.1 hzero
          rw [hopcode] at hop
          exact absurd hop (by decide)
        simp only [if_neg hlarge]
        exact executeWord_unknownName env vm opcode
  · have hle : opcode ≤ 0x4e := by
      by_contra hnot
      exact hbare (h.bare (UInt8.not_le.1 hnot))
    have hpos : 0 < operand.length := List.length_pos_iff.2 hbare
    have hpush : (!operand.isEmpty) = true := by simpa using hbare
    by_cases hfield : 0x4c ≤ opcode
    · have hop : ∃ op : BytOpcode, (op = .opPushdata1 ∨ op = .opPushdata2 ∨ op = .opPushdata4) ∧
          op.toByte = opcode := by
        rcases eq_of_pushdata hfield hle with rfl | rfl | rfl
        · exact ⟨.opPushdata1, by decide, rfl⟩
        · exact ⟨.opPushdata2, by decide, rfl⟩
        · exact ⟨.opPushdata4, by decide, rfl⟩
      obtain ⟨op, hop, rfl⟩ := hop
      have htext : instructionText ⟨op.toByte, operand⟩ = op.name ++ String.ofList
          (bytesToHex (ScriptCodec.littleEndian operand.length (lengthBytes op.toByte)) ++
            bytesToHex operand) := by
        simp only [instructionText, hle, hpush, decide_true, Bool.and_self, if_true, if_pos hfield,
          opcodeToName, BytOpcode.ofByte?_toByte, lengthHex]
      have hlength : (ScriptCodec.littleEndian operand.length (lengthBytes op.toByte)).length
          = lengthBytes op.toByte := by
        rw [ScriptCodec.littleEndian, List.length_map, List.length_range]
      rw [htext, executeWord_pushdata env vm hop hlength hbare, AtomicProof.executeOpcode,
        BytOpcode.ofByte?_toByte]
      have hne : operand.isEmpty = false := by simpa using hbare
      have hknown : executeKnown env operand op vm = vm.onMain (AtomicProof.opPush operand) := by
        rcases hop with rfl | rfl | rfl <;> rfl
      have hplain : isConditional op = false := by
        rcases hop with rfl | rfl | rfl <;> rfl
      simp only [hknown, hplain]
      simp [VM.onMain, AtomicProof.opPush, hne]
    · have hlt : opcode < 0x4c := UInt8.not_le.1 hfield
      -- a direct push carries its length in the opcode
      have hsize : operand.length = opcode.toNat := h.direct hlt
      have hsmall : opcode.toNat < 76 := UInt8.lt_iff_toNat_lt.1 hlt
      have hopcode : UInt8.ofNat operand.length = opcode := by rw [hsize, UInt8.ofNat_toNat]
      have hnone : BytOpcode.ofByte? opcode = none := by
        have hdirect := BytOpcode.ofByte?_eq_none_of_direct ⟨opcode.toNat, hsmall⟩
          (by simpa [hsize] using hpos)
        simpa using hdirect
      have htext : instructionText ⟨opcode, operand⟩ = String.ofList
          (byteToHex (UInt8.ofNat operand.length) ++ bytesToHex operand) := by
        simp only [instructionText, hle, hpush, decide_true, Bool.and_self, if_true, if_neg hfield,
          lengthHex]
        rw [String.empty_append]
      have hle' : opcode ≤ 0x4b := by
        rw [UInt8.le_iff_toNat_le]
        exact Nat.le_of_lt_succ hsmall
      have hne : operand.isEmpty = false := by simpa using hbare
      rw [htext, executeWord_direct env vm hpos (by omega), AtomicProof.executeOpcode, hnone]
      simp only [if_pos hle', VM.onMain, AtomicProof.opPush, hne, Bool.false_eq_true, if_false]
      rfl

end BVMSimulator

/-! ### Whole scripts -/

/-- The instructions that a byte string consists of. -/
inductive Decodes : Bytes → List Instruction → Prop
  | nil : Decodes [] []
  | cons {bytes : Bytes} {instr : Instruction} {consumed : ℕ} {instrs : List Instruction}
      (first : decodeInstruction bytes = some (instr, consumed))
      (rest : Decodes (bytes.drop consumed) instrs) : Decodes bytes (instr :: instrs)

/-- What the decoder guarantees: it gets on, and the data of an instruction has its size. -/
theorem decodeInstruction_spec {bytes : Bytes} {instr : Instruction} {consumed : ℕ}
    (h : decodeInstruction bytes = some (instr, consumed)) :
    0 < consumed ∧ BVMSimulator.WellSized instr := by
  cases bytes with
  | nil => cases h
  | cons opcode rest =>
      rw [decodeInstruction] at h
      split_ifs at h with hpush hfield hdata
      · obtain ⟨rfl, rfl⟩ := Prod.mk.inj (Option.some.inj h)
        refine ⟨by omega, ?_, ?_⟩
        · intro hlt
          have hsize : dataLength opcode rest = opcode.toNat := if_pos hlt
          have hzero : lengthBytes opcode = 0 := by
            by_contra hpos
            rcases lengthBytes_pos (Nat.pos_of_ne_zero hpos) with h | h | h
            · exact absurd (h ▸ hlt : (0x4c : UInt8) < 0x4c) (by decide)
            · exact absurd (h ▸ hlt : (0x4d : UInt8) < 0x4c) (by decide)
            · exact absurd (h ▸ hlt : (0x4e : UInt8) < 0x4c) (by decide)
          rw [hzero, hsize] at hdata ⊢
          simp only [List.drop_zero, List.length_take]
          omega
        · intro hlt
          exact absurd hpush (UInt8.not_le.2 hlt)
      · obtain ⟨rfl, rfl⟩ := Prod.mk.inj (Option.some.inj h)
        refine ⟨Nat.one_pos, ?_, fun _ => rfl⟩
        intro hlt
        have hle : opcode ≤ 0x4e := by
          rw [UInt8.le_iff_toNat_le]
          rw [UInt8.lt_iff_toNat_lt] at hlt
          exact Nat.le_trans (Nat.le_of_lt hlt) (by decide)
        exact absurd hle hpush

namespace ScriptDecoder

/-- There is no white space in the word of an instruction, and it is not empty. -/
theorem instructionText_spec (instr : Instruction) :
    (instructionText instr).toList ≠ [] ∧
      ∀ c ∈ (instructionText instr).toList, isSpace c = false := by
  have hname : ∀ opcode, (opcodeToName opcode).toList ≠ [] ∧
      ∀ c ∈ (opcodeToName opcode).toList, isSpace c = false := by
    intro opcode
    rw [opcodeToName]
    cases BytOpcode.ofByte? opcode with
    | some op =>
        exact ⟨(BVMSimulator.name_spec op).nonempty, (BVMSimulator.name_spec op).spaces⟩
    | none =>
        have htext := BVMSimulator.toList_unknownName opcode
        rw [BVMSimulator.unknownName] at htext
        simp only [htext]
        refine ⟨by simp, ?_⟩
        intro c hc
        rcases List.mem_append.1 hc with hc | hc
        · have h : ['O', 'P', '_', 'U', 'N', 'K', 'N', 'O', 'W', 'N', '(', '0', 'x'].all
              (fun c => !isSpace c) = true := by decide
          simpa using List.all_eq_true.mp h c hc
        · rcases List.mem_append.1 hc with hc | hc
          · have hmem : c ∈ bytesToHex [opcode] := by
              rw [bytesToHex_cons, bytesToHex_nil, List.append_nil]
              exact hc
            exact not_isSpace_of_mem_bytesToHex hmem
          · rw [List.mem_singleton.1 hc]
            decide
  rw [instructionText]
  split_ifs with hdata hfield
  · rw [String.toList_append, String.toList_ofList]
    refine ⟨by simp [(hname instr.opcode).1], ?_⟩
    intro c hc
    rcases List.mem_append.1 hc with hc | hc
    · exact (hname instr.opcode).2 c hc
    · rw [lengthHex, if_pos hfield, ← bytesToHex_append] at hc
      exact not_isSpace_of_mem_bytesToHex hc
  · rw [String.toList_append, String.toList_ofList, lengthHex, if_neg hfield]
    refine ⟨by simp [byteToHex], ?_⟩
    intro c hc
    have hmem : c ∈ bytesToHex (UInt8.ofNat instr.operand.length :: instr.operand) := by
      rw [bytesToHex_cons]
      simpa using hc
    exact not_isSpace_of_mem_bytesToHex hmem
  · exact hname instr.opcode

end ScriptDecoder

open ScriptDecoder

theorem wordsFrom_append {word : List Char} (hword : ∀ c ∈ word, isSpace c = false)
    (current rest : List Char) :
    wordsFrom current (word ++ rest) = wordsFrom (word.reverse ++ current) rest := by
  induction word generalizing current with
  | nil => rfl
  | cons c word ih =>
      have hc : isSpace c = false := hword c List.mem_cons_self
      rw [List.cons_append, wordsFrom, if_neg (by rw [hc]; decide),
        ih (fun d hd => hword d (List.mem_cons_of_mem _ hd))]
      simp

theorem BVMSimulator.exists_parseInstruction (instr : Instruction) :
    ∃ parsed, parseInstruction (instructionText instr) = some parsed := by
  have hne := (instructionText_spec instr).1
  rw [← Option.isSome_iff_exists, parseInstruction]
  simp only [if_neg hne]
  split_ifs
  · rfl
  · cases pushdataName (instructionText instr).toList <;> rfl

/-- **The disassembly of a script has one word for each instruction.** -/
theorem words_bytesToAsm {bytes : Bytes} {instrs : List Instruction} (h : Decodes bytes instrs) :
    words (bytesToAsm bytes) = instrs.map instructionText := by
  -- after the first instruction a blank comes first
  have hloop : ∀ (bytes : Bytes) (instrs : List Instruction), Decodes bytes instrs →
      ∀ fuel first, bytes.length ≤ fuel →
        wordsFrom [] (asmLoop fuel first bytes).toList = instrs.map instructionText ∧
        (first = false → (asmLoop fuel first bytes).toList.head?.all isSpace = true) := by
    intro bytes instrs h
    induction h with
    | nil =>
        intro fuel first _
        cases fuel <;> exact ⟨rfl, fun _ => rfl⟩
    | @cons bytes instr consumed instrs hfirst hrest ih =>
        intro fuel first hfuel
        have hne : bytes ≠ [] := by
          rintro rfl
          cases hfirst
        have hpos := (decodeInstruction_spec hfirst).1
        obtain ⟨fuel, rfl⟩ : ∃ n, fuel = n + 1 := by
          have hlength := List.length_pos_iff.2 hne
          exact ⟨fuel - 1, by omega⟩
        obtain ⟨hwords, hblank⟩ := ih fuel false (by rw [List.length_drop]; omega)
        obtain ⟨htext, hspace⟩ := instructionText_spec instr
        have hall : wordsFrom [] ((instructionText instr).toList ++
            (asmLoop fuel false (bytes.drop consumed)).toList)
            = instructionText instr :: instrs.map instructionText := by
          rw [wordsFrom_append hspace, List.append_nil]
          cases hcs : (asmLoop fuel false (bytes.drop consumed)).toList with
          | nil =>
              rw [hcs] at hwords
              rw [← hwords, wordsFrom, if_neg (by simpa using htext), List.reverse_reverse,
                String.ofList_toList]
              rfl
          | cons c rest =>
              have hc : isSpace c = true := by
                have hhead := hblank rfl
                rwa [hcs] at hhead
              rw [hcs, wordsFrom, if_pos hc, if_pos rfl] at hwords
              rw [wordsFrom, if_pos hc, if_neg (by simpa using htext), List.reverse_reverse,
                String.ofList_toList, hwords]
        rw [asmLoop, if_neg hne, hfirst]
        simp only [String.toList_append]
        cases first with
        | true =>
            refine ⟨?_, fun hfalse => by cases hfalse⟩
            rw [List.map_cons]
            exact hall
        | false =>
            have hspaceBlank : isSpace ' ' = true := by decide
            refine ⟨?_, fun _ => hspaceBlank⟩
            rw [List.map_cons]
            exact hall
  exact (hloop bytes instrs h bytes.length true (Nat.le_refl _)).1

/-! ### Exactness -/

/-- What a decoded instruction does: a push puts its data on the stack, whatever its form, and any
other instruction does what the machine does. -/
def executeDecoded (env : Env) (instr : Instruction) (vm : VM) : Except String VM :=
  if instr.opcode ≤ 0x4e then
    if vm.isCurrentlyExecuting then .ok { vm with main := instr.operand :: vm.main } else .ok vm
  else executeOpcode env instr vm

/-- **The disassembly is the script.**  There is one word for each instruction, in order, and every
word can be parsed and does what the instruction does. -/
def DisassemblyExact (bytes : Bytes) : Prop :=
  ∀ instrs, Decodes bytes instrs →
    List.Forall₂ (fun word instr =>
      ∃ opcode operand, BVMSimulator.parseInstruction word = some (opcode, operand) ∧
        ∀ env vm, BVMSimulator.executeOpcode env opcode operand vm = executeDecoded env instr vm)
      (words (bytesToAsm bytes)) instrs

theorem onMain_opPush {operand : Bytes} (hne : operand ≠ []) (vm : VM) :
    vm.onMain (opPush operand) = .ok { vm with main := operand :: vm.main } := by
  have hempty : operand.isEmpty = false := by simpa using hne
  simp only [VM.onMain, opPush, hempty, Bool.false_eq_true, if_false]
  rfl

/-- A push with a length field on the machine. -/
theorem executeOpcode_pushdata {opcode : UInt8} (hlow : 0x4c ≤ opcode) (hhigh : opcode ≤ 0x4e)
    (operand : Bytes) (env : Env) (vm : VM) :
    executeOpcode env ⟨opcode, operand⟩ vm =
      if vm.isCurrentlyExecuting then vm.onMain (opPush operand) else .ok vm := by
  have h1 : BytOpcode.ofByte? 0x4c = some .opPushdata1 := rfl
  have h2 : BytOpcode.ofByte? 0x4d = some .opPushdata2 := rfl
  have h4 : BytOpcode.ofByte? 0x4e = some .opPushdata4 := rfl
  rcases BVMSimulator.eq_of_pushdata hlow hhigh with rfl | rfl | rfl
  · cases hvm : vm.isCurrentlyExecuting
    · simp [executeOpcode, h1, hvm, isConditional]
    · simp [executeOpcode, h1, hvm, isConditional]
      rfl
  · cases hvm : vm.isCurrentlyExecuting
    · simp [executeOpcode, h2, hvm, isConditional]
    · simp [executeOpcode, h2, hvm, isConditional]
      rfl
  · cases hvm : vm.isCurrentlyExecuting
    · simp [executeOpcode, h4, hvm, isConditional]
    · simp [executeOpcode, h4, hvm, isConditional]
      rfl

/-- The machine treats every decoded instruction as it should, except for a push with a length field
and no data. -/
theorem executeOpcode_eq_executeDecoded {instr : Instruction} (h : BVMSimulator.WellSized instr)
    (hdata : isEmptyPushdata instr = false) (env : Env) (vm : VM) :
    executeOpcode env instr vm = executeDecoded env instr vm := by
  obtain ⟨opcode, operand⟩ := instr
  rw [executeDecoded]
  by_cases hle : opcode ≤ 0x4e
  · rw [if_pos hle]
    by_cases hfield : 0x4c ≤ opcode
    · have hne : operand ≠ [] := by
        rintro rfl
        simp [isEmptyPushdata, hfield, hle] at hdata
      rw [executeOpcode_pushdata hfield hle]
      split_ifs
      · exact onMain_opPush hne vm
      · rfl
    · have hlt : opcode < 0x4c := UInt8.not_le.1 hfield
      have hsize : operand.length = opcode.toNat := h.direct hlt
      have hsmall : opcode.toNat < 76 := UInt8.lt_iff_toNat_lt.1 hlt
      by_cases hzero : opcode = 0
      -- `OP_0` pushes the number zero, which is the empty byte string
      · subst hzero
        have hop : BytOpcode.ofByte? 0 = some .op0 := rfl
        have hoperand : operand = [] := List.length_eq_zero_iff.1 hsize
        subst hoperand
        cases hvm : vm.isCurrentlyExecuting
        · simp [executeOpcode, hop, hvm, isConditional]
        · simp [executeOpcode, hop, hvm, isConditional]
          rfl
      · have hpos : 0 < opcode.toNat := by
          refine Nat.pos_of_ne_zero fun hnat => hzero ?_
          exact UInt8.toNat_inj.1 hnat
        have hnone : BytOpcode.ofByte? opcode = none := by
          simpa using BytOpcode.ofByte?_eq_none_of_direct ⟨opcode.toNat, hsmall⟩ hpos
        have hdirect : opcode ≤ 0x4b := by
          rw [UInt8.le_iff_toNat_le]
          exact Nat.le_of_lt_succ hsmall
        have hne : operand ≠ [] := by
          rw [← List.length_pos_iff, hsize]
          exact hpos
        rw [executeOpcode, hnone]
        simp only [if_pos hdirect, onMain_opPush hne]
        cases vm.isCurrentlyExecuting <;> rfl
  · rw [if_neg hle]

/-- A machine with empty stacks, for which there is no transaction. -/
def bareEnv : Env := ⟨id, id, id, id, id, none, none⟩

theorem executeOpcode_ne_executeDecoded {instr : Instruction} (h : isEmptyPushdata instr = true) :
    executeOpcode bareEnv instr ⟨[], [], [], false⟩ ≠
      executeDecoded bareEnv instr ⟨[], [], [], false⟩ := by
  obtain ⟨opcode, operand⟩ := instr
  simp only [isEmptyPushdata, Bool.and_eq_true, decide_eq_true_eq, List.isEmpty_iff] at h
  obtain ⟨⟨hlow, hhigh⟩, rfl⟩ := h
  rw [executeOpcode_pushdata hlow hhigh, executeDecoded, if_pos hhigh]
  intro h
  cases h

/-- **The disassembly is the script exactly when no push has a length field and no data.** -/
theorem disassemblyExact_iff (bytes : Bytes) :
    DisassemblyExact bytes ↔
      ∀ instrs, Decodes bytes instrs → ∀ instr ∈ instrs, isEmptyPushdata instr = false := by
  have hsized : ∀ {bytes instrs}, Decodes bytes instrs → ∀ instr ∈ instrs,
      BVMSimulator.WellSized instr := by
    intro bytes instrs h
    induction h with
    | nil => simp
    | cons hfirst _ ih =>
        intro instr hinstr
        rcases List.mem_cons.1 hinstr with rfl | hinstr
        · exact (decodeInstruction_spec hfirst).2
        · exact ih instr hinstr
  have hexecute : ∀ {instr opcode operand}, BVMSimulator.WellSized instr →
      BVMSimulator.parseInstruction (instructionText instr) = some (opcode, operand) →
      ∀ env vm, BVMSimulator.executeOpcode env opcode operand vm = executeOpcode env instr vm := by
    intro instr opcode operand hwell hparse env vm
    rw [← BVMSimulator.executeWord_instructionText hwell, BVMSimulator.executeWord, hparse]
  refine forall_congr' fun instrs => forall_congr' fun hdecodes => ?_
  rw [words_bytesToAsm hdecodes, List.forall₂_map_left_iff, List.forall₂_same]
  refine forall_congr' fun instr => forall_congr' fun hinstr => ?_
  have hwell := hsized hdecodes instr hinstr
  constructor
  · rintro ⟨opcode, operand, hparse, hsame⟩
    rw [← Bool.not_eq_true]
    intro hempty
    refine executeOpcode_ne_executeDecoded hempty ?_
    rw [← hexecute hwell hparse]
    exact hsame _ _
  · intro hdata
    obtain ⟨⟨opcode, operand⟩, hparse⟩ := BVMSimulator.exists_parseInstruction instr
    refine ⟨opcode, operand, hparse, fun env vm => ?_⟩
    rw [hexecute hwell hparse]
    exact executeOpcode_eq_executeDecoded hwell hdata env vm

/-- A push with a length field of one byte that says zero is printed without its length. -/
theorem not_disassemblyExact_emptyPushdata : ¬ DisassemblyExact [0x4c, 0x00] := by
  intro h
  have hdecodes : Decodes [0x4c, 0x00] [⟨0x4c, []⟩] :=
    .cons (show decodeInstruction [0x4c, 0x00] = some (⟨0x4c, []⟩, 2) from rfl) .nil
  have hwords : words (bytesToAsm [0x4c, 0x00]) = ["OP_PUSHDATA1"] := by decide +kernel
  have hparse : BVMSimulator.parseInstruction "OP_PUSHDATA1" = some ("OP_PUSHDATA1", "") :=
    (BVMSimulator.name_spec .opPushdata1).parse
  have hword := h _ hdecodes
  rw [hwords, List.forall₂_cons] at hword
  obtain ⟨⟨opcode, operand, hparse', hsame⟩, -⟩ := hword
  rw [hparse] at hparse'
  obtain ⟨rfl, rfl⟩ := Prod.mk.inj (Option.some.inj hparse')
  have hbad := hsame bareEnv ⟨[], [], [], false⟩
  have herror : (BVMSimulator.executeOpcode bareEnv "OP_PUSHDATA1" "" ⟨[], [], [], false⟩).isOk
      = false := by decide +kernel
  rw [hbad] at herror
  exact absurd herror (by decide)

end AtomicProof
