/-
The instructions the visitor writes.

`BytecodeGenerator` in `src/src/bytecode/bytecode_generator.cpp` turns what the code generator asks
for into atoms: an opcode becomes the text of its byte, and a piece of hexadecimal text is cut at
its instruction boundaries.  An instruction keeps an identifier and a typed body as well; the
machine runs its text, so the text is what is modelled here.

Main definitions:

* `opcodeToHex`, `numberToScriptHex` — the texts of opcodes and of pushed numbers;
* `emitText` — the atoms that one call of `emit` with text appends;
* `emitRoll` — the atoms that bring the slot at a depth to the top;
* `Takes` — a piece of code takes two stacks to two stacks wherever the machine executes.

Main results:

* `takes_number` — a number that is written is pushed;
* `takes_roll_of_lt` — `emitRoll` moves the slot it is asked for and no other.
-/

import AtomicProof.Atom

set_option autoImplicit false

namespace AtomicProof

open ScriptCodec (stripHexPrefix hexToBytes encodePush decodePushPrefix)

/-! ### Texts -/

def opcodeToHex (op : BytOpcode) : String := String.ofList (byteToHex op.toByte)

def encodePushData (data : Bytes) : String :=
  match encodePush data .legacy with
  | some result => String.ofList (bytesToHex result)
  | none => opcodeToHex .opInvalidopcode

/-- The bytes `numberToScriptHex` writes for the numbers that have an opcode of their own. -/
def numberOpcode (value : ℤ) : Option UInt8 :=
  if value = 0 then some BytOpcode.op0.toByte
  else if value = -1 then some BytOpcode.op1negate.toByte
  else if 1 ≤ value ∧ value ≤ 16 then some (0x50 + UInt8.ofNat value.toNat)
  else none

/-- `numberToScriptHex`.  `CScriptNum::Serialize`, which it uses, is the algorithm of the
simulator's `serializeScriptNum`. -/
def numberToScriptHex (value : ℤ) : String :=
  match numberOpcode value with
  | some opcode => "0x" ++ String.ofList (byteToHex opcode)
  | none => "0x" ++ encodePushData (serializeScriptNum value)

/-- `hexData`: the digits of hexadecimal text, and the empty text for any other. -/
def hexData (hex : String) : String :=
  let digits := stripHexPrefix hex.toList
  if digits.all isXDigit then String.ofList digits else ""

/-- `isScript`: the text of an inline script. -/
def isScript (str : String) : Bool :=
  let chars := str.toList
  (2 < chars.length ∧ chars.head? = some '<' ∧ chars.getLast? = some '>') ||
    (let digits := stripHexPrefix chars
     digits.length < chars.length && !digits.isEmpty && digits.all isXDigit)

/-! ### Atoms -/

/-- The loop of `splitScriptFragment` over the bytes of a fragment; `digits` is their text and
`fuel` the number of bytes. -/
def splitInstructions : ℕ → List Char → Bytes → Except ScriptCodecError (List String)
  | 0, _, _ => .ok []
  | _ + 1, _, [] => .ok []
  | fuel + 1, digits, bytes => do
      let consumed ← match decodePushPrefix bytes false with
        | .ok decoded => .ok decoded.encodedSize
        | .error .notPush => .ok 1
        | .error error => .error error
      let rest ← splitInstructions fuel (digits.drop (consumed * 2)) (bytes.drop consumed)
      pure (String.ofList (digits.take (consumed * 2)) :: rest)

def splitScriptFragment (fragment : String) : Except ScriptCodecError (List String) :=
  if (placeholderLabel fragment).isSome then .ok [fragment]
  else do
    let bytes ← hexToBytes fragment
    splitInstructions bytes.length (stripHexPrefix fragment.toList) bytes

/-- `processed_operand`: the digits of hexadecimal text, any other text as it is. -/
def processedOperand (text : String) : String :=
  if hexData text = "" then text else hexData text

/-- `BytecodeGenerator::emit` on text: what is no row of instructions becomes one barrier. -/
def emitText (text : String) : List String :=
  (splitScriptFragment (processedOperand text)).toOption.getD [processedOperand text]

/-- `BytecodeGenerator::emit` on an opcode. -/
def emitOp (op : BytOpcode) : List String := [opcodeToHex op]

def emitRoll (pos : ℕ) : List String :=
  if pos = 0 then []
  else if pos = 1 then emitOp .opSwap
  else if pos = 2 then emitOp .opRot
  else emitText (numberToScriptHex pos) ++ emitOp .opRoll

/-! ### What a piece of code does to the two stacks -/

variable {env : ScriptEnv}
variable {code : List String} {s s' s'' : Stack × Stack} {main : Stack} {op : BytOpcode}
  {bytes : Bytes}

/-- Wherever the machine executes, the code takes the main and the alt stack of `s` to those of
`s'` and leaves the open conditions alone. -/
def Takes (env : ScriptEnv) (code : List String) (s s' : Stack × Stack) : Prop :=
  ∀ conds : List Bool, conds.all id = true →
    final env code ⟨s.1, s.2, conds, false⟩ = some ⟨s'.1, s'.2, conds, false⟩

theorem Takes.refl (s : Stack × Stack) : Takes env [] s s := fun _ _ => rfl

theorem Takes.trans {code' : List String}
    (h : Takes env code s s') (h' : Takes env code' s' s'') : Takes env (code ++ code') s s'' := by
  intro conds hconds
  rw [final_append, h conds hconds, Option.bind_some]
  exact h' conds hconds

theorem Takes.outcome (h : Takes env code s s') : outcome env code s.1 s.2 = some s' := by
  have := h [] rfl
  simp only [AtomicProof.outcome, this, Option.map_some]

theorem takes_of_append {code' : List String}
    (h : Takes env code s s') (hall : Takes env (code ++ code') s s'') : Takes env code' s' s'' := by
  intro conds hconds
  have hfinal := hall conds hconds
  rwa [final_append, h conds hconds, Option.bind_some] at hfinal

theorem takes_unique (h : Takes env code s s') (h' : Takes env code s s'') : s' = s'' := by
  have houtcome := h.outcome
  rw [h'.outcome, Option.some.injEq] at houtcome
  exact houtcome.symm

theorem takes_of_mainAtom {text : String} {f : Stack → Except String Stack} {main' : Stack}
    (alt : Stack) (h : MainAtom env text f) (hf : f main = .ok main') :
    Takes env [text] (main, alt) (main', alt) := by
  intro conds hconds
  have hexec : (⟨main, alt, conds, false⟩ : VM).isCurrentlyExecuting = true := hconds
  rw [final_singleton rfl, h, if_pos hexec, VM.onMain_toOption]
  simp [hf, Except.toOption]

theorem hexPairs_opcodeToHex (op : BytOpcode) :
    hexPairs (opcodeToHex op).toList = some [op.toByte] := by
  have := hexPairs_bytesToHex [op.toByte]
  simpa [opcodeToHex] using this

theorem completeInstruction_opcodeToHex (h : isOneByte op = true) :
    completeInstruction (opcodeToHex op) = some ⟨op.toByte, []⟩ := by
  rw [completeInstruction_of_hexPairs (by simp) (hexPairs_opcodeToHex op),
    exactInstruction_toByte h]

theorem takes_op {f : Stack → Except String Stack} {main' : Stack}
    (alt : Stack) (hop : isOneByte op = true) (hf : mainOp env.toEnv [] op = some f)
    (h : f main = .ok main') : Takes env (emitOp op) (main, alt) (main', alt) :=
  takes_of_mainAtom alt (mainAtom_of_mainOp (completeInstruction_opcodeToHex hop) hf) h

theorem takes_vmOp (hop : isOneByte op = true)
    (h : ∀ conds, executeKnown env.toEnv [] op ⟨s.1, s.2, conds, false⟩ =
      .ok ⟨s'.1, s'.2, conds, false⟩) : Takes env (emitOp op) s s' := by
  intro conds hconds
  have hexec : (⟨s.1, s.2, conds, false⟩ : VM).isCurrentlyExecuting = true := hconds
  rw [emitOp, final_singleton rfl, execAtom, completeInstruction_opcodeToHex hop]
  simp [executeOpcode, BytOpcode.ofByte?_toByte, hexec, h conds, Except.toOption]

@[simp] theorem takes_drop (x : Bytes) (main alt : Stack) :
    Takes env (emitOp .opDrop) (x :: main, alt) (main, alt) :=
  takes_op alt (by decide) rfl rfl

@[simp] theorem takes_2drop (x y : Bytes) (main alt : Stack) :
    Takes env (emitOp .op2drop) (x :: y :: main, alt) (main, alt) :=
  takes_op alt (by decide) rfl (Stack.dropN_of_le (by simp))

@[simp] theorem takes_nip (x y : Bytes) (main alt : Stack) :
    Takes env (emitOp .opNip) (x :: y :: main, alt) (x :: main, alt) :=
  takes_op alt (by decide) rfl rfl

@[simp] theorem takes_toaltstack (x : Bytes) (main alt : Stack) :
    Takes env (emitOp .opToaltstack) (x :: main, alt) (main, x :: alt) :=
  takes_vmOp (by decide) fun _ => rfl

@[simp] theorem takes_fromaltstack (x : Bytes) (main alt : Stack) :
    Takes env (emitOp .opFromaltstack) (main, x :: alt) (x :: main, alt) :=
  takes_vmOp (by decide) fun _ => rfl

/-! ### Numbers -/

theorem hexData_bytesToHex (bytes : Bytes) :
    hexData ("0x" ++ String.ofList (bytesToHex bytes)) = String.ofList (bytesToHex bytes) := by
  have hdigits : (bytesToHex bytes).all isXDigit = true := by
    have := (hexPairs_isSome_iff (bytesToHex bytes)).1 (by rw [hexPairs_bytesToHex]; rfl)
    rw [List.all_eq_true]
    exact this.2
  have hchars : ("0x" ++ String.ofList (bytesToHex bytes)).toList =
      '0' :: 'x' :: bytesToHex bytes := by simp
  have hstrip : stripHexPrefix ('0' :: 'x' :: bytesToHex bytes) = bytesToHex bytes := rfl
  simp only [hexData, hchars, hstrip, hdigits, if_true]

/-- The bytes of one push are one instruction. -/
theorem splitInstructions_of_push {decoded : DecodedPush} (hne : bytes ≠ [])
    (hpush : decodePushPrefix bytes false = .ok decoded)
    (hsize : decoded.encodedSize = bytes.length) :
    splitInstructions bytes.length (bytesToHex bytes) bytes =
      .ok [String.ofList (bytesToHex bytes)] := by
  obtain ⟨n, hn⟩ := Nat.exists_eq_succ_of_ne_zero (List.length_pos_iff.2 hne).ne'
  have hdigits : (bytesToHex bytes).length = bytes.length * 2 := by
    rw [bytesToHex_length, Nat.mul_comm]
  have hrest : ∀ digits, splitInstructions n digits [] = .ok [] := by
    intro digits
    cases n <;> rfl
  have hstep : splitInstructions bytes.length (bytesToHex bytes) bytes = (do
      let rest ← splitInstructions n ((bytesToHex bytes).drop (decoded.encodedSize * 2))
        (bytes.drop decoded.encodedSize)
      pure (String.ofList ((bytesToHex bytes).take (decoded.encodedSize * 2)) :: rest)) := by
    rw [hn, splitInstructions, hpush]
    · rfl
    · exact hne
  rw [hstep, hsize, ← hdigits, List.drop_length, List.drop_length, List.take_length, hrest]
  rfl

/-- Text of bytes that are one push is emitted as one atom. -/
theorem emitText_of_push {decoded : DecodedPush}
    (hpush : decodePushPrefix bytes false = .ok decoded)
    (hsize : decoded.encodedSize = bytes.length) :
    emitText ("0x" ++ String.ofList (bytesToHex bytes)) = [String.ofList (bytesToHex bytes)] := by
  have hne : bytes ≠ [] := by
    rintro rfl
    simp [decodePushPrefix, ScriptCodec.pushHeader, bind, Except.bind] at hpush
  have hpairs : hexPairs (String.ofList (bytesToHex bytes)).toList = some bytes := by
    rw [String.toList_ofList, hexPairs_bytesToHex]
  have hnonempty : String.ofList (bytesToHex bytes) ≠ "" := by
    intro hnil
    rw [hnil] at hpairs
    exact hne (by simpa using hpairs.symm)
  have hsplit : splitScriptFragment (String.ofList (bytesToHex bytes)) =
      .ok [String.ofList (bytesToHex bytes)] := by
    rw [splitScriptFragment, placeholderLabel_of_hexPairs hpairs, if_neg (by simp),
      hexToBytes_of_hexPairs hne hpairs, stripHexPrefix_of_hexPairs hpairs, String.toList_ofList]
    exact splitInstructions_of_push hne hpush hsize
  have hprocessed : processedOperand ("0x" ++ String.ofList (bytesToHex bytes)) =
      String.ofList (bytesToHex bytes) := by
    rw [processedOperand, hexData_bytesToHex, if_neg hnonempty]
  rw [emitText, hprocessed, hsplit]
  rfl

/-- A byte string that is one push whose value the machine accepts. -/
def IsPush (bytes value : Bytes) : Prop :=
  (∃ decoded, decodePushPrefix bytes false = .ok decoded ∧ decoded.encodedSize = bytes.length) ∧
    ∃ instr, exactInstruction bytes = some instr ∧ pushValue instr = some value ∧
      isEmptyPushdata instr = false

/-- The opcode of a number that has one is a push of the number. -/
theorem isPush_numberOpcode {value : ℤ} {opcode : UInt8} (h : numberOpcode value = some opcode) :
    IsPush [opcode] (serializeScriptNum value) := by
  have hpush : ∀ opcode : UInt8, exactInstruction [opcode] = some ⟨opcode, []⟩ →
      (decodePushPrefix [opcode] false).toOption.map (·.encodedSize) = some 1 →
      pushValue ⟨opcode, []⟩ = some (serializeScriptNum value) →
      isEmptyPushdata ⟨opcode, []⟩ = false → IsPush [opcode] (serializeScriptNum value) := by
    intro opcode hexact hsize hvalue hdata
    cases hdecoded : decodePushPrefix [opcode] false with
    | error err => simp [hdecoded, Except.toOption] at hsize
    | ok decoded =>
        refine ⟨⟨decoded, hdecoded, ?_⟩, _, hexact, hvalue, hdata⟩
        simpa [hdecoded, Except.toOption] using hsize
  unfold numberOpcode at h
  split_ifs at h with hzero hneg hsmall
  · obtain rfl := Option.some_inj.1 h
    subst hzero
    exact hpush _ (by decide) (by decide) (by decide) (by decide)
  · obtain rfl := Option.some_inj.1 h
    subst hneg
    exact hpush _ (by decide) (by decide) (by decide) (by decide)
  · obtain rfl := Option.some_inj.1 h
    have hall : ∀ n : Fin 17, 1 ≤ n.val →
        exactInstruction [0x50 + UInt8.ofNat n] = some ⟨0x50 + UInt8.ofNat n, []⟩ ∧
        (decodePushPrefix [0x50 + UInt8.ofNat n] false).toOption.map (·.encodedSize) = some 1 ∧
        pushValue ⟨0x50 + UInt8.ofNat n, []⟩ = some (serializeScriptNum (n.val : ℤ)) ∧
        isEmptyPushdata ⟨0x50 + UInt8.ofNat n, []⟩ = false := by decide
    obtain ⟨n, rfl⟩ : ∃ n : ℕ, value = n := ⟨value.toNat, by omega⟩
    obtain ⟨h1, h2, h3, h4⟩ := hall ⟨n, by omega⟩ (by simp; omega)
    exact hpush _ (by simpa using h1) (by simpa using h2) (by simpa using h3) (by simpa using h4)

/-- A short byte string after its length is a push of it. -/
theorem isPush_direct {data : Bytes} (hne : data ≠ []) (hlen : data.length < 76) :
    IsPush (UInt8.ofNat data.length :: data) data := by
  have hpos : 0 < data.length := List.length_pos_iff.2 hne
  have hval : ∀ a b : UInt8, a ≤ b ↔ a.toNat ≤ b.toNat := fun _ _ => Iff.rfl
  have hlt : ∀ a b : UInt8, a < b ↔ a.toNat < b.toNat := fun _ _ => Iff.rfl
  have htoNat : (UInt8.ofNat data.length).toNat = data.length := by
    rw [UInt8.toNat_ofNat']
    omega
  generalize UInt8.ofNat data.length = opcode at htoNat
  have hne0 : opcode ≠ 0x00 := by
    rintro rfl
    simp at htoNat
    omega
  have h4b : opcode ≤ 0x4b := by
    rw [hval, htoNat, show (0x4b : UInt8).toNat = 75 from rfl]
    omega
  have h4c : opcode < 0x4c := UInt8.lt_of_le_of_lt h4b (by decide)
  have hbytes : lengthBytes opcode = 0 := by
    by_contra hpos
    rcases lengthBytes_pos (Nat.pos_of_ne_zero hpos) with rfl | rfl | rfl <;>
      exact absurd h4b (by decide)
  have hdata : dataLength opcode data = data.length := by rw [dataLength, if_pos h4c, htoNat]
  refine ⟨⟨⟨data, .direct, 1 + data.length⟩, ?_, ?_⟩, ⟨opcode, data⟩, ?_, ?_, ?_⟩
  · simp [decodePushPrefix, ScriptCodec.pushHeader, hne0, h4b, htoNat, bind, Except.bind, pure,
      Except.pure]
  · simp only [List.length_cons]
    omega
  · rw [exactInstruction_push (UInt8.le_trans h4b (by decide)), hbytes, hdata, if_pos (by omega),
      List.drop_zero]
  · rw [pushValue, if_pos (UInt8.le_trans h4b (by decide))]
  · have hnot : ¬ (0x4c : UInt8) ≤ opcode := UInt8.not_le.2 h4c
    simp [isEmptyPushdata, hnot]

theorem serializeScriptNum_length {value : ℤ} (h : value ≠ 0) :
    serializeScriptNum value ≠ [] ∧ (serializeScriptNum value).length < 76 := by
  have hle := magnitudeBytes_length_le 8 value.natAbs
  have hne : magnitudeBytes 8 value.natAbs ≠ [] := fun hnil =>
    h (Int.natAbs_eq_zero.1 (magnitudeBytes_eq_nil hnil (by omega)))
  have hpos := List.length_pos_iff.2 hne
  rw [← List.length_pos_iff, serializeScriptNum_length_eq h]
  split_ifs <;> omega

theorem takes_push {value : Bytes} (h : IsPush bytes value) (main alt : Stack) :
    Takes env (emitText ("0x" ++ String.ofList (bytesToHex bytes))) (main, alt)
      (value :: main, alt) := by
  obtain ⟨⟨decoded, hpush, hsize⟩, instr, hexact, hvalue, hdata⟩ := h
  have hne : bytes ≠ [] := by
    rintro rfl
    simp [exactInstruction, decodeInstruction] at hexact
  have htext : completeInstruction (String.ofList (bytesToHex bytes)) = some instr := by
    rw [completeInstruction_of_hexPairs hne (by rw [String.toList_ofList, hexPairs_bytesToHex]),
      hexact]
  rw [emitText_of_push hpush hsize]
  exact takes_of_mainAtom alt (pushAtom_of_pushValue htext hvalue hdata) rfl

/-- The text of a number is the text of a push of the number. -/
theorem exists_isPush_number (value : ℤ) :
    ∃ bytes, numberToScriptHex value = "0x" ++ String.ofList (bytesToHex bytes) ∧
      IsPush bytes (serializeScriptNum value) := by
  unfold numberToScriptHex
  cases hop : numberOpcode value with
  | some opcode => exact ⟨[opcode], by simp, isPush_numberOpcode hop⟩
  | none =>
      have hne : value ≠ 0 := by
        rintro rfl
        simp [numberOpcode] at hop
      obtain ⟨hnil, hlen⟩ := serializeScriptNum_length hne
      have hpush : encodePushData (serializeScriptNum value) =
          String.ofList (bytesToHex (UInt8.ofNat (serializeScriptNum value).length ::
            serializeScriptNum value)) := by
        have hlegacy : encodePush (serializeScriptNum value) .legacy =
            some (UInt8.ofNat (serializeScriptNum value).length :: serializeScriptNum value) := by
          simp only [encodePush, ScriptCodec.legacyPushPrefix, hlen, if_true]
          rw [if_neg (by omega)]
          simp
        rw [encodePushData, hlegacy]
      exact ⟨_, by rw [hpush], isPush_direct hnil hlen⟩

/-- **A number that is written is pushed.** -/
theorem takes_number (value : ℤ) (main alt : Stack) :
    Takes env (emitText (numberToScriptHex value)) (main, alt)
      (serializeScriptNum value :: main, alt) := by
  obtain ⟨bytes, htext, hpush⟩ := exists_isPush_number value
  rw [htext]
  exact takes_push hpush main alt

/-- **`emitRoll` moves the slot it is asked for and no other.** -/
theorem takes_roll_of_lt {pos : ℕ} {main : Stack} (hpos : pos < main.length) (hsize : pos < 2 ^ 63)
    (alt : Stack) :
    Takes env (emitRoll pos) (main, alt) (main[pos] :: main.eraseIdx pos, alt) := by
  unfold emitRoll
  split_ifs with h0 h1 h2
  · subst h0
    obtain ⟨x, rest, rfl⟩ := List.exists_cons_of_length_pos hpos
    exact Takes.refl _
  · subst h1
    match main, hpos with
    | x :: y :: rest, _ => exact takes_op alt (by decide) rfl rfl
  · subst h2
    match main, hpos with
    | x :: y :: z :: rest, _ => exact takes_op alt (by decide) rfl rfl
  · have hnum : toInt (serializeScriptNum pos) = some (pos : ℤ) :=
      toInt_serializeScriptNum (by simp only [Int.natAbs_natCast]; omega)
    refine (takes_number (pos : ℤ) main alt).trans (takes_op alt (by decide) rfl ?_)
    have hnonneg : ¬ (pos : ℤ) < 0 := by omega
    simp only [opRoll, Stack.pop_cons, bind, Except.bind, hnum, hnonneg, if_false, Int.toNat_natCast,
      Stack.roll_of_lt hpos]

theorem takes_roll {pos : ℕ} (hpos : pos < main.length) (hsize : main.length < 2 ^ 63)
    (alt : Stack) :
    Takes env (emitRoll pos) (main, alt) (main[pos] :: main.eraseIdx pos, alt) :=
  takes_roll_of_lt hpos (hpos.trans hsize) alt

end AtomicProof
