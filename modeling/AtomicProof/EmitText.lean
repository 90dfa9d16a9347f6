/-
Text of several instructions.

A built-in function writes its instructions as one piece of hexadecimal text and hands it to
`BytecodeGenerator::emit`, which cuts it again at the boundaries of the instructions.  Text that was
put together from whole instructions is cut where it was put together.

Main definitions:

* `instructionSize` — how many bytes the generator takes for one instruction;
* `IsOneInstruction` — bytes that are one instruction wherever they stand;
* `hexText` — the text of bytes.

Main results:

* `emitText_pieces` — **text of whole instructions is cut into these instructions**.
-/

import AtomicProof.Generator
import AtomicProof.PushCodec

set_option autoImplicit false

namespace AtomicProof

open ScriptCodec

/-! ### Instructions in a row of bytes -/

/-- The bytes one turn of the loop of `splitScriptFragment` takes. -/
def instructionSize (bytes : Bytes) : Except ScriptCodecError ℕ :=
  match decodePushPrefix bytes false with
  | .ok decoded => .ok decoded.encodedSize
  | .error .notPush => .ok 1
  | .error error => .error error

/-- Bytes that are one instruction, whatever follows them. -/
def IsOneInstruction (bytes : Bytes) : Prop :=
  bytes ≠ [] ∧ ∀ rest, instructionSize (bytes ++ rest) = .ok bytes.length

variable {digits : List Char} {bytes : Bytes} {text : String}

theorem splitInstructions_turn {fuel : ℕ} {size : ℕ}
    (hne : bytes ≠ []) (h : instructionSize bytes = .ok size) :
    splitInstructions (fuel + 1) digits bytes =
      (splitInstructions fuel (digits.drop (size * 2)) (bytes.drop size)).map
        (String.ofList (digits.take (size * 2)) :: ·) := by
  rw [splitInstructions]
  · unfold instructionSize at h
    rcases hdecode : decodePushPrefix bytes false with error | decoded
    · rw [hdecode] at h
      cases error <;> cases h
      simp only [bind, Except.bind]
      cases splitInstructions fuel (digits.drop (1 * 2)) (bytes.drop 1) <;> rfl
    · rw [hdecode] at h
      obtain rfl := Except.ok.inj h
      simp only [bind, Except.bind]
      cases splitInstructions fuel (digits.drop (decoded.encodedSize * 2))
        (bytes.drop decoded.encodedSize) <;> rfl
  · exact hne

/-- A row of instructions is cut into its members. -/
theorem splitInstructions_pieces :
    ∀ (pieces : List Bytes) (fuel : ℕ), (∀ piece ∈ pieces, IsOneInstruction piece) →
      pieces.flatten.length ≤ fuel →
      splitInstructions fuel (bytesToHex pieces.flatten) pieces.flatten =
        .ok (pieces.map fun piece => String.ofList (bytesToHex piece)) := by
  intro pieces
  induction pieces with
  | nil =>
      intro fuel _ _
      cases fuel <;> rfl
  | cons piece pieces ih =>
      intro fuel hpieces hfuel
      obtain ⟨hne, hsize⟩ := hpieces piece List.mem_cons_self
      have hpos := List.length_pos_iff.2 hne
      have hlen : (piece :: pieces).flatten.length = piece.length + pieces.flatten.length := by
        simp
      obtain ⟨fuel, rfl⟩ : ∃ n, fuel = n + 1 := ⟨fuel - 1, by omega⟩
      have hdigits : (bytesToHex piece).length = piece.length * 2 := by
        rw [bytesToHex_length, Nat.mul_comm]
      rw [List.flatten_cons, bytesToHex_append,
        splitInstructions_turn (by simp [hne]) (hsize _), List.drop_left, ← hdigits,
        List.drop_left, List.take_left, ih fuel
          (fun other hother => hpieces other (List.mem_cons_of_mem _ hother)) (by omega)]
      rfl

/-! ### Pieces -/

theorem isOneInstruction_op {op : BytOpcode} (h : op.toByte = 0x50 ∨ 0x60 < op.toByte) :
    IsOneInstruction [op.toByte] := by
  refine ⟨by simp, ?_⟩
  intro rest
  have hdecode : decodePushPrefix ([op.toByte] ++ rest) false = .error .notPush :=
    decodePushPrefix_notPush_iff.2 ⟨_, _, rfl, h⟩
  rw [instructionSize, hdecode]
  rfl

theorem isOneInstruction_push {value : Bytes} (h : IsPush bytes value) : IsOneInstruction bytes := by
  obtain ⟨⟨decoded, hdecoded, hsize⟩, -⟩ := h
  refine ⟨?_, ?_⟩
  · rintro rfl
    simp [decodePushPrefix, pushHeader, bind, Except.bind] at hdecoded
  · intro rest
    rw [instructionSize, decodePushPrefix_append hdecoded rest, ← hsize]

/-! ### Text -/

def hexText (bytes : Bytes) : String := String.ofList (bytesToHex bytes)

theorem hexText_append (bytes bytes' : Bytes) :
    hexText (bytes ++ bytes') = hexText bytes ++ hexText bytes' := by
  rw [hexText, bytesToHex_append, String.ofList_append]
  rfl

theorem hexPairs_hexText (bytes : Bytes) : hexPairs (hexText bytes).toList = some bytes := by
  rw [hexText, String.toList_ofList, hexPairs_bytesToHex]

@[simp] theorem hexText_op (op : BytOpcode) : hexText [op.toByte] = opcodeToHex op := by
  simp [hexText, opcodeToHex, bytesToHex]

theorem hexText_ne_empty (h : bytes ≠ []) : hexText bytes ≠ "" := by
  intro hempty
  have hpairs := hexPairs_hexText bytes
  rw [hempty] at hpairs
  exact h (by simpa using hpairs.symm)

/-- Text of bytes, with its prefix or without, is processed to the digits. -/
theorem processedOperand_hexText (hne : bytes ≠ [])
    (h : text = hexText bytes ∨ text = "0x" ++ hexText bytes) :
    processedOperand text = hexText bytes := by
  have hdata : hexData text = hexText bytes := by
    rcases h with rfl | rfl
    · have hall : (bytesToHex bytes).all isXDigit = true := by
        have := (hexPairs_isSome_iff (bytesToHex bytes)).1 (by rw [hexPairs_bytesToHex]; rfl)
        rw [List.all_eq_true]
        exact this.2
      rw [hexData, stripHexPrefix_of_hexPairs (hexPairs_hexText bytes)]
      simp only [hexText, String.toList_ofList, hall, if_true]
    · exact hexData_bytesToHex bytes
  rw [processedOperand, hdata, if_neg (hexText_ne_empty hne)]

/-- **Text of whole instructions is cut into these instructions.** -/
theorem emitText_pieces {pieces : List Bytes} (hpieces : ∀ piece ∈ pieces, IsOneInstruction piece)
    (hne : pieces ≠ [])
    (h : text = hexText pieces.flatten ∨ text = "0x" ++ hexText pieces.flatten) :
    emitText text = pieces.map hexText := by
  have hbytes : pieces.flatten ≠ [] := by
    obtain ⟨piece, hpiece⟩ := List.exists_mem_of_ne_nil _ hne
    intro hnil
    exact (hpieces piece hpiece).1 (List.flatten_eq_nil_iff.1 hnil piece hpiece)
  have hpairs := hexPairs_hexText pieces.flatten
  have hsplit : splitScriptFragment (hexText pieces.flatten) = .ok (pieces.map hexText) := by
    rw [splitScriptFragment, placeholderLabel_of_hexPairs hpairs, if_neg (by simp),
      hexToBytes_of_hexPairs hbytes hpairs, stripHexPrefix_of_hexPairs hpairs]
    simp only [hexText, String.toList_ofList]
    exact splitInstructions_pieces pieces _ hpieces le_rfl
  rw [emitText, processedOperand_hexText hbytes h, hsplit]
  rfl

/-- Text of one instruction, in digits of either case, is emitted as it is. -/
theorem emitText_piece (hprocessed : processedOperand text = String.ofList digits)
    (hpairs : hexPairs digits = some bytes) (hpiece : IsOneInstruction bytes) :
    emitText text = [String.ofList digits] := by
  have hpairs' : hexPairs (String.ofList digits).toList = some bytes := by
    rw [String.toList_ofList, hpairs]
  have hlen : digits.length = bytes.length * 2 := by
    rw [length_of_hexPairs hpairs, Nat.mul_comm]
  obtain ⟨n, hn⟩ := Nat.exists_eq_succ_of_ne_zero (List.length_pos_iff.2 hpiece.1).ne'
  have hsize : instructionSize bytes = .ok bytes.length := by
    simpa using hpiece.2 []
  have hrest : ∀ digits : List Char, splitInstructions n digits [] = .ok [] := by
    intro digits
    cases n <;> rfl
  have hsplit : splitScriptFragment (String.ofList digits) = .ok [String.ofList digits] := by
    rw [splitScriptFragment, placeholderLabel_of_hexPairs hpairs', if_neg (by simp),
      hexToBytes_of_hexPairs hpiece.1 hpairs', stripHexPrefix_of_hexPairs hpairs',
      String.toList_ofList]
    simp only [bind, Except.bind]
    rw [hn, splitInstructions_turn hpiece.1 hsize, ← hlen, List.drop_length, List.drop_length,
      List.take_length, hrest]
    rfl
  rw [emitText, hprocessed, hsplit]
  rfl

theorem takes_pushText {env : ScriptEnv} {value : Bytes}
    (hprocessed : processedOperand text = String.ofList digits)
    (hpairs : hexPairs digits = some bytes) (hpush : IsPush bytes value) (main alt : Stack) :
    Takes env (emitText text) (main, alt) (value :: main, alt) := by
  rw [emitText_piece hprocessed hpairs (isOneInstruction_push hpush)]
  obtain ⟨-, instr, hexact, hvalue, hdata⟩ := hpush
  have hne : bytes ≠ [] := by
    rintro rfl
    simp [exactInstruction, decodeInstruction] at hexact
  have htext : completeInstruction (String.ofList digits) = some instr := by
    rw [completeInstruction_of_hexPairs hne (by rw [String.toList_ofList, hpairs]), hexact]
  exact takes_of_mainAtom alt (pushAtom_of_pushValue htext hvalue hdata) rfl

end AtomicProof
