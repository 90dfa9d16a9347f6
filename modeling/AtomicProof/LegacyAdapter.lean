/-
The boundary between the typed script and its text.

`LegacyBytecodeAdapter` in `src/src/bytecode/legacy_bytecode_adapter.h` turns a list of atoms into a
typed script and back, and cuts a fragment of hexadecimal text at its instruction boundaries.

Main definitions:

* `LegacyBytecodeAdapter.parseExecutableAtom`, `LegacyBytecodeAdapter.importLegacy`,
  `LegacyBytecodeAdapter.exportPreserving` — between atoms and typed instructions;
* `LegacyBytecodeAdapter.splitScriptFragment` — the instructions of a fragment;
* `InstructionGrammar` — the encodings of one instruction.

Main results:

* `LegacyBytecodeAdapter.exportPreserving_importLegacy` — exporting an imported list gives it back;
* `LegacyBytecodeAdapter.splitScriptFragment_spec` — **a fragment is cut exactly when it is a row of
  complete instructions**, and the pieces are the instructions in order.
-/

import AtomicProof.BytecodeIR
import AtomicProof.PushCodec
import AtomicProof.Script

set_option autoImplicit false

namespace AtomicProof

open ScriptCodec (PushGrammar decodePushPrefix decodePushHex hexToBytes stripHexPrefix encodePush
  opcode_cases lengthField)

/-! ### One instruction -/

/-- The encodings of one instruction: a push of a payload, or an opcode that begins no push. -/
inductive InstructionGrammar : Bytes → InstructionBody → Prop
  | pushData {form : PushForm} {encoding payload : Bytes} :
      PushGrammar form encoding payload → InstructionGrammar encoding (.pushData payload)
  | opcode {opcode : UInt8} :
      opcode = 0x50 ∨ 0x60 < opcode → InstructionGrammar [opcode] (.opcode opcode.toUInt16)

theorem InstructionGrammar.length_pos {encoding : Bytes} {body : InstructionBody}
    (h : InstructionGrammar encoding body) : 0 < encoding.length := by
  cases h with
  | pushData hpush => exact hpush.length_pos
  | opcode _ => simp

namespace LegacyBytecodeAdapter

/-! ### Atoms -/

def isPlaceholder (atom : String) : Bool := (placeholderLabel atom).isSome

def parseExecutableAtom (atom : String) : InstructionBody :=
  match placeholderLabel atom with
  | some label => .placeholderPush label none
  | none =>
      match decodePushHex atom false with
      | .ok decoded => .pushData decoded.payload
      | .error decodeError =>
          match hexToBytes atom with
          | .ok [byte] =>
              if decodeError = .notPush then .opcode byte.toUInt16 else .legacyBarrier atom
          | _ => .legacyBarrier atom

/-- An atom that is the text of `OP_RETURN`, as `findImmutableSuffixBoundary` recognises it. -/
def isReturnAtom (atom : String) : Bool :=
  match hexToBytes atom with
  | .ok [byte] => byte = BytOpcode.opReturn.toByte
  | _ => false

/-- `findImmutableSuffixBoundary`: the index after the last `OP_RETURN`. -/
def findImmutableSuffixBoundary (atoms : List String) : Option ℕ :=
  (atoms.reverse.findIdx? isReturnAtom).map (atoms.length - ·)

/-- The instruction that `import` makes of the atom at an index. -/
def importAtom (suffixBoundary : Option ℕ) (index : ℕ) (atom : String) : BytecodeInstruction :=
  let inSuffix := suffixBoundary.any (· ≤ index)
  { id := index
    body :=
      if inSuffix && !isPlaceholder atom then .rawSuffix atom else parseExecutableAtom atom
    region := if inSuffix then .immutableSuffix else .executable
    origins := [index]
    legacyEncoding := some atom }

/-- `import`. -/
def importLegacy (atoms : List String) (unlockingScripts : List (String × String)) :
    BytecodeArtifact where
  format := .legacyV1
  lockingScript := atoms.mapIdx (importAtom (findImmutableSuffixBoundary atoms))
  unlockingScripts := unlockingScripts
  constructorSchema := []
  layout := ⟨none, false⟩

def synthesizeLegacy : InstructionBody → String
  | .opcode opcode =>
      if 255 < opcode.toNat then "" else String.ofList (bytesToHex [UInt8.ofNat opcode.toNat])
  | .pushData payload =>
      match encodePush payload .legacy with
      | some encoding => String.ofList (bytesToHex encoding)
      | none => ""
  | .placeholderPush label _ => "<" ++ label ++ ">"
  | .rawSuffix raw => raw
  | .legacyBarrier raw => raw

def serializeInstructionPreserving (instruction : BytecodeInstruction) : String :=
  instruction.legacyEncoding.getD (synthesizeLegacy instruction.body)

def exportPreserving (artifact : BytecodeArtifact) : List String × List (String × String) :=
  (artifact.lockingScript.map serializeInstructionPreserving, artifact.unlockingScripts)

@[simp] theorem serialize_importAtom (suffixBoundary : Option ℕ) (index : ℕ) (atom : String) :
    serializeInstructionPreserving (importAtom suffixBoundary index atom) = atom := rfl

theorem exportPreserving_importLegacy (atoms : List String)
    (unlockingScripts : List (String × String)) :
    exportPreserving (importLegacy atoms unlockingScripts) = (atoms, unlockingScripts) := by
  simp only [exportPreserving, importLegacy, Prod.mk.injEq, and_true]
  refine List.ext_getElem (by simp) ?_
  intro i h₁ h₂
  simp

/-! ### Fragments -/

/-- `LegacyFragmentParseResult`, where no error is `None`. -/
structure LegacyFragmentParseResult where
  instructions : List BytecodeInstruction
  error : Option ScriptCodecError
  errorByteOffset : ℕ
  deriving DecidableEq, Repr

/-- The instruction that `splitScriptFragment` makes of `consumed` bytes at an offset. -/
def fragmentInstruction (firstId : ℕ) (region : ScriptRegion) (rawHex : List Char)
    (byteOffset consumed : ℕ) (count : ℕ) (body : InstructionBody) : BytecodeInstruction where
  id := firstId + count
  body := body
  region := region
  origins := [firstId + count]
  legacyEncoding := some (String.ofList ((rawHex.drop (byteOffset * 2)).take (consumed * 2)))

/-- The body of the loop of `splitScriptFragment`: how many bytes the next instruction takes, and
what it is. -/
def nextInstruction (remaining : Bytes) : Except ScriptCodecError (ℕ × InstructionBody) :=
  match decodePushPrefix remaining false with
  | .ok decoded => .ok (decoded.encodedSize, .pushData decoded.payload)
  | .error .notPush => .ok (1, .opcode (remaining.headD 0).toUInt16)
  | .error error => .error error

/-- The loop of `splitScriptFragment`: `remaining` are the bytes from `byteOffset` on and `fuel` is
at least their number. -/
def splitLoop (firstId : ℕ) (region : ScriptRegion) (rawHex : List Char) :
    ℕ → ℕ → Bytes → List BytecodeInstruction → LegacyFragmentParseResult
  | 0, _, _, instructions => ⟨instructions, none, 0⟩
  | _ + 1, _, [], instructions => ⟨instructions, none, 0⟩
  | fuel + 1, byteOffset, byte :: bytes, instructions =>
      match nextInstruction (byte :: bytes) with
      | .ok (consumed, body) =>
          splitLoop firstId region rawHex fuel (byteOffset + consumed)
            ((byte :: bytes).drop consumed)
            (instructions ++ [fragmentInstruction firstId region rawHex byteOffset consumed
              instructions.length body])
      | .error error => ⟨[], some error, byteOffset⟩

def splitScriptFragment (fragment : String) (firstId : ℕ) (region : ScriptRegion) :
    LegacyFragmentParseResult :=
  match placeholderLabel fragment with
  | some label =>
      ⟨[⟨firstId, .placeholderPush label none, region, [firstId], some fragment⟩], none, 0⟩
  | none =>
      match hexToBytes fragment with
      | .error error => ⟨[], some error, 0⟩
      | .ok bytes => splitLoop firstId region (stripHexPrefix fragment.toList) bytes.length 0 bytes []

/-- What is read as one instruction is one, and nothing else is. -/
theorem nextInstruction_ok_iff {bytes : Bytes} {consumed : ℕ} {body : InstructionBody} :
    nextInstruction bytes = .ok (consumed, body) ↔
      ∃ piece rest, bytes = piece ++ rest ∧ consumed = piece.length ∧
        InstructionGrammar piece body := by
  constructor
  · intro h
    unfold nextInstruction at h
    split at h
    · rename_i decoded hdec
      obtain ⟨rfl, rfl⟩ := Prod.mk.inj (Except.ok.inj h)
      obtain ⟨push, rest, rfl, hsize, hgrammar⟩ := ScriptCodec.decodePushPrefix_false_iff.1 hdec
      exact ⟨push, rest, rfl, hsize, .pushData hgrammar⟩
    · rename_i hdec
      obtain ⟨rfl, rfl⟩ := Prod.mk.inj (Except.ok.inj h)
      obtain ⟨opcode, rest, rfl, hop⟩ := ScriptCodec.decodePushPrefix_notPush_iff.1 hdec
      exact ⟨[opcode], rest, rfl, rfl, .opcode hop⟩
    · simp at h
  · rintro ⟨piece, rest, rfl, rfl, hgrammar⟩
    cases hgrammar with
    | pushData hpush =>
        rw [nextInstruction, ScriptCodec.decodePushPrefix_of_grammar hpush rest]
    | opcode hop =>
        have hdec := ScriptCodec.decodePushPrefix_notPush_iff.2 ⟨_, rest, rfl, hop⟩
        rw [nextInstruction, List.singleton_append, hdec]
        rfl

/-- An instruction of a fragment carries the body of a piece, the region asked for, and the text of
the piece. -/
def IsPiece (region : ScriptRegion) (instruction : BytecodeInstruction)
    (piece : Bytes × InstructionBody) : Prop :=
  instruction.body = piece.2 ∧ instruction.region = region ∧
    instruction.origins = [instruction.id] ∧
      ∃ text, instruction.legacyEncoding = some text ∧ hexPairs text.toList = some piece.1

/-- The digits of an instruction of a fragment. -/
def digitsOf (instruction : BytecodeInstruction) : List Char :=
  (instruction.legacyEncoding.getD "").toList

def Pieces (pieces : List (Bytes × InstructionBody)) (bytes : Bytes) : Prop :=
  (∀ piece ∈ pieces, InstructionGrammar piece.1 piece.2) ∧ bytes = (pieces.map Prod.fst).flatten

/-- What the loop of `splitScriptFragment` has appended when it ends without error: one instruction
a piece. -/
structure Splits (firstId : ℕ) (region : ScriptRegion) (digits : List Char) (bytes : Bytes)
    (count : ℕ) (new : List BytecodeInstruction) : Prop where
  pieces : ∃ pieces, Pieces pieces bytes ∧ List.Forall₂ (IsPiece region) new pieces
  ids : new.map BytecodeInstruction.id = List.range' (firstId + count) new.length
  digits_eq : new.flatMap digitsOf = digits

/-- **The loop cuts exactly the rows of complete instructions**, and fails without instructions on
every other byte string. -/
theorem splitLoop_spec {firstId : ℕ} {region : ScriptRegion} {rawHex : List Char} (fuel : ℕ)
    {byteOffset : ℕ} {bytes : Bytes} {instructions : List BytecodeInstruction}
    (hfuel : bytes.length ≤ fuel)
    (hhex : hexPairs (rawHex.drop (byteOffset * 2)) = some bytes) :
    (∃ new, splitLoop firstId region rawHex fuel byteOffset bytes instructions =
        ⟨instructions ++ new, none, 0⟩ ∧
      Splits firstId region (rawHex.drop (byteOffset * 2)) bytes instructions.length new) ∨
    ((∃ error offset, splitLoop firstId region rawHex fuel byteOffset bytes instructions =
        ⟨[], some error, offset⟩) ∧ ∀ pieces, ¬ Pieces pieces bytes) := by
  -- every piece takes at least its opcode, so the fuel does not run out
  induction fuel generalizing byteOffset bytes instructions with
  | zero =>
      obtain rfl := List.length_eq_zero_iff.1 (Nat.le_zero.1 hfuel)
      have hnil := List.length_eq_zero_iff.1 (length_of_hexPairs hhex)
      refine .inl ⟨[], by simp [splitLoop], ⟨[], by simp [Pieces], .nil⟩, rfl, ?_⟩
      rw [hnil]
      rfl
  | succ fuel ih =>
      match bytes with
      | [] =>
          have hnil := List.length_eq_zero_iff.1 (length_of_hexPairs hhex)
          refine .inl ⟨[], by simp [splitLoop], ⟨[], by simp [Pieces], .nil⟩, rfl, ?_⟩
          rw [hnil]
          rfl
      | byte :: bytes =>
          cases hnext : nextInstruction (byte :: bytes) with
          | error error =>
              -- the first piece of a split would have been read here
              refine .inr ⟨⟨error, byteOffset, by simp only [splitLoop, hnext]⟩, ?_⟩
              rintro pieces ⟨hgrammar, hflat⟩
              match pieces with
              | [] => simp at hflat
              | (piece, body) :: rest =>
                  have hok := nextInstruction_ok_iff.2
                    ⟨piece, (rest.map Prod.fst).flatten, hflat, rfl,
                      hgrammar (piece, body) (by simp)⟩
                  rw [hnext] at hok
                  simp at hok
          | ok next =>
              obtain ⟨consumed, body⟩ := next
              obtain ⟨piece, rest, hsplit, rfl, hgrammar⟩ := nextInstruction_ok_iff.1 hnext
              have hpos := hgrammar.length_pos
              have hdrop : (byte :: bytes).drop piece.length = rest := by
                rw [hsplit, List.drop_left]
              have hrest : rest.length ≤ fuel := by
                have hlen := congrArg List.length hsplit
                simp only [List.length_cons, List.length_append] at hlen hfuel
                omega
              have hmul : (byteOffset + piece.length) * 2 =
                  byteOffset * 2 + piece.length * 2 := by omega
              have hhex' : hexPairs (rawHex.drop ((byteOffset + piece.length) * 2)) =
                  some rest := by
                rw [hmul, ← List.drop_drop, ← hdrop]
                exact hexPairs_drop hhex _
              have hloop : splitLoop firstId region rawHex (fuel + 1) byteOffset (byte :: bytes)
                  instructions = splitLoop firstId region rawHex fuel (byteOffset + piece.length)
                    rest (instructions ++ [fragmentInstruction firstId region rawHex byteOffset
                      piece.length instructions.length body]) := by
                simp only [splitLoop, hnext, hdrop]
              rw [hloop]
              rcases ih hrest hhex' with ⟨new, hrun, hsplits⟩ | ⟨⟨error, offset, hrun⟩, hnone⟩
              · obtain ⟨⟨pieces, ⟨hall, hflat⟩, hrel⟩, hids, hdigits⟩ := hsplits
                have htext : hexPairs ((rawHex.drop (byteOffset * 2)).take (piece.length * 2)) =
                    some piece := by
                  rw [hexPairs_take hhex, hsplit, List.take_left]
                refine .inl ⟨_ :: new, by rw [hrun, List.append_assoc]; rfl, ?_, ?_, ?_⟩
                · refine ⟨(piece, body) :: pieces, ⟨?_, by rw [hsplit, hflat]; rfl⟩, .cons ?_ hrel⟩
                  · intro p hp
                    rcases List.mem_cons.1 hp with rfl | hp
                    · exact hgrammar
                    · exact hall p hp
                  · exact ⟨rfl, rfl, rfl, _, rfl, by rw [String.toList_ofList]; exact htext⟩
                · rw [List.map_cons, hids, List.length_cons, List.range'_succ, List.length_append]
                  rfl
                · rw [List.flatMap_cons, hdigits, hmul, ← List.drop_drop]
                  simp only [digitsOf, fragmentInstruction, Option.getD_some, String.toList_ofList]
                  exact List.take_append_drop _ _
              -- no two pieces begin at one place, so any split leaves the same rest
              · refine .inr ⟨⟨error, offset, hrun⟩, ?_⟩
                rintro pieces ⟨hall, hflat⟩
                match pieces with
                | [] => simp at hflat
                | (p, b) :: pieces =>
                    have hok := nextInstruction_ok_iff.2
                      ⟨p, (pieces.map Prod.fst).flatten, hflat, rfl, hall (p, b) (by simp)⟩
                    rw [hnext] at hok
                    obtain ⟨hlen, _⟩ := Prod.mk.inj (Except.ok.inj hok)
                    have hboth : piece ++ rest = p ++ (pieces.map Prod.fst).flatten := by
                      rw [← hsplit, hflat]
                      rfl
                    exact hnone pieces ⟨fun q hq => hall q (by simp [hq]),
                      (List.append_inj hboth hlen).2⟩

/-- **A fragment is cut exactly when it is a row of complete instructions.** -/
theorem splitScriptFragment_spec {fragment : String} {bytes : Bytes} (hne : bytes ≠ [])
    (h : hexPairs (stripHexPrefix fragment.toList) = some bytes) (firstId : ℕ)
    (region : ScriptRegion) :
    (∃ new, splitScriptFragment fragment firstId region = ⟨new, none, 0⟩ ∧
      Splits firstId region (stripHexPrefix fragment.toList) bytes 0 new) ∨
    ((∃ error offset, splitScriptFragment fragment firstId region = ⟨[], some error, offset⟩) ∧
      ∀ pieces, ¬ Pieces pieces bytes) := by
  simp only [splitScriptFragment, placeholderLabel_of_hexPairs_strip h, hexToBytes_of_strip hne h]
  exact splitLoop_spec bytes.length (Nat.le_refl _) h

/-- A byte string is a row of complete instructions in one way only. -/
theorem Pieces.unique {pieces pieces' : List (Bytes × InstructionBody)} {bytes : Bytes}
    (h : Pieces pieces bytes) (h' : Pieces pieces' bytes) : pieces = pieces' := by
  induction pieces generalizing pieces' bytes with
  | nil =>
      obtain ⟨hall, hflat⟩ := h'
      rw [h.2] at hflat
      cases pieces' with
      | nil => rfl
      | cons first rest =>
          have hpos := (hall first (by simp)).length_pos
          have hlen := congrArg List.length hflat
          simp only [List.map_nil, List.flatten_nil, List.length_nil, List.map_cons,
            List.flatten_cons, List.length_append] at hlen
          omega
  | cons first rest ih =>
      obtain ⟨piece, body⟩ := first
      obtain ⟨hall, hflat⟩ := h
      obtain ⟨hall', hflat'⟩ := h'
      rw [List.map_cons, List.flatten_cons] at hflat
      have hgrammar : InstructionGrammar piece body := hall (piece, body) (by simp)
      cases pieces' with
      | nil =>
          have hpos := hgrammar.length_pos
          have hlen := congrArg List.length (hflat.symm.trans hflat')
          simp only [List.map_nil, List.flatten_nil, List.length_nil, List.length_append] at hlen
          omega
      | cons first' rest' =>
          obtain ⟨piece', body'⟩ := first'
          rw [List.map_cons, List.flatten_cons] at hflat'
          have hnext := nextInstruction_ok_iff.2 ⟨piece, _, hflat, rfl, hgrammar⟩
          have hgrammar' : InstructionGrammar piece' body' := hall' (piece', body') (by simp)
          have hnext' := nextInstruction_ok_iff.2 ⟨piece', _, hflat', rfl, hgrammar'⟩
          rw [hnext] at hnext'
          obtain ⟨hlen, hbody⟩ := Prod.mk.inj (Except.ok.inj hnext')
          obtain ⟨hpiece, hrest⟩ := List.append_inj (hflat.symm.trans hflat') hlen
          have hsame := ih ⟨fun q hq => hall q (by simp [hq]), rfl⟩
            ⟨fun q hq => hall' q (by simp [hq]), hrest⟩
          rw [hsame, show piece = piece' from hpiece, hbody]

/-- The text of a row of complete instructions is cut into them. -/
theorem splitScriptFragment_of_pieces {pieces : List (Bytes × InstructionBody)} {bytes : Bytes}
    (hne : bytes ≠ []) (h : Pieces pieces bytes) (firstId : ℕ) (region : ScriptRegion) :
    ∃ new, splitScriptFragment (String.ofList (bytesToHex bytes)) firstId region =
        ⟨new, none, 0⟩ ∧ new.map BytecodeInstruction.body = pieces.map Prod.snd := by
  have hhex : hexPairs (stripHexPrefix (String.ofList (bytesToHex bytes)).toList) = some bytes := by
    rw [String.toList_ofList, stripHexPrefix_of_hexPairs (hexPairs_bytesToHex bytes),
      hexPairs_bytesToHex]
  rcases splitScriptFragment_spec hne hhex firstId region with ⟨new, hrun, hsplits⟩ | ⟨-, hnone⟩
  · obtain ⟨pieces', hpieces', hrel⟩ := hsplits.pieces
    obtain rfl := h.unique hpieces'
    refine ⟨new, hrun, ?_⟩
    clear hrun hsplits hpieces' h
    induction hrel with
    | nil => rfl
    | cons hpiece _ ih => rw [List.map_cons, List.map_cons, ih, hpiece.1]
  · exact absurd h (hnone pieces)

end LegacyBytecodeAdapter

end AtomicProof
