/-
The text of an instruction.

The compiler writes instructions as hexadecimal text, the passes rewrite such text and the machine
runs what it decodes to.  This module settles once what the text of a byte string decodes to and
what a push does.

Main definitions:

* `isOneByte` — the opcodes that are an instruction by themselves;
* `PushAtom` — an atom that pushes a value.

Main results:

* `completeInstruction_of_hexPairs` — the instruction of pure hexadecimal text;
* `pushAtom_of_pushValue` — a complete push pushes its value.
-/

import AtomicProof.Script

set_option autoImplicit false

namespace AtomicProof

/-! ### Hexadecimal text -/

variable {s : String} {op : BytOpcode} {instr : Instruction}

theorem completeInstruction_of_hexPairs {bs : Bytes} (hne : bs ≠ [])
    (h : hexPairs s.toList = some bs) : completeInstruction s = exactInstruction bs := by
  rw [completeInstruction, hexToBytes_of_hexPairs hne h]

/-- The opcodes that are an instruction by themselves. -/
def isOneByte (op : BytOpcode) : Bool := op = .op0 || 0x4e < op.toByte

theorem exactInstruction_toByte (h : isOneByte op = true) :
    exactInstruction [op.toByte] = some ⟨op.toByte, []⟩ := by
  cases op <;> first | decide | (simp [isOneByte, BytOpcode.toByte] at h)

/-! ### Pushes -/

/-- A push atom: it pushes `payload` where the machine executes. -/
def PushAtom (env : ScriptEnv) (text : String) (payload : Bytes) : Prop :=
  MainAtom env text fun s => .ok (payload :: s)

/-- A direct push carries as many bytes as its opcode says. -/
theorem operand_length_of_exactInstruction {bs : Bytes}
    (h : exactInstruction bs = some instr) (hop : instr.opcode ≤ 0x4b) :
    instr.operand.length = instr.opcode.toNat := by
  match bs with
  | [] => simp [exactInstruction, decodeInstruction] at h
  | opcode :: rest =>
      by_cases hpush : opcode ≤ 0x4e
      · rw [exactInstruction_push hpush] at h
        split at h
        · rename_i hlen
          obtain rfl := Option.some_inj.1 h
          have hlt : opcode < 0x4c := UInt8.lt_of_le_of_lt hop (by decide)
          have hzero : lengthBytes opcode = 0 := by
            by_contra hne
            rcases lengthBytes_pos (Nat.pos_of_ne_zero hne) with rfl | rfl | rfl <;>
              exact absurd hlt (by decide)
          simpa [hzero, dataLength, hlt] using hlen
        · simp at h
      · rw [exactInstruction_of_lt (UInt8.not_le.1 hpush)] at h
        split at h
        · obtain rfl := Option.some_inj.1 h
          exact absurd (UInt8.le_trans hop (by decide)) hpush
        · simp at h

theorem exists_exactInstruction
    (h : completeInstruction s = some instr) : ∃ bs, exactInstruction bs = some instr := by
  unfold completeInstruction at h
  cases hhex : ScriptCodec.hexToBytes s with
  | error err => simp [hhex] at h
  | ok bs => exact ⟨bs, by simpa [hhex] using h⟩

theorem pushValue_of_smallInteger {n : ℤ} (h : smallInteger op = some n)
    (hne : op ≠ .op0) (operand : Bytes) :
    pushValue ⟨op.toByte, operand⟩ = some (serializeScriptNum n) := by
  have hone : ∀ op ∈ BytOpcode.all, op ≠ .op0 → ∀ n ∈ smallInteger op,
      ¬ op.toByte ≤ 0x4e ∧ (op.toByte = 0x4f ∧ serializeScriptNum n = [0x81] ∨
        op.toByte ≠ 0x4f ∧ 0x51 ≤ op.toByte ∧ op.toByte ≤ 0x60 ∧
          serializeScriptNum n = [op.toByte - 0x50]) := by
    decide
  have hmem : op ∈ BytOpcode.all := by cases op <;> decide
  obtain ⟨hgt, ⟨h4f, hn⟩ | ⟨h4f, hlo, hhi, hn⟩⟩ := hone op hmem hne n h
  · simp [pushValue, h4f, hn]
  · simp [pushValue, hgt, h4f, hlo, hhi, hn]

/-- The main-stack instruction of an opcode that pushes. -/
theorem mainOp_of_pushValue (env : Env) {operand value : Bytes}
    (hvalue : pushValue ⟨op.toByte, operand⟩ = some value)
    (hzero : op = .op0 → operand = [])
    (hdata : isEmptyPushdata ⟨op.toByte, operand⟩ = false) :
    ∃ f, mainOp env operand op = some f ∧ ∀ s, f s = .ok (value :: s) := by
  cases hn : smallInteger op with
  | some n =>
      have hvalue' : value = serializeScriptNum n := by
        by_cases h0 : op = .op0
        · subst h0
          obtain rfl : 0 = n := by simpa [smallInteger] using hn
          rw [hzero rfl] at hvalue
          exact (Option.some_inj.1 hvalue).symm
        · rw [pushValue_of_smallInteger hn h0] at hvalue
          exact (Option.some_inj.1 hvalue).symm
      refine ⟨_, mainOp_of_smallInteger hn, fun s => ?_⟩
      rw [hvalue']
      rfl
  | none =>
      -- the three opcodes with a length field
      have hop : op = .opPushdata1 ∨ op = .opPushdata2 ∨ op = .opPushdata4 := by
        revert hvalue hn
        cases op <;> simp [smallInteger, pushValue, BytOpcode.toByte]
      have hf : mainOp env operand op = some (opPush operand) := by
        rcases hop with rfl | rfl | rfl <;> rfl
      refine ⟨_, hf, fun s => ?_⟩
      have hoperand : operand = value ∧ operand ≠ [] := by
        rcases hop with rfl | rfl | rfl <;>
          simpa [pushValue, isEmptyPushdata, BytOpcode.toByte] using And.intro hvalue hdata
      obtain ⟨rfl, hne⟩ := hoperand
      cases operand with
      | nil => exact absurd rfl hne
      | cons b bs => rfl

/-- **A complete push pushes its value**, unless it is a push with a length field and no data. -/
theorem pushAtom_of_pushValue {env : ScriptEnv} {value : Bytes}
    (h : completeInstruction s = some instr) (hvalue : pushValue instr = some value)
    (hdata : isEmptyPushdata instr = false) : PushAtom env s value := by
  obtain ⟨bs, hbs⟩ := exists_exactInstruction h
  obtain ⟨opcode, operand⟩ := instr
  cases hop : BytOpcode.ofByte? opcode with
  | some op =>
      obtain rfl := BytOpcode.toByte_of_ofByte? hop
      have hzero : op = .op0 → operand = [] := by
        rintro rfl
        have hle : BytOpcode.op0.toByte ≤ 0x4b := by decide
        exact List.length_eq_zero_iff.1 (operand_length_of_exactInstruction hbs hle)
      obtain ⟨f, hf, hfs⟩ := mainOp_of_pushValue env.toEnv hvalue hzero hdata
      have hatom := mainAtom_of_mainOp h hf
      have hpush : f = fun s => .ok (value :: s) := funext hfs
      rw [hpush] at hatom
      exact hatom
  | none =>
      -- only the direct pushes have no name of their own
      have hknown : ∀ n : Fin 0x61, 0x4b < n.val → n.val ≠ 0x50 →
          BytOpcode.ofByte? (UInt8.ofNat n) ≠ none := by decide
      have hle : opcode ≤ 0x4b := by
        by_contra hgt
        have hval : ∀ a b : UInt8, a ≤ b ↔ a.toNat ≤ b.toNat := fun _ _ => Iff.rfl
        have hrange : opcode.toNat < 0x61 ∧ opcode.toNat ≠ 0x50 := by
          unfold pushValue at hvalue
          simp only [hval, ← UInt8.toNat_inj] at hvalue
          simp at hvalue
          grind
        rw [hval] at hgt
        refine hknown ⟨opcode.toNat, hrange.1⟩ (by simpa using hgt) hrange.2 ?_
        simpa using hop
      have hne0 : opcode ≠ 0x00 := by rintro rfl; exact absurd hop (by decide)
      have hlen := operand_length_of_exactInstruction hbs hle
      have hle' : opcode ≤ 0x4e := UInt8.le_trans hle (by decide)
      have hatom : MainAtom env s (opPush operand) := mainAtom_of_directPush h hop hle
      have hoperand : operand = value := by simpa [pushValue, hle'] using hvalue
      have hpush : opPush operand = fun s => .ok (value :: s) := by
        funext s
        subst hoperand
        cases operand with
        | nil =>
            simp only [List.length_nil] at hlen
            exact absurd (UInt8.toNat_inj.1 hlen.symm) hne0
        | cons b bs => rfl
      rw [hpush] at hatom
      exact hatom

end AtomicProof
