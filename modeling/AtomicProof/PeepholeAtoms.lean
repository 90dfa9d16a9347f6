/-
What the recognisers of the peephole pass say about an atom.

The pass looks at the text of an atom; the machine runs the instruction the text decodes to.  Each
recogniser is related here to the decoded instruction, once, so that the rules can be checked on
instructions alone.

Main results:

* `isPureHex_iff` — pure hexadecimal text is the text of a nonempty byte string;
* `completeInstruction_of_isOp` — an atom recognised as an opcode is that opcode;
* `decodedPushPayload_spec` — the pass's push parser agrees with the instruction decoder;
* `decodePushHex_spec` — and so does the codec.
-/

import AtomicProof.Atom
import AtomicProof.Peephole
import AtomicProof.PushCodec

set_option autoImplicit false

namespace AtomicProof.Peephole

/-! ### Pure hexadecimal text -/

/-- Pure hexadecimal text is the text of a nonempty byte string. -/
theorem isPureHex_iff (s : String) :
    isPureHex s = true ↔ ∃ bs, bs ≠ [] ∧ hexPairs s.toList = some bs := by
  have hsome : isPureHex s = true ↔ s.toList ≠ [] ∧ (hexPairs s.toList).isSome := by
    rw [hexPairs_isSome_iff]
    simp [isPureHex, and_assoc]
  rw [hsome, Option.isSome_iff_exists]
  constructor
  · rintro ⟨hne, bs, hbs⟩
    refine ⟨bs, ?_, hbs⟩
    rintro rfl
    have hlen := length_of_hexPairs hbs
    exact hne (List.length_eq_zero_iff.1 (by simpa using hlen))
  · rintro ⟨bs, hne, hbs⟩
    refine ⟨?_, bs, hbs⟩
    intro hnil
    rw [hnil] at hbs
    exact hne (by simpa using hbs.symm)

variable {s : String} {rest : Bytes}

/-- The byte read at an index is the byte of the decoded text. -/
theorem hexByteAt_of_hexPairs {bs : Bytes} (h : hexPairs s.toList = some bs) (i : ℕ) :
    hexByteAt s i = bs.getD i 0 := by
  have htake : ∀ (cs : List Char) (bs : Bytes), hexPairs cs = some bs →
      hexPairs (cs.take 2) = some (bs.take 1) := by
    intro cs bs hcs
    match cs with
    | [] => obtain rfl : [] = bs := by simpa using hcs
            rfl
    | [c] => simp [hexPairs] at hcs
    | high :: low :: rest =>
        obtain ⟨hv, lv, bs', hh, hl, _, rfl⟩ := hexPairs_cons_cons.1 hcs
        simp [hexPairs, hh, hl]
  rw [hexByteAt, htake _ _ (hexPairs_drop h i), Option.bind_some, List.head?_take,
    if_neg (by omega), List.head?_drop, List.getD_eq_getElem?_getD]

theorem firstByte_of_hexPairs {b : UInt8}
    (h : hexPairs s.toList = some (b :: rest)) : firstByte s = some b := by
  have hpure : isPureHex s = true := (isPureHex_iff s).2 ⟨_, by simp, h⟩
  have hlen := length_of_hexPairs h
  simp only [List.length_cons] at hlen
  rw [firstByte, hpure, hexByteAt_of_hexPairs h]
  simp
  omega

/-! ### Opcodes -/

/-- An atom is recognised as an opcode exactly when it is the text of its byte. -/
theorem isOp_iff (s : String) (op : BytOpcode) :
    isOp s op = true ↔ hexPairs s.toList = some [op.toByte] := by
  constructor
  · intro h
    simp only [isOp, Bool.and_eq_true, beq_iff_eq] at h
    obtain ⟨hlen, hbyte⟩ := h
    by_cases hpure : isPureHex s = true
    · obtain ⟨bs, hne, hbs⟩ := (isPureHex_iff s).1 hpure
      have hbslen := length_of_hexPairs hbs
      match bs, hne with
      | b :: rest, _ =>
          rw [firstByte_of_hexPairs hbs, Option.some.injEq] at hbyte
          simp only [List.length_cons] at hbslen
          have hrest : rest = [] := List.length_eq_zero_iff.1 (by omega)
          rw [hbs, hrest, hbyte]
    · rw [Bool.not_eq_true] at hpure
      simp [firstByte, hpure] at hbyte
  · intro h
    have hlen := length_of_hexPairs h
    simp [isOp, hlen, firstByte_of_hexPairs h]

/-- **An atom recognised as an opcode is that opcode.** -/
theorem completeInstruction_of_isOp {op : BytOpcode} (h : isOp s op = true)
    (hop : isOneByte op = true) : completeInstruction s = some ⟨op.toByte, []⟩ := by
  rw [completeInstruction_of_hexPairs (by simp) ((isOp_iff s op).1 h), exactInstruction_toByte hop]

@[simp] theorem isOp_opHex (op : BytOpcode) : isOp (opHex op) op = true := by
  rw [isOp_iff]
  have := hexPairs_bytesToHex [op.toByte]
  simpa [opHex] using this

theorem isOp_unique {op op' : BytOpcode} (h : isOp s op = true)
    (h' : isOp s op' = true) : op = op' := by
  rw [isOp_iff] at h h'
  rw [h] at h'
  exact BytOpcode.toByte_injective (by simpa using h')

/-! ### Pushes -/

/-- The length field as the pass reads it is the one the decoder reads. -/
theorem pushdataSizes_of_hexPairs {opcode : UInt8}
    (hbs : hexPairs s.toList = some (opcode :: rest)) (h : 0 < lengthBytes opcode) :
    pushdataSizes s (rest.length + 1) =
      if rest.length < lengthBytes opcode then none
      else some (1 + lengthBytes opcode, leNat (rest.take (lengthBytes opcode))) := by
  have hbyte : ∀ i, hexByteAt s i = (opcode :: rest).getD i 0 := hexByteAt_of_hexPairs hbs
  have hbound : ∀ n, (rest.length + 1 < n + 1) = (rest.length < n) := fun n => by
    simp only [Nat.add_lt_add_iff_right]
  rcases lengthBytes_pos h with rfl | rfl | rfl
  · simp only [pushdataSizes, hbyte, lengthBytes, List.getD_cons_zero, if_true, hbound 1]
    match rest with
    | [] => rfl
    | _ :: _ => simp
  · simp only [pushdataSizes, hbyte, lengthBytes, List.getD_cons_zero, if_true, hbound 2,
      show ¬ (0x4d : UInt8) = 0x4c by decide, if_false]
    match rest with
    | [] => rfl
    | [_] => rfl
    | _ :: _ :: _ => simp
  · simp only [pushdataSizes, hbyte, lengthBytes, List.getD_cons_zero, if_true, hbound 4,
      show ¬ (0x4e : UInt8) = 0x4c by decide, show ¬ (0x4e : UInt8) = 0x4d by decide, if_false]
    match rest with
    | [] => rfl
    | [_] => rfl
    | [_, _] => rfl
    | [_, _, _] => rfl
    | _ :: _ :: _ :: _ :: _ => simp

/-- **The pass's push parser agrees with the instruction decoder.** -/
theorem decodedPushPayload_of_hexPairs {opcode : UInt8}
    (hbs : hexPairs s.toList = some (opcode :: rest)) :
    decodedPushPayload s =
      ((exactInstruction (opcode :: rest)).bind pushValue).map bytesToHex := by
  have hpure : isPureHex s = true := (isPureHex_iff s).2 ⟨_, by simp, hbs⟩
  have hlen : s.toList.length / 2 = rest.length + 1 := by
    rw [length_of_hexPairs hbs]
    simp
  have hbyte : ∀ i, hexByteAt s i = (opcode :: rest).getD i 0 := hexByteAt_of_hexPairs hbs
  have htext : ∀ n, (s.toList.drop (n * 2)).map toLower = bytesToHex ((opcode :: rest).drop n) :=
    fun n => map_toLower_of_hexPairs (hexPairs_drop hbs n)
  have hop0 : hexByteAt s 0 = opcode := by simp [hbyte]
  unfold decodedPushPayload wellFormedPushSize
  simp only [hpure, hlen, hop0, htext, Bool.not_true, Bool.false_eq_true, if_false]
  -- the opcodes that push without an operand
  by_cases hsingle : opcode = 0x00 ∨ opcode = 0x4f ∨ (0x51 ≤ opcode ∧ opcode ≤ 0x60)
  · rw [if_pos hsingle]
    rcases hsingle with rfl | rfl | ⟨hlo, hhi⟩
    · rw [exactInstruction_push (by decide)]
      cases rest <;> simp [lengthBytes, dataLength, pushValue]
    · rw [exactInstruction_of_lt (by decide)]
      cases rest <;> simp [pushValue]
      decide
    · have h4e : 0x4e < opcode := UInt8.lt_of_lt_of_le (by decide) hlo
      have hne0 : opcode ≠ 0x00 := by rintro rfl; exact absurd h4e (by decide)
      have hne4f : opcode ≠ 0x4f := by rintro rfl; exact absurd hlo (by decide)
      rw [exactInstruction_of_lt h4e]
      cases rest <;> simp [pushValue, UInt8.not_le.2 h4e, hne0, hne4f, hlo, hhi]
  · rw [if_neg hsingle]
    simp only [not_or] at hsingle
    obtain ⟨hne0, hne4f, hnot⟩ := hsingle
    by_cases hdirect : 0x01 ≤ opcode ∧ opcode ≤ 0x4b
    · have h4e : opcode ≤ 0x4e := UInt8.le_trans hdirect.2 (by decide)
      have hlt : opcode < 0x4c := UInt8.lt_of_le_of_lt hdirect.2 (by decide)
      have hne : opcode ≠ 0x4c ∧ opcode ≠ 0x4d ∧ opcode ≠ 0x4e := by
        refine ⟨?_, ?_, ?_⟩ <;> rintro rfl <;> exact absurd hlt (by decide)
      rw [if_pos hdirect, exactInstruction_push h4e]
      by_cases hrest : rest.length = opcode.toNat
      · simp [hrest, hne0, hne4f, hnot, hne, lengthBytes, dataLength, hlt, pushValue, h4e]
      · simp [hrest, lengthBytes, dataLength, hlt, hne]
    · rw [if_neg hdirect]
      by_cases hfield : 0 < lengthBytes opcode
      -- a push with a length field
      · have hop := lengthBytes_pos hfield
        have h4e : opcode ≤ 0x4e := by rcases hop with rfl | rfl | rfl <;> decide
        have hge : ¬ opcode < 0x4c := by rcases hop with rfl | rfl | rfl <;> decide
        have hheader : (if opcode = 0x4c then 2 else if opcode = 0x4d then 3
            else if opcode = 0x4e then 5 else 1) = 1 + lengthBytes opcode := by
          rcases hop with rfl | rfl | rfl <;> rfl
        rw [exactInstruction_push h4e, pushdataSizes_of_hexPairs hbs hfield, hheader,
          if_neg hne0, if_neg hne4f, if_neg hnot]
        simp only [dataLength, if_neg hge]
        by_cases hshort : rest.length < lengthBytes opcode
        · have hnot : ¬ rest.length =
              lengthBytes opcode + leNat (rest.take (lengthBytes opcode)) := by omega
          simp [hshort, hnot]
        · by_cases hsize : leNat (rest.take (lengthBytes opcode)) =
              rest.length + 1 - (1 + lengthBytes opcode)
          · have hall : rest.length =
                lengthBytes opcode + leNat (rest.take (lengthBytes opcode)) := by omega
            rw [if_pos hall]
            simp only [if_neg hshort, if_pos hsize]
            simp [pushValue, h4e, Nat.add_comm 1]
          · have hnot : ¬ rest.length =
                lengthBytes opcode + leNat (rest.take (lengthBytes opcode)) := by omega
            rw [if_neg hnot]
            simp only [if_neg hshort, if_neg hsize]
            rfl
      -- no push at all
      · have hne : opcode ≠ 0x4c ∧ opcode ≠ 0x4d ∧ opcode ≠ 0x4e := by
          refine ⟨?_, ?_, ?_⟩ <;> rintro rfl <;> exact hfield (by decide)
        have hgt : 0x4e < opcode := by
          have hlt : ∀ a b : UInt8, a < b ↔ a.toNat < b.toNat := fun _ _ => Iff.rfl
          have hle : ∀ a b : UInt8, a ≤ b ↔ a.toNat ≤ b.toNat := fun _ _ => Iff.rfl
          simp only [ne_eq, ← UInt8.toNat_inj] at hne hne0
          simp only [hle] at hdirect
          simp only [hlt]
          simp at hne hne0 hdirect ⊢
          omega
        rw [exactInstruction_of_lt hgt]
        cases rest <;>
          simp [pushdataSizes, hop0, hne, pushValue, UInt8.not_le.2 hgt, hne4f, hnot]

theorem wellFormedPushSize_isSome (s : String) :
    (wellFormedPushSize s).isSome = (decodedPushPayload s).isSome := by
  unfold decodedPushPayload
  cases wellFormedPushSize s with
  | none => rfl
  | some n =>
      simp only [Option.isNone_some, Bool.false_eq_true, if_false, Option.isSome_some]
      split_ifs <;> rfl

/-- What the pass takes for a push is an instruction that pushes, and the payload is its value. -/
theorem decodedPushPayload_spec {payload : List Char} (h : decodedPushPayload s = some payload) :
    ∃ instr value, completeInstruction s = some instr ∧ pushValue instr = some value ∧
      payload = bytesToHex value := by
  have hpure : isPureHex s = true := by
    by_contra hpure
    simp [decodedPushPayload, wellFormedPushSize, hpure] at h
  obtain ⟨bs, hne, hbs⟩ := (isPureHex_iff s).1 hpure
  match bs, hne with
  | opcode :: rest, hne =>
      rw [decodedPushPayload_of_hexPairs hbs, Option.map_eq_some_iff] at h
      obtain ⟨value, hvalue, rfl⟩ := h
      obtain ⟨instr, hinstr, hvalue⟩ := Option.bind_eq_some_iff.1 hvalue
      exact ⟨instr, value, by rw [completeInstruction_of_hexPairs hne hbs, hinstr], hvalue, rfl⟩

theorem decodePushHex_spec {decoded : DecodedPush}
    (h : ScriptCodec.decodePushHex s false = .ok decoded) :
    ∃ instr, completeInstruction s = some instr ∧ pushValue instr = some decoded.payload := by
  unfold ScriptCodec.decodePushHex at h
  unfold completeInstruction
  cases hhex : ScriptCodec.hexToBytes s with
  | error err => simp [hhex, bind, Except.bind] at h
  | ok bs => exact ScriptCodec.exactInstruction_of_decodePush (by simpa [hhex, bind, Except.bind] using h)

end AtomicProof.Peephole
