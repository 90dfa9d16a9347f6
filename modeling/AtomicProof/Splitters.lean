/-
All splitters of scripts see the same instructions.

Scripts are cut into instructions in several places: by the adapter between the typed script and
its text, by the push codec, by the push parser of the peephole pass and by the instruction decoder
of the machine.  Every pass that moves instructions about rests on their agreement.

Main results:

* `wellFormedPushSize_iff` — the push parser of the peephole pass and the codec see the same pushes;
* `splitters_agree` — **all splitters agree**.
-/

import AtomicProof.LegacyAdapter
import AtomicProof.PeepholeAtoms

set_option autoImplicit false

namespace AtomicProof

open ScriptCodec (decodePushPrefix stripHexPrefix)
open LegacyBytecodeAdapter (Pieces IsPiece digitsOf)

/-! ### The push parser of the peephole pass -/

theorem eq_length_of_wellFormedPushSize {s : String} {bytes : Bytes} {size : ℕ}
    (hbytes : hexPairs s.toList = some bytes)
    (h : Peephole.wellFormedPushSize s = some size) : size = bytes.length := by
  have hlen : s.toList.length / 2 = bytes.length := by
    rw [length_of_hexPairs hbytes]
    omega
  unfold Peephole.wellFormedPushSize at h
  simp only [hlen] at h
  split_ifs at h with _ _ hone
  · rw [hone]
    exact (Option.some.inj h).symm
  · exact (Option.some.inj h).symm
  · split at h
    · simp at h
    · split_ifs at h
      exact (Option.some.inj h).symm

/-- **The push parser of the peephole pass and the codec see the same pushes**: the text of the
first `size` bytes is a push for the pass exactly when the codec finds one of that size. -/
theorem wellFormedPushSize_iff {bytes payload : Bytes} {size : ℕ} {text : String}
    (htext : hexPairs text.toList = some (bytes.take size)) :
    (Peephole.wellFormedPushSize text = some size ∧
        Peephole.decodedPushPayload text = some (bytesToHex payload)) ↔
      ∃ form, decodePushPrefix bytes false = .ok ⟨payload, form, size⟩ := by
  constructor
  · rintro ⟨hsize, hpayload⟩
    have hlen := eq_length_of_wellFormedPushSize htext hsize
    match htake : bytes.take size with
    | [] =>
        rw [htake] at htext
        have hnil : text.toList = [] := List.length_eq_zero_iff.1 (length_of_hexPairs htext)
        simp [Peephole.wellFormedPushSize, Peephole.isPureHex, hnil] at hsize
    | opcode :: rest =>
        rw [htake] at htext
        rw [Peephole.decodedPushPayload_of_hexPairs htext, Option.map_eq_some_iff] at hpayload
        obtain ⟨value, hvalue, hhex⟩ := hpayload
        obtain rfl : value = payload := by
          have := congrArg hexPairs hhex
          rwa [hexPairs_bytesToHex, hexPairs_bytesToHex, Option.some.injEq] at this
        obtain ⟨instr, hinstr, hvalue⟩ := Option.bind_eq_some_iff.1 hvalue
        rw [← htake, ScriptCodec.exactInstruction_eq_some_iff, ← hlen] at hinstr
        obtain ⟨form, hdec⟩ := ScriptCodec.exists_decodePushPrefix_iff.2 ⟨instr, hinstr, hvalue⟩
        have happend := ScriptCodec.decodePushPrefix_append hdec (bytes.drop size)
        rw [List.take_append_drop] at happend
        exact ⟨form, happend⟩
  · rintro ⟨form, hdec⟩
    obtain ⟨hle, hgrammar⟩ := ScriptCodec.grammar_of_decodePushPrefix hdec
    have hsize : (bytes.take size).length = size := by
      rw [List.length_take]
      exact Nat.min_eq_left hle
    have hpush : ScriptCodec.decodePush (bytes.take size) false = .ok ⟨payload, form, size⟩ :=
      ScriptCodec.decodePush_false_iff.2 ⟨hgrammar, hsize.symm⟩
    obtain ⟨instr, hinstr, hvalue⟩ := ScriptCodec.exactInstruction_of_decodePush hpush
    have hpos := hgrammar.length_pos
    match htake : bytes.take size with
    | [] => simp [htake] at hpos
    | opcode :: rest =>
        rw [htake] at htext hinstr
        have hpayload : Peephole.decodedPushPayload text = some (bytesToHex payload) := by
          rw [Peephole.decodedPushPayload_of_hexPairs htext, hinstr, Option.bind_some, hvalue]
          rfl
        have hsome := Peephole.wellFormedPushSize_isSome text
        rw [hpayload, Option.isSome_some] at hsome
        obtain ⟨n, hn⟩ := Option.isSome_iff_exists.1 hsome
        have hlen := eq_length_of_wellFormedPushSize htext hn
        rw [← htake, hsize] at hlen
        exact ⟨hlen ▸ hn, hpayload⟩

/-! ### Agreement -/

/-- The empty text is refused, although the empty byte string is an empty row of instructions. -/
theorem splitScriptFragment_empty :
    ¬ ∀ bytes : Bytes, (LegacyBytecodeAdapter.splitScriptFragment
        (String.ofList (bytesToHex bytes)) 0 .executable).error = none ↔
          ∃ pieces, Pieces pieces bytes := by
  intro h
  have hempty := (h []).2 ⟨[], by simp [Pieces]⟩
  exact absurd hempty (by decide)

/-- **All splitters see the same instructions.**  A fragment of nonempty hexadecimal text, with or
without `0x`, is cut exactly when it is a row of complete instructions, into the texts of these in
order, and gives no instruction otherwise; and at every offset of every byte string the codec, the
push parser of the peephole pass and the instruction decoder see the same push, of the same size
and with the same payload. -/
theorem splitters_agree :
    (∀ (fragment : String) (bytes : Bytes) (firstId : ℕ) (region : ScriptRegion), bytes ≠ [] →
      hexPairs (stripHexPrefix fragment.toList) = some bytes →
      ((LegacyBytecodeAdapter.splitScriptFragment fragment firstId region).error = none ↔
        ∃ pieces, Pieces pieces bytes) ∧
      ((LegacyBytecodeAdapter.splitScriptFragment fragment firstId region).error = none →
        ∃ pieces, Pieces pieces bytes ∧ List.Forall₂ (IsPiece region)
          (LegacyBytecodeAdapter.splitScriptFragment fragment firstId region).instructions
            pieces ∧
          (LegacyBytecodeAdapter.splitScriptFragment fragment firstId
            region).instructions.flatMap digitsOf = stripHexPrefix fragment.toList) ∧
      ((LegacyBytecodeAdapter.splitScriptFragment fragment firstId region).error ≠ none →
        (LegacyBytecodeAdapter.splitScriptFragment fragment firstId
          region).instructions = [])) ∧
    ∀ (bytes : Bytes) (offset size : ℕ) (payload : Bytes),
      ((∃ form, decodePushPrefix (bytes.drop offset) false = .ok ⟨payload, form, size⟩) ↔
        ∃ instr, decodeInstruction (bytes.drop offset) = some (instr, size) ∧
          pushValue instr = some payload) ∧
      ∀ text : String, hexPairs text.toList = some ((bytes.drop offset).take size) →
        ((∃ form, decodePushPrefix (bytes.drop offset) false = .ok ⟨payload, form, size⟩) ↔
          Peephole.wellFormedPushSize text = some size ∧
            Peephole.decodedPushPayload text = some (bytesToHex payload)) := by
  refine ⟨?_, fun bytes offset size payload => ⟨ScriptCodec.exists_decodePushPrefix_iff,
    fun text htext => (wellFormedPushSize_iff htext).symm⟩⟩
  intro fragment bytes firstId region hne hhex
  rcases LegacyBytecodeAdapter.splitScriptFragment_spec hne hhex firstId region with
    ⟨new, hrun, hsplits⟩ | ⟨⟨error, offset, hrun⟩, hnone⟩
  · obtain ⟨pieces, hpieces, hrel⟩ := hsplits.pieces
    rw [hrun]
    exact ⟨⟨fun _ => ⟨pieces, hpieces⟩, fun _ => rfl⟩,
      fun _ => ⟨pieces, hpieces, hrel, hsplits.digits_eq⟩, fun h => absurd rfl h⟩
  · rw [hrun]
    refine ⟨⟨fun h => by simp at h, ?_⟩, fun h => by simp at h, fun _ => rfl⟩
    rintro ⟨pieces, hpieces⟩
    exact absurd hpieces (hnone pieces)

/-- The script `1 <abcd>` in text. -/
theorem splitters_agree_plain :
    ((LegacyBytecodeAdapter.splitScriptFragment "5102abcd" 7 .executable).error = none ↔
      ∃ pieces, Pieces pieces [0x51, 0x02, 0xab, 0xcd]) :=
  (splitters_agree.1 "5102abcd" [0x51, 0x02, 0xab, 0xcd] 7 .executable (by decide)
    (by decide)).1

end AtomicProof
