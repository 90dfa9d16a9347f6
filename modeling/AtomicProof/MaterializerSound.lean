/-
What the materializer lays out.

A final script is the executable part, the padding and the suffix, in this order and each in the
order of the template, and it is cut at the boundaries of its instructions again.

Main definitions:

* `BytecodeMaterializer.Layout` — what a final script consists of;
* `BytecodeMaterializer.Materializable` — the templates that have a final script.

Main results:

* `BytecodeMaterializer.materialize_spec` — **a materialized script is laid out correctly, and there
  is one exactly for the materializable templates**;
* `BytecodeMaterializer.zeroAlignment_fails` — an alignment of zero is refused.
-/

import AtomicProof.Materializer
import Mathlib.Order.Bounds.Basic

set_option autoImplicit false

namespace AtomicProof

namespace BytecodeMaterializer

open ScriptCodec (encodePush hexToBytes PushGrammar)

/-! ### The bytes of an instruction -/

/-- The encoding of an instruction in which the payloads of placeholders are put in. -/
def encoding (bindings : PlaceholderBindings) (instruction : BytecodeInstruction) : Option Bytes :=
  match instruction.body with
  | .opcode opcode =>
      if 0xff < opcode ∨ opcode = opInvalidOpcode then none
      else if 0x01 ≤ opcode ∧ opcode ≤ 0x4e then none
      else some [opcode.toUInt8]
  | .pushData payload => encodePush payload .canonical
  | .placeholderPush label expectedPayloadSize =>
      if label = "" then none
      else
        match bindings.lookup label with
        | none => none
        | some payload =>
            if expectedPayloadSize.any (payload.length ≠ ·) then none
            else encodePush payload .canonical
  | .rawSuffix raw =>
      if instruction.region ≠ .immutableSuffix then none else (hexToBytes raw).toOption
  | .legacyBarrier _ => none

def codeBytes (bindings : PlaceholderBindings) (instructions : List BytecodeInstruction) : Bytes :=
  instructions.flatMap fun instruction => (encoding bindings instruction).getD []

def sourceAtom (bindings : PlaceholderBindings) (index : ℕ) (instruction : BytecodeInstruction) :
    MaterializedAtom :=
  ⟨some instruction.id, some index, instruction.region,
    hexText ((encoding bindings instruction).getD [])⟩

/-- The atoms of a row of instructions that begins at an index. -/
def sourceAtoms (bindings : PlaceholderBindings) :
    ℕ → List BytecodeInstruction → List MaterializedAtom
  | _, [] => []
  | index, instruction :: rest =>
      sourceAtom bindings index instruction :: sourceAtoms bindings (index + 1) rest

section Encoding

variable {bindings : PlaceholderBindings} {instruction : BytecodeInstruction}
  {instructions : List BytecodeInstruction} {index : ℕ}

@[simp] theorem codeBytes_nil : codeBytes bindings [] = [] := rfl

@[simp] theorem codeBytes_append (xs ys : List BytecodeInstruction) :
    codeBytes bindings (xs ++ ys) = codeBytes bindings xs ++ codeBytes bindings ys :=
  List.flatMap_append

theorem codeBytes_singleton :
    codeBytes bindings [instruction] = (encoding bindings instruction).getD [] := by
  simp [codeBytes]

theorem codeBytes_cons :
    codeBytes bindings (instruction :: instructions) =
      (encoding bindings instruction).getD [] ++ codeBytes bindings instructions := rfl

theorem sourceAtoms_concat :
    sourceAtoms bindings index (instructions ++ [instruction]) =
      sourceAtoms bindings index instructions ++
        [sourceAtom bindings (index + instructions.length) instruction] := by
  induction instructions generalizing index with
  | nil => rfl
  | cons first rest ih =>
      rw [List.cons_append, sourceAtoms, sourceAtoms, ih, List.length_cons, List.cons_append,
        show index + 1 + rest.length = index + (rest.length + 1) by omega]

@[simp] theorem length_sourceAtoms :
    (sourceAtoms bindings index instructions).length = instructions.length := by
  induction instructions generalizing index with
  | nil => rfl
  | cons first rest ih => simp [sourceAtoms, ih]

@[simp] theorem hexText_length (bytes : Bytes) : (hexText bytes).length = 2 * bytes.length := by
  rw [hexText, String.length_ofList, bytesToHex_length]

@[simp] theorem hexText_toList (bytes : Bytes) : (hexText bytes).toList = bytesToHex bytes := by
  rw [hexText, String.toList_ofList]

/-- An instruction is encoded as its bytes, and refused where it has none. -/
theorem encodeInstruction_toOption :
    (encodeInstruction instruction index bindings).toOption =
      (encoding bindings instruction).map fun _ => sourceAtom bindings index instruction := by
  obtain ⟨id, body, region, origins, legacyEncoding⟩ := instruction
  cases body with
  | opcode opcode =>
      simp only [encodeInstruction, encodeOpcode, sourceAtom, encoding]
      split_ifs <;> rfl
  | pushData payload =>
      simp only [encodeInstruction, sourceAtom, encoding]
      cases encodePush payload .canonical <;> rfl
  | placeholderPush label expectedPayloadSize =>
      simp only [encodeInstruction, sourceAtom, encoding]
      split_ifs
      · rfl
      · cases bindings.lookup label with
        | none => rfl
        | some payload =>
            dsimp only
            split_ifs
            · rfl
            · cases encodePush payload .canonical <;> rfl
  | rawSuffix raw =>
      simp only [encodeInstruction, sourceAtom, encoding]
      split_ifs
      · rfl
      · cases hexToBytes raw <;> rfl
  | legacyBarrier raw => rfl

theorem encodeInstruction_of_some {bytes : Bytes} (h : encoding bindings instruction = some bytes) :
    encodeInstruction instruction index bindings =
      .ok (sourceAtom bindings index instruction) := by
  have hoption : (encodeInstruction instruction index bindings).toOption =
      (encoding bindings instruction).map fun _ => sourceAtom bindings index instruction :=
    encodeInstruction_toOption
  rw [h] at hoption
  cases hencode : encodeInstruction instruction index bindings with
  | error error => simp [hencode, Except.toOption] at hoption
  | ok atom => simpa [hencode, Except.toOption] using hoption

theorem encodeInstruction_of_none (h : encoding bindings instruction = none) :
    ∃ error, encodeInstruction instruction index bindings = .error error := by
  have hoption : (encodeInstruction instruction index bindings).toOption =
      (encoding bindings instruction).map fun _ => sourceAtom bindings index instruction :=
    encodeInstruction_toOption
  rw [h] at hoption
  cases hencode : encodeInstruction instruction index bindings with
  | error error => exact ⟨error, rfl⟩
  | ok atom => simp [hencode, Except.toOption] at hoption

theorem sourceAtom_size :
    (sourceAtom bindings index instruction).encodedHex.length / 2 =
      (codeBytes bindings [instruction]).length := by
  rw [sourceAtom, hexText_length, codeBytes_singleton]
  omega

theorem checkedAdd_eq_some {left right : ℕ} (h : left + right ≤ sizeMax) :
    checkedAdd left right = some (left + right) := by
  rw [checkedAdd, if_neg (by omega)]

theorem checkedAdd_eq_none {left right : ℕ} (h : sizeMax < left + right) (hleft : left ≤ sizeMax) :
    checkedAdd left right = none := by
  rw [checkedAdd, if_pos (by omega)]

end Encoding

/-! ### The executable part -/

/-- A row of instructions that ends in `OP_RETURN`. -/
def EndsInReturn (instructions : List BytecodeInstruction) : Prop :=
  ∃ front last, instructions = front ++ [last] ∧ isReturn last = true

/-- What the first loop has seen: the executable instructions, which are encoded, and after them
those of the suffix. -/
structure Seen (bindings : PlaceholderBindings) (executable suffix : List BytecodeInstruction)
    (phase : ExecutablePhase) : Prop where
  executable_region : ∀ instruction ∈ executable, instruction.region = .executable
  suffix_region : ∀ instruction ∈ suffix, instruction.region = .immutableSuffix
  encodes : ∀ instruction ∈ executable, (encoding bindings instruction).isSome = true
  sawSuffix : phase.sawSuffix = !suffix.isEmpty
  atoms : phase.regions.executable = sourceAtoms bindings 0 executable
  bytes : phase.regions.executableBytes = (codeBytes bindings executable).length
  no_suffix : phase.regions.suffix = [] ∧ phase.regions.suffixBytes = 0
  bounded : (codeBytes bindings executable).length ≤ sizeMax
  final : phase.finalExecutableInstructionIndex =
    if executable = [] then none else some (executable.length - 1)
  return_bound : ∀ index, phase.regions.finalReturnInstructionIndex = some index →
    index < executable.length
  return_last : executable ≠ [] →
    (phase.regions.finalReturnInstructionIndex = some (executable.length - 1) ↔
      EndsInReturn executable)

section FirstLoop

variable {bindings : PlaceholderBindings} {executable suffix : List BytecodeInstruction}
  {phase phase' : ExecutablePhase} {instruction : BytecodeInstruction}

theorem seen_start : Seen bindings [] [] ⟨⟨[], [], 0, 0, none⟩, false, none⟩ where
  executable_region := by simp
  suffix_region := by simp
  encodes := by simp
  sawSuffix := rfl
  atoms := rfl
  bytes := rfl
  no_suffix := ⟨rfl, rfl⟩
  bounded := by simp
  final := rfl
  return_bound := by simp
  return_last := by simp

theorem endsInReturn_concat :
    EndsInReturn (executable ++ [instruction]) ↔ isReturn instruction = true := by
  constructor
  · rintro ⟨front, last, heq, hlast⟩
    have hsame := List.append_inj' heq rfl
    rw [List.singleton_inj] at hsame
    rw [hsame.2]
    exact hlast
  · intro h
    exact ⟨executable, instruction, rfl, h⟩

/-- An executable instruction is encoded where it has bytes and stands before the suffix. -/
theorem executableStep_executable (h : Seen bindings executable [] phase)
    (hregion : instruction.region = .executable)
    (hencodes : (encoding bindings instruction).isSome = true)
    (hbound : (codeBytes bindings (executable ++ [instruction])).length ≤ sizeMax) :
    ∃ phase', executableStep bindings phase executable.length instruction = .ok phase' ∧
      Seen bindings (executable ++ [instruction]) [] phase' := by
  obtain ⟨bytes, hbytes⟩ := Option.isSome_iff_exists.mp hencodes
  have hsum : (codeBytes bindings executable).length +
      (codeBytes bindings [instruction]).length ≤ sizeMax := by
    rwa [codeBytes_append, List.length_append] at hbound
  have hadd := checkedAdd_eq_some hsum
  have hsaw : phase.sawSuffix = false := h.sawSuffix
  simp only [executableStep, hregion, hsaw, encodeInstruction_of_some hbytes, sourceAtom_size,
    h.bytes, hadd]
  refine ⟨_, rfl, ?_⟩
  refine ⟨?_, by simp, ?_, rfl, ?_, ?_, h.no_suffix, hbound, ?_, ?_, ?_⟩
  · intro i hi
    rcases List.mem_append.mp hi with hi | hi
    · exact h.executable_region i hi
    · rw [List.mem_singleton.mp hi]
      exact hregion
  · intro i hi
    rcases List.mem_append.mp hi with hi | hi
    · exact h.encodes i hi
    · rw [List.mem_singleton.mp hi]
      exact hencodes
  · simp only [h.atoms, sourceAtoms_concat, Nat.zero_add]
  · simp only [codeBytes_append, List.length_append]
  · simp
  · intro index hindex
    simp only [List.length_append, List.length_singleton] at hindex ⊢
    split_ifs at hindex with hreturn
    · simp only [Option.some.injEq] at hindex
      omega
    · have hlt := h.return_bound index hindex
      omega
  · intro _
    simp only [List.length_append, List.length_singleton, Nat.add_sub_cancel]
    rw [endsInReturn_concat]
    by_cases hreturn : isReturn instruction = true
    · simp [hreturn]
    · simp only [hreturn, Bool.false_eq_true, if_false, iff_false]
      intro hlast
      exact absurd (h.return_bound _ hlast) (Nat.lt_irrefl _)

/-- What a step of the first loop does when it succeeds. -/
theorem seen_step (h : Seen bindings executable suffix phase)
    (hstep : executableStep bindings phase (executable.length + suffix.length) instruction =
      .ok phase') :
    (suffix = [] ∧ Seen bindings (executable ++ [instruction]) [] phase') ∨
      Seen bindings executable (suffix ++ [instruction]) phase' := by
  cases hregion : instruction.region with
  | padding =>
      simp [executableStep, hregion, failAt] at hstep
  | immutableSuffix =>
      right
      simp only [executableStep, hregion] at hstep
      obtain rfl := Except.ok.inj hstep
      refine ⟨h.executable_region, ?_, h.encodes, by simp, h.atoms, h.bytes, h.no_suffix,
        h.bounded, h.final, h.return_bound, h.return_last⟩
      intro i hi
      rcases List.mem_append.mp hi with hi | hi
      · exact h.suffix_region i hi
      · rw [List.mem_singleton.mp hi]
        exact hregion
  | executable =>
      left
      cases suffix with
      | cons first rest =>
          have hsaw : phase.sawSuffix = true := h.sawSuffix
          simp [executableStep, hregion, hsaw, failAt] at hstep
      | nil =>
          refine ⟨rfl, ?_⟩
          have hsaw : phase.sawSuffix = false := h.sawSuffix
          rw [List.length_nil, Nat.add_zero] at hstep
          cases hencoding : encoding bindings instruction with
          | none =>
              have hfails : ∃ error,
                  encodeInstruction instruction executable.length bindings = .error error :=
                encodeInstruction_of_none hencoding
              obtain ⟨error, herror⟩ := hfails
              simp [executableStep, hregion, hsaw, herror] at hstep
          | some bytes =>
              have hbound : (codeBytes bindings (executable ++ [instruction])).length ≤ sizeMax := by
                by_contra hlt
                rw [codeBytes_append, List.length_append] at hlt
                have hadd : checkedAdd (codeBytes bindings executable).length
                    (codeBytes bindings [instruction]).length = none :=
                  checkedAdd_eq_none (by omega) h.bounded
                simp only [executableStep, hregion, hsaw, encodeInstruction_of_some hencoding,
                  sourceAtom_size, h.bytes, hadd] at hstep
                simp [failAt] at hstep
              obtain ⟨next, hnext, hseen⟩ := executableStep_executable h hregion
                (by rw [hencoding]; rfl) hbound
              rw [hnext] at hstep
              rwa [Except.ok.inj hstep] at hseen

/-- What the first loop has seen when it succeeds. -/
theorem seen_run (rest : List BytecodeInstruction) (h : Seen bindings executable suffix phase)
    (hrun : overInstructions (executableStep bindings) phase (executable.length + suffix.length)
      rest = .ok phase') :
    ∃ executable' suffix', executable ++ suffix ++ rest = executable' ++ suffix' ∧
      Seen bindings executable' suffix' phase' := by
  induction rest generalizing executable suffix phase with
  | nil =>
      obtain rfl := Except.ok.inj hrun
      exact ⟨executable, suffix, by simp, h⟩
  | cons instruction rest ih =>
      rw [overInstructions] at hrun
      split at hrun
      · exact absurd hrun (by simp)
      · next next hnext =>
          rcases seen_step h hnext with ⟨rfl, hseen⟩ | hseen
          · have hindex : executable.length + ([] : List BytecodeInstruction).length + 1 =
                (executable ++ [instruction]).length + ([] : List BytecodeInstruction).length := by
              simp
            rw [hindex] at hrun
            obtain ⟨executable', suffix', heq, hdone⟩ := ih hseen hrun
            refine ⟨executable', suffix', ?_, hdone⟩
            rw [← heq]
            simp
          · have hindex : executable.length + suffix.length + 1 =
                executable.length + (suffix ++ [instruction]).length := by
              rw [List.length_append, List.length_singleton]
              omega
            rw [hindex] at hrun
            obtain ⟨executable', suffix', heq, hdone⟩ := ih hseen hrun
            refine ⟨executable', suffix', ?_, hdone⟩
            rw [← heq]
            simp

theorem overInstructions_append {σ : Type}
    {step : σ → ℕ → BytecodeInstruction → Except MaterializationError σ} {state next : σ}
    {index : ℕ} {front rest : List BytecodeInstruction}
    (hfront : overInstructions step state index front = .ok next) :
    overInstructions step state index (front ++ rest) =
      overInstructions step next (index + front.length) rest := by
  induction front generalizing state index with
  | nil =>
      obtain rfl := Except.ok.inj hfront
      rfl
  | cons instruction front ih =>
      rw [overInstructions] at hfront
      rw [List.cons_append, overInstructions]
      split at hfront
      · exact absurd hfront (by simp)
      · next middle _ =>
          rw [ih hfront, List.length_cons,
            show index + 1 + front.length = index + (front.length + 1) by omega]

/-- Encodable executable instructions are all encoded. -/
theorem seen_executable (rest : List BytecodeInstruction) (h : Seen bindings executable [] phase)
    (hregion : ∀ instruction ∈ rest, instruction.region = .executable)
    (hencodes : ∀ instruction ∈ rest, (encoding bindings instruction).isSome = true)
    (hbound : (codeBytes bindings (executable ++ rest)).length ≤ sizeMax) :
    ∃ phase', overInstructions (executableStep bindings) phase executable.length rest =
        .ok phase' ∧ Seen bindings (executable ++ rest) [] phase' := by
  induction rest generalizing executable phase with
  | nil => exact ⟨phase, rfl, by simpa using h⟩
  | cons instruction rest ih =>
      have hsplit : executable ++ instruction :: rest =
          executable ++ [instruction] ++ rest := by simp
      rw [hsplit] at hbound ⊢
      have hfirst : (codeBytes bindings (executable ++ [instruction])).length ≤ sizeMax := by
        rw [codeBytes_append, List.length_append] at hbound
        omega
      obtain ⟨next, hnext, hseen⟩ := executableStep_executable h (hregion instruction (by simp))
        (hencodes instruction (by simp)) hfirst
      obtain ⟨phase', hrun, hdone⟩ := ih hseen (fun i hi => hregion i (by simp [hi]))
        (fun i hi => hencodes i (by simp [hi])) hbound
      refine ⟨phase', ?_, hdone⟩
      rw [overInstructions, hnext]
      rwa [List.length_append, List.length_singleton] at hrun

theorem seen_suffix (rest : List BytecodeInstruction) (index : ℕ)
    (hregion : ∀ instruction ∈ rest, instruction.region = .immutableSuffix) :
    ∃ phase', overInstructions (executableStep bindings) phase index rest = .ok phase' := by
  induction rest generalizing phase index with
  | nil => exact ⟨phase, rfl⟩
  | cons instruction rest ih =>
      rw [overInstructions, executableStep, hregion instruction (by simp)]
      exact ih (index + 1) fun i hi => hregion i (by simp [hi])

/-- The executable part is required to end in `OP_RETURN`. -/
theorem requireFinalReturn_ok_iff (h : Seen bindings executable suffix phase)
    (artifact : BytecodeArtifact) (missing after : String) :
    requireFinalReturn artifact phase missing after = .ok () ↔ EndsInReturn executable := by
  have hfinal := h.final
  by_cases hempty : executable = []
  · have hnone : phase.regions.finalReturnInstructionIndex = none := by
      rw [Option.eq_none_iff_forall_ne_some]
      intro index hindex
      have hlt := h.return_bound index hindex
      rw [hempty, List.length_nil] at hlt
      omega
    constructor
    · intro hok
      simp [requireFinalReturn, hnone, fail] at hok
    · rintro ⟨front, last, heq, -⟩
      rw [hempty] at heq
      exact absurd heq (by simp)
  · rw [if_neg hempty] at hfinal
    rw [← h.return_last hempty, requireFinalReturn]
    cases hreturn : phase.regions.finalReturnInstructionIndex with
    | none => simp [fail]
    | some finalReturn =>
        simp only [hfinal, Option.some.injEq]
        by_cases heq : executable.length - 1 = finalReturn
        · simp [heq]
        · simp [heq, Ne.symm heq]

/-- The condition under which the layout is accepted. -/
def LayoutAccepted (artifact : BytecodeArtifact) (executable suffix : List BytecodeInstruction) :
    Prop :=
  artifact.layout.executableAlignment ≠ some 0 ∧
    (artifact.layout.executableAlignment ≠ none ∨ suffix ≠ [] → EndsInReturn executable)

theorem checkLayout_ok_iff (h : Seen bindings executable suffix phase)
    (artifact : BytecodeArtifact) :
    checkLayout artifact phase = .ok () ↔ LayoutAccepted artifact executable suffix := by
  rw [checkLayout, LayoutAccepted]
  cases artifact.layout.executableAlignment with
  | none =>
      have hsaw := h.sawSuffix
      cases suffix with
      | nil => simp [hsaw]
      | cons first rest =>
          simp only [hsaw, List.isEmpty_cons, Bool.not_false, if_true]
          rw [requireFinalReturn_ok_iff h]
          simp
  | some alignment =>
      by_cases hzero : alignment = 0
      · simp [hzero, fail]
      · simp only [if_neg hzero]
        rw [requireFinalReturn_ok_iff h]
        simp [hzero]

end FirstLoop

/-! ### The suffix -/

section SecondLoop

variable {bindings : PlaceholderBindings}

theorem suffixLoop_executable (instructions : List BytecodeInstruction) (regions : EncodedRegions)
    (index : ℕ) (hregion : ∀ instruction ∈ instructions, instruction.region = .executable) :
    overInstructions (suffixStep bindings) regions index instructions = .ok regions := by
  induction instructions generalizing index with
  | nil => rfl
  | cons instruction rest ih =>
      have hskip : suffixStep bindings regions index instruction = .ok regions := by
        simp [suffixStep, hregion instruction (by simp)]
      rw [overInstructions, hskip]
      exact ih (index + 1) fun i hi => hregion i (by simp [hi])

/-- The second loop encodes the suffix where all of it has bytes, and not too many. -/
theorem suffixLoop_ok_iff (instructions : List BytecodeInstruction) (regions : EncodedRegions)
    (index : ℕ) (hregion : ∀ instruction ∈ instructions, instruction.region = .immutableSuffix)
    (hbound : regions.suffixBytes ≤ sizeMax) {regions' : EncodedRegions} :
    overInstructions (suffixStep bindings) regions index instructions = .ok regions' ↔
      (∀ instruction ∈ instructions, (encoding bindings instruction).isSome = true) ∧
        regions.suffixBytes + (codeBytes bindings instructions).length ≤ sizeMax ∧
        regions' =
          { regions with
            suffix := regions.suffix ++ sourceAtoms bindings index instructions
            suffixBytes := regions.suffixBytes + (codeBytes bindings instructions).length } := by
  induction instructions generalizing regions index with
  | nil =>
      simp only [overInstructions, sourceAtoms, codeBytes_nil, List.length_nil, Nat.add_zero,
        List.append_nil]
      constructor
      · intro h
        exact ⟨by simp, hbound, (Except.ok.inj h).symm⟩
      · rintro ⟨-, -, rfl⟩
        rfl
  | cons instruction rest ih =>
      have hsuffix := hregion instruction (by simp)
      rw [overInstructions, codeBytes_cons, List.length_append]
      cases hencoding : encoding bindings instruction with
      | none =>
          have hfails : ∃ error,
              encodeInstruction instruction index bindings = .error error :=
            encodeInstruction_of_none hencoding
          obtain ⟨error, herror⟩ := hfails
          have hstep : suffixStep bindings regions index instruction = .error error := by
            simp [suffixStep, hsuffix, herror]
          simp [hstep, hencoding]
      | some bytes =>
          have hsize : (codeBytes bindings [instruction]).length = bytes.length := by
            rw [codeBytes_singleton, hencoding, Option.getD_some]
          -- the size is added with a check, which fails on the instruction that overflows
          by_cases hfits : regions.suffixBytes + bytes.length ≤ sizeMax
          · have hstep : suffixStep bindings regions index instruction = .ok
                { regions with
                  suffix := regions.suffix ++ [sourceAtom bindings index instruction]
                  suffixBytes := regions.suffixBytes + bytes.length } := by
              simp only [suffixStep, hsuffix, ne_eq, not_true_eq_false, if_false,
                encodeInstruction_of_some hencoding, sourceAtom_size, hsize,
                checkedAdd_eq_some hfits]
            rw [hstep]
            simp only
            rw [ih _ (index + 1) (fun i hi => hregion i (by simp [hi])) hfits]
            simp [hencoding, sourceAtoms, Nat.add_assoc]
          · have hadd : checkedAdd regions.suffixBytes bytes.length = none :=
              checkedAdd_eq_none (by omega) hbound
            have hstep : ∃ error, suffixStep bindings regions index instruction = .error error := by
              simp [suffixStep, hsuffix, encodeInstruction_of_some hencoding, sourceAtom_size,
                hsize, hadd, failAt]
            obtain ⟨error, herror⟩ := hstep
            rw [herror, Option.getD_some]
            constructor
            · intro h
              exact absurd h (by simp)
            · rintro ⟨-, hsum, -⟩
              omega

end SecondLoop

/-! ### Both parts -/

def executableInstructions (artifact : BytecodeArtifact) : List BytecodeInstruction :=
  artifact.lockingScript.filter (·.region = .executable)

def suffixInstructions (artifact : BytecodeArtifact) : List BytecodeInstruction :=
  artifact.lockingScript.filter (·.region = .immutableSuffix)

/-- A script in which no executable instruction follows the suffix is cut by the regions. -/
theorem filter_regions {executable suffix : List BytecodeInstruction}
    (hexecutable : ∀ instruction ∈ executable, instruction.region = .executable)
    (hsuffix : ∀ instruction ∈ suffix, instruction.region = .immutableSuffix) :
    (executable ++ suffix).filter (·.region = .executable) = executable ∧
      (executable ++ suffix).filter (·.region = .immutableSuffix) = suffix := by
  have hdrop : suffix.filter (·.region = .executable) = [] := by
    rw [List.filter_eq_nil_iff]
    intro i hi
    simp [hsuffix i hi]
  have hdrop' : executable.filter (·.region = .immutableSuffix) = [] := by
    rw [List.filter_eq_nil_iff]
    intro i hi
    simp [hexecutable i hi]
  constructor
  · rw [List.filter_append, hdrop, List.append_nil, List.filter_eq_self]
    simpa using hexecutable
  · rw [List.filter_append, hdrop', List.nil_append, List.filter_eq_self]
    simpa using hsuffix

/-- The conditions on the regions of a template. -/
structure RegionsAccepted (artifact : BytecodeArtifact) (bindings : PlaceholderBindings) :
    Prop where
  order : artifact.lockingScript = executableInstructions artifact ++ suffixInstructions artifact
  encodes : ∀ instruction ∈ artifact.lockingScript,
    (encoding bindings instruction).isSome = true
  accepted : LayoutAccepted artifact (executableInstructions artifact)
    (suffixInstructions artifact)
  bounded : (codeBytes bindings (executableInstructions artifact)).length ≤ sizeMax ∧
    (codeBytes bindings (suffixInstructions artifact)).length ≤ sizeMax

section Regions

variable {artifact : BytecodeArtifact} {bindings : PlaceholderBindings}

theorem region_of_mem_executable {instruction : BytecodeInstruction}
    (h : instruction ∈ executableInstructions artifact) : instruction.region = .executable := by
  simpa using (List.mem_filter.mp h).2

theorem region_of_mem_suffix {instruction : BytecodeInstruction}
    (h : instruction ∈ suffixInstructions artifact) : instruction.region = .immutableSuffix := by
  simpa using (List.mem_filter.mp h).2

/-- What the two loops have made of an accepted template. -/
theorem materializeRegions_ok {regions : EncodedRegions}
    (h : materializeRegions artifact bindings = .ok regions) :
    RegionsAccepted artifact bindings ∧
      regions.executable = sourceAtoms bindings 0 (executableInstructions artifact) ∧
      regions.executableBytes = (codeBytes bindings (executableInstructions artifact)).length ∧
      regions.suffix = sourceAtoms bindings (executableInstructions artifact).length
        (suffixInstructions artifact) ∧
      regions.suffixBytes = (codeBytes bindings (suffixInstructions artifact)).length := by
  rw [materializeRegions] at h
  split at h
  · exact absurd h (by simp)
  · next phase hphase =>
      obtain ⟨executable, suffix, hscript, hseen⟩ := seen_run artifact.lockingScript seen_start
        hphase
      rw [List.append_nil, List.nil_append] at hscript
      obtain ⟨hexec, hsuf⟩ := filter_regions hseen.executable_region hseen.suffix_region
      rw [← hscript] at hexec hsuf
      have hexecutable : executableInstructions artifact = executable := hexec
      have hsuffix : suffixInstructions artifact = suffix := hsuf
      split at h
      · exact absurd h (by simp)
      · next hlayout =>
          have haccepted := (checkLayout_ok_iff hseen artifact).mp hlayout
          rw [hscript, overInstructions_append (suffixLoop_executable executable phase.regions 0
            hseen.executable_region), suffixLoop_ok_iff _ _ _ hseen.suffix_region
            (by rw [hseen.no_suffix.2]; exact Nat.zero_le _)] at h
          obtain ⟨hencodes, hbound, rfl⟩ := h
          rw [hseen.no_suffix.2, Nat.zero_add] at hbound
          rw [hexecutable, hsuffix]
          refine ⟨⟨?_, ?_, ?_, ?_⟩, hseen.atoms, hseen.bytes, ?_, ?_⟩
          · rw [hexecutable, hsuffix, hscript]
          · rw [hscript]
            intro i hi
            rcases List.mem_append.mp hi with hi | hi
            · exact hseen.encodes i hi
            · exact hencodes i hi
          · rwa [hexecutable, hsuffix]
          · rw [hexecutable, hsuffix]
            exact ⟨hseen.bounded, hbound⟩
          · simp [hseen.no_suffix.1]
          · simp [hseen.no_suffix.2]

/-- An accepted template is encoded. -/
theorem materializeRegions_of_accepted (h : RegionsAccepted artifact bindings) :
    ∃ regions, materializeRegions artifact bindings = .ok regions := by
  have hmem : ∀ i ∈ executableInstructions artifact,
      (encoding bindings i).isSome = true := by
    intro i hi
    exact h.encodes i (List.mem_of_mem_filter hi)
  have hstart : Seen bindings [] [] ⟨⟨[], [], 0, 0, none⟩, false, none⟩ := seen_start
  obtain ⟨middle, hmiddle, -⟩ := seen_executable (executableInstructions artifact) hstart
    (fun i hi => region_of_mem_executable hi) hmem (by simpa using h.bounded.1)
  rw [List.length_nil] at hmiddle
  have hpass : ∃ phase, overInstructions (executableStep bindings) middle
      (0 + (executableInstructions artifact).length) (suffixInstructions artifact) = .ok phase :=
    seen_suffix _ _ fun i hi => region_of_mem_suffix hi
  obtain ⟨phase, hphase⟩ := hpass
  have hrun : overInstructions (executableStep bindings) ⟨⟨[], [], 0, 0, none⟩, false, none⟩ 0
      artifact.lockingScript = .ok phase := by
    rw [h.order, overInstructions_append hmiddle, hphase]
  obtain ⟨executable, suffix, hscript, hdone⟩ := seen_run artifact.lockingScript seen_start hrun
  rw [List.append_nil, List.nil_append] at hscript
  obtain ⟨hexec, hsuf⟩ := filter_regions hdone.executable_region hdone.suffix_region
  rw [← hscript] at hexec hsuf
  have hexecutable : executableInstructions artifact = executable := hexec
  have hsuffix : suffixInstructions artifact = suffix := hsuf
  have haccepted := h.accepted
  rw [hexecutable, hsuffix] at haccepted
  have hlayout := (checkLayout_ok_iff hdone artifact).mpr haccepted
  rw [materializeRegions, hrun]
  simp only [hlayout]
  rw [hscript, overInstructions_append (suffixLoop_executable executable phase.regions 0
    hdone.executable_region)]
  refine ⟨_, (suffixLoop_ok_iff _ _ _ hdone.suffix_region ?_).mpr ⟨?_, ?_, rfl⟩⟩
  · rw [hdone.no_suffix.2]
    exact Nat.zero_le _
  · intro i hi
    exact h.encodes i (by rw [hscript]; exact List.mem_append_right _ hi)
  · rw [hdone.no_suffix.2, Nat.zero_add, ← hsuffix]
    exact h.bounded.2

end Regions

/-! ### Padding -/

def pushes (payloads : List Bytes) : Bytes :=
  payloads.flatMap fun payload => (encodePush payload .canonical).getD []

theorem pushes_cons (payload : Bytes) (payloads : List Bytes) :
    pushes (payload :: payloads) =
      (encodePush payload .canonical).getD [] ++ pushes payloads := rfl

def paddingAtom (payload : Bytes) : MaterializedAtom :=
  ⟨none, none, .padding, hexText ((encodePush payload .canonical).getD [])⟩

theorem encodePush_replicate (n : ℕ) (h : n ≤ 74) :
    encodePush (List.replicate (n + 1) 0xff) .canonical =
      some (UInt8.ofNat (n + 1) :: List.replicate (n + 1) 0xff) := by
  have hlength : (List.replicate (n + 1) (0xff : UInt8)).length = n + 1 := List.length_replicate
  have hheader : ScriptCodec.legacyPushPrefix (n + 1) = some [UInt8.ofNat (n + 1)] := by
    rw [ScriptCodec.legacyPushPrefix, if_pos (by omega)]
  simp only [encodePush, hlength, if_neg (show ¬ 4294967295 < n + 1 by omega), hheader]
  cases n with
  | zero => rfl
  | succ n => rfl

theorem encodePush_paddingPayload {n : ℕ} (hpos : 0 < n) (hle : n ≤ maximumDirectPushBytes) :
    ∃ encoded, encodePush (paddingPayload n) .canonical = some encoded ∧ encoded.length = n := by
  unfold maximumDirectPushBytes at hle
  rw [paddingPayload]
  by_cases hone : n = 1
  · rw [if_pos hone]
    exact ⟨[0x00], rfl, hone.symm⟩
  · rw [if_neg hone]
    obtain ⟨m, rfl⟩ : ∃ m, n = m + 2 := ⟨n - 2, by omega⟩
    refine ⟨_, encodePush_replicate m (by omega), ?_⟩
    simp

/-- The padding consists of pushes and has the number of bytes that is asked for. -/
theorem makePadding_spec (n : ℕ) :
    ∃ payloads, makePadding n = some (payloads.map paddingAtom) ∧ (pushes payloads).length = n ∧
      ∀ payload ∈ payloads, (encodePush payload .canonical).isSome = true := by
  induction n using Nat.strong_induction_on with
  | _ n ih =>
      by_cases hzero : n = 0
      · subst hzero
        exact ⟨[], by simp [makePadding], rfl, by simp⟩
      · have hpos : 0 < min n maximumDirectPushBytes := by
          unfold maximumDirectPushBytes
          omega
        obtain ⟨encoded, hencoded, hlength⟩ := encodePush_paddingPayload hpos (min_le_right _ _)
        obtain ⟨payloads, hrest, hsum, hall⟩ := ih (n - min n maximumDirectPushBytes) (by omega)
        refine ⟨paddingPayload (min n maximumDirectPushBytes) :: payloads, ?_, ?_, ?_⟩
        · rw [makePadding, dif_neg hzero]
          simp [hencoded, hlength, hrest, paddingAtom]
        · rw [pushes_cons, List.length_append, hencoded, Option.getD_some, hlength]
          omega
        · intro payload hmem
          rcases List.mem_cons.mp hmem with rfl | hmem
          · rw [hencoded]
            rfl
          · exact hall payload hmem

/-! ### Reading the script again -/

/-- What the decoder reads from the encoding of an executable instruction.  The opcodes that push a
number are read as pushes. -/
def readBody (bindings : PlaceholderBindings) (instruction : BytecodeInstruction) :
    InstructionBody :=
  match instruction.body with
  | .opcode opcode =>
      if opcode = 0x00 then .pushData []
      else if opcode = 0x4f then .pushData [0x81]
      else if 0x51 ≤ opcode ∧ opcode ≤ 0x60 then .pushData [opcode.toUInt8 - 0x50]
      else .opcode opcode
  | .placeholderPush label _ => .pushData ((bindings.lookup label).getD [])
  | body => body

section Reading

variable {bindings : PlaceholderBindings} {instruction : BytecodeInstruction} {bytes : Bytes}

/-- The encoding of an opcode is one instruction. -/
theorem grammar_of_opcode {opcode : UInt16} (hbyte : opcode ≤ 0xff)
    (h : ¬ (0x01 ≤ opcode ∧ opcode ≤ 0x4e)) :
    InstructionGrammar [opcode.toUInt8]
      (if opcode = 0x00 then .pushData []
        else if opcode = 0x4f then .pushData [0x81]
        else if 0x51 ≤ opcode ∧ opcode ≤ 0x60 then .pushData [opcode.toUInt8 - 0x50]
        else .opcode opcode) := by
  rw [UInt16.le_iff_toNat_le] at hbyte
  have hnat : opcode.toUInt8.toNat = opcode.toNat := by
    rw [UInt16.toNat_toUInt8]
    exact Nat.mod_eq_of_lt (Nat.lt_succ_of_le hbyte)
  split_ifs with hzero hnegative hsmall
  · rw [hzero]
    exact .pushData .op0
  · rw [hnegative]
    exact .pushData .negativeOne
  · rw [UInt16.le_iff_toNat_le, UInt16.le_iff_toNat_le] at hsmall
    have hlo : 0x51 ≤ opcode.toUInt8 := by
      rw [UInt8.le_iff_toNat_le, hnat]
      exact hsmall.1
    have hhi : opcode.toUInt8 ≤ 0x60 := by
      rw [UInt8.le_iff_toNat_le, hnat]
      exact hsmall.2
    have hsum : 0x50 + (opcode.toUInt8 - 0x50) = opcode.toUInt8 := by grind
    have hgrammar := PushGrammar.smallInteger (opcode.toUInt8 - 0x50) (by grind) (by grind)
    rw [hsum] at hgrammar
    exact .pushData hgrammar
  · have hword : opcode.toUInt8.toUInt16 = opcode := by
      rw [← UInt16.toNat_inj, UInt8.toNat_toUInt16, hnat]
    have hsingle : opcode.toUInt8 = 0x50 ∨ 0x60 < opcode.toUInt8 := by
      simp only [UInt16.le_iff_toNat_le, ← UInt16.toNat_inj] at h hzero hnegative hsmall
      rw [← UInt8.toNat_inj, UInt8.lt_iff_toNat_lt, hnat]
      simp at h hzero hnegative hsmall ⊢
      omega
    have hgrammar := InstructionGrammar.opcode hsingle
    rwa [hword] at hgrammar

/-- The encoding of an instruction that is no raw suffix is one instruction. -/
theorem grammar_of_encoding (hbody : ∀ raw, instruction.body ≠ .rawSuffix raw)
    (h : encoding bindings instruction = some bytes) :
    InstructionGrammar bytes (readBody bindings instruction) := by
  obtain ⟨id, body, region, origins, legacyEncoding⟩ := instruction
  cases body with
  | opcode opcode =>
      simp only [encoding] at h
      split_ifs at h with hlarge hpush
      obtain rfl := Option.some.inj h
      exact grammar_of_opcode (UInt16.not_lt.mp (not_or.mp hlarge).1) hpush
  | pushData payload =>
      simp only [encoding] at h
      obtain ⟨form, hgrammar⟩ := ScriptCodec.grammar_of_encodePush h
      exact .pushData hgrammar
  | placeholderPush label expectedPayloadSize =>
      simp only [encoding] at h
      split_ifs at h
      cases hbinding : bindings.lookup label with
      | none => simp [hbinding] at h
      | some payload =>
          simp only [hbinding] at h
          split_ifs at h
          obtain ⟨form, hgrammar⟩ := ScriptCodec.grammar_of_encodePush h
          simp only [readBody, hbinding, Option.getD_some]
          exact .pushData hgrammar
  | rawSuffix raw => exact absurd rfl (hbody raw)
  | legacyBarrier raw => simp [encoding] at h

theorem encoding_length_pos (h : encoding bindings instruction = some bytes) :
    0 < bytes.length := by
  by_cases hbody : ∃ raw, instruction.body = .rawSuffix raw
  · obtain ⟨raw, hraw⟩ := hbody
    simp only [encoding, hraw] at h
    split_ifs at h
    cases hhex : hexToBytes raw with
    | error error => simp [hhex, Except.toOption] at h
    | ok bytes' =>
        obtain rfl : bytes' = bytes := by simpa [hhex, Except.toOption] using h
        simp only [hexToBytes] at hhex
        split_ifs at hhex with hempty hodd
        split at hhex
        · next pairs hpairs =>
            obtain rfl := Except.ok.inj hhex
            have hlen := length_of_hexPairs hpairs
            have hpos := List.length_pos_iff.mpr hempty
            omega
        · exact absurd hhex (by simp)
  · exact (grammar_of_encoding (fun raw hraw => hbody ⟨raw, hraw⟩) h).length_pos

theorem length_le_codeBytes {instructions : List BytecodeInstruction}
    (h : ∀ instruction ∈ instructions, (encoding bindings instruction).isSome = true) :
    instructions.length ≤ (codeBytes bindings instructions).length := by
  induction instructions with
  | nil => simp
  | cons first rest ih =>
      obtain ⟨bytes, hbytes⟩ := Option.isSome_iff_exists.mp (h first (by simp))
      have hpos := encoding_length_pos hbytes
      have hrest := ih fun i hi => h i (by simp [hi])
      rw [codeBytes_cons, List.length_append, hbytes, Option.getD_some, List.length_cons]
      omega

theorem length_le_pushes {payloads : List Bytes}
    (h : ∀ payload ∈ payloads, (encodePush payload .canonical).isSome = true) :
    payloads.length ≤ (pushes payloads).length := by
  induction payloads with
  | nil => simp
  | cons first rest ih =>
      obtain ⟨encoded, hencoded⟩ := Option.isSome_iff_exists.mp (h first (by simp))
      obtain ⟨form, hgrammar⟩ := ScriptCodec.grammar_of_encodePush hencoded
      have hpos := hgrammar.length_pos
      have hrest := ih fun p hp => h p (by simp [hp])
      rw [pushes_cons, List.length_append, hencoded, Option.getD_some, List.length_cons]
      omega

/-- The executable part and the padding are a row of complete instructions. -/
theorem pieces_of_encoded {instructions : List BytecodeInstruction} {payloads : List Bytes}
    (hregion : ∀ instruction ∈ instructions, instruction.region = .executable)
    (hencodes : ∀ instruction ∈ instructions, (encoding bindings instruction).isSome = true)
    (hpushes : ∀ payload ∈ payloads, (encodePush payload .canonical).isSome = true) :
    LegacyBytecodeAdapter.Pieces
      (instructions.map (fun instruction =>
          ((encoding bindings instruction).getD [], readBody bindings instruction)) ++
        payloads.map fun payload =>
          ((encodePush payload .canonical).getD [], .pushData payload))
      (codeBytes bindings instructions ++ pushes payloads) := by
  constructor
  · intro piece hpiece
    rcases List.mem_append.mp hpiece with hmem | hmem
    · obtain ⟨i, hi, rfl⟩ := List.mem_map.mp hmem
      obtain ⟨bytes, hbytes⟩ := Option.isSome_iff_exists.mp (hencodes i hi)
      have hgrammar := grammar_of_encoding
        (fun raw hraw => by simp [encoding, hraw, hregion i hi] at hbytes) hbytes
      simpa [hbytes] using hgrammar
    · obtain ⟨payload, hpayload, rfl⟩ := List.mem_map.mp hmem
      obtain ⟨encoded, hencoded⟩ := Option.isSome_iff_exists.mp (hpushes payload hpayload)
      obtain ⟨form, hgrammar⟩ := ScriptCodec.grammar_of_encodePush hencoded
      simpa [hencoded] using InstructionGrammar.pushData hgrammar
  · simp [codeBytes, pushes, List.flatMap_def, Function.comp_def]

end Reading

/-! ### The whole script -/

/-- What a final script consists of: the executable part, the padding and the suffix, in the order
of the template. -/
structure Layout (artifact : BytecodeArtifact) (bindings : PlaceholderBindings)
    (value : MaterializedBytecode) (padding : List Bytes) : Prop where
  order : artifact.lockingScript = executableInstructions artifact ++ suffixInstructions artifact
  encodes : ∀ instruction ∈ artifact.lockingScript,
    (encoding bindings instruction).isSome = true
  canonical : ∀ payload ∈ padding, (encodePush payload .canonical).isSome = true
  finalHex : value.finalHex = hexText (codeBytes bindings (executableInstructions artifact) ++
    pushes padding ++ codeBytes bindings (suffixInstructions artifact))
  unaligned : artifact.layout.executableAlignment = none → padding = []
  aligned : ∀ alignment, artifact.layout.executableAlignment = some alignment →
    IsLeast {n | alignment ∣ n ∧
        (codeBytes bindings (executableInstructions artifact)).length ≤ n}
      (codeBytes bindings (executableInstructions artifact) ++ pushes padding).length
  final_return : artifact.layout.executableAlignment ≠ none ∨
      suffixInstructions artifact ≠ [] → EndsInReturn (executableInstructions artifact)
  read_back : executableInstructions artifact ≠ [] → ∀ firstId region, ∃ instructions,
    LegacyBytecodeAdapter.splitScriptFragment
        (hexText (codeBytes bindings (executableInstructions artifact) ++ pushes padding))
        firstId region = ⟨instructions, none, 0⟩ ∧
      instructions.map BytecodeInstruction.body =
        (executableInstructions artifact).map (readBody bindings) ++ padding.map .pushData
  counts : value.executableBytesBeforePadding =
      (codeBytes bindings (executableInstructions artifact)).length ∧
    value.paddingBytes = (pushes padding).length ∧
    value.immutableSuffixBytes = (codeBytes bindings (suffixInstructions artifact)).length
  relocations : value.relocations = (describeTemplate artifact).relocations

/-- The templates that have a final script. -/
structure Materializable (artifact : BytecodeArtifact) (bindings : PlaceholderBindings) :
    Prop where
  format : artifact.format = .canonicalV2
  ids : (artifact.lockingScript.map BytecodeInstruction.id).Nodup
  order : artifact.lockingScript = executableInstructions artifact ++ suffixInstructions artifact
  encodes : ∀ instruction ∈ artifact.lockingScript,
    (encoding bindings instruction).isSome = true
  alignment : artifact.layout.executableAlignment ≠ some 0
  final_return : artifact.layout.executableAlignment ≠ none ∨
      suffixInstructions artifact ≠ [] → EndsInReturn (executableInstructions artifact)
  size : (codeBytes bindings (executableInstructions artifact)).length +
      paddingFor artifact.layout (codeBytes bindings (executableInstructions artifact)).length +
      (codeBytes bindings (suffixInstructions artifact)).length ≤ sizeMax / 2

section Whole

variable {artifact : BytecodeArtifact} {bindings : PlaceholderBindings}

theorem findDuplicateId_eq_none_iff (rest : List BytecodeInstruction) (seen : List ℕ)
    (index : ℕ) :
    findDuplicateId seen index rest = none ↔
      (rest.map BytecodeInstruction.id).Nodup ∧ ∀ i ∈ rest, i.id ∉ seen := by
  induction rest generalizing seen index with
  | nil => simp [findDuplicateId]
  | cons first rest ih =>
      rw [findDuplicateId]
      by_cases hseen : first.id ∈ seen
      · simp [hseen]
      · rw [if_neg hseen, ih, List.map_cons, List.nodup_cons]
        constructor
        · rintro ⟨hnodup, hfresh⟩
          refine ⟨⟨?_, hnodup⟩, ?_⟩
          · intro hmem
            obtain ⟨i, hi, heq⟩ := List.mem_map.mp hmem
            exact hfresh i hi (by rw [heq]; exact List.mem_cons_self)
          · intro i hi
            rcases List.mem_cons.mp hi with rfl | hi
            · exact hseen
            · exact fun hmem => hfresh i hi (List.mem_cons_of_mem _ hmem)
        · rintro ⟨⟨hfirst, hnodup⟩, hfresh⟩
          refine ⟨hnodup, ?_⟩
          intro i hi hmem
          rcases List.mem_cons.mp hmem with heq | hmem
          · exact hfirst (List.mem_map.mpr ⟨i, hi, heq⟩)
          · exact hfresh i (List.mem_cons_of_mem _ hi) hmem

theorem checkedSum_eq_some {first second third : ℕ} (h : first + second + third ≤ sizeMax) :
    checkedSum first second third = some (first + second + third) := by
  rw [checkedSum, checkedAdd_eq_some (by omega)]
  exact checkedAdd_eq_some h

theorem checkedSum_spec {first second third total : ℕ} (hfirst : first ≤ sizeMax)
    (h : checkedSum first second third = some total) :
    first + second + third = total ∧ total ≤ sizeMax := by
  by_cases hsum : first + second ≤ sizeMax
  · by_cases htotal : first + second + third ≤ sizeMax
    · rw [checkedSum_eq_some htotal] at h
      obtain rfl := Option.some.inj h
      exact ⟨rfl, htotal⟩
    · have hadd : checkedAdd (first + second) third = none :=
        checkedAdd_eq_none (by omega) hsum
      simp [checkedSum, checkedAdd_eq_some hsum, hadd] at h
  · have hadd : checkedAdd first second = none := checkedAdd_eq_none (by omega) hfirst
    simp [checkedSum, hadd] at h

/-- Filling up to the next multiple. -/
theorem isLeast_padded {layout : LayoutDirectives} {alignment : ℕ}
    (h : layout.executableAlignment = some alignment) (hpos : alignment ≠ 0) (size : ℕ) :
    IsLeast {n | alignment ∣ n ∧ size ≤ n} (size + paddingFor layout size) := by
  have hdiv := Nat.div_add_mod size alignment
  have hlt := Nat.mod_lt size (Nat.pos_of_ne_zero hpos)
  rw [paddingFor, h]
  by_cases hrest : size % alignment = 0
  · simp only [if_pos hrest]
    exact ⟨⟨Nat.dvd_of_mod_eq_zero hrest, Nat.le_refl _⟩, fun n hn => hn.2⟩
  · simp only [if_neg hrest]
    have hsum : size + (alignment - size % alignment) = alignment * (size / alignment + 1) := by
      rw [Nat.mul_add, Nat.mul_one]
      omega
    rw [hsum]
    refine ⟨⟨Nat.dvd_mul_right _ _, by omega⟩, ?_⟩
    rintro n ⟨⟨k, rfl⟩, hle⟩
    have hk : size / alignment < k := by
      by_contra hge
      have hmul := Nat.mul_le_mul_left alignment (Nat.le_of_not_lt hge)
      omega
    exact Nat.mul_le_mul_left alignment hk

theorem toList_join_atoms (atoms : List MaterializedAtom) :
    (String.join (atoms.map MaterializedAtom.encodedHex)).toList =
      atoms.flatMap fun atom => atom.encodedHex.toList := by
  rw [String.toList_join, List.flatMap_map]

theorem digits_sourceAtoms (instructions : List BytecodeInstruction) (index : ℕ) :
    ((sourceAtoms bindings index instructions).flatMap fun atom => atom.encodedHex.toList) =
      bytesToHex (codeBytes bindings instructions) := by
  induction instructions generalizing index with
  | nil => rfl
  | cons first rest ih =>
      rw [sourceAtoms, List.flatMap_cons, ih, codeBytes_cons, sourceAtom, hexText_toList,
        bytesToHex_append]

theorem digits_paddingAtoms (payloads : List Bytes) :
    ((payloads.map paddingAtom).flatMap fun atom => atom.encodedHex.toList) =
      bytesToHex (pushes payloads) := by
  induction payloads with
  | nil => rfl
  | cons first rest ih =>
      rw [List.map_cons, List.flatMap_cons, ih, pushes_cons, paddingAtom, hexText_toList,
        bytesToHex_append]

/-- The parts that `materialize` puts together are laid out as the template says. -/
theorem layout_of_parts {regions : EncodedRegions} {payloads : List Bytes}
    (haccepted : RegionsAccepted artifact bindings)
    (hexec : regions.executable = sourceAtoms bindings 0 (executableInstructions artifact))
    (hexecBytes : regions.executableBytes =
      (codeBytes bindings (executableInstructions artifact)).length)
    (hsuffix : regions.suffix = sourceAtoms bindings (executableInstructions artifact).length
      (suffixInstructions artifact))
    (hsuffixBytes : regions.suffixBytes =
      (codeBytes bindings (suffixInstructions artifact)).length)
    (hpadding : (pushes payloads).length = paddingFor artifact.layout
      (codeBytes bindings (executableInstructions artifact)).length)
    (hcanonical : ∀ payload ∈ payloads, (encodePush payload .canonical).isSome = true) :
    Layout artifact bindings
      ⟨String.join ((regions.executable ++ payloads.map paddingAtom ++ regions.suffix).map
          MaterializedAtom.encodedHex),
        regions.executable ++ payloads.map paddingAtom ++ regions.suffix,
        (describeTemplate artifact).relocations, regions.executableBytes,
        paddingFor artifact.layout regions.executableBytes, regions.suffixBytes⟩ payloads := by
  have hencodes : ∀ i ∈ executableInstructions artifact,
      (encoding bindings i).isSome = true := by
    intro i hi
    exact haccepted.encodes i (List.mem_of_mem_filter hi)
  refine ⟨haccepted.order, haccepted.encodes, hcanonical, ?_, ?_, ?_, haccepted.accepted.2, ?_,
    ⟨hexecBytes, by rw [hexecBytes, hpadding], hsuffixBytes⟩, rfl⟩
  · rw [← String.toList_inj, toList_join_atoms, List.flatMap_append, List.flatMap_append, hexec,
      hsuffix, digits_sourceAtoms, digits_sourceAtoms, digits_paddingAtoms, hexText_toList,
      bytesToHex_append, bytesToHex_append]
  · intro hnone
    have hzero : (pushes payloads).length = 0 := by rw [hpadding, paddingFor, hnone]
    have hle := length_le_pushes hcanonical
    exact List.eq_nil_of_length_eq_zero (by omega)
  · intro alignment halignment
    have hpos : alignment ≠ 0 := by
      rintro rfl
      exact haccepted.accepted.1 halignment
    rw [List.length_append, hpadding]
    exact isLeast_padded halignment hpos _
  · intro hne firstId region
    have hpieces := pieces_of_encoded (fun i hi => region_of_mem_executable hi) hencodes hcanonical
    have hbytes : codeBytes bindings (executableInstructions artifact) ++ pushes payloads ≠ [] := by
      intro hnil
      have hle := length_le_codeBytes hencodes
      have hlen := congrArg List.length hnil
      have hpos := List.length_pos_iff.mpr hne
      rw [List.length_append, List.length_nil] at hlen
      omega
    obtain ⟨new, hrun, hbodies⟩ :=
      LegacyBytecodeAdapter.splitScriptFragment_of_pieces hbytes hpieces firstId region
    refine ⟨new, hrun, ?_⟩
    rw [hbodies]
    simp [Function.comp_def]

/-- A materialized script is laid out as the template says, and its template is materializable. -/
theorem layout_of_materialize {value : MaterializedBytecode}
    (h : materialize artifact bindings = .ok value) :
    Materializable artifact bindings ∧ ∃ padding, Layout artifact bindings value padding := by
  rw [materialize] at h
  split_ifs at h with hformat
  · exact absurd h (by simp [fail])
  · split at h
    · exact absurd h (by simp [failAt])
    · next hids =>
        split at h
        · exact absurd h (by simp)
        · next regions hregions =>
            obtain ⟨haccepted, hexec, hexecBytes, hsuffix, hsuffixBytes⟩ :=
              materializeRegions_ok hregions
            obtain ⟨payloads, hpadding, hpaddingBytes, hcanonical⟩ :=
              makePadding_spec (paddingFor artifact.layout regions.executableBytes)
            simp only [hpadding] at h
            split at h
            · exact absurd h (by simp [fail])
            · split at h
              · exact absurd h (by simp [fail])
              · next total hsum =>
                  obtain ⟨htotal, -⟩ := checkedSum_spec
                    (by rw [hexecBytes]; exact haccepted.bounded.1) hsum
                  split_ifs at h with hlarge
                  · exact absurd h (by simp [fail])
                  · obtain rfl := Except.ok.inj h
                    rw [hexecBytes] at hpaddingBytes
                    refine ⟨⟨by simpa using hformat,
                      ((findDuplicateId_eq_none_iff _ _ _).mp hids).1, haccepted.order,
                      haccepted.encodes, haccepted.accepted.1, haccepted.accepted.2, ?_⟩,
                      payloads, ?_⟩
                    · rw [hexecBytes, hsuffixBytes] at htotal
                      omega
                    · exact layout_of_parts haccepted hexec hexecBytes hsuffix hsuffixBytes
                        hpaddingBytes hcanonical

/-- Of a materializable template there is a final script. -/
theorem materialize_of_materializable (h : Materializable artifact bindings) :
    ∃ value, materialize artifact bindings = .ok value := by
  have hsize := h.size
  have hhalf : sizeMax / 2 ≤ sizeMax := Nat.div_le_self _ _
  have haccepted : RegionsAccepted artifact bindings :=
    ⟨h.order, h.encodes, ⟨h.alignment, h.final_return⟩, by omega, by omega⟩
  obtain ⟨regions, hregions⟩ := materializeRegions_of_accepted haccepted
  obtain ⟨-, hexec, hexecBytes, hsuffix, hsuffixBytes⟩ := materializeRegions_ok hregions
  obtain ⟨payloads, hpadding, hpaddingBytes, hcanonical⟩ :=
    makePadding_spec (paddingFor artifact.layout regions.executableBytes)
  have hids : findDuplicateId [] 0 artifact.lockingScript = none :=
    (findDuplicateId_eq_none_iff _ _ _).mpr ⟨h.ids, by simp⟩
  have hexecutable : (executableInstructions artifact).length ≤
      (codeBytes bindings (executableInstructions artifact)).length :=
    length_le_codeBytes fun i hi => h.encodes i (List.mem_of_mem_filter hi)
  have hsuf : (suffixInstructions artifact).length ≤
      (codeBytes bindings (suffixInstructions artifact)).length :=
    length_le_codeBytes fun i hi => h.encodes i (List.mem_of_mem_filter hi)
  have hpad := length_le_pushes hcanonical
  rw [hpaddingBytes, hexecBytes] at hpad
  have hcount : regions.executable.length + (payloads.map paddingAtom).length +
      regions.suffix.length ≤ sizeMax := by
    rw [hexec, hsuffix, length_sourceAtoms, length_sourceAtoms, List.length_map]
    omega
  have htotal : regions.executableBytes + paddingFor artifact.layout regions.executableBytes +
      regions.suffixBytes ≤ sizeMax := by
    rw [hexecBytes, hsuffixBytes]
    omega
  rw [materialize, if_neg (by simp [h.format])]
  simp only [hids, hregions, hpadding, checkedSum_eq_some hcount, checkedSum_eq_some htotal]
  rw [if_neg (by rw [hexecBytes, hsuffixBytes]; omega)]
  exact ⟨_, rfl⟩

end Whole

/-- **A materialized script is laid out correctly, and there is one exactly for the materializable
templates.** -/
theorem materialize_spec (artifact : BytecodeArtifact) (bindings : PlaceholderBindings) :
    (∀ value, materialize artifact bindings = .ok value →
      ∃ padding, Layout artifact bindings value padding) ∧
    ((∃ error, materialize artifact bindings = .error error) ↔
      ¬ Materializable artifact bindings) := by
  refine ⟨fun value h => (layout_of_materialize h).2, ?_⟩
  constructor
  · rintro ⟨error, herror⟩ hmaterializable
    obtain ⟨value, hvalue⟩ := materialize_of_materializable hmaterializable
    rw [herror] at hvalue
    exact absurd hvalue (by simp)
  · intro hnot
    cases hresult : materialize artifact bindings with
    | error error => exact ⟨error, rfl⟩
    | ok value => exact absurd (layout_of_materialize hresult).1 hnot

/-- A script of an `OP_RETURN` alone. -/
def returnOnly (alignment : Option ℕ) : BytecodeArtifact where
  format := .canonicalV2
  lockingScript := [⟨1, .opcode 0x6a, .executable, [], none⟩]
  unlockingScripts := []
  constructorSchema := []
  layout := ⟨alignment, true⟩

/-- An alignment of zero is refused, although the format, the identifiers, the regions and the
encodings are valid. -/
theorem zeroAlignment_fails :
    ¬ ∀ (artifact : BytecodeArtifact) (bindings : PlaceholderBindings),
      ((∃ error, materialize artifact bindings = .error error) ↔
        ¬ (artifact.format = .canonicalV2 ∧
          (artifact.lockingScript.map BytecodeInstruction.id).Nodup ∧
          artifact.lockingScript =
            executableInstructions artifact ++ suffixInstructions artifact ∧
          ∀ instruction ∈ artifact.lockingScript,
            (encoding bindings instruction).isSome = true)) := by
  intro h
  have herror : materialize (returnOnly (some 0)) [] =
      .error ⟨.invalidAlignment, none, none, "",
        "executable alignment must be greater than zero"⟩ := rfl
  refine (h (returnOnly (some 0)) []).mp ⟨_, herror⟩ ⟨rfl, by decide, by decide, ?_⟩
  intro instruction hmem
  rw [List.mem_singleton.mp hmem]
  decide

end BytecodeMaterializer

end AtomicProof
