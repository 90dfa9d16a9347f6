/-
The final layout of a script.

`BytecodeFinalizePass::execute` in `src/src/bytecode_finalize_pass.h` runs after the peephole pass.  It
finds the `OP_RETURN` that ends the executable part, appends the declared lengths to the placeholders in
front of it, and puts one push behind it that fills the executable part up to a multiple of 64 bytes;
padding from an earlier run is replaced.  The typed script and the debug information are moved along,
and where one of them cannot be moved nothing is changed.  A canonical template has no sizes yet, so for
it the pass only asks for the layout to be done later.

Main definitions:

* `LayoutData` — what the pass reads and writes;
* `returnIndexOf`, `oldPaddingEnd`, `pcRemap` — the parts of a script;
* `LayoutData.execute` — the pass;
* `LaidOut` — what a script is afterwards.

Main results:

* `paddingInstrs_spec` — the padding is one push that is as long as it should be;
* `typedLayout_of_rewrite` — the typed script is laid out along with the text;
* `LayoutData.execute_layout` — **a script is laid out as a whole or not at all**.
-/

import AtomicProof.PeepholePass
import AtomicProof.PlaceholderSpelling

set_option autoImplicit false

namespace AtomicProof.BytecodeFinalizePass

open ApcDebug (DebugInfo)
open BytecodeArtifactRewriter (reverseMapping)
open LegacyBytecodeAdapter (parseExecutableAtom)

/-! ### The parts of a script -/

/-- The data of the pass: the atoms, the typed script, the debug information and the lengths of
placeholders, in the order in which they are read. -/
structure LayoutData where
  instrs : List String
  artifact : Option BytecodeArtifact
  debugInfo : Option DebugInfo
  selfPlaceholderLengths : PlaceholderLengthMap

/-- What the loop over the regions has seen. -/
structure RegionScan where
  sawPadding : Bool := false
  sawSuffix : Bool := false
  finalExecutableIndex : Option ℕ := none

/-- One step of the loop over the regions; `none` where `validRegionOrder` is lost. -/
def RegionScan.step (scan : RegionScan) (entry : ScriptRegion × ℕ) : Option RegionScan :=
  match entry.1 with
  | .executable =>
      if scan.sawPadding || scan.sawSuffix then none
      else some { scan with finalExecutableIndex := some entry.2 }
  | .padding => if scan.sawSuffix then none else some { scan with sawPadding := true }
  | .immutableSuffix => some { scan with sawSuffix := true }

def scanRegions (script : List BytecodeInstruction) : Option RegionScan :=
  (script.map (·.region)).zipIdx.foldlM RegionScan.step {}

/-- The last executable instruction of a typed script, if it is `OP_RETURN`. -/
def typedReturnIndex (script : List BytecodeInstruction) : Option ℕ := do
  let scan ← scanRegions script
  let index ← scan.finalExecutableIndex
  let instruction ← script[index]?
  if instruction.body = .opcode BytOpcode.opReturn.toWord then some index else none

/-- The last atom that is `OP_RETURN`. -/
def legacyReturnIndex (instrs : List String) : Option ℕ :=
  (instrs.reverse.findIdx? fun instr => IfTail.isSingleOpcode instr .opReturn).map
    (instrs.length - 1 - ·)

/-- `returnIndexOpt` -/
def returnIndexOf (instrs : List String) (artifact : Option BytecodeArtifact) : Option ℕ :=
  match artifact with
  | some artifact => typedReturnIndex artifact.lockingScript
  | none => legacyReturnIndex instrs

/-- `oldPaddingEnd`, which is `suffixStart`. -/
def oldPaddingEnd (artifact : Option BytecodeArtifact) (returnIndex : ℕ) : ℕ :=
  match artifact with
  | some artifact =>
      returnIndex + 1 + ((artifact.lockingScript.drop (returnIndex + 1)).takeWhile
        fun instruction => instruction.region = .padding).length
  | none => returnIndex + 1

/-- `countBytes`: the sizes of the instructions and their texts with the labels spelled out. -/
def countBytes (instrs : List String) (placeholderLengths : PlaceholderLengthMap) :
    Except SizeFailure (List (ℕ × String)) :=
  instrs.mapM fun instr => instructionBytes instr placeholderLengths

/-! ### Padding -/

def bytesToAlign (length alignment : ℕ) : ℕ :=
  if length % alignment = 0 then 0 else alignment - length % alignment

def makePushPadding (paddingBytes : ℕ) : String :=
  if paddingBytes = 0 then ""
  else if paddingBytes = 1 then "00"
  else if 75 < paddingBytes - 1 then ""
  else
    String.ofList (byteToHex (UInt8.ofNat (paddingBytes - 1)) ++
      (List.replicate (paddingBytes - 1) ['f', 'f']).flatten)

/-- The instructions that are put behind `OP_RETURN`. -/
def paddingInstrs (paddingBytes : ℕ) : List String :=
  if makePushPadding paddingBytes = "" then [] else [makePushPadding paddingBytes]

/-- The instructions that fill sized code up to a multiple of 64 bytes. -/
def paddingFor (sized : List (ℕ × String)) : List String :=
  paddingInstrs (bytesToAlign (sized.map (·.1)).sum 64)

/-! ### The pass -/

def pcRemap (size returnIndex suffixStart paddingInstrCount : ℕ) : List (Option ℕ) :=
  (List.range size).map fun i =>
    if i ≤ returnIndex then some i
    else if i < suffixStart then
      if paddingInstrCount ≠ 0 then some (returnIndex + 1) else none
    else some (returnIndex + 1 + paddingInstrCount + (i - suffixStart))

/-- The new padding is marked as such in the typed script. -/
def markPadding (artifact : BytecodeArtifact) (returnIndex : ℕ) (padding : List String) :
    BytecodeArtifact :=
  match padding with
  | [] => artifact
  | paddingInstr :: _ =>
      { artifact with
        lockingScript := artifact.lockingScript.modify (returnIndex + 1) fun instruction =>
          { instruction with
            region := .padding
            body := parseExecutableAtom paddingInstr
            legacyEncoding := some paddingInstr } }

namespace LayoutData

/-- `finalized`, with the code `code` and the padding `padding`. -/
def finalized (data : LayoutData) (returnIndex : ℕ) (code padding : List String) : List String :=
  code ++ padding ++ data.instrs.drop (oldPaddingEnd data.artifact returnIndex)

/-- `pcRemap` of the script. -/
def places (data : LayoutData) (returnIndex : ℕ) (padding : List String) : List (Option ℕ) :=
  pcRemap data.instrs.length returnIndex (oldPaddingEnd data.artifact returnIndex) padding.length

/-- The layout with the code `code` and the padding `padding`; `none` where the typed script or the
debug information cannot be moved along. -/
def layOut (data : LayoutData) (returnIndex : ℕ) (code padding : List String) : Option LayoutData := do
  let finalized := data.finalized returnIndex code padding
  let places := data.places returnIndex padding
  let artifact ← Peephole.applyArtifactRewrite data.artifact finalized
    (reverseMapping places finalized.length)
  let debugInfo ← Peephole.moveDebugInfo data.debugInfo finalized places []
  return { data with
    instrs := finalized
    artifact := artifact.map fun artifact => markPadding artifact returnIndex padding
    debugInfo }

/-- A canonical template is laid out when it is materialized. -/
def deferLayout (data : LayoutData) (artifact : BytecodeArtifact) : LayoutData :=
  { data with artifact := some { artifact with
      layout := { artifact.layout with executableAlignment := some 64, requiresMaterialization := true } } }

/-- `BytecodeFinalizePass::execute`, with the error that is reported. -/
def execute (data : LayoutData) : LayoutData × Option String :=
  if data.instrs.isEmpty then (data, none)
  else
    match data.artifact.filter (·.format = .canonicalV2) with
    | some artifact => (data.deferLayout artifact, none)
    | none =>
        if data.artifact.any (·.lockingScript.length ≠ data.instrs.length) then (data, none)
        else
          match returnIndexOf data.instrs data.artifact with
          | none => (data, none)
          | some returnIndex =>
              match countBytes (data.instrs.take (returnIndex + 1)) data.selfPlaceholderLengths with
              | .error failure => (data, failure.message)
              | .ok sized =>
                  ((data.layOut returnIndex (sized.map (·.2)) (paddingFor sized)).getD data, none)

end LayoutData

/-! ### Regions -/

section Regions

def threeParts (executable padding suffix : ℕ) : List ScriptRegion :=
  List.replicate executable .executable ++ List.replicate padding .padding ++
    List.replicate suffix .immutableSuffix

@[simp] theorem length_threeParts (executable padding suffix : ℕ) :
    (threeParts executable padding suffix).length = executable + padding + suffix := by
  simp [threeParts, Nat.add_assoc]

theorem getElem?_threeParts (executable padding suffix n : ℕ) :
    (threeParts executable padding suffix)[n]? =
      if n < executable then some .executable
      else if n < executable + padding then some .padding
      else if n < executable + padding + suffix then some .immutableSuffix
      else none := by
  simp only [threeParts, List.getElem?_append, List.length_append, List.length_replicate,
    List.getElem?_replicate]
  split_ifs <;> first | rfl | omega

variable {script : List BytecodeInstruction} {padding suffix returnIndex : ℕ}

/-- The loop over the regions goes through on scripts in three parts. -/
theorem scanRegions_spec {scan : RegionScan} (h : scanRegions script = some scan) :
    ∃ executable padding suffix, script.map (·.region) = threeParts executable padding suffix ∧
      scan.finalExecutableIndex = (if executable = 0 then none else some (executable - 1)) := by
  have hrun : ∀ (regions : List ScriptRegion) (scan : RegionScan),
      regions.zipIdx.foldlM RegionScan.step {} = some scan →
      ∃ executable padding suffix, regions = threeParts executable padding suffix ∧
        scan = ⟨decide (padding ≠ 0), decide (suffix ≠ 0),
          if executable = 0 then none else some (executable - 1)⟩ := by
    intro regions
    induction regions using List.reverseRecOn with
    | nil =>
        intro scan hscan
        obtain rfl := Option.some.inj hscan
        exact ⟨0, 0, 0, rfl, rfl⟩
    | append_singleton regions region ih =>
        intro scan hscan
        rw [List.zipIdx_append, List.foldlM_append] at hscan
        obtain ⟨before, hbefore, hstep⟩ := Option.bind_eq_some_iff.1 hscan
        obtain ⟨executable, padding, suffix, rfl, rfl⟩ := ih before hbefore
        rw [length_threeParts] at hstep
        cases region with
        | executable =>
            simp only [List.zipIdx_singleton, List.foldlM_cons, List.foldlM_nil, RegionScan.step,
              Bool.or_eq_true, decide_eq_true_eq] at hstep
            by_cases hseen : padding ≠ 0 ∨ suffix ≠ 0
            · rw [if_pos hseen] at hstep
              cases hstep
            · rw [if_neg hseen] at hstep
              rw [not_or, not_not, not_not] at hseen
              obtain ⟨rfl, rfl⟩ := hseen
              obtain rfl := Option.some.inj hstep
              exact ⟨executable + 1, 0, 0, by simp [threeParts, List.replicate_succ'], by simp⟩
        | padding =>
            simp only [List.zipIdx_singleton, List.foldlM_cons, List.foldlM_nil, RegionScan.step,
              decide_eq_true_eq] at hstep
            by_cases hseen : suffix ≠ 0
            · rw [if_pos hseen] at hstep
              cases hstep
            · rw [if_neg hseen] at hstep
              rw [not_not] at hseen
              subst hseen
              obtain rfl := Option.some.inj hstep
              exact ⟨executable, padding + 1, 0, by simp [threeParts, List.replicate_succ'], by simp⟩
        | immutableSuffix =>
            simp only [List.zipIdx_singleton, List.foldlM_cons, List.foldlM_nil,
              RegionScan.step] at hstep
            obtain rfl := Option.some.inj hstep
            exact ⟨executable, padding, suffix + 1, by simp [threeParts, List.replicate_succ'],
              by simp⟩
  obtain ⟨executable, padding, suffix, hregions, rfl⟩ := hrun _ _ h
  exact ⟨executable, padding, suffix, hregions, rfl⟩

/-- The loop over the regions of a script in three parts. -/
theorem scanRegions_threeParts {executable : ℕ}
    (h : script.map (·.region) = threeParts (executable + 1) padding suffix) :
    ∃ scan, scanRegions script = some scan ∧ scan.finalExecutableIndex = some executable := by
  have hexecutable : ∀ n k : ℕ, ∀ scan : RegionScan, scan.sawPadding = false → scan.sawSuffix = false →
      ((List.replicate (n + 1) ScriptRegion.executable).zipIdx k).foldlM RegionScan.step scan =
        some { scan with finalExecutableIndex := some (k + n) } := by
    intro n
    induction n with
    | zero =>
        intro k scan hpadding hsuffix
        simp [RegionScan.step, hpadding, hsuffix]
    | succ n ih =>
        intro k scan hpadding hsuffix
        have hstep : scan.step (.executable, k) = some { scan with finalExecutableIndex := some k } := by
          simp [RegionScan.step, hpadding, hsuffix]
        have hrest := ih (k + 1) { scan with finalExecutableIndex := some k } hpadding hsuffix
        rw [List.replicate_succ, List.zipIdx_cons, List.foldlM_cons, hstep, Option.bind_eq_bind,
          Option.bind_some, hrest, Nat.add_assoc, Nat.add_comm 1 n]
  have hpadding : ∀ n k : ℕ, ∀ scan : RegionScan, scan.sawSuffix = false →
      ∃ scan', ((List.replicate n ScriptRegion.padding).zipIdx k).foldlM RegionScan.step scan =
        some scan' ∧ scan'.finalExecutableIndex = scan.finalExecutableIndex ∧
          scan'.sawSuffix = false := by
    intro n
    induction n with
    | zero => exact fun k scan hsuffix => ⟨scan, rfl, rfl, hsuffix⟩
    | succ n ih =>
        intro k scan hsuffix
        have hstep : scan.step (.padding, k) = some { scan with sawPadding := true } := by
          simp [RegionScan.step, hsuffix]
        rw [List.replicate_succ, List.zipIdx_cons, List.foldlM_cons, hstep, Option.bind_eq_bind,
          Option.bind_some]
        exact ih (k + 1) { scan with sawPadding := true } hsuffix
  have hsuffix : ∀ n k : ℕ, ∀ scan : RegionScan,
      ∃ scan', ((List.replicate n ScriptRegion.immutableSuffix).zipIdx k).foldlM RegionScan.step scan =
        some scan' ∧ scan'.finalExecutableIndex = scan.finalExecutableIndex := by
    intro n
    induction n with
    | zero => exact fun k scan => ⟨scan, rfl, rfl⟩
    | succ n ih =>
        intro k scan
        have hstep : scan.step (.immutableSuffix, k) = some { scan with sawSuffix := true } := rfl
        rw [List.replicate_succ, List.zipIdx_cons, List.foldlM_cons, hstep, Option.bind_eq_bind,
          Option.bind_some]
        exact ih (k + 1) { scan with sawSuffix := true }
  obtain ⟨scan₁, hrun₁, hfinal₁, hsaw₁⟩ := hpadding padding (executable + 1)
    { finalExecutableIndex := some (0 + executable) } rfl
  obtain ⟨scan₂, hrun₂, hfinal₂⟩ := hsuffix suffix (executable + 1 + padding) scan₁
  refine ⟨scan₂, ?_, by rw [hfinal₂, hfinal₁, Nat.zero_add]⟩
  rw [scanRegions, h, threeParts, List.zipIdx_append, List.zipIdx_append, List.foldlM_append,
    List.foldlM_append, hexecutable executable 0 {} rfl rfl]
  simp only [Option.bind_eq_bind, Option.bind_some, List.length_append, List.length_replicate,
    Nat.zero_add]
  rw [Nat.zero_add] at hrun₁
  rw [hrun₁, Option.bind_some, hrun₂]

/-- A script whose executable part ends with `OP_RETURN` consists of three parts. -/
theorem typedReturnIndex_spec (h : typedReturnIndex script = some returnIndex) :
    ∃ padding suffix, script.map (·.region) = threeParts (returnIndex + 1) padding suffix ∧
      ∃ instruction, script[returnIndex]? = some instruction ∧
        instruction.body = .opcode BytOpcode.opReturn.toWord := by
  unfold typedReturnIndex at h
  obtain ⟨scan, hscan, h⟩ := Option.bind_eq_some_iff.1 h
  obtain ⟨index, hindex, h⟩ := Option.bind_eq_some_iff.1 h
  obtain ⟨instruction, hinstruction, h⟩ := Option.bind_eq_some_iff.1 h
  split_ifs at h with hbody
  obtain rfl := Option.some.inj h
  obtain ⟨executable, padding, suffix, hregions, hfinal⟩ := scanRegions_spec hscan
  rw [hfinal] at hindex
  split_ifs at hindex with hzero
  obtain rfl := Option.some.inj hindex
  refine ⟨padding, suffix, ?_, instruction, hinstruction, hbody⟩
  rw [hregions, Nat.sub_add_cancel (Nat.pos_of_ne_zero hzero)]

theorem typedReturnIndex_of_threeParts
    (hregions : script.map (·.region) = threeParts (returnIndex + 1) padding suffix)
    {instruction : BytecodeInstruction} (hinstruction : script[returnIndex]? = some instruction) :
    typedReturnIndex script =
      if instruction.body = .opcode BytOpcode.opReturn.toWord then some returnIndex else none := by
  obtain ⟨scan, hscan, hfinal⟩ := scanRegions_threeParts hregions
  simp [typedReturnIndex, hscan, hfinal, hinstruction]

/-- The old padding of a script in three parts. -/
theorem oldPaddingEnd_of_threeParts {artifact : BytecodeArtifact}
    (h : artifact.lockingScript.map (·.region) = threeParts (returnIndex + 1) padding suffix) :
    oldPaddingEnd (some artifact) returnIndex = returnIndex + 1 + padding := by
  have htake : (((artifact.lockingScript.drop (returnIndex + 1)).takeWhile
      fun instruction => instruction.region = .padding).map (·.region)).length = padding := by
    have hcomp : (fun instruction : BytecodeInstruction => decide (instruction.region = .padding)) =
        (fun region : ScriptRegion => decide (region = .padding)) ∘ (·.region) := rfl
    rw [hcomp, ← List.takeWhile_map, List.map_drop, h, threeParts, List.append_assoc,
      List.drop_left' (List.length_replicate)]
    cases suffix with
    | zero => simp
    | succ suffix => simp [List.takeWhile_append_of_pos, List.replicate_succ]
  rw [List.length_map] at htake
  rw [oldPaddingEnd, htake]

end Regions

/-! ### The new padding -/

section Padding

open ScriptCodec (hexToBytes)

theorem bytesToAlign_spec (length : ℕ) :
    bytesToAlign length 64 < 64 ∧ 64 ∣ length + bytesToAlign length 64 := by
  unfold bytesToAlign
  split_ifs with h
  · exact ⟨by decide, by omega⟩
  · exact ⟨by omega, by omega⟩

theorem bytesToHex_replicate (n : ℕ) :
    bytesToHex (List.replicate n 0xff) = (List.replicate n ['f', 'f']).flatten := by
  induction n with
  | zero => rfl
  | succ n ih => rw [List.replicate_succ, bytesToHex_cons, ih, List.replicate_succ, List.flatten_cons]; rfl

/-- **The padding is one push that is as long as it should be.** -/
theorem paddingInstrs_spec {n : ℕ} (h : n < 64) :
    (paddingInstrs n = [] ∧ n = 0) ∨ ∃ text encoding, paddingInstrs n = [text] ∧
      hexToBytes text = .ok encoding ∧ encoding.length = n ∧
        InstructionGrammar encoding (.pushData (List.replicate (n - 1) 0xff)) := by
  rcases Nat.lt_or_ge 1 n with hlt | hle
  · refine Or.inr ⟨String.ofList (bytesToHex (UInt8.ofNat (n - 1) :: List.replicate (n - 1) 0xff)),
      UInt8.ofNat (n - 1) :: List.replicate (n - 1) 0xff, ?_, ?_, ?_, ?_⟩
    · have htext : makePushPadding n =
          String.ofList (bytesToHex (UInt8.ofNat (n - 1) :: List.replicate (n - 1) 0xff)) := by
        rw [makePushPadding, if_neg (by omega), if_neg (by omega), if_neg (by omega),
          bytesToHex_cons, bytesToHex_replicate]
      have hne : makePushPadding n ≠ "" := by
        rw [htext]
        intro hempty
        have hlength := congrArg (fun text : String => text.toList.length) hempty
        simp [bytesToHex_length] at hlength
      rw [paddingInstrs, if_neg hne, htext]
    · exact hexToBytes_of_hexPairs (List.cons_ne_nil _ _)
        (by rw [String.toList_ofList, hexPairs_bytesToHex])
    · rw [List.length_cons, List.length_replicate]
      omega
    · have hpush := ScriptCodec.PushGrammar.direct (List.replicate (n - 1) (0xff : UInt8))
        (by simp; omega) (by simp; omega)
      rw [List.length_replicate] at hpush
      exact .pushData hpush
  · rcases Nat.le_one_iff_eq_zero_or_eq_one.1 hle with rfl | rfl
    · exact Or.inl ⟨rfl, rfl⟩
    · exact Or.inr ⟨"00", [0x00], rfl, by decide, rfl, .pushData .op0⟩

end Padding

/-! ### The places of the layout -/

section Places

open BytecodeArtifactRewriter (placesOf reverseMapping_spec)

variable {size returnIndex suffixStart padding : ℕ}

theorem mem_placesOf {oldToNew : List (Option ℕ)} {i n : ℕ} :
    i ∈ placesOf oldToNew 0 n ↔ oldToNew[i]? = some (some n) := by
  simp [placesOf, List.mem_zipIdx_iff_getElem?]

theorem getElem?_pcRemap (i : ℕ) :
    (pcRemap size returnIndex suffixStart padding)[i]? =
      if i < size then
        some (if i ≤ returnIndex then some i
          else if i < suffixStart then if padding ≠ 0 then some (returnIndex + 1) else none
          else some (returnIndex + 1 + padding + (i - suffixStart)))
      else none := by
  unfold pcRemap
  by_cases hlt : i < size
  · rw [List.getElem?_map, List.getElem?_range hlt, if_pos hlt, Option.map_some]
  · rw [if_neg hlt, List.getElem?_eq_none]
    rw [List.length_map, List.length_range]
    omega

theorem mem_placesOf_code {i : ℕ} (hi : i ≤ returnIndex) (hreturn : returnIndex < suffixStart)
    (hsuffix : suffixStart ≤ size) (j : ℕ) :
    j ∈ placesOf (pcRemap size returnIndex suffixStart padding) 0 i ↔ j = i := by
  rw [mem_placesOf, getElem?_pcRemap]
  split_ifs <;> simp <;> omega

theorem mem_placesOf_suffix {i : ℕ} (hi : suffixStart ≤ i) (hlt : i < size)
    (hreturn : returnIndex < suffixStart) (j : ℕ) :
    j ∈ placesOf (pcRemap size returnIndex suffixStart padding) 0
      (returnIndex + 1 + padding + (i - suffixStart)) ↔ j = i := by
  rw [mem_placesOf, getElem?_pcRemap]
  split_ifs <;> simp <;> omega

theorem reverseMapping_pcRemap (hsuffix : suffixStart ≤ size) :
    reverseMapping (pcRemap size returnIndex suffixStart padding)
        (returnIndex + 1 + padding + (size - suffixStart)) =
      (List.range (returnIndex + 1 + padding + (size - suffixStart))).map
        (placesOf (pcRemap size returnIndex suffixStart padding) 0) := by
  refine (reverseMapping_spec _ _).1 fun newPC hmem => ?_
  obtain ⟨i, hi⟩ := List.getElem?_of_mem hmem
  rw [getElem?_pcRemap] at hi
  split_ifs at hi with hlt hcode hold hpadding <;> simp at hi <;> omega

end Places

/-! ### The typed script -/

section Typed

open BytecodeArtifactRewriter (InStep NumbersFit Provenance effectiveOrigins inStep_of_rewrite placesOf
  provenance_of_rewrite rewrite withKnownSize)
open LegacyBytecodeAdapter (exportPreserving serializeInstructionPreserving)

/-- An instruction of the old script is still there: with its identity, its region and its origins, and,
where its text is the same, with its body. -/
structure Kept (old : List BytecodeInstruction) (input output : BytecodeInstruction) : Prop where
  id : output.id = input.id
  region : output.region = input.region
  origins : ∀ origin, origin ∈ output.origins ↔ origin ∈ effectiveOrigins input
  body : output.legacyEncoding = some (serializeInstructionPreserving input) →
    output.body = withKnownSize old input.body

/-- **The typed script after the layout**: the code and the suffix are still there, and between them is
the new padding. -/
structure TypedLayout (old new : List BytecodeInstruction) (returnIndex suffixStart padding : ℕ) :
    Prop where
  regions : new.map (·.region) = threeParts (returnIndex + 1) padding (old.length - suffixStart)
  code : ∀ i ≤ returnIndex, ∀ input output, old[i]? = some input → new[i]? = some output →
    Kept old input output
  suffix : ∀ i, suffixStart ≤ i → ∀ input output, old[i]? = some input →
    new[returnIndex + 1 + padding + (i - suffixStart)]? = some output → Kept old input output

variable {i returnIndex : ℕ} {artifact : BytecodeArtifact} {padding : List String}

theorem placesOf_singleton {oldToNew : List (Option ℕ)} {n : ℕ}
    (h : ∀ j, j ∈ placesOf oldToNew 0 n ↔ j = i) : placesOf oldToNew 0 n = [i] := by
  have hnodup : (placesOf oldToNew 0 n).Nodup := by
    refine List.Nodup.sublist (List.filter_sublist.map _) ?_
    rw [List.zipIdx_map_snd]
    exact List.nodup_range'
  refine List.perm_singleton.1 ((List.perm_ext_iff_of_nodup hnodup (List.nodup_singleton _)).2 ?_)
  intro j
  rw [h, List.mem_singleton]

theorem kept_of_provenance {old : List BytecodeInstruction} {text : String}
    {input output : BytecodeInstruction} (h : Provenance old text [i] output)
    (hinput : old[i]? = some input) : Kept old input output := by
  obtain ⟨hid, hregion⟩ := h.lowest i (List.mem_singleton_self i)
    (fun pc hpc => (List.mem_singleton.1 hpc).ge) input hinput
  refine ⟨hid, hregion, fun origin => ?_, fun htext => ?_⟩
  · rw [h.origins (List.cons_ne_nil i [])]
    simp [hinput]
  · rw [h.text, Option.some_inj] at htext
    exact h.kept i input rfl hinput htext.symm

/-- What marking the padding does to one instruction. -/
theorem getElem?_markPadding (artifact : BytecodeArtifact) (returnIndex : ℕ) (padding : List String)
    (i : ℕ) : (markPadding artifact returnIndex padding).lockingScript[i]? =
      (artifact.lockingScript[i]?).map fun instruction =>
        match padding with
        | [] => instruction
        | text :: _ =>
            if returnIndex + 1 = i then
              { instruction with
                region := .padding
                body := parseExecutableAtom text
                legacyEncoding := some text }
            else instruction := by
  cases padding with
  | nil => simp [markPadding]
  | cons text rest =>
      simp only [markPadding]
      rw [List.getElem?_modify]
      by_cases h : returnIndex + 1 = i <;> simp [h]

/-- The padding is in step with the text that it was written for. -/
theorem inStep_markPadding {instrs : List String}
    (h : InStep artifact instrs) (hpadding : ∀ text ∈ padding.head?, instrs[returnIndex + 1]? = some text) :
    InStep (markPadding artifact returnIndex padding) instrs := by
  cases padding with
  | nil => exact h
  | cons text rest =>
      have hids : (markPadding artifact returnIndex (text :: rest)).lockingScript.map (·.id) =
          artifact.lockingScript.map (·.id) := by
        refine List.ext_getElem? fun i => ?_
        rw [List.getElem?_map, List.getElem?_map, getElem?_markPadding, Option.map_map]
        congr 1
        funext instruction
        by_cases hi : returnIndex + 1 = i <;> simp [hi]
      refine ⟨?_, hids ▸ h.ids, fun instruction hmem => ?_⟩
      · rw [← h.exported]
        refine List.ext_getElem? fun i => ?_
        simp only [exportPreserving, List.getElem?_map]
        rw [getElem?_markPadding, Option.map_map]
        by_cases hi : returnIndex + 1 = i
        · subst hi
          have hat := hpadding text rfl
          rw [← h.exported, exportPreserving, List.getElem?_map] at hat
          rw [hat]
          obtain ⟨instruction, hinstruction, -⟩ := Option.map_eq_some_iff.1 hat
          rw [hinstruction]
          simp [serializeInstructionPreserving]
        · congr 1
          funext instruction
          simp [hi]
      · obtain ⟨i, hi⟩ := List.getElem?_of_mem hmem
        rw [getElem?_markPadding, Option.map_eq_some_iff] at hi
        obtain ⟨input, hinput, rfl⟩ := hi
        have hfit := h.numbers input (List.mem_of_getElem? hinput)
        dsimp only
        split_ifs with hat
        · exact hfit
        · exact hfit

theorem getElem?_markPadding_outside (artifact : BytecodeArtifact)
     (h : i ≤ returnIndex ∨ returnIndex + 1 + padding.length ≤ i) :
    (markPadding artifact returnIndex padding).lockingScript[i]? = artifact.lockingScript[i]? := by
  rw [getElem?_markPadding]
  cases padding with
  | nil => simp
  | cons text rest =>
      rw [List.length_cons] at h
      have hne : ¬ returnIndex + 1 = i := by omega
      simp [hne]

/-- The padding is marked as such. -/
theorem region_markPadding (artifact : BytecodeArtifact)
    (hpadding : padding.length ≤ 1) (hi : returnIndex + 1 ≤ i)
    (hlt : i < returnIndex + 1 + padding.length) (hin : i < artifact.lockingScript.length) :
    ((markPadding artifact returnIndex padding).lockingScript[i]?).map (·.region) = some .padding := by
  rw [getElem?_markPadding]
  cases padding with
  | nil =>
      rw [List.length_nil] at hlt
      omega
  | cons text rest =>
      rw [List.length_cons] at hlt hpadding
      obtain rfl : i = returnIndex + 1 := by omega
      rw [List.getElem?_eq_getElem hin]
      simp

theorem kept_of_rewrite {result : BytecodeArtifact} {texts : List String} {count : ℕ}
    {oldToNew : List (Option ℕ)} (hfit : ∀ i ∈ artifact.lockingScript, NumbersFit i)
    (hcount : texts.length = count)
    (h : rewrite artifact texts ((List.range count).map (placesOf oldToNew 0)) = .ok result) {n : ℕ}
    {input : BytecodeInstruction} (hinput : artifact.lockingScript[i]? = some input)
    (hn : n < texts.length) (hmem : ∀ j, j ∈ placesOf oldToNew 0 n ↔ j = i) :
    ∃ output, result.lockingScript[n]? = some output ∧ Kept artifact.lockingScript input output := by
  have hsources : ((List.range count).map (placesOf oldToNew 0))[n]? = some [i] := by
    rw [List.getElem?_map, List.getElem?_range (hcount ▸ hn), Option.map_some, placesOf_singleton hmem]
  obtain ⟨output, houtput, hprovenance⟩ :=
    provenance_of_rewrite hfit h (List.getElem?_eq_getElem hn) hsources
  exact ⟨output, houtput, kept_of_provenance hprovenance hinput⟩

/-- **The regions of a script that is laid out anew**, where the code and the suffix keep theirs. -/
theorem regions_of_places {old new : List BytecodeInstruction} {code oldPadding padding suffix : ℕ}
    (hregions : old.map (·.region) = threeParts code oldPadding suffix)
    (hlength : new.length = code + padding + suffix)
    (hcode : ∀ i < code, ∀ input, old[i]? = some input →
      ∃ output, new[i]? = some output ∧ output.region = input.region)
    (hpadding : ∀ i, code ≤ i → i < code + padding → (new[i]?).map (·.region) = some .padding)
    (hsuffix : ∀ i < suffix, ∀ input, old[code + oldPadding + i]? = some input →
      ∃ output, new[code + padding + i]? = some output ∧ output.region = input.region) :
    new.map (·.region) = threeParts code padding suffix := by
  have hsize : old.length = code + oldPadding + suffix := by
    have hlengths := congrArg List.length hregions
    rwa [List.length_map, length_threeParts] at hlengths
  have hold : ∀ (i : ℕ) input, old[i]? = some input →
      (threeParts code oldPadding suffix)[i]? = some input.region := by
    intro i input hinput
    rw [← hregions, List.getElem?_map, hinput, Option.map_some]
  refine List.ext_getElem? fun n => ?_
  rw [List.getElem?_map, getElem?_threeParts]
  by_cases hn : n < code
  · have hlt : n < old.length := by omega
    obtain ⟨output, houtput, hsame⟩ := hcode n hn _ (List.getElem?_eq_getElem hlt)
    have hregion := hold n _ (List.getElem?_eq_getElem hlt)
    rw [getElem?_threeParts, if_pos hn] at hregion
    rw [houtput, Option.map_some, hsame, if_pos hn, hregion]
  · rw [if_neg hn]
    by_cases hn' : n < code + padding
    · rw [if_pos hn', hpadding n (by omega) hn']
    · rw [if_neg hn']
      by_cases hn'' : n < code + padding + suffix
      -- the place in the suffix, counted from where the suffix begins
      · obtain ⟨k, rfl⟩ := Nat.exists_eq_add_of_le (not_lt.mp hn')
        have hlt : code + oldPadding + k < old.length := by omega
        obtain ⟨output, houtput, hsame⟩ := hsuffix k (by omega) _ (List.getElem?_eq_getElem hlt)
        have hregion := hold _ _ (List.getElem?_eq_getElem hlt)
        rw [getElem?_threeParts, if_neg (by omega), if_neg (by omega), if_pos (by omega)] at hregion
        rw [houtput, Option.map_some, hsame, if_pos hn'', hregion]
      · rw [if_neg hn'', List.getElem?_eq_none (by omega)]
        rfl

/-- **The typed script is laid out along with the text.** -/
theorem typedLayout_of_rewrite {result : BytecodeArtifact} {code suffix : List String}
    {oldPadding suffixLength : ℕ}
    (hfit : ∀ i ∈ artifact.lockingScript, NumbersFit i)
    (hregions : artifact.lockingScript.map (·.region) =
      threeParts (returnIndex + 1) oldPadding suffixLength)
    (hcode : code.length = returnIndex + 1) (hsuffix : suffix.length = suffixLength)
    (hpadding : padding.length ≤ 1)
    (h : rewrite artifact (code ++ padding ++ suffix)
      (reverseMapping (pcRemap artifact.lockingScript.length returnIndex (returnIndex + 1 + oldPadding)
        padding.length) (code ++ padding ++ suffix).length) = .ok result) :
    InStep (markPadding result returnIndex padding) (code ++ padding ++ suffix) ∧
      TypedLayout artifact.lockingScript (markPadding result returnIndex padding).lockingScript
        returnIndex (returnIndex + 1 + oldPadding) padding.length := by
  have hsize : artifact.lockingScript.length = returnIndex + 1 + oldPadding + suffixLength := by
    have hlength := congrArg List.length hregions
    rwa [List.length_map, length_threeParts] at hlength
  have hcount : (code ++ padding ++ suffix).length = returnIndex + 1 + padding.length +
      (artifact.lockingScript.length - (returnIndex + 1 + oldPadding)) := by
    rw [List.length_append, List.length_append, hcode, hsuffix]
    omega
  -- every old place but the padding keeps its instruction, shifted by the new padding
  rw [hcount, reverseMapping_pcRemap (by omega)] at h
  have hstep := inStep_of_rewrite hfit h
  have hlength : result.lockingScript.length = (code ++ padding ++ suffix).length := by
    have hlengths := congrArg List.length hstep.exported
    rwa [exportPreserving, List.length_map] at hlengths
  -- marking changes no text
  have hmarked : InStep (markPadding result returnIndex padding) (code ++ padding ++ suffix) := by
    refine inStep_markPadding hstep fun text htext => ?_
    cases padding with
    | nil => cases htext
    | cons first rest =>
        obtain rfl := Option.some.inj htext
        rw [List.append_assoc, List.getElem?_append_right hcode.le, hcode, Nat.sub_self]
        rfl
  have hcodeAt : ∀ i ≤ returnIndex, ∀ input, artifact.lockingScript[i]? = some input →
      ∃ output, (markPadding result returnIndex padding).lockingScript[i]? = some output ∧
        Kept artifact.lockingScript input output := by
    intro i hi input hinput
    rw [getElem?_markPadding_outside result (Or.inl hi)]
    exact kept_of_rewrite hfit hcount h hinput (by omega) (mem_placesOf_code hi (by omega) (by omega))
  have hsuffixAt : ∀ i, returnIndex + 1 + oldPadding ≤ i → ∀ input,
      artifact.lockingScript[i]? = some input →
      ∃ output, (markPadding result returnIndex padding).lockingScript[returnIndex + 1 + padding.length +
          (i - (returnIndex + 1 + oldPadding))]? = some output ∧
        Kept artifact.lockingScript input output := by
    intro i hi input hinput
    have hlt := (List.getElem?_eq_some_iff.1 hinput).1
    rw [getElem?_markPadding_outside result (Or.inr (Nat.le_add_right _ _))]
    exact kept_of_rewrite hfit hcount h hinput (by omega) (mem_placesOf_suffix hi hlt (by omega))
  refine ⟨hmarked, ?_, ?_, ?_⟩
  · rw [hsize, Nat.add_sub_cancel_left]
    refine regions_of_places hregions ?_ ?_ ?_ ?_
    · have hlengths := congrArg List.length hmarked.exported
      rw [exportPreserving, List.length_map] at hlengths
      omega
    · intro i hi input hinput
      obtain ⟨output, houtput, hkept⟩ := hcodeAt i (by omega) input hinput
      exact ⟨output, houtput, hkept.region⟩
    · intro i hi hlt
      exact region_markPadding result hpadding hi hlt (by omega)
    · intro i hi input hinput
      obtain ⟨output, houtput, hkept⟩ := hsuffixAt _ (Nat.le_add_right _ i) input hinput
      rw [Nat.add_sub_cancel_left] at houtput
      exact ⟨output, houtput, hkept.region⟩
  · intro i hi input output hinput houtput
    obtain ⟨output', houtput', hkept⟩ := hcodeAt i hi input hinput
    obtain rfl := Option.some.inj (houtput.symm.trans houtput')
    exact hkept
  · intro i hi input output hinput houtput
    obtain ⟨output', houtput', hkept⟩ := hsuffixAt i hi input hinput
    obtain rfl := Option.some.inj (houtput.symm.trans houtput')
    exact hkept

end Typed

/-! ### The layout as a whole -/

section Layout

open ApcDebug.DebugInfo (remapped_spec)
open BytecodeArtifactRewriter (InStep NumbersFit rewrite scanArtifact)
open ScriptCodec (hexToBytes)

/-- What stands between the code and the suffix: nothing, or one push. -/
def IsPadding (padding : List String) (encoding : Bytes) : Prop :=
  (padding = [] ∧ encoding = []) ∨
    ∃ text payload, padding = [text] ∧ hexToBytes text = .ok encoding ∧
      InstructionGrammar encoding (.pushData payload)

/-- **What a layout is.**  The code is the old one with its labels spelled out, a padding of less than 64
bytes fills it up to a multiple of 64, and the old suffix follows.  The typed script and the debug
information are those of the new text. -/
structure LaidOut (data result : LayoutData) (returnIndex : ℕ) (sized : List (ℕ × String))
    (padding : List String) : Prop where
  lengths : result.selfPlaceholderLengths = data.selfPlaceholderLengths
  found : returnIndexOf data.instrs data.artifact = some returnIndex
  counted : countBytes (data.instrs.take (returnIndex + 1)) data.selfPlaceholderLengths = .ok sized
  instrs : result.instrs = data.finalized returnIndex (sized.map (·.2)) padding
  aligned : ∃ encoding, IsPadding padding encoding ∧ encoding.length < 64 ∧
    64 ∣ (sized.map (·.1)).sum + encoding.length
  untyped : data.artifact = none → result.artifact = none
  typed : ∀ artifact, data.artifact = some artifact → (∀ i ∈ artifact.lockingScript, NumbersFit i) →
    ∃ artifact', result.artifact = some artifact' ∧ artifact'.format = artifact.format ∧
      InStep artifact' result.instrs ∧
      TypedLayout artifact.lockingScript artifact'.lockingScript returnIndex
        (oldPaddingEnd data.artifact returnIndex) padding.length
  undebugged : data.debugInfo = none → result.debugInfo = none
  debugged : ∀ info, data.debugInfo = some info → info.Valid → info.Small →
    ∃ moved, result.debugInfo = some (moved.syncInstructionOpcodes result.instrs) ∧
      info.Remapped (data.places returnIndex padding) result.instrs.length [] moved

/-- Why a script is not laid out: it is empty, its typed script has another length, its executable part
does not end with `OP_RETURN`, an atom in front of that has no size, or the typed script or the debug
information cannot be moved along. -/
inductive Refused (data : LayoutData) : Prop
  | empty : data.instrs = [] → Refused data
  | length {artifact : BytecodeArtifact} : data.artifact = some artifact →
      artifact.lockingScript.length ≠ data.instrs.length → Refused data
  | noReturn : returnIndexOf data.instrs data.artifact = none → Refused data
  | noSize {returnIndex : ℕ} {failure : SizeFailure} :
      returnIndexOf data.instrs data.artifact = some returnIndex →
      countBytes (data.instrs.take (returnIndex + 1)) data.selfPlaceholderLengths = .error failure →
      Refused data
  | typed {returnIndex : ℕ} {sized : List (ℕ × String)} {artifact : BytecodeArtifact} {message : String} :
      returnIndexOf data.instrs data.artifact = some returnIndex →
      countBytes (data.instrs.take (returnIndex + 1)) data.selfPlaceholderLengths = .ok sized →
      data.artifact = some artifact →
      rewrite artifact (data.finalized returnIndex (sized.map (·.2)) (paddingFor sized))
        (reverseMapping (data.places returnIndex (paddingFor sized))
          (data.finalized returnIndex (sized.map (·.2)) (paddingFor sized)).length) = .error message →
      Refused data
  | debugged {returnIndex : ℕ} {sized : List (ℕ × String)} {info : DebugInfo} :
      returnIndexOf data.instrs data.artifact = some returnIndex →
      countBytes (data.instrs.take (returnIndex + 1)) data.selfPlaceholderLengths = .ok sized →
      data.debugInfo = some info →
      info.remapped (data.places returnIndex (paddingFor sized))
        (data.finalized returnIndex (sized.map (·.2)) (paddingFor sized)).length [] = none →
      Refused data

variable {instrs : List String} {sized : List (ℕ × String)} {returnIndex : ℕ} {data : LayoutData}

theorem countBytes_cons {instr : String} {placeholderLengths : PlaceholderLengthMap}
    (h : countBytes (instr :: instrs) placeholderLengths = .ok sized) :
    ∃ first rest, instructionBytes instr placeholderLengths = .ok first ∧
      countBytes instrs placeholderLengths = .ok rest ∧ sized = first :: rest := by
  rw [countBytes, List.mapM_cons] at h
  cases hfirst : instructionBytes instr placeholderLengths with
  | error failure => simp [hfirst, bind, Except.bind] at h
  | ok first =>
      cases hrest : instrs.mapM fun instr => instructionBytes instr placeholderLengths with
      | error failure => simp [hfirst, hrest, bind, Except.bind] at h
      | ok rest =>
          simp only [hfirst, hrest, bind, Except.bind, pure, Except.pure] at h
          exact ⟨first, rest, rfl, hrest, (Except.ok.inj h).symm⟩

theorem length_of_countBytes {placeholderLengths : PlaceholderLengthMap}
    (h : countBytes instrs placeholderLengths = .ok sized) :
    sized.length = instrs.length := by
  induction instrs generalizing sized with
  | nil =>
      obtain rfl := Except.ok.inj h
      rfl
  | cons instr instrs ih =>
      obtain ⟨first, rest, -, hrest, rfl⟩ := countBytes_cons h
      rw [List.length_cons, List.length_cons, ih hrest]

/-- The place of `OP_RETURN` is a place of the script. -/
theorem returnIndexOf_lt {artifact : Option BytecodeArtifact}
    (hlength : ∀ typed, artifact = some typed → typed.lockingScript.length = instrs.length)
    (h : returnIndexOf instrs artifact = some returnIndex) : returnIndex < instrs.length := by
  cases artifact with
  | none =>
      obtain ⟨i, hi, rfl⟩ := Option.map_eq_some_iff.1 h
      obtain ⟨hlt, -⟩ := List.findIdx?_eq_some_iff_getElem.1 hi
      rw [List.length_reverse] at hlt
      omega
  | some typed =>
      obtain ⟨_, _, _, instruction, hinstruction, -⟩ := typedReturnIndex_spec h
      rw [← hlength typed rfl]
      exact (List.getElem?_eq_some_iff.1 hinstruction).1

theorem eq_ok_of_toOption {α : Type} {result : Except String α} {a : α}
    (h : result.toOption = some a) : result = .ok a := by
  cases result with
  | error message => cases h
  | ok b => exact congrArg Except.ok (Option.some.inj h)

theorem format_markPadding (artifact : BytecodeArtifact) (returnIndex : ℕ) (padding : List String) :
    (markPadding artifact returnIndex padding).format = artifact.format := by
  cases padding <;> rfl

/-- The rewriter keeps the format. -/
theorem format_of_rewrite {artifact result : BytecodeArtifact} {padding : List String}
    {newToOld : List (List ℕ)} (h : rewrite artifact instrs newToOld = .ok result) :
    (markPadding result returnIndex padding).format = artifact.format := by
  rw [format_markPadding]
  unfold rewrite at h
  split_ifs at h
  cases hscan : scanArtifact artifact.lockingScript with
  | error message => simp [hscan, bind, Except.bind] at h
  | ok scan =>
      simp only [hscan, bind, Except.bind] at h
      split at h
      · cases h
      · rw [← Except.ok.inj h]

/-- **A layout that goes through.** -/
theorem laidOut_of_layOut {result : LayoutData} (hlength : ∀ typed, data.artifact = some typed →
      typed.lockingScript.length = data.instrs.length)
    (hfound : returnIndexOf data.instrs data.artifact = some returnIndex)
    (hcounted : countBytes (data.instrs.take (returnIndex + 1)) data.selfPlaceholderLengths = .ok sized)
    (h : data.layOut returnIndex (sized.map (·.2)) (paddingFor sized) = some result) :
    LaidOut data result returnIndex sized (paddingFor sized) := by
  obtain ⟨halign, hdvd⟩ := bytesToAlign_spec (sized.map (·.1)).sum
  have hlt := returnIndexOf_lt hlength hfound
  have hcode : (sized.map (·.2)).length = returnIndex + 1 := by
    rw [List.length_map, length_of_countBytes hcounted, List.length_take, min_eq_left hlt]
  have hshape := paddingInstrs_spec halign
  unfold paddingFor at h ⊢
  generalize paddingInstrs (bytesToAlign (sized.map (·.1)).sum 64) = padding at h hshape ⊢
  have hone : padding.length ≤ 1 := by
    rcases hshape with ⟨rfl, -⟩ | ⟨text, encoding, rfl, -⟩ <;> simp
  unfold LayoutData.layOut at h
  obtain ⟨artifact, hartifact, h⟩ := Option.bind_eq_some_iff.1 h
  obtain ⟨debugInfo, hdebug, h⟩ := Option.bind_eq_some_iff.1 h
  obtain rfl := Option.some.inj h
  refine ⟨rfl, hfound, hcounted, rfl, ?_, ?_, ?_, ?_, ?_⟩
  · rcases hshape with ⟨rfl, hzero⟩ | ⟨text, encoding, rfl, hbytes, hsize, hgrammar⟩
    · exact ⟨[], Or.inl ⟨rfl, rfl⟩, by simp, by simpa [hzero] using hdvd⟩
    · exact ⟨encoding, Or.inr ⟨text, _, rfl, hbytes, hgrammar⟩, hsize ▸ halign, hsize ▸ hdvd⟩
  · intro hnone
    rw [hnone] at hartifact
    obtain rfl := Option.some.inj hartifact
    rfl
  · intro typed htyped hfit
    have hsizes := hlength typed htyped
    rw [htyped] at hartifact hfound
    obtain ⟨rewritten, hrewritten, rfl⟩ := Option.map_eq_some_iff.1 hartifact
    have hrewrite := eq_ok_of_toOption hrewritten
    obtain ⟨oldPadding, suffixLength, hregions, -⟩ := typedReturnIndex_spec hfound
    have hend := oldPaddingEnd_of_threeParts hregions
    have hsum := congrArg List.length hregions
    rw [List.length_map, hsizes, length_threeParts] at hsum
    have hsuffix : (data.instrs.drop (returnIndex + 1 + oldPadding)).length = suffixLength := by
      rw [List.length_drop]
      omega
    simp only [LayoutData.finalized, LayoutData.places, htyped, hend] at hrewrite ⊢
    rw [← hsizes] at hrewrite
    obtain ⟨hstep, hlayout⟩ := typedLayout_of_rewrite hfit hregions hcode hsuffix hone hrewrite
    exact ⟨_, rfl, format_of_rewrite hrewrite, hstep, hlayout⟩
  · intro hnone
    rw [hnone] at hdebug
    obtain rfl := Option.some.inj hdebug
    rfl
  · intro info hinfo hvalid hsmall
    rw [hinfo] at hdebug
    obtain ⟨moved, hmoved, rfl⟩ := Option.map_eq_some_iff.1 hdebug
    exact ⟨moved, rfl, remapped_spec hvalid hsmall hmoved⟩

/-- A layout that does not go through is refused. -/
theorem refused_of_layOut (hfound : returnIndexOf data.instrs data.artifact = some returnIndex)
    (hcounted : countBytes (data.instrs.take (returnIndex + 1)) data.selfPlaceholderLengths = .ok sized)
    (h : data.layOut returnIndex (sized.map (·.2)) (paddingFor sized) = none) : Refused data := by
  unfold LayoutData.layOut at h
  cases hartifact : Peephole.applyArtifactRewrite data.artifact
      (data.finalized returnIndex (sized.map (·.2)) (paddingFor sized))
      (reverseMapping (data.places returnIndex (paddingFor sized))
        (data.finalized returnIndex (sized.map (·.2)) (paddingFor sized)).length) with
  | none =>
      cases htyped : data.artifact with
      | none => simp [Peephole.applyArtifactRewrite, htyped] at hartifact
      | some typed =>
          rw [htyped] at hartifact
          have hnone := Option.map_eq_none_iff.1 hartifact
          cases hresult : rewrite typed (data.finalized returnIndex (sized.map (·.2)) (paddingFor sized))
              (reverseMapping (data.places returnIndex (paddingFor sized))
                (data.finalized returnIndex (sized.map (·.2)) (paddingFor sized)).length) with
          | error message => exact .typed hfound hcounted htyped hresult
          | ok other =>
              rw [hresult] at hnone
              cases hnone
  | some artifact =>
      simp only [hartifact, Option.bind_eq_bind, Option.bind_some] at h
      cases hinfo : data.debugInfo with
      | none => simp [Peephole.moveDebugInfo, hinfo] at h
      | some info =>
          refine .debugged hfound hcounted hinfo ?_
          simpa [Peephole.moveDebugInfo, hinfo, ← Option.eq_none_iff_forall_ne_some] using h

theorem length_of_not_any
    (h : ¬ data.artifact.any (fun typed => typed.lockingScript.length ≠ data.instrs.length) = true) :
    ∀ typed, data.artifact = some typed → typed.lockingScript.length = data.instrs.length := by
  intro typed htyped
  by_contra hne
  exact h (by simp [htyped, hne])

/-- What the pass does: it changes nothing, leaves a canonical template for later, or lays the script
out. -/
theorem LayoutData.execute_cases (data : LayoutData) :
    (Refused data ∧ data.execute.1 = data) ∨
      (∃ artifact, data.artifact = some artifact ∧ artifact.format = .canonicalV2 ∧
        data.execute.1 = data.deferLayout artifact) ∨
      ∃ returnIndex sized,
        (∀ typed, data.artifact = some typed → typed.format ≠ .canonicalV2) ∧
        (∀ typed, data.artifact = some typed → typed.lockingScript.length = data.instrs.length) ∧
        returnIndexOf data.instrs data.artifact = some returnIndex ∧
        countBytes (data.instrs.take (returnIndex + 1)) data.selfPlaceholderLengths = .ok sized ∧
        data.layOut returnIndex (sized.map (·.2)) (paddingFor sized) = some data.execute.1 := by
  unfold LayoutData.execute
  by_cases hempty : data.instrs.isEmpty = true
  · rw [if_pos hempty]
    exact Or.inl ⟨.empty (by simpa using hempty), rfl⟩
  rw [if_neg hempty]
  cases hcanonical : data.artifact.filter (·.format = .canonicalV2) with
  | some artifact =>
      rw [Option.filter_eq_some_iff] at hcanonical
      exact Or.inr (Or.inl ⟨artifact, hcanonical.1, by simpa using hcanonical.2, rfl⟩)
  | none =>
      dsimp only
      by_cases hlengths : data.artifact.any
          (fun typed => typed.lockingScript.length ≠ data.instrs.length) = true
      · rw [if_pos hlengths]
        obtain ⟨typed, htyped, hne⟩ := (Option.any_eq_true _ _).1 hlengths
        exact Or.inl ⟨.length htyped (by simpa using hne), rfl⟩
      rw [if_neg hlengths]
      cases hfound : returnIndexOf data.instrs data.artifact with
      | none => exact Or.inl ⟨.noReturn hfound, rfl⟩
      | some returnIndex =>
          dsimp only
          cases hcounted : countBytes (data.instrs.take (returnIndex + 1))
              data.selfPlaceholderLengths with
          | error failure => exact Or.inl ⟨.noSize hfound hcounted, rfl⟩
          | ok sized =>
              dsimp only
              cases hresult : data.layOut returnIndex (sized.map (·.2)) (paddingFor sized) with
              | none => exact Or.inl ⟨refused_of_layOut hfound hcounted hresult, rfl⟩
              | some result =>
                  refine Or.inr (Or.inr ⟨returnIndex, sized, fun typed htyped hformat => ?_,
                    length_of_not_any hlengths, rfl, hcounted, hresult⟩)
                  rw [htyped, Option.filter_some, if_pos (by simpa using hformat)] at hcanonical
                  cases hcanonical

/-- **A script is laid out as a whole or not at all.**  Where it is refused nothing is changed, a
canonical template is left for later, and otherwise atoms, typed script and debug information are laid
out together. -/
theorem LayoutData.execute_layout (data : LayoutData) :
    (Refused data ∧ data.execute.1 = data) ∨
      (∃ artifact, data.artifact = some artifact ∧ artifact.format = .canonicalV2 ∧
        data.execute.1 = data.deferLayout artifact) ∨
      ∃ returnIndex sized padding, LaidOut data data.execute.1 returnIndex sized padding := by
  rcases data.execute_cases with h | h | ⟨returnIndex, sized, -, hlength, hfound, hcounted, hresult⟩
  · exact Or.inl h
  · exact Or.inr (Or.inl h)
  · exact Or.inr (Or.inr ⟨returnIndex, sized, _, laidOut_of_layOut hlength hfound hcounted hresult⟩)

end Layout

end AtomicProof.BytecodeFinalizePass
