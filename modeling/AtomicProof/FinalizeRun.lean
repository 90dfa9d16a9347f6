/-
What the final layout does to a script, when it is run once more and when the script is run.

The pass appends lengths to labels and puts a push behind `OP_RETURN`.  Both could be read again in
another way: a label by its spelling, and the push as something that follows the executable part.  A
typed script tells the padding from what follows it, and a label that has the same size under its
spelling is left alone; then a second run finds the same code and fills it up by the same padding.  When
the script is run, the padding is never reached: `OP_RETURN` ends the run, and in a branch that is not
taken a push does nothing.

Main definitions:

* `SizesKept` — every label has the same size under its spelling;
* `SpelledAlike` — the surroundings do not tell a label from its spelling;
* `TextAgrees` — the typed script tells the truth about `OP_RETURN` and the padding.

Main results:

* `instructionBytes_again`, `countBytes_again` — spelled code is sized as the code;
* `LayoutData.execute_twice` — **a second run writes the same atoms and regions**;
* `execAtom_spelled`, `final_pushes` — spelled atoms and padding in a run;
* `LayoutData.execute_outcome` — **the layout does not change what a script does**.
-/

import AtomicProof.FinalizePass

set_option autoImplicit false

namespace AtomicProof.BytecodeFinalizePass

open LegacyBytecodeAdapter (parseExecutableAtom)

/-! ### A second run -/

section Twice

open BytecodeArtifactRewriter (NumbersFit)
open IfTail (isPureHex normalizeHex)

def labelsOf (placeholderLengths : PlaceholderLengthMap) (instr : String) : List String :=
  match scan placeholderLengths (splitHexPrefix instr.toList).2 with
  | .ok found => found.labels
  | .error _ => []

/-- Every label of the atoms has the same size under its spelling. -/
def SizesKept (placeholderLengths : PlaceholderLengthMap) (instrs : List String) : Prop :=
  ∀ instr ∈ instrs, ∀ label ∈ labelsOf placeholderLengths instr,
    selfPlaceholderPayloadLength (normalizedLabel placeholderLengths label) placeholderLengths =
      selfPlaceholderPayloadLength label placeholderLengths

instance (placeholderLengths : PlaceholderLengthMap) (instrs : List String) :
    Decidable (SizesKept placeholderLengths instrs) :=
  inferInstanceAs (Decidable (∀ instr ∈ instrs, ∀ label ∈ labelsOf placeholderLengths instr, _ = _))

variable {placeholderLengths : PlaceholderLengthMap}

theorem splitHexPrefix_append (chars : List Char) :
    (splitHexPrefix chars).1 ++ (splitHexPrefix chars).2 = chars := by
  unfold splitHexPrefix
  split <;> rfl

theorem splitHexPrefix_cases (chars : List Char) :
    (splitHexPrefix chars).1 = [] ∨ (splitHexPrefix chars).1 = ['0', 'x'] ∨
      (splitHexPrefix chars).1 = ['0', 'X'] := by
  unfold splitHexPrefix
  split <;> simp

/-- A text that can be sized begins with no `0x`. -/
theorem Scans.splitHexPrefix {cs : List Char} {found : Scan} (h : Scans placeholderLengths cs found) :
    splitHexPrefix cs = ([], cs) := by
  cases h with
  | nil => rfl
  | label _ _ _ => rfl
  | @digits digits rest found hne hall heven _ _ =>
      match digits, hne, hall, heven with
      | c :: d :: digits, _, hall, _ =>
          have hd := hall d (by simp)
          unfold BytecodeFinalizePass.splitHexPrefix
          split
          · rename_i heq
            obtain ⟨-, rfl, -⟩ : c = '0' ∧ d = 'x' ∧ _ := by simpa using heq
            exact absurd hd (by decide)
          · rename_i heq
            obtain ⟨-, rfl, -⟩ : c = '0' ∧ d = 'X' ∧ _ := by simpa using heq
            exact absurd hd (by decide)
          · rfl

theorem Scans.mem_rewritten {cs : List Char} {found : Scan} (h : Scans placeholderLengths cs found)
    (hlabels : found.labels ≠ []) : '<' ∈ found.rewritten := by
  induction h with
  | nil => exact absurd rfl hlabels
  | label _ _ _ _ => exact List.mem_cons_self
  | digits _ _ _ _ _ ih => exact List.mem_append_right _ (ih hlabels)

theorem snd_splitHexPrefix (chars : List Char) :
    (splitHexPrefix chars).2 = ScriptCodec.stripHexPrefix chars := by
  fun_cases splitHexPrefix chars with
  | case1 rest => rfl
  | case2 rest => rfl
  | case3 chars hlower hupper => rw [ScriptCodec.stripHexPrefix] <;> assumption

theorem not_isPureHex_of_mem {text : String} (h : '<' ∈ text.toList) : isPureHex text = false := by
  rw [← splitHexPrefix_append text.toList, List.mem_append] at h
  have hmem : '<' ∈ ScriptCodec.stripHexPrefix text.toList := by
    rw [← snd_splitHexPrefix]
    refine h.resolve_left fun hstart => ?_
    rcases splitHexPrefix_cases text.toList with heq | heq | heq <;> rw [heq] at hstart <;>
      exact absurd hstart (by decide)
  rw [← Bool.not_eq_true]
  intro hpure
  simp only [isPureHex, Bool.and_eq_true, List.all_eq_true, normalizeHex] at hpure
  exact absurd (hpure.2 _ (List.mem_map_of_mem hmem)) (by decide)

/-- The text of an instruction that is sized: as it is, or with its labels spelled out. -/
theorem instructionBytes_cases {value : String} {sized : ℕ × String}
    (h : instructionBytes value placeholderLengths = .ok sized) :
    sized.2 = value ∨ isIgnored value = false ∧ isPureHex value = false ∧
      ∃ found, Scans placeholderLengths (splitHexPrefix value.toList).2 found ∧ found.labels ≠ [] ∧
        sized = (found.total, String.ofList ((splitHexPrefix value.toList).1 ++ found.rewritten)) := by
  unfold instructionBytes at h
  split_ifs at h with hignored hpure
  · rw [← Except.ok.inj h]
    exact Or.inl rfl
  · rw [← Except.ok.inj h]
    exact Or.inl rfl
  · rw [Bool.not_eq_true] at hignored hpure
    refine Or.inr ⟨hignored, hpure, ?_⟩
    cases hscan : scan placeholderLengths (splitHexPrefix value.toList).2 with
    | error failure => simp [hscan, bind, Except.bind] at h
    | ok found =>
        simp only [hscan, bind, Except.bind] at h
        split_ifs at h with hlabels
        exact ⟨found, scans_of_scan _ le_rfl hscan, hlabels, (Except.ok.inj h).symm⟩

theorem splitHexPrefix_rewritten (chars : List Char) {rewritten : List Char}
    (h : splitHexPrefix rewritten = ([], rewritten)) :
    splitHexPrefix ((splitHexPrefix chars).1 ++ rewritten) =
      ((splitHexPrefix chars).1, rewritten) := by
  rcases splitHexPrefix_cases chars with hstart | hstart | hstart <;> rw [hstart]
  · exact h
  · rfl
  · rfl

/-- **A spelled text is sized as the text, and left as it is.** -/
theorem instructionBytes_again {value : String} {sized : ℕ × String}
    (h : instructionBytes value placeholderLengths = .ok sized)
    (hkept : SizesKept placeholderLengths [value]) :
    instructionBytes sized.2 placeholderLengths = .ok sized := by
  rcases instructionBytes_cases h with hsame | ⟨hignored, -, found, hscans, hlabels, rfl⟩
  · rw [hsame, h]
  have hall := hkept value (List.mem_singleton_self value)
  simp only [labelsOf, scan_of_scans hscans] at hall
  have hagain := hscans.rewritten hall
  have hparts := splitHexPrefix_rewritten value.toList hagain.splitHexPrefix
  have hpure : isPureHex (String.ofList ((splitHexPrefix value.toList).1 ++ found.rewritten)) = false := by
    refine not_isPureHex_of_mem ?_
    rw [String.toList_ofList]
    exact List.mem_append_right _ (hscans.mem_rewritten hlabels)
  have hhead : isIgnored (String.ofList ((splitHexPrefix value.toList).1 ++ found.rewritten)) = false := by
    rw [isIgnored, String.toList_ofList, List.head?_append, hscans.head_rewritten,
      ← List.head?_append, splitHexPrefix_append]
    exact hignored
  rw [instructionBytes, if_neg (by rw [hhead]; decide), if_neg (by rw [hpure]; decide)]
  simp only [String.toList_ofList, hparts, scan_of_scans hagain, bind, Except.bind, List.map_eq_nil_iff,
    if_neg hlabels]

/-- Spelled code is sized as the code, and left as it is. -/
theorem countBytes_again {instrs : List String} {sized : List (ℕ × String)}
    (h : countBytes instrs placeholderLengths = .ok sized)
    (hkept : SizesKept placeholderLengths instrs) :
    countBytes (sized.map (·.2)) placeholderLengths = .ok sized := by
  induction instrs generalizing sized with
  | nil =>
      obtain rfl := Except.ok.inj h
      rfl
  | cons instr instrs ih =>
      obtain ⟨first, rest, hfirst, hrest, rfl⟩ := countBytes_cons h
      have hagain := instructionBytes_again hfirst fun other hother =>
        hkept other (List.mem_singleton.1 hother ▸ List.mem_cons_self)
      have hrestAgain := ih hrest fun other hother => hkept other (List.mem_cons_of_mem _ hother)
      rw [countBytes] at hrestAgain
      rw [List.map_cons, countBytes, List.mapM_cons, hagain, hrestAgain]
      rfl

theorem parts_of_layOut {data result : LayoutData} {returnIndex : ℕ} {code padding : List String}
    (h : data.layOut returnIndex code padding = some result) :
    result.instrs = data.finalized returnIndex code padding ∧
      result.selfPlaceholderLengths = data.selfPlaceholderLengths := by
  unfold LayoutData.layOut at h
  obtain ⟨artifact, -, h⟩ := Option.bind_eq_some_iff.1 h
  obtain ⟨debugInfo, -, h⟩ := Option.bind_eq_some_iff.1 h
  rw [← Option.some.inj h]
  exact ⟨rfl, rfl⟩

/-- **A second run writes the same atoms and regions** where the typed script tells the padding from what
follows it: if every label has the same size under its spelling, a run that is not refused finds the same
code and fills it up by the same padding. -/
theorem LayoutData.execute_twice {data : LayoutData} {artifact : BytecodeArtifact}
    (hartifact : data.artifact = some artifact) (hfit : ∀ i ∈ artifact.lockingScript, NumbersFit i)
    (hkept : SizesKept data.selfPlaceholderLengths data.instrs) :
    data.execute.1.execute.1.instrs = data.execute.1.instrs ∧
      data.execute.1.execute.1.artifact.map (·.lockingScript.map (·.region)) =
        data.execute.1.artifact.map (·.lockingScript.map (·.region)) := by
  rcases data.execute_cases with ⟨-, hsame⟩ | ⟨typed, htyped, hformat, hdeferred⟩ |
    ⟨returnIndex, sized, -, hlength, hfound, hcounted, hresult⟩
  · rw [hsame, hsame]
    exact ⟨rfl, rfl⟩
  -- a template is left for later again
  · rcases data.execute.1.execute_cases with ⟨-, hsame⟩ | ⟨typed', htyped', -, hdeferred'⟩ |
      ⟨_, _, hnot, -⟩
    · rw [hsame]
      exact ⟨rfl, rfl⟩
    · rw [hdeferred', htyped']
      exact ⟨rfl, rfl⟩
    · rw [hdeferred] at hnot
      refine absurd ?_ (hnot _ rfl)
      exact hformat
  · have hlaid := laidOut_of_layOut hlength hfound hcounted hresult
    obtain ⟨first, hfirst, -, hstep, hlayout⟩ := hlaid.typed artifact hartifact hfit
    obtain ⟨hinstrs, hlengths⟩ := parts_of_layOut hresult
    rcases data.execute.1.execute_cases with ⟨-, hsame⟩ | ⟨typed', htyped', -, hdeferred⟩ |
      ⟨returnIndex', sized', -, hlength', hfound', hcounted', hresult'⟩
    · rw [hsame]
      exact ⟨rfl, rfl⟩
    · rw [hdeferred, htyped']
      exact ⟨rfl, rfl⟩
    · have hcode : (sized.map (·.2)).length = returnIndex + 1 := by
        rw [List.length_map, length_of_countBytes hcounted, List.length_take,
          min_eq_left (returnIndexOf_lt hlength hfound)]
      -- the same `OP_RETURN` is found
      obtain rfl : returnIndex' = returnIndex := by
        rw [hfirst] at hfound'
        have hlt : returnIndex < first.lockingScript.length := by
          have hsum := congrArg List.length hlayout.regions
          rw [List.length_map, length_threeParts] at hsum
          omega
        have hindex := typedReturnIndex_of_threeParts hlayout.regions (List.getElem?_eq_getElem hlt)
        rw [returnIndexOf, hindex] at hfound'
        split_ifs at hfound'
        exact (Option.some.inj hfound').symm
      -- its code has the same size
      obtain rfl : sized' = sized := by
        have hagain := countBytes_again hcounted fun instr hinstr => hkept instr (List.mem_of_mem_take hinstr)
        rw [hinstrs, hlengths, LayoutData.finalized, List.append_assoc, List.take_left' hcode,
          hagain] at hcounted'
        exact (Except.ok.inj hcounted').symm
      obtain ⟨hinstrs', -⟩ := parts_of_layOut hresult'
      have hend := oldPaddingEnd_of_threeParts hlayout.regions
      have hlaid' := laidOut_of_layOut hlength' hfound' hcounted' hresult'
      obtain ⟨second, hsecond, -, -, hlayout'⟩ := hlaid'.typed first hfirst hstep.numbers
      refine ⟨?_, ?_⟩
      · rw [hinstrs', LayoutData.finalized, hfirst, hend, hinstrs, LayoutData.finalized,
          List.drop_left' (by rw [List.length_append, hcode])]
      · rw [hsecond, hfirst, Option.map_some, Option.map_some, hlayout'.regions, hlayout.regions, hfirst,
          hend]
        have hsum := congrArg List.length hlayout.regions
        rw [List.length_map, length_threeParts] at hsum
        rw [hsum, Nat.add_sub_cancel_left]

/-- A placeholder of two bytes in front of `OP_RETURN`, old padding of one byte and a suffix. -/
def placeholderLayout : LayoutData where
  instrs := ["<self.x>", "6a", "00", "52"]
  artifact := some ⟨.legacyV1, [⟨1, .placeholderPush "self.x" (some 2), .executable, [], some "<self.x>"⟩,
    ⟨2, .opcode 0x6a, .executable, [], some "6a"⟩, ⟨3, .pushData [], .padding, [], some "00"⟩,
    ⟨4, .pushData [2], .immutableSuffix, [], some "52"⟩], [], [], ⟨none, false⟩⟩
  debugInfo := none
  selfPlaceholderLengths := ⟨[("self.x", 2)], by decide⟩

theorem LayoutData.execute_twice_placeholder :
    placeholderLayout.execute.1.instrs = ["<self.x2>", "6a", makePushPadding 60, "52"] ∧
      placeholderLayout.execute.1.execute.1.instrs = placeholderLayout.execute.1.instrs := by
  exact ⟨by decide +kernel, (LayoutData.execute_twice rfl (by decide) (by decide +kernel)).1⟩

end Twice

/-! ### The run -/

section Run

open IfTail (isPureHex normalizeHex)

variable {env : ScriptEnv} {placeholderLengths : PlaceholderLengthMap}
variable {text : String} {instrs : List String}

/-- The surroundings do not tell a label from its spelling. -/
structure SpelledAlike (env : ScriptEnv) (placeholderLengths : PlaceholderLengthMap) : Prop where
  placeholder : ∀ label size, selfPlaceholderPayloadLength label placeholderLengths = .ok size →
    env.placeholder (rewrittenLabel label size) = env.placeholder label
  barrier : ∀ text sized, instructionBytes text placeholderLengths = .ok sized →
    env.barrier sized.2 = env.barrier text

theorem completeInstruction_of_mem (h : '<' ∈ text.toList) : completeInstruction text = none := by
  have hpure := not_isPureHex_of_mem h
  unfold completeInstruction
  cases hbytes : ScriptCodec.hexToBytes text with
  | error failure => rfl
  | ok bytes =>
      rw [IfTail.isPureHex_of_hexToBytes hbytes] at hpure
      cases hpure

theorem placeholderLabel_ofList_cons {c : Char} (h : c ≠ '<') (rest : List Char) :
    placeholderLabel (String.ofList (c :: rest)) = none := by
  unfold placeholderLabel
  rw [String.toList_ofList]
  split
  · rename_i heq
    exact absurd (List.cons.inj heq).1 h
  · rfl

/-- One label, and what follows it. -/
theorem placeholderLabel_label {label : List Char} (hlabel : '>' ∉ label) (hne : label ≠ [])
    (rest : List Char) :
    placeholderLabel (String.ofList ('<' :: (label ++ '>' :: rest))) =
      if rest = [] ∧ '<' ∉ label then some (String.ofList label) else none := by
  unfold placeholderLabel
  rw [String.toList_ofList]
  cases rest with
  | nil =>
      have hpos : 0 < label.length := List.length_pos_iff.2 hne
      by_cases hmem : '<' ∈ label
      · simp [hmem]
      · simp [hmem, hlabel]
        omega
  | cons c rest => simp

theorem Scans.mem {cs : List Char} {found : Scan} (h : Scans placeholderLengths cs found)
    (hlabels : found.labels ≠ []) : '<' ∈ cs := by
  induction h with
  | nil => exact absurd rfl hlabels
  | label _ _ _ _ => exact List.mem_cons_self
  | digits _ _ _ _ _ ih => exact List.mem_append_right _ (ih hlabels)

theorem mem_rewrittenLabel_open (label : String) (size : ℕ) :
    '<' ∈ (rewrittenLabel label size).toList ↔ '<' ∈ label.toList := by
  unfold rewrittenLabel
  split_ifs
  · exact Iff.rfl
  · rw [String.toList_append, Nat.toString_eq_repr, Nat.toList_repr, List.mem_append]
    refine or_iff_left fun hmem => ?_
    exact absurd (Nat.isDigit_of_mem_toDigits (by decide) (by decide) hmem) (by decide)

/-- A spelled text stands for the data of the text. -/
theorem Scans.placeholderData {cs : List Char} {found : Scan}
    (h : Scans placeholderLengths cs found)
    (hplaceholder : ∀ label size, selfPlaceholderPayloadLength label placeholderLengths = .ok size →
      env.placeholder (rewrittenLabel label size) = env.placeholder label) :
    env.placeholderData (String.ofList found.rewritten) = env.placeholderData (String.ofList cs) := by
  cases h with
  | nil => rfl
  | @label label rest size found hlabel hsize hrest =>
      have hself := startsWith_of_sized hsize
      have hne : label ≠ [] := by
        rintro rfl
        exact absurd hself (by decide)
      have hrewritten : (rewrittenLabel (String.ofList label) size).toList ≠ [] := by
        unfold rewrittenLabel
        split_ifs <;> simp [hne]
      have hopen := mem_rewrittenLabel_open (String.ofList label) size
      rw [String.toList_ofList] at hopen
      have hclosed : '>' ∉ (rewrittenLabel (String.ofList label) size).toList :=
        not_mem_rewrittenLabel (by simpa using hlabel)
      have hnil : found.rewritten = [] ↔ rest = [] := by
        rw [← List.head?_eq_none_iff, hrest.head_rewritten, List.head?_eq_none_iff]
      rw [ScriptEnv.placeholderData, ScriptEnv.placeholderData, Scan.addLabel,
        placeholderLabel_label hclosed hrewritten, placeholderLabel_label hlabel hne]
      simp only [hnil, hopen, String.ofList_toList]
      split_ifs
      · exact hplaceholder _ _ hsize
      · rfl
  | @digits digits rest found hne hall _ _ _ =>
      obtain ⟨c, digits, rfl⟩ := List.exists_cons_of_ne_nil hne
      have hc : c ≠ '<' := by
        rintro rfl
        exact absurd (hall '<' List.mem_cons_self) (by decide)
      rw [ScriptEnv.placeholderData, ScriptEnv.placeholderData, Scan.addDigits, List.cons_append,
        List.cons_append, placeholderLabel_ofList_cons hc, placeholderLabel_ofList_cons hc]

/-- **A spelled atom does what the atom does.** -/
theorem execAtom_spelled (h : SpelledAlike env placeholderLengths) {sized : ℕ × String}
    (hsized : instructionBytes text placeholderLengths = .ok sized) (vm : VM) :
    execAtom env sized.2 vm = execAtom env text vm := by
  have hbarrier := h.barrier text sized hsized
  rcases instructionBytes_cases hsized with hsame | ⟨-, -, found, hscans, hlabels, rfl⟩
  · rw [hsame]
  have hparts := splitHexPrefix_append text.toList
  have hmem : '<' ∈ text.toList := by
    rw [← hparts]
    exact List.mem_append_right _ (hscans.mem hlabels)
  have hspelled : '<' ∈ (String.ofList ((splitHexPrefix text.toList).1 ++ found.rewritten)).toList := by
    rw [String.toList_ofList]
    exact List.mem_append_right _ (hscans.mem_rewritten hlabels)
  have hdata : env.placeholderData (String.ofList ((splitHexPrefix text.toList).1 ++ found.rewritten)) =
      env.placeholderData text := by
    rcases splitHexPrefix_cases text.toList with hstart | hstart
    · rw [hstart, List.nil_append] at hparts ⊢
      rw [hscans.placeholderData h.placeholder, hparts, String.ofList_toList]
    · have hzero : ∃ rest, (splitHexPrefix text.toList).1 = '0' :: rest := by
        rcases hstart with hstart | hstart <;> exact ⟨_, hstart⟩
      obtain ⟨rest, hstart⟩ := hzero
      have htext : text = String.ofList ('0' :: (rest ++ (splitHexPrefix text.toList).2)) := by
        rw [hstart, List.cons_append] at hparts
        rw [hparts, String.ofList_toList]
      rw [hstart, List.cons_append, ScriptEnv.placeholderData, ScriptEnv.placeholderData,
        placeholderLabel_ofList_cons (by decide)]
      conv_rhs => rw [htext]
      rw [placeholderLabel_ofList_cons (by decide)]
  unfold execAtom
  rw [completeInstruction_of_mem hmem, completeInstruction_of_mem hspelled, hdata, hbarrier]

/-- Spelled code does what the code does. -/
theorem final_spelled (h : SpelledAlike env placeholderLengths)
    {sized : List (ℕ × String)} (hcounted : countBytes instrs placeholderLengths = .ok sized) (vm : VM) :
    final env (sized.map (·.2)) vm = final env instrs vm := by
  induction instrs generalizing sized vm with
  | nil =>
      obtain rfl := Except.ok.inj hcounted
      rfl
  | cons instr instrs ih =>
      obtain ⟨first, rest, hfirst, hrest, rfl⟩ := countBytes_cons hcounted
      cases hfinished : vm.finished with
      | true => rw [final_of_finished hfinished, final_of_finished hfinished]
      | false =>
          rw [List.map_cons, final_cons hfinished, final_cons hfinished, execAtom_spelled h hfirst]
          exact congrArg _ (funext fun vm' => ih hrest vm')

def IsPush (text : String) : Prop := ∃ decoded, ScriptCodec.decodePushHex text false = .ok decoded

theorem isPush_of_grammar {encoding payload : Bytes}
    (hbytes : ScriptCodec.hexToBytes text = .ok encoding)
    (hgrammar : InstructionGrammar encoding (.pushData payload)) : IsPush text := by
  cases hgrammar with
  | @pushData form _ _ hpush =>
      refine ⟨⟨payload, form, encoding.length⟩, ?_⟩
      rw [ScriptCodec.decodePushHex, hbytes]
      exact ScriptCodec.decodePush_false_iff.2 ⟨hpush, rfl⟩

theorem isPush_paddingFor (sized : List (ℕ × String)) : ∀ text ∈ paddingFor sized, IsPush text := by
  intro text htext
  unfold paddingFor at htext
  rcases paddingInstrs_spec (bytesToAlign_spec (sized.map (·.1)).sum).1 with
    ⟨hnone, -⟩ | ⟨text', encoding, hone, hbytes, -, hgrammar⟩
  · rw [hnone] at htext
    cases htext
  · rw [hone, List.mem_singleton] at htext
    exact htext ▸ isPush_of_grammar hbytes hgrammar

theorem isPush_of_parse {payload : Bytes}
    (h : parseExecutableAtom text = .pushData payload) : IsPush text := by
  unfold LegacyBytecodeAdapter.parseExecutableAtom at h
  split at h
  · cases h
  · split at h
    · rename_i decoded hdecoded
      exact ⟨decoded, hdecoded⟩
    · split at h
      · split_ifs at h
      · cases h

theorem isSingleOpcode_of_parse (h : parseExecutableAtom text = .opcode BytOpcode.opReturn.toWord) :
    IfTail.isSingleOpcode text .opReturn = true := by
  unfold LegacyBytecodeAdapter.parseExecutableAtom at h
  split at h
  · cases h
  · split at h
    · cases h
    · split at h
      · rename_i byte hbyte
        split_ifs at h
        have hword : byte.toUInt16 = BytOpcode.opReturn.toByte.toUInt16 := InstructionBody.opcode.inj h
        rw [UInt8.toUInt16_inj] at hword
        exact IfTail.isSingleOpcode_of_hexToBytes (hword ▸ hbyte)
      · cases h

/-- A push does nothing in a branch that is not taken. -/
theorem IsPush.skip (h : IsPush text) {vm : VM} (hx : vm.isCurrentlyExecuting = false) :
    execAtom env text vm = .ok vm := by
  obtain ⟨decoded, hdecoded⟩ := h
  obtain ⟨instr, hinstr, hvalue⟩ := Peephole.decodePushHex_spec hdecoded
  have hplain : ∀ op operand, isConditional op = true → pushValue ⟨op.toByte, operand⟩ = none := by
    intro op operand hop
    cases op <;> first | rfl | cases hop
  obtain ⟨opcode, operand⟩ := instr
  simp only [execAtom, hinstr, executeOpcode, hx]
  cases hop : BytOpcode.ofByte? opcode with
  | none => rfl
  | some op =>
      obtain rfl := BytOpcode.toByte_of_ofByte? hop
      have hcond : isConditional op = false := by
        rw [← Bool.not_eq_true]
        intro hcond
        rw [hplain op operand hcond] at hvalue
        cases hvalue
      simp [hcond]

/-- Behind `OP_RETURN` the run is over, or the machine does not execute. -/
theorem over_of_return {front : List String}
    (hreturn : IfTail.isSingleOpcode text .opReturn = true) {vm vm' : VM}
    (h : final env (front ++ [text]) vm = some vm') :
    vm'.finished = true ∨ vm'.isCurrentlyExecuting = false := by
  rw [final_append] at h
  obtain ⟨middle, -, hlast⟩ := Option.bind_eq_some_iff.1 h
  cases hfinished : middle.finished with
  | true =>
      rw [final_of_finished hfinished] at hlast
      exact Or.inl (Option.some.inj hlast ▸ hfinished)
  | false =>
      have hinstr : completeInstruction text = some ⟨BytOpcode.opReturn.toByte, []⟩ := by
        rw [completeInstruction, IfTail.hexToBytes_of_isSingleOpcode hreturn]
        rfl
      rw [final_singleton hfinished, execAtom, hinstr] at hlast
      simp only [executeOpcode, BytOpcode.ofByte?_toByte] at hlast
      cases hx : middle.isCurrentlyExecuting with
      | true =>
          simp only [hx] at hlast
          obtain rfl := Option.some.inj hlast
          exact Or.inl rfl
      | false =>
          simp only [hx] at hlast
          obtain rfl := Option.some.inj hlast
          exact Or.inr hx

theorem final_pushes {pushes : List String} (hpushes : ∀ text ∈ pushes, IsPush text) {vm : VM}
    (h : vm.finished = true ∨ vm.isCurrentlyExecuting = false) (suffix : List String) :
    final env (pushes ++ suffix) vm = final env suffix vm := by
  induction pushes with
  | nil => rfl
  | cons text pushes ih =>
      cases hfinished : vm.finished with
      | true => rw [final_of_finished hfinished, final_of_finished hfinished]
      | false =>
          have hx := h.resolve_left (by rw [hfinished]; decide)
          rw [List.cons_append, final_cons hfinished, (hpushes text List.mem_cons_self).skip hx]
          exact ih fun other hother => hpushes other (List.mem_cons_of_mem _ hother)

/-- The typed script tells the truth about `OP_RETURN` and the padding. -/
structure TextAgrees (script : List BytecodeInstruction) (instrs : List String) : Prop where
  opReturn : ∀ (i : ℕ) (instruction : BytecodeInstruction) (text : String),
    script[i]? = some instruction → instrs[i]? = some text →
      instruction.body = .opcode BytOpcode.opReturn.toWord →
        parseExecutableAtom text = .opcode BytOpcode.opReturn.toWord
  padding : ∀ (i : ℕ) (instruction : BytecodeInstruction) (text : String),
    script[i]? = some instruction → instrs[i]? = some text →
      instruction.region = .padding → ∃ payload, parseExecutableAtom text = .pushData payload

/-- The atom that is found is `OP_RETURN`. -/
theorem isSingleOpcode_returnIndexOf {artifact : Option BytecodeArtifact}
    (hagrees : ∀ typed, artifact = some typed → TextAgrees typed.lockingScript instrs)
    {returnIndex : ℕ} (hfound : returnIndexOf instrs artifact = some returnIndex)
    (hlt : returnIndex < instrs.length) : IfTail.isSingleOpcode instrs[returnIndex] .opReturn = true := by
  cases artifact with
  | none =>
      obtain ⟨i, hi, rfl⟩ := Option.map_eq_some_iff.1 hfound
      obtain ⟨_, hreturn, -⟩ := List.findIdx?_eq_some_iff_getElem.1 hi
      rwa [List.getElem_reverse] at hreturn
  | some typed =>
      obtain ⟨_, _, _, instruction, hinstruction, hbody⟩ := typedReturnIndex_spec hfound
      exact isSingleOpcode_of_parse ((hagrees typed rfl).opReturn returnIndex instruction _
        hinstruction (List.getElem?_eq_getElem hlt) hbody)

/-- What stands between `OP_RETURN` and the suffix is padding. -/
theorem isPush_oldPadding {artifact : Option BytecodeArtifact}
    (hagrees : ∀ typed, artifact = some typed → TextAgrees typed.lockingScript instrs)
    {returnIndex : ℕ} (hfound : returnIndexOf instrs artifact = some returnIndex) :
    ∀ text ∈ (instrs.drop (returnIndex + 1)).take (oldPaddingEnd artifact returnIndex - (returnIndex + 1)),
      IsPush text := by
  intro text htext
  cases artifact with
  | none => simp [oldPaddingEnd] at htext
  | some typed =>
      obtain ⟨oldPadding, suffixLength, hregions, -⟩ := typedReturnIndex_spec hfound
      rw [oldPaddingEnd_of_threeParts hregions, Nat.add_sub_cancel_left] at htext
      obtain ⟨i, hi⟩ := List.getElem?_of_mem htext
      rw [List.getElem?_take] at hi
      split_ifs at hi with hlt
      rw [List.getElem?_drop] at hi
      have hregion : (typed.lockingScript.map (·.region))[returnIndex + 1 + i]? = some .padding := by
        rw [hregions, getElem?_threeParts, if_neg (by omega), if_pos (by omega)]
      rw [List.getElem?_map, Option.map_eq_some_iff] at hregion
      obtain ⟨instruction, hinstruction, hpadding⟩ := hregion
      obtain ⟨payload, hparse⟩ := (hagrees typed rfl).padding _ _ _ hinstruction hi hpadding
      exact isPush_of_parse hparse

/-- **The layout does not change what a script does**, in surroundings that give a label and its spelling
the same data: the padding stands behind `OP_RETURN`, and in a branch that is not taken a push does
nothing. -/
theorem LayoutData.execute_outcome (env : ScriptEnv) (data : LayoutData)
    (halike : SpelledAlike env data.selfPlaceholderLengths)
    (hagrees : ∀ artifact, data.artifact = some artifact → TextAgrees artifact.lockingScript data.instrs)
    (main alt : Stack) :
    outcome env data.execute.1.instrs main alt = outcome env data.instrs main alt := by
  rcases data.execute_cases with ⟨-, hsame⟩ | ⟨_, -, -, hdeferred⟩ |
    ⟨returnIndex, sized, -, hlength, hfound, hcounted, hresult⟩
  · rw [hsame]
  · rw [hdeferred]
    rfl
  · have hlt := returnIndexOf_lt hlength hfound
    have hend : returnIndex + 1 ≤ oldPaddingEnd data.artifact returnIndex := by
      unfold oldPaddingEnd
      split <;> omega
    have hold : data.instrs = data.instrs.take (returnIndex + 1) ++
        ((data.instrs.drop (returnIndex + 1)).take
          (oldPaddingEnd data.artifact returnIndex - (returnIndex + 1)) ++
            data.instrs.drop (oldPaddingEnd data.artifact returnIndex)) := by
      have hrest := List.take_append_drop (oldPaddingEnd data.artifact returnIndex - (returnIndex + 1))
        (data.instrs.drop (returnIndex + 1))
      rw [List.drop_drop, Nat.add_sub_cancel' hend] at hrest
      rw [hrest, List.take_append_drop]
    have hcode : data.instrs.take (returnIndex + 1) =
        data.instrs.take returnIndex ++ [data.instrs[returnIndex]] :=
      (List.take_append_getElem hlt).symm
    unfold outcome
    rw [(parts_of_layOut hresult).1, LayoutData.finalized, List.append_assoc, final_append,
      final_spelled halike hcounted]
    conv_rhs => rw [hold, final_append]
    congr 1
    cases hrun : final env (data.instrs.take (returnIndex + 1)) { main, alt } with
    | none => rfl
    | some vm =>
        rw [hcode] at hrun
        have hover := over_of_return (isSingleOpcode_returnIndexOf hagrees hfound hlt) hrun
        rw [Option.bind_some, Option.bind_some, final_pushes (isPush_paddingFor sized) hover,
          final_pushes (isPush_oldPadding hagrees hfound) hover]

/-- A placeholder in front of `OP_RETURN`, where old padding of one byte makes room for new padding. -/
theorem LayoutData.execute_outcome_placeholder :
    let env : ScriptEnv := { ScriptEnv.plain with placeholder _ := some [0x01, 0x02] }
    placeholderLayout.execute.1.instrs = ["<self.x2>", "6a", makePushPadding 60, "52"] ∧
      ∀ main alt, outcome env placeholderLayout.execute.1.instrs main alt =
        outcome env ["<self.x>", "6a", "00", "52"] main alt := by
  refine ⟨by decide +kernel, LayoutData.execute_outcome _ placeholderLayout
    ⟨fun _ _ _ => rfl, fun _ _ _ => rfl⟩ ?_⟩
  intro artifact hartifact
  obtain rfl := Option.some.inj hartifact
  constructor
  · intro i instruction text hinstruction htext hbody
    rcases i with _ | _ | _ | _ | i
    · cases hinstruction
      cases hbody
    · cases htext
      decide +kernel
    · cases hinstruction
      cases hbody
    · cases hinstruction
      cases hbody
    · cases hinstruction
  · intro i instruction text hinstruction htext hregion
    rcases i with _ | _ | _ | _ | i
    · cases hinstruction
      cases hregion
    · cases hinstruction
      cases hregion
    · cases htext
      exact ⟨[], by decide +kernel⟩
    · cases hinstruction
      cases hregion
    · cases hinstruction

end Run

end AtomicProof.BytecodeFinalizePass
