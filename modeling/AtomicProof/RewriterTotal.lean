/-
The rewriter on a map of single places.

A pass that keeps or replaces instructions one by one gives every new instruction exactly one source.
`BytecodeArtifactRewriter::rewrite` refuses an artifact with repeated identities or with two sizes for
one label; of any other it makes the new script for such a table, and the new script is again one that
it does not refuse.

Main definitions:

* `Consistent` — a typed script that is the text of a list of atoms and that the rewriter does not
  refuse;
* `rewritten` — the new instruction of a single source;
* `InStep` — a typed script that is the text of a list of atoms.

Main results:

* `scanArtifact_ok` — a consistent script is not refused;
* `rewriteOutputs_single` — what is written for single sources;
* `inStep_of_rewrite` — what is made is the text of the new atoms;
* `rewrite_single` — **the rewriter does not fail on single sources, and what it makes is consistent**.
-/

import AtomicProof.ArtifactRewriter

set_option autoImplicit false

namespace AtomicProof.BytecodeArtifactRewriter

open LegacyBytecodeAdapter (importLegacy serializeInstructionPreserving exportPreserving)

/-! ### Consistent scripts -/

/-- No two placeholders give different sizes to one label. -/
def SizesAgree (script : List BytecodeInstruction) : Prop :=
  ∀ label, ∀ i ∈ script, ∀ j ∈ script, ∀ size size',
    sizeGiven label i = some size → sizeGiven label j = some size' → size = size'

/-- A typed script that is the text of a list of atoms, with distinct identities and one size for every
label.  Its numbers are numbers of their types. -/
structure Consistent (artifact : BytecodeArtifact) (instrs : List String) : Prop where
  exported : (exportPreserving artifact).1 = instrs
  numbers : ∀ i ∈ artifact.lockingScript, NumbersFit i
  ids : (artifact.lockingScript.map (·.id)).Nodup
  sizes : SizesAgree artifact.lockingScript

variable {instrs : List String} {old : List BytecodeInstruction} {pcs : List ℕ}
  {result : BytecodeArtifact} {newToOld : List (List ℕ)}

theorem Consistent.length {artifact : BytecodeArtifact}
    (h : Consistent artifact instrs) : artifact.lockingScript.length = instrs.length := by
  have hlength := congrArg List.length h.exported
  rwa [exportPreserving, List.length_map] at hlength

/-- One more instruction of a consistent script is not refused. -/
theorem scanInstruction_ok {done : List BytecodeInstruction} {scan : Scan}
    (h : Scanned done scan) {instruction : BytecodeInstruction}
    (hid : instruction.id ∉ done.map (·.id)) (hsizes : SizesAgree (done ++ [instruction])) :
    ∃ scan', scanInstruction scan instruction = .ok scan' := by
  have hcontains : scan.oldInstructionIds.contains instruction.id = false := by
    rw [← Bool.not_eq_true, List.contains_iff_mem, h.mem_ids]
    exact hid
  unfold scanInstruction
  rw [hcontains]
  cases hbody : instruction.body with
  | placeholderPush label size =>
      have hrecord : ∃ knownSizes, recordSize scan.knownSizes label size = some knownSizes := by
        unfold recordSize
        rw [h.sizes label]
        by_cases hany : done.any (mentions label) = true
        · rw [if_pos hany]
          cases hknown : knownSize done label with
          | none => exact ⟨_, rfl⟩
          | some known =>
              cases size with
              | none => exact ⟨_, rfl⟩
              | some size =>
                  -- both sizes are given by instructions of the script
                  obtain ⟨before, hbefore, hgiven⟩ := List.exists_of_findSome?_eq_some hknown
                  have heq : known = size := by
                    refine hsizes label before (List.mem_append_left _ hbefore) instruction
                      (List.mem_append_right _ List.mem_cons_self) known size hgiven ?_
                    rw [sizeGiven, hbody]
                    exact if_pos rfl
                  subst heq
                  exact ⟨scan.knownSizes, by simp⟩
        · rw [if_neg hany]
          exact ⟨_, rfl⟩
      obtain ⟨knownSizes, hrecord⟩ := hrecord
      simp only [hrecord]
      exact ⟨_, rfl⟩
  | _ => exact ⟨_, rfl⟩

/-- **A consistent script is not refused.** -/
theorem scanArtifact_ok (hfit : ∀ i ∈ old, NumbersFit i)
    (hids : (old.map (·.id)).Nodup) (hsizes : SizesAgree old) :
    ∃ scan, scanArtifact old = .ok scan ∧ Scanned old scan := by
  have hrun : ∀ (rest done : List BytecodeInstruction) (scan : Scan), done ++ rest = old →
      Scanned done scan → ∃ scan', rest.foldlM scanInstruction scan = .ok scan' := by
    intro rest
    induction rest with
    | nil => exact fun done scan _ _ => ⟨scan, rfl⟩
    | cons instruction rest ih =>
        intro done scan hold hscan
        have hold' : (done ++ [instruction]) ++ rest = old := by
          rw [List.append_assoc]
          exact hold
        have hid : instruction.id ∉ done.map (·.id) := by
          intro hmem
          rw [← hold, List.map_append, List.map_cons] at hids
          exact (List.nodup_append.1 hids).2.2 _ hmem _ List.mem_cons_self rfl
        have hagree : SizesAgree (done ++ [instruction]) := by
          intro label i hi j hj
          exact hsizes label i (hold' ▸ List.mem_append_left _ hi) j
            (hold' ▸ List.mem_append_left _ hj)
        obtain ⟨next, hnext⟩ := scanInstruction_ok hscan hid hagree
        have hfit' : NumbersFit instruction :=
          hfit instruction (hold ▸ List.mem_append_right _ List.mem_cons_self)
        obtain ⟨scan', hscan'⟩ := ih (done ++ [instruction]) next hold' (hscan.step hfit' hnext)
        refine ⟨scan', ?_⟩
        rw [List.foldlM_cons, hnext]
        exact hscan'
  have hstart : Scanned [] ({} : Scan) := by
    refine ⟨by simp, by simp, .empty (by decide), .empty (by decide), by simp, by simp⟩
  obtain ⟨scan, hscan⟩ := hrun old [] {} rfl hstart
  exact ⟨scan, hscan, scanArtifact_spec hfit hscan⟩

/-! ### Single sources -/

/-- The new instruction of a single source. -/
def rewritten (knownSizes : List (String × Option ℕ)) (output : BytecodeInstruction) (text : String)
    (input : BytecodeInstruction) : BytecodeInstruction :=
  { output with
    id := input.id
    region := input.region
    origins := setMembers (effectiveOrigins input)
    legacyEncoding := some text
    body := fillSize knownSizes
      (if serializeInstructionPreserving input == text then input.body else output.body) }

theorem rewriteOutput_single
    {knownSizes : List (String × Option ℕ)} {progress : Progress} (output : BytecodeInstruction)
    (text : String) {pc : ℕ} {input : BytecodeInstruction} (hinput : old[pc]? = some input)
    (hpc : pc ∉ progress.oldInstructionClaimed) (hid : input.id ∉ progress.outputInstructionIds) :
    rewriteOutput old knownSizes progress output text [pc] =
      .ok ({ progress with
          oldInstructionClaimed := pc :: progress.oldInstructionClaimed
          outputInstructionIds := input.id :: progress.outputInstructionIds },
        rewritten knownSizes output text input) := by
  have hclaimed : progress.oldInstructionClaimed.contains pc = false := by
    rw [← Bool.not_eq_true, List.contains_iff_mem]
    exact hpc
  have hids : progress.outputInstructionIds.contains input.id = false := by
    rw [← Bool.not_eq_true, List.contains_iff_mem]
    exact hid
  have hsort : [pc].insertionSort (· ≤ ·) = [pc] := rfl
  have hgather : [pc].foldlM (gatherSource old text) { claimed := progress.oldInstructionClaimed } =
      .ok { claimed := pc :: progress.oldInstructionClaimed
            firstInput := some input
            encodingMatchesSource := serializeInstructionPreserving input == text
            origins := effectiveOrigins input } := by
    rw [List.foldlM_cons, gatherSource, hinput]
    simp only [hclaimed, Bool.false_eq_true, if_false, Bool.false_or, List.nil_append]
    rfl
  rw [rewriteOutput]
  simp only [hsort, List.nodup_singleton, if_true, hgather, Bool.true_and]
  rw [finishOutput]
  simp only [hids, Bool.false_eq_true, if_false]
  rfl

/-- **What is written for single sources.** -/
theorem rewriteOutputs_single
    (knownSizes : List (String × Option ℕ)) (hids : (old.map (·.id)).Nodup)
    (hpcs : pcs.Nodup) {inputs : List BytecodeInstruction}
    (hinputs : List.Forall₂ (fun pc input => old[pc]? = some input) pcs inputs)
    (progress : Progress) (hclaimed : ∀ pc ∈ pcs, pc ∉ progress.oldInstructionClaimed)
    (hused : ∀ id ∈ progress.outputInstructionIds, ∃ pc ∈ progress.oldInstructionClaimed,
      ∃ input, old[pc]? = some input ∧ input.id = id)
    (outputs : List BytecodeInstruction) (texts : List String)
    (houtputs : outputs.length = pcs.length) (htexts : texts.length = pcs.length) :
    rewriteOutputs old knownSizes progress (outputs.zip (texts.zip (pcs.map ([·])))) =
      .ok ((outputs.zip (texts.zip inputs)).map fun item =>
        rewritten knownSizes item.1 item.2.1 item.2.2) := by
  induction hinputs generalizing progress outputs texts with
  | nil =>
      obtain rfl := List.length_eq_zero_iff.1 houtputs
      rfl
  | @cons pc input pcs inputs hinput hrest ih =>
      obtain ⟨output, outputs, rfl⟩ := List.exists_cons_of_length_eq_add_one houtputs
      obtain ⟨text, texts, rfl⟩ := List.exists_cons_of_length_eq_add_one htexts
      obtain ⟨hnotin, hnodup⟩ := List.nodup_cons.1 hpcs
      have hfree := hclaimed pc List.mem_cons_self
      have hid : input.id ∉ progress.outputInstructionIds := by
        intro hmem
        obtain ⟨pc', hpc', input', hinput', heq⟩ := hused _ hmem
        -- the identities of the old script are distinct
        have hplace : pc' = pc := by
          have hlt : pc' < (old.map (·.id)).length := by
            rw [List.length_map]
            exact (List.getElem?_eq_some_iff.1 hinput').1
          refine (List.getElem?_inj hlt hids).1 ?_
          rw [List.getElem?_map, List.getElem?_map, hinput, hinput']
          exact congrArg some heq
        exact hfree (hplace ▸ hpc')
      rw [List.map_cons, List.zip_cons_cons, List.zip_cons_cons, rewriteOutputs,
        rewriteOutput_single output text hinput hfree hid]
      have hclaimed' : ∀ pc' ∈ pcs, pc' ∉ pc :: progress.oldInstructionClaimed := by
        intro pc' hpc' hmem
        rcases List.mem_cons.1 hmem with rfl | hmem
        · exact hnotin hpc'
        · exact hclaimed pc' (List.mem_cons_of_mem _ hpc') hmem
      have hused' : ∀ id ∈ input.id :: progress.outputInstructionIds,
          ∃ pc' ∈ pc :: progress.oldInstructionClaimed,
            ∃ input', old[pc']? = some input' ∧ input'.id = id := by
        intro id hid'
        rcases List.mem_cons.1 hid' with rfl | hid'
        · exact ⟨pc, List.mem_cons_self, input, hinput, rfl⟩
        · obtain ⟨pc', hpc', hfound⟩ := hused id hid'
          exact ⟨pc', List.mem_cons_of_mem _ hpc', hfound⟩
      have htail := ih hnodup { progress with
        oldInstructionClaimed := pc :: progress.oldInstructionClaimed
        outputInstructionIds := input.id :: progress.outputInstructionIds } hclaimed' hused'
        outputs texts (by simpa using houtputs) (by simpa using htexts)
      show (do
        let instructions ← rewriteOutputs old knownSizes _ _
        pure (_ :: instructions)) = _
      rw [htail]
      rfl

/-! ### The new script -/

/-- A placeholder that is written anew has the size that is known for its label, or none. -/
theorem sizeGiven_rewritten {scan : Scan} (hscan : Scanned old scan)
    {output input : BytecodeInstruction} {text label : String} {size : ℕ} (hinput : input ∈ old)
    (houtput : ∀ label size, output.body = .placeholderPush label size → size = none)
    (h : sizeGiven label (rewritten scan.knownSizes output text input) = some size) :
    knownSize old label = some size := by
  unfold sizeGiven rewritten at h
  simp only at h
  generalize hbody : (if serializeInstructionPreserving input == text then input.body
    else output.body) = body at h
  cases body with
  | placeholderPush label' size' =>
      simp only [fillSize] at h
      by_cases hlabel : label' = label
      · subst hlabel
        rw [if_pos rfl, hscan.sizes] at h
        by_cases hany : old.any (mentions label') = true
        · rw [if_pos hany] at h
          exact h
        · rw [if_neg hany] at h
          -- the label is none of the old script, so the body was imported
          split_ifs at hbody with htext
          · exact absurd (List.any_eq_true.2 ⟨input, hinput, by simp [mentions, hbody]⟩) hany
          · rw [houtput label' size' hbody] at h
            cases h
      · rw [if_neg hlabel] at h
        cases h
  | opcode _ => cases h
  | pushData _ => cases h
  | rawSuffix _ => cases h
  | legacyBarrier _ => cases h

/-- An imported placeholder has no size. -/
theorem importLegacy_noSize {texts : List String} {unlockingScripts : List (String × String)}
    {output : BytecodeInstruction} (h : output ∈ (importLegacy texts unlockingScripts).lockingScript)
    (label : String) (size : Option ℕ) (hbody : output.body = .placeholderPush label size) :
    size = none := by
  obtain ⟨i, hi, rfl⟩ := List.mem_mapIdx.1 h
  simp only [LegacyBytecodeAdapter.importAtom] at hbody
  split_ifs at hbody with hsuffix
  unfold LegacyBytecodeAdapter.parseExecutableAtom at hbody
  split at hbody
  · cases hbody
    rfl
  · split at hbody
    · cases hbody
    · split at hbody
      · split_ifs at hbody
      · cases hbody

theorem exists_inputs (h : ∀ pc ∈ pcs, pc < old.length) :
    ∃ inputs, List.Forall₂ (fun (pc : ℕ) input => old[pc]? = some input) pcs inputs ∧
      inputs ⊆ old := by
  induction pcs with
  | nil => exact ⟨[], .nil, List.nil_subset _⟩
  | cons pc pcs ih =>
      obtain ⟨inputs, hinputs, hsubset⟩ := ih fun other hother =>
        h other (List.mem_cons_of_mem _ hother)
      have hinput := List.getElem?_eq_getElem (h pc List.mem_cons_self)
      exact ⟨_, .cons hinput hinputs, List.cons_subset.2 ⟨List.mem_of_getElem? hinput, hsubset⟩⟩

/-! ### The text and the identities of the new script -/

/-- A typed script is the text of the atoms, its identities are distinct, and its numbers are numbers of
their types. -/
structure InStep (artifact : BytecodeArtifact) (instrs : List String) : Prop where
  exported : (exportPreserving artifact).1 = instrs
  ids : (artifact.lockingScript.map (·.id)).Nodup
  numbers : ∀ i ∈ artifact.lockingScript, NumbersFit i

/-- What the rewriter makes, place by place. -/
theorem outputs_of_rewrite {old : BytecodeArtifact} (hfit : ∀ i ∈ old.lockingScript, NumbersFit i)
    (h : rewrite old instrs newToOld = .ok result) :
    ∃ (items : List (BytecodeInstruction × String × List ℕ)) (progress : Progress)
      (usedIds usedOrigins : List ℕ),
      items.map (·.2.1) = instrs ∧ items.map (·.2.2) = newToOld ∧
        OutputsSpec old.lockingScript progress items usedIds usedOrigins result.lockingScript := by
  unfold rewrite at h
  split_ifs at h with hlen
  rw [ne_eq, not_not] at hlen
  cases hscanned : scanArtifact old.lockingScript with
  | error error => simp [hscanned, bind, Except.bind] at h
  | ok scan =>
      have hscan := scanArtifact_spec hfit hscanned
      simp only [hscanned, bind, Except.bind, pure, Except.pure] at h
      generalize hitems :
        (importLegacy instrs old.unlockingScripts).lockingScript.zip (instrs.zip newToOld) = items at h
      cases houtputs : rewriteOutputs old.lockingScript scan.knownSizes
          { syntheticInstruction := scan.syntheticInstruction
            syntheticOrigin := scan.syntheticOrigin } items with
      | error error =>
          rw [houtputs] at h
          cases h
      | ok instructions =>
          rw [houtputs] at h
          obtain rfl := Except.ok.inj h
          have himported : (importLegacy instrs old.unlockingScripts).lockingScript.length =
              instrs.length := by simp [importLegacy]
          have htexts : (fun item : BytecodeInstruction × String × List ℕ => item.2.1) =
              Prod.fst ∘ Prod.snd := rfl
          have hsources : (fun item : BytecodeInstruction × String × List ℕ => item.2.2) =
              Prod.snd ∘ Prod.snd := rfl
          refine ⟨items, _, _, _, ?_, ?_,
            rewriteOutputs_spec hscan hscan.instruction hscan.origin houtputs⟩
          · rw [← hitems, htexts, ← List.map_map, List.map_snd_zip (by simp [himported, hlen]),
              List.map_fst_zip (by omega)]
          · rw [← hitems, hsources, ← List.map_map, List.map_snd_zip (by simp [himported, hlen]),
              List.map_snd_zip (by omega)]

/-- The rewriter makes the typed script of the new atoms. -/
theorem inStep_of_rewrite {old : BytecodeArtifact} (hfit : ∀ i ∈ old.lockingScript, NumbersFit i)
    (h : rewrite old instrs newToOld = .ok result) : InStep result instrs := by
  obtain ⟨items, progress, usedIds, usedOrigins, htexts, -, hspec⟩ := outputs_of_rewrite hfit h
  have hitem : ∀ (i : ℕ) instruction, result.lockingScript[i]? = some instruction →
      ∃ item, items[i]? = some item := by
    intro i instruction hi
    have hlt : i < items.length := hspec.length ▸ (List.getElem?_eq_some_iff.1 hi).1
    exact ⟨_, List.getElem?_eq_getElem hlt⟩
  refine ⟨?_, hspec.ids, ?_⟩
  · show result.lockingScript.map serializeInstructionPreserving = instrs
    rw [← htexts]
    refine List.ext_getElem? fun i => ?_
    rw [List.getElem?_map, List.getElem?_map]
    cases hi : result.lockingScript[i]? with
    | none =>
        have hle := List.getElem?_eq_none_iff.1 hi
        rw [List.getElem?_eq_none (hspec.length ▸ hle)]
        rfl
    | some instruction =>
        obtain ⟨item, hitem⟩ := hitem i instruction hi
        rw [hitem, Option.map_some, Option.map_some, serializeInstructionPreserving,
          (hspec.provenance i item instruction hitem hi).text]
        rfl
  · intro instruction hin
    obtain ⟨i, hi⟩ := List.mem_iff_getElem?.1 hin
    obtain ⟨item, hitem⟩ := hitem i instruction hi
    have hprov := hspec.provenance i item instruction hitem hi
    by_cases hnil : item.2.2 = []
    · obtain ⟨-, hle, origin, horigin, -, hleOrigin⟩ := hspec.synthetic i item instruction hitem
        hi hnil
      refine ⟨hle, ?_⟩
      rw [horigin]
      exact List.forall_mem_singleton.2 hleOrigin
    · obtain ⟨first, hfirst, hmin⟩ := item.2.2.toFinset.exists_min_image id
        ⟨item.2.2.head hnil, List.mem_toFinset.mpr (List.head_mem hnil)⟩
      rw [List.mem_toFinset] at hfirst
      have hlt := hprov.inRange first hfirst
      have hlowest := (hprov.lowest first hfirst
        (fun pc hpc => hmin pc (List.mem_toFinset.mpr hpc)) _ (List.getElem?_eq_getElem hlt)).1
      refine ⟨?_, fun o ho => ?_⟩
      · rw [hlowest]
        exact (hfit _ (List.getElem_mem hlt)).1
      · obtain ⟨pc, -, other, hother, ho⟩ := (hprov.origins hnil o).1 ho
        exact (hfit other (List.mem_of_getElem? hother)).effectiveOrigins o ho

/-- The new instruction of a place. -/
theorem provenance_of_rewrite {old : BytecodeArtifact}
    (hfit : ∀ i ∈ old.lockingScript, NumbersFit i)
    (h : rewrite old instrs newToOld = .ok result) {i : ℕ} {text : String} {sources : List ℕ}
    (htext : instrs[i]? = some text) (hsources : newToOld[i]? = some sources) :
    ∃ instruction, result.lockingScript[i]? = some instruction ∧
      Provenance old.lockingScript text sources instruction := by
  obtain ⟨items, progress, usedIds, usedOrigins, htexts, htable, hspec⟩ := outputs_of_rewrite hfit h
  rw [← htexts, List.getElem?_map, Option.map_eq_some_iff] at htext
  rw [← htable, List.getElem?_map, Option.map_eq_some_iff] at hsources
  obtain ⟨item, hitem, rfl⟩ := htext
  obtain ⟨_, hitem', rfl⟩ := hsources
  obtain rfl := Option.some.inj (hitem.symm.trans hitem')
  have hlt : i < result.lockingScript.length :=
    hspec.length ▸ (List.getElem?_eq_some_iff.1 hitem).1
  exact ⟨_, List.getElem?_eq_getElem hlt, hspec.provenance i item _ hitem (List.getElem?_eq_getElem hlt)⟩

/-! ### The new script of single sources -/

/-- **The rewriter does not fail on single sources, and what it makes is consistent with the new
list.** -/
theorem rewrite_single {artifact : BytecodeArtifact}
    (h : Consistent artifact instrs) {newInstructions : List String}
    (hlength : pcs.length = newInstructions.length) (hpcs : pcs.Nodup)
    (hrange : ∀ pc ∈ pcs, pc < instrs.length) :
    ∃ result, rewrite artifact newInstructions (pcs.map ([·])) = .ok result ∧
      Consistent result newInstructions := by
  obtain ⟨scan, hscanned, hscan⟩ := scanArtifact_ok h.numbers h.ids h.sizes
  obtain ⟨inputs, hinputs, hsubset⟩ := exists_inputs (h.length ▸ hrange)
  set imported := importLegacy newInstructions artifact.unlockingScripts with himported
  have himportedLength : imported.lockingScript.length = pcs.length := by
    rw [hlength, himported, importLegacy, List.length_mapIdx]
  set lockingScript := (imported.lockingScript.zip (newInstructions.zip inputs)).map fun item =>
    rewritten scan.knownSizes item.1 item.2.1 item.2.2 with hlockingScript
  have hwritten := rewriteOutputs_single scan.knownSizes h.ids hpcs hinputs
    { syntheticInstruction := scan.syntheticInstruction, syntheticOrigin := scan.syntheticOrigin }
    (by simp) (by simp) imported.lockingScript newInstructions himportedLength hlength.symm
  have hok : rewrite artifact newInstructions (pcs.map ([·])) = .ok { imported with
      format := artifact.format
      constructorSchema := artifact.constructorSchema
      layout := artifact.layout
      lockingScript } := by
    have hsize : ¬ (pcs.map ([·])).length ≠ newInstructions.length := by
      rw [List.length_map, hlength]
      exact not_not.2 rfl
    rw [rewrite, if_neg hsize, hscanned]
    show (do
      let lockingScript ← rewriteOutputs artifact.lockingScript scan.knownSizes _ _
      pure _) = _
    rw [hwritten]
    rfl
  obtain ⟨hexported, hnewIds, hnumbers⟩ := inStep_of_rewrite h.numbers hok
  refine ⟨_, hok, hexported, hnumbers, hnewIds, ?_⟩
  -- every size that is given is the one that was known before
  · have hgiven : ∀ label, ∀ output ∈ lockingScript, ∀ size, sizeGiven label output = some size →
        knownSize artifact.lockingScript label = some size := by
      intro label output houtput size hsize
      rw [hlockingScript] at houtput
      obtain ⟨item, hitem, rfl⟩ := List.mem_map.1 houtput
      have hpair := List.of_mem_zip hitem
      refine sizeGiven_rewritten hscan ?_ ?_ hsize
      · exact hsubset (List.of_mem_zip hpair.2).2
      · exact fun label size hbody => importLegacy_noSize hpair.1 label size hbody
    intro label i hi j hj size size' hsize hsize'
    have heq := hgiven label i hi size hsize
    rw [hgiven label j hj size' hsize'] at heq
    exact (Option.some.inj heq).symm

/-- What is imported is consistent with its text. -/
theorem consistent_importLegacy {texts : List String} (unlockingScripts : List (String × String))
    (h : texts.length ≤ maxId) : Consistent (importLegacy texts unlockingScripts) texts where
  exported := congrArg Prod.fst
    (LegacyBytecodeAdapter.exportPreserving_importLegacy texts unlockingScripts)
  numbers := by
    intro output houtput
    obtain ⟨i, hi, rfl⟩ := List.mem_mapIdx.1 houtput
    refine ⟨Nat.le_trans hi.le h, fun origin horigin => ?_⟩
    rw [List.mem_singleton.1 horigin]
    exact Nat.le_trans hi.le h
  ids := by
    have hids : (importLegacy texts unlockingScripts).lockingScript.map (·.id) =
        List.range texts.length := by
      refine List.ext_getElem (by simp [importLegacy]) fun i hi hi' => ?_
      simp [importLegacy, LegacyBytecodeAdapter.importAtom]
    rw [hids]
    exact List.nodup_range
  sizes := by
    intro label i hi j _ size size' hsize _
    unfold sizeGiven at hsize
    cases hbody : i.body with
    | placeholderPush label' size'' =>
        rw [hbody, importLegacy_noSize hi label' size'' hbody] at hsize
        simp only [ite_self] at hsize
        cases hsize
    | opcode _ => rw [hbody] at hsize; cases hsize
    | pushData _ => rw [hbody] at hsize; cases hsize
    | rawSuffix _ => rw [hbody] at hsize; cases hsize
    | legacyBarrier _ => rw [hbody] at hsize; cases hsize

end AtomicProof.BytecodeArtifactRewriter
