/-
Rewriting a typed script along with its text.

The passes that rewrite the atoms of a script work on text.  `BytecodeArtifactRewriter` in
`src/src/bytecode/bytecode_artifact_rewriter.h` brings the typed script along: it imports the new
text, and gives every new instruction the identity, the region, the origins and, where nothing was
changed, the body of the old instructions it stands for.  An instruction that stands for none gets an
identity and an origin of its own.

Main definitions:

* `BytecodeArtifactRewriter.reverseMapping` — from the new places of old instructions to the old
  instructions of new places;
* `BytecodeArtifactRewriter.scanInstruction`, `BytecodeArtifactRewriter.rewriteOutput`,
  `BytecodeArtifactRewriter.rewrite` — the source;
* `BytecodeArtifactRewriter.knownSize` — the size that is known of the payload of a label.

Main results:

* `BytecodeArtifactRewriter.reverseMapping_spec` — the table lists the old places of a new one;
* `BytecodeArtifactRewriter.scanArtifact_spec` — what is known before the instructions are written;
* `BytecodeArtifactRewriter.rewrite_spec` — **identity and provenance of the new script**.
-/

import AtomicProof.FreshSupply
import AtomicProof.LegacyAdapter
import Mathlib.Data.Finset.Max
import Mathlib.Data.List.Dedup
import Mathlib.Data.List.Sort

set_option autoImplicit false

namespace AtomicProof.BytecodeArtifactRewriter

open FreshSupply (Supply)
open LegacyBytecodeAdapter (importLegacy serializeInstructionPreserving exportPreserving)

/-- The largest number of `InstructionId` and of `OriginId`. -/
def maxId : ℕ := 2 ^ 64 - 1

/-! ### Provenance tables -/

/-- `reverseMapping`; an old instruction that was deleted has no new place. -/
def reverseMapping (oldToNew : List (Option ℕ)) (newInstructionCount : ℕ) : List (List ℕ) :=
  (oldToNew.zipIdx.foldlM (fun (result : List (List ℕ)) (place : Option ℕ × ℕ) =>
    match place.1 with
    | none => some result
    | some newPC =>
        if newInstructionCount ≤ newPC then none
        else some (result.modify newPC (· ++ [place.2])))
    (List.replicate newInstructionCount [])).getD []

/-! ### The old script -/

/-- `effectiveOrigins`: an instruction without origins is its own. -/
def effectiveOrigins (instruction : BytecodeInstruction) : List ℕ :=
  if instruction.origins.isEmpty then [instruction.id] else instruction.origins

/-- What the first loop of `rewrite` collects of the old script. -/
structure Scan where
  oldInstructionIds : List ℕ := []
  syntheticInstruction : Supply := ⟨1, true⟩
  syntheticOrigin : Supply := ⟨1, true⟩
  knownSizes : List (String × Option ℕ) := []

/-- The size that is known for a label after one more placeholder, or nothing where two sizes
conflict. -/
def recordSize (knownSizes : List (String × Option ℕ)) (label : String) (size : Option ℕ) :
    Option (List (String × Option ℕ)) :=
  match knownSizes.lookup label with
  | none => some ((label, size) :: knownSizes)
  | some known =>
      if known.isSome && size.isSome && known != size then none
      else if known.isSome then some knownSizes
      else some ((label, size) :: knownSizes)

/-- The first loop of `rewrite`, for one instruction. -/
def scanInstruction (scan : Scan) (instruction : BytecodeInstruction) : Except String Scan :=
  if scan.oldInstructionIds.contains instruction.id then
    .error "typed artifact contains duplicate instruction IDs"
  else
    let scan := { scan with
      oldInstructionIds := instruction.id :: scan.oldInstructionIds
      syntheticInstruction := FreshSupply.avoid maxId scan.syntheticInstruction instruction.id
      syntheticOrigin :=
        (effectiveOrigins instruction).foldl (FreshSupply.avoid maxId) scan.syntheticOrigin }
    match instruction.body with
    | .placeholderPush label size =>
        match recordSize scan.knownSizes label size with
        | some knownSizes => .ok { scan with knownSizes }
        | none => .error "typed artifact contains conflicting placeholder sizes"
    | _ => .ok scan

/-- The first loop of `rewrite`. -/
def scanArtifact (old : List BytecodeInstruction) : Except String Scan :=
  old.foldlM scanInstruction {}

/-! ### The new script -/

/-- What is collected of the sources of one new instruction. -/
structure Gathered where
  claimed : List ℕ
  firstInput : Option BytecodeInstruction := none
  allBodiesEqual : Bool := true
  encodingMatchesSource : Bool := false
  origins : List ℕ := []

/-- The loop over the sources of a new instruction with the text `text`, for one source. -/
def gatherSource (old : List BytecodeInstruction) (text : String) (gathered : Gathered)
    (oldPC : ℕ) : Except String Gathered :=
  match old[oldPC]? with
  | none => .error "rewrite provenance references invalid PC"
  | some input =>
      if gathered.claimed.contains oldPC then
        .error "rewrite provenance maps one input PC to multiple outputs"
      else
        let gathered := { gathered with
          claimed := oldPC :: gathered.claimed
          encodingMatchesSource :=
            gathered.encodingMatchesSource || serializeInstructionPreserving input == text
          origins := gathered.origins ++ effectiveOrigins input }
        match gathered.firstInput with
        | none => .ok { gathered with firstInput := some input }
        | some first =>
            if input.region ≠ first.region then
              .error "rewrite merges instructions from different script regions"
            else
              .ok { gathered with
                allBodiesEqual := gathered.allBodiesEqual && input.body == first.body }

/-- What the second loop of `rewrite` carries along. -/
structure Progress where
  oldInstructionClaimed : List ℕ := []
  outputInstructionIds : List ℕ := []
  syntheticInstruction : Supply
  syntheticOrigin : Supply

/-- A placeholder is given the size that is known for its label. -/
def fillSize (knownSizes : List (String × Option ℕ)) (body : InstructionBody) : InstructionBody :=
  match body with
  | .placeholderPush label size => .placeholderPush label ((knownSizes.lookup label).getD size)
  | body => body

/-- The members of a `std::set`, in their order. -/
def setMembers (numbers : List ℕ) : List ℕ := (numbers.insertionSort (· ≤ ·)).dedup

/-- The end of the second loop of `rewrite`: the new instruction is written down. -/
def finishOutput (knownSizes : List (String × Option ℕ)) (progress : Progress) (text : String)
    (output : BytecodeInstruction) : Except String (Progress × BytecodeInstruction) :=
  if progress.outputInstructionIds.contains output.id then
    .error "rewrite produced duplicate instruction IDs"
  else
    .ok ({ progress with outputInstructionIds := output.id :: progress.outputInstructionIds },
      { output with
        origins := setMembers output.origins
        legacyEncoding := some text
        body := fillSize knownSizes output.body })

/-- The second loop of `rewrite`, for the new instruction that was imported as `output`. -/
def rewriteOutput (old : List BytecodeInstruction) (knownSizes : List (String × Option ℕ))
    (progress : Progress) (output : BytecodeInstruction) (text : String) (sources : List ℕ) :
    Except String (Progress × BytecodeInstruction) :=
  let sourcePCs := sources.insertionSort (· ≤ ·)
  if sourcePCs.Nodup then
    match sourcePCs.foldlM (gatherSource old text) { claimed := progress.oldInstructionClaimed } with
    | .error error => .error error
    | .ok gathered =>
        match gathered.firstInput with
        | some first =>
            finishOutput knownSizes { progress with oldInstructionClaimed := gathered.claimed } text
              { output with
                id := first.id
                region := first.region
                origins := gathered.origins
                body :=
                  if gathered.allBodiesEqual && gathered.encodingMatchesSource then first.body
                  else output.body }
        | none =>
            match FreshSupply.draw maxId progress.syntheticInstruction,
              FreshSupply.draw maxId progress.syntheticOrigin with
            | some (id, syntheticInstruction), some (origin, syntheticOrigin) =>
                finishOutput knownSizes
                  { progress with
                    oldInstructionClaimed := gathered.claimed
                    syntheticInstruction
                    syntheticOrigin } text { output with id, origins := [origin] }
            | _, _ => .error "synthetic bytecode identity overflow"
  else .error "rewrite provenance repeats an input PC"

/-- The second loop of `rewrite`. -/
def rewriteOutputs (old : List BytecodeInstruction) (knownSizes : List (String × Option ℕ)) :
    Progress → List (BytecodeInstruction × String × List ℕ) → Except String (List BytecodeInstruction)
  | _, [] => .ok []
  | progress, (output, text, sources) :: rest => do
      let (progress, instruction) ← rewriteOutput old knownSizes progress output text sources
      let instructions ← rewriteOutputs old knownSizes progress rest
      pure (instruction :: instructions)

/-- `rewrite`: the error is the text that is reported. -/
def rewrite (oldArtifact : BytecodeArtifact) (newInstructions : List String)
    (newToOld : List (List ℕ)) : Except String BytecodeArtifact :=
  if newToOld.length ≠ newInstructions.length then
    .error "rewrite provenance size does not match output"
  else do
    let rewritten := importLegacy newInstructions oldArtifact.unlockingScripts
    let scan ← scanArtifact oldArtifact.lockingScript
    let lockingScript ← rewriteOutputs oldArtifact.lockingScript scan.knownSizes
      { syntheticInstruction := scan.syntheticInstruction, syntheticOrigin := scan.syntheticOrigin }
      (rewritten.lockingScript.zip (newInstructions.zip newToOld))
    pure { rewritten with
      format := oldArtifact.format
      constructorSchema := oldArtifact.constructorSchema
      layout := oldArtifact.layout
      lockingScript }

/-! ### The table of a mapping -/

/-- The old places with a new place, where the first of the list has the number `k`. -/
def placesOf (oldToNew : List (Option ℕ)) (k newPC : ℕ) : List ℕ :=
  ((oldToNew.zipIdx k).filter fun place => place.1 == some newPC).map (·.2)

/-- **The table lists the old places of every new one**, and is empty where a new place is out of
range. -/
theorem reverseMapping_spec (oldToNew : List (Option ℕ)) (count : ℕ) :
    ((∀ newPC, some newPC ∈ oldToNew → newPC < count) →
      reverseMapping oldToNew count = (List.range count).map (placesOf oldToNew 0)) ∧
    ((∃ newPC, some newPC ∈ oldToNew ∧ count ≤ newPC) → reverseMapping oldToNew count = []) := by
  -- the table after a run, entry by entry; the loop starts anywhere with any table
  have hrun : ∀ (places : List (Option ℕ)) (k : ℕ) (table : List (List ℕ)), table.length = count →
      (∀ newPC, some newPC ∈ places → newPC < count) →
      (places.zipIdx k).foldlM (fun (result : List (List ℕ)) (place : Option ℕ × ℕ) =>
          match place.1 with
          | none => some result
          | some newPC =>
              if count ≤ newPC then none
              else some (result.modify newPC (· ++ [place.2]))) table =
        some ((List.range count).map fun newPC => table.getD newPC [] ++ placesOf places k newPC) := by
    intro places
    induction places with
    | nil =>
        intro k table hlen _
        refine congrArg some (List.ext_getElem (by simp [hlen]) fun i hi hi' => ?_)
        simp [placesOf, List.getD_eq_getElem?_getD, hi]
    | cons place places ih =>
        intro k table hlen hplaces
        have hrest : ∀ newPC, some newPC ∈ places → newPC < count := by
          intro newPC hmem
          exact hplaces newPC (List.mem_cons_of_mem _ hmem)
        rw [List.zipIdx_cons, List.foldlM_cons]
        cases place with
        | none =>
            refine (ih (k + 1) table hlen hrest).trans ?_
            simp [placesOf, List.zipIdx_cons]
        | some newPC =>
            have hlt : newPC < count := hplaces newPC List.mem_cons_self
            simp only [not_le.mpr hlt, if_false]
            refine (ih (k + 1) _ (by simp [hlen]) hrest).trans ?_
            refine congrArg some (List.map_congr_left fun other hother => ?_)
            have hother' : other < table.length := by
              rw [hlen]
              exact List.mem_range.mp hother
            by_cases heq : newPC = other
            · subst heq
              simp [placesOf, List.zipIdx_cons, List.getD_eq_getElem?_getD, hother']
            · simp [placesOf, List.zipIdx_cons, List.getD_eq_getElem?_getD, hother', heq]
  constructor
  · intro hplaces
    rw [reverseMapping, hrun oldToNew 0 _ (by simp) hplaces, Option.getD_some]
    refine List.map_congr_left fun newPC hnewPC => ?_
    simp [List.getD_eq_getElem?_getD, List.mem_range.mp hnewPC]
  · rintro ⟨newPC, hmem, hle⟩
    -- one place out of range spoils the whole table
    have hnone : ∀ (places : List (Option ℕ)) (k : ℕ) (table : List (List ℕ)),
        some newPC ∈ places →
        (places.zipIdx k).foldlM (fun (result : List (List ℕ)) (place : Option ℕ × ℕ) =>
          match place.1 with
          | none => some result
          | some newPC =>
              if count ≤ newPC then none
              else some (result.modify newPC (· ++ [place.2]))) table = none := by
      intro places
      induction places with
      | nil => simp
      | cons place places ih =>
          intro k table hplaces
          rw [List.zipIdx_cons, List.foldlM_cons]
          rcases List.mem_cons.mp hplaces with rfl | hrest
          · simp [hle]
          · cases place with
            | none => exact ih (k + 1) table hrest
            | some other =>
                by_cases hother : count ≤ other
                · simp [hother]
                · simp only [hother, if_false]
                  exact ih (k + 1) _ hrest
    rw [reverseMapping, hnone oldToNew 0 _ hmem]
    rfl

/-! ### What is known of the old script -/

/-- The size an instruction gives to the payload of a label. -/
def sizeGiven (label : String) (instruction : BytecodeInstruction) : Option ℕ :=
  match instruction.body with
  | .placeholderPush label' size => if label' = label then size else none
  | _ => none

/-- The instruction pushes the payload of a label. -/
def mentions (label : String) (instruction : BytecodeInstruction) : Bool :=
  match instruction.body with
  | .placeholderPush label' _ => label' = label
  | _ => false

/-- The size that is known of the payload of a label: the first one a placeholder gives it. -/
def knownSize (script : List BytecodeInstruction) (label : String) : Option ℕ :=
  script.findSome? (sizeGiven label)

/-- The body of a kept instruction: a placeholder without a size takes the one that is known. -/
def withKnownSize (script : List BytecodeInstruction) (body : InstructionBody) : InstructionBody :=
  match body with
  | .placeholderPush label none => .placeholderPush label (knownSize script label)
  | body => body

/-- What the first loop knows after the instructions `done`. -/
structure Scanned (done : List BytecodeInstruction) (scan : Scan) : Prop where
  mem_ids : ∀ id, id ∈ scan.oldInstructionIds ↔ id ∈ done.map (·.id)
  nodup : (done.map (·.id)).Nodup
  instruction : FreshSupply.Fresh maxId scan.syntheticInstruction (done.map (·.id))
  origin : FreshSupply.Fresh maxId scan.syntheticOrigin (done.flatMap effectiveOrigins)
  sizes : ∀ label, scan.knownSizes.lookup label =
    if done.any (mentions label) then some (knownSize done label) else none
  agree : ∀ label, ∀ i ∈ done, ∀ size, sizeGiven label i = some size → knownSize done label = some size

/-- The numbers of an instruction are numbers of their types. -/
def NumbersFit (instruction : BytecodeInstruction) : Prop :=
  instruction.id ≤ maxId ∧ ∀ origin ∈ instruction.origins, origin ≤ maxId

instance (instruction : BytecodeInstruction) : Decidable (NumbersFit instruction) :=
  inferInstanceAs (Decidable (_ ∧ _))

variable {instruction : BytecodeInstruction} {done : List BytecodeInstruction} {scan : Scan}

theorem NumbersFit.effectiveOrigins (h : NumbersFit instruction) :
    ∀ origin ∈ effectiveOrigins instruction, origin ≤ maxId := by
  intro origin horigin
  unfold BytecodeArtifactRewriter.effectiveOrigins at horigin
  split_ifs at horigin with hempty
  · rw [List.mem_singleton.mp horigin]
    exact h.1
  · exact h.2 origin horigin

theorem knownSize_concat (script : List BytecodeInstruction) (instruction : BytecodeInstruction)
    (label : String) :
    knownSize (script ++ [instruction]) label =
      (knownSize script label).or (sizeGiven label instruction) := by
  rw [knownSize, List.findSome?_append]
  cases hsize : sizeGiven label instruction <;> simp [knownSize, hsize]

theorem knownSize_of_not_mentions {script : List BytecodeInstruction} {label : String}
    (h : script.any (mentions label) = false) : knownSize script label = none := by
  rw [List.any_eq_false] at h
  refine List.findSome?_eq_none_iff.mpr fun i hi => ?_
  have hnot := h i hi
  unfold mentions at hnot
  unfold sizeGiven
  cases hbody : i.body <;> simp only [hbody] at hnot ⊢
  simp only [decide_eq_true_eq] at hnot
  rw [if_neg hnot]

/-- What is recorded of a label after one more placeholder: the size that was known, else the one the
placeholder gives.  Nothing changes for other labels, and a size that is given is the one recorded. -/
theorem recordSize_spec {knownSizes knownSizes' : List (String × Option ℕ)} {label : String}
    {size : Option ℕ} (h : recordSize knownSizes label size = some knownSizes') :
    knownSizes'.lookup label = some ((knownSizes.lookup label).join.or size) ∧
    (∀ label', label' ≠ label → knownSizes'.lookup label' = knownSizes.lookup label') ∧
    ∀ s, size = some s → (knownSizes.lookup label).join.or size = some s := by
  have hcons : ∀ label', label' ≠ label →
      List.lookup label' ((label, size) :: knownSizes) = knownSizes.lookup label' := by
    intro label' hne
    rw [List.lookup_cons, beq_eq_false_iff_ne.mpr hne]
  unfold recordSize at h
  cases hlookup : knownSizes.lookup label with
  | none =>
      simp only [hlookup] at h
      obtain rfl := Option.some.inj h
      exact ⟨by simp, hcons, fun s hs => by simp [hs]⟩
  | some known =>
      simp only [hlookup] at h
      split_ifs at h with hconflict hsome
      -- the size is known already: the list stays, and what the placeholder gives is the same
      · obtain rfl := Option.some.inj h
        obtain ⟨old, rfl⟩ := Option.isSome_iff_exists.1 hsome
        refine ⟨by simp [hlookup], fun _ _ => rfl, fun s hs => ?_⟩
        simpa [hs] using hconflict
      · obtain rfl := Option.some.inj h
        obtain rfl : known = none := by simpa using hsome
        exact ⟨by simp, hcons, fun s hs => by simp [hs]⟩

/-- The sizes that are recorded are those known of the instructions `done`. -/
structure SizesOf (done : List BytecodeInstruction) (knownSizes : List (String × Option ℕ)) : Prop where
  lookup : ∀ label, knownSizes.lookup label =
    if done.any (mentions label) then some (knownSize done label) else none
  agree : ∀ label, ∀ i ∈ done, ∀ size, sizeGiven label i = some size → knownSize done label = some size

section SizesOf

variable {done : List BytecodeInstruction} {instruction : BytecodeInstruction}
  {knownSizes knownSizes' : List (String × Option ℕ)} {label : String} {size : Option ℕ}

theorem SizesOf.join_lookup (h : SizesOf done knownSizes) (label : String) :
    (knownSizes.lookup label).join = knownSize done label := by
  rw [h.lookup]
  split_ifs with hany
  · rfl
  · rw [knownSize_of_not_mentions (by simpa using hany)]
    rfl

/-- A body that is no placeholder adds nothing to the sizes. -/
theorem SizesOf.other (h : SizesOf done knownSizes)
    (hnot : ∀ label, mentions label instruction = false) :
    SizesOf (done ++ [instruction]) knownSizes := by
  have hgiven : ∀ label, sizeGiven label instruction = none := by
    intro label
    have hscript : [instruction].any (mentions label) = false := by simpa using hnot label
    simpa [knownSize] using knownSize_of_not_mentions hscript
  have hknown : ∀ label, knownSize (done ++ [instruction]) label = knownSize done label := by
    intro label
    rw [knownSize_concat, hgiven, Option.or_none]
  refine ⟨fun label => ?_, fun label i hi size hsize => ?_⟩
  · rw [h.lookup, hknown, List.any_append, List.any_cons, List.any_nil, hnot, Bool.or_false,
      Bool.or_false]
  · rw [hknown]
    rcases List.mem_append.mp hi with hi | hi
    · exact h.agree label i hi size hsize
    · rw [List.mem_singleton.mp hi, hgiven] at hsize
      exact absurd hsize (by simp)

/-- A placeholder adds the size it gives to its own label. -/
theorem SizesOf.placeholder (h : SizesOf done knownSizes)
    (hbody : instruction.body = .placeholderPush label size)
    (hrecord : recordSize knownSizes label size = some knownSizes') :
    SizesOf (done ++ [instruction]) knownSizes' := by
  obtain ⟨hsame, hdiff, hagree⟩ := recordSize_spec hrecord
  rw [h.join_lookup] at hsame hagree
  have hgiven : ∀ label', sizeGiven label' instruction = if label = label' then size else none := by
    intro label'
    simp only [sizeGiven, hbody]
  have hmentions : ∀ label', mentions label' instruction = decide (label = label') := by
    intro label'
    simp only [mentions, hbody]
  refine ⟨fun label' => ?_, fun label' i hi s hs => ?_⟩
  · simp only [knownSize_concat, hgiven, List.any_append, List.any_cons, List.any_nil, hmentions,
      Bool.or_false]
    by_cases heq : label = label'
    · subst heq
      simp [hsame]
    · rw [hdiff label' (Ne.symm heq), h.lookup]
      simp [heq]
  · rw [knownSize_concat]
    rcases List.mem_append.mp hi with hi | hi
    · rw [h.agree label' i hi s hs, Option.some_or]
    · rw [List.mem_singleton.mp hi] at hs
      rw [hgiven] at hs ⊢
      split_ifs at hs ⊢ with heq
      subst heq
      exact hagree s hs

end SizesOf

/-- The numbers of one more instruction, whose id is new, with the sizes known after it. -/
theorem Scanned.concat (h : Scanned done scan) (hfit : NumbersFit instruction)
    (hid : instruction.id ∉ done.map (·.id)) {knownSizes : List (String × Option ℕ)}
    (hsizes : SizesOf (done ++ [instruction]) knownSizes) :
    Scanned (done ++ [instruction])
      { oldInstructionIds := instruction.id :: scan.oldInstructionIds
        syntheticInstruction := FreshSupply.avoid maxId scan.syntheticInstruction instruction.id
        syntheticOrigin :=
          (effectiveOrigins instruction).foldl (FreshSupply.avoid maxId) scan.syntheticOrigin
        knownSizes } := by
  refine ⟨fun id => ?_, ?_, ?_, ?_, hsizes.lookup, hsizes.agree⟩
  · simp only [List.mem_cons, h.mem_ids, List.map_append, List.map_singleton, List.mem_append]
    tauto
  · rw [List.map_append, List.map_singleton]
    exact List.Nodup.append h.nodup (List.nodup_singleton _) (List.disjoint_singleton.mpr hid)
  · refine (h.instruction.avoid hfit.1).mono fun n hn => ?_
    rw [List.map_append, List.map_singleton, List.mem_append, List.mem_singleton] at hn
    exact List.mem_cons.mpr hn.symm
  · refine (h.origin.foldl_avoid hfit.effectiveOrigins).mono fun n hn => ?_
    rw [List.flatMap_append, List.flatMap_singleton, List.mem_append] at hn
    exact List.mem_append.mpr hn.symm

/-- One more instruction has been looked at. -/
theorem Scanned.step {scan' : Scan} (h : Scanned done scan) (hfit : NumbersFit instruction)
    (hscan : scanInstruction scan instruction = .ok scan') :
    Scanned (done ++ [instruction]) scan' := by
  have hsizes : SizesOf done scan.knownSizes := ⟨h.sizes, h.agree⟩
  unfold scanInstruction at hscan
  split_ifs at hscan with hdup
  simp only [List.contains_iff_mem, h.mem_ids] at hdup
  cases hbody : instruction.body with
  | placeholderPush label size =>
      simp only [hbody] at hscan
      cases hrecord : recordSize scan.knownSizes label size with
      | none => simp [hrecord] at hscan
      | some knownSizes =>
          simp only [hrecord] at hscan
          obtain rfl := Except.ok.inj hscan
          exact h.concat hfit hdup (hsizes.placeholder hbody hrecord)
  | opcode _ =>
      simp only [hbody] at hscan
      obtain rfl := Except.ok.inj hscan
      exact h.concat hfit hdup (hsizes.other fun label => by simp [mentions, hbody])
  | pushData _ =>
      simp only [hbody] at hscan
      obtain rfl := Except.ok.inj hscan
      exact h.concat hfit hdup (hsizes.other fun label => by simp [mentions, hbody])
  | rawSuffix _ =>
      simp only [hbody] at hscan
      obtain rfl := Except.ok.inj hscan
      exact h.concat hfit hdup (hsizes.other fun label => by simp [mentions, hbody])
  | legacyBarrier _ =>
      simp only [hbody] at hscan
      obtain rfl := Except.ok.inj hscan
      exact h.concat hfit hdup (hsizes.other fun label => by simp [mentions, hbody])

/-- The rest of the instructions has been looked at. -/
theorem Scanned.run {rest : List BytecodeInstruction} {scan' : Scan}
    (h : Scanned done scan) (hfit : ∀ i ∈ rest, NumbersFit i)
    (hscan : rest.foldlM scanInstruction scan = .ok scan') : Scanned (done ++ rest) scan' := by
  induction rest generalizing done scan with
  | nil =>
      obtain rfl := Except.ok.inj hscan
      simpa using h
  | cons instruction rest ih =>
      rw [List.foldlM_cons] at hscan
      cases hstep : scanInstruction scan instruction with
      | error error => simp [hstep, bind, Except.bind] at hscan
      | ok next =>
          rw [hstep] at hscan
          have hnext := h.step (hfit instruction List.mem_cons_self) hstep
          have := ih hnext (fun i hi => hfit i (List.mem_cons_of_mem _ hi)) hscan
          simpa using this

/-- **What is known of the old script before the new instructions are written.** -/
theorem scanArtifact_spec {old : List BytecodeInstruction}
    (hfit : ∀ i ∈ old, NumbersFit i) (h : scanArtifact old = .ok scan) : Scanned old scan := by
  have hstart : Scanned [] ({} : Scan) := by
    refine ⟨by simp, by simp, .empty (by decide), .empty (by decide), by simp, by simp⟩
  simpa using hstart.run hfit h

/-! ### The sources of a new instruction -/

section Sources

variable {old : List BytecodeInstruction} {text : String}

/-- The origins of the old instruction at a place. -/
def originsAt (old : List BytecodeInstruction) (oldPC : ℕ) : List ℕ :=
  match old[oldPC]? with
  | some input => effectiveOrigins input
  | none => []

/-- What has been collected of the sources `sources` after what was collected before. -/
structure GatheredFrom (old : List BytecodeInstruction) (before : Gathered) (sources : List ℕ)
    (after : Gathered) : Prop where
  inRange : ∀ pc ∈ sources, pc < old.length
  fresh : ∀ pc ∈ sources, pc ∉ before.claimed
  claimed : ∀ pc, pc ∈ after.claimed ↔ pc ∈ sources ∨ pc ∈ before.claimed
  firstInput : after.firstInput = before.firstInput.or (sources.head?.bind (old[·]?))
  origins : after.origins = before.origins ++ sources.flatMap (originsAt old)

/-- One source is collected. -/
theorem GatheredFrom.single {before after : Gathered} {pc : ℕ}
    (h : gatherSource old text before pc = .ok after) : GatheredFrom old before [pc] after := by
  unfold gatherSource at h
  cases hinput : old[pc]? with
  | none => simp [hinput] at h
  | some input =>
      have hlt := (List.getElem?_eq_some_iff.1 hinput).1
      simp only [hinput] at h
      split_ifs at h with hclaimed
      have hfresh : pc ∉ before.claimed := by simpa using hclaimed
      have horigins : before.origins ++ effectiveOrigins input =
          before.origins ++ [pc].flatMap (originsAt old) := by
        simp [originsAt, hinput]
      cases hfirst : before.firstInput with
      | none =>
          simp only [hfirst] at h
          obtain rfl := Except.ok.inj h
          refine ⟨by simpa using hlt, by simpa using hfresh, by simp, ?_, horigins⟩
          simp [hfirst, hinput]
      | some first =>
          simp only [hfirst] at h
          split_ifs at h
          obtain rfl := Except.ok.inj h
          refine ⟨by simpa using hlt, by simpa using hfresh, by simp, ?_, horigins⟩
          simp [hfirst]

/-- The sources are collected one after the other. -/
theorem GatheredFrom.run {sources : List ℕ} {before after : Gathered} (hnodup : sources.Nodup)
    (h : sources.foldlM (gatherSource old text) before = .ok after) :
    GatheredFrom old before sources after := by
  induction sources generalizing before with
  | nil =>
      obtain rfl := Except.ok.inj h
      exact ⟨by simp, by simp, by simp, by simp, by simp⟩
  | cons pc sources ih =>
      rw [List.foldlM_cons] at h
      cases hstep : gatherSource old text before pc with
      | error error => simp [hstep, bind, Except.bind] at h
      | ok next =>
          rw [hstep] at h
          have hfirst := GatheredFrom.single hstep
          obtain ⟨hpc, hrest⟩ := List.nodup_cons.mp hnodup
          have hlast := ih hrest h
          refine ⟨?_, ?_, ?_, ?_, ?_⟩
          · intro other hother
            rcases List.mem_cons.mp hother with rfl | hother
            · exact hfirst.inRange _ (List.mem_singleton.mpr rfl)
            · exact hlast.inRange other hother
          · intro other hother
            rcases List.mem_cons.mp hother with rfl | hother
            · exact hfirst.fresh _ (List.mem_singleton.mpr rfl)
            · intro hmem
              exact hlast.fresh other hother ((hfirst.claimed other).mpr (Or.inr hmem))
          · intro other
            rw [hlast.claimed, hfirst.claimed, List.mem_singleton, List.mem_cons]
            tauto
          · have hsome : (old[pc]?).isSome := by
              rw [List.getElem?_eq_getElem (hfirst.inRange pc (List.mem_singleton.mpr rfl))]
              rfl
            rw [hlast.firstInput, hfirst.firstInput]
            obtain ⟨input, hinput⟩ := Option.isSome_iff_exists.1 hsome
            cases before.firstInput <;> simp [hinput]
          · rw [hlast.origins, hfirst.origins]
            simp

/-- A source that is the only one is kept with its body where the text has not changed. -/
theorem gatherSource_kept {claimed : List ℕ} {after : Gathered} {pc : ℕ}
    {input : BytecodeInstruction} (hinput : old[pc]? = some input)
    (htext : serializeInstructionPreserving input = text)
    (h : [pc].foldlM (gatherSource old text) { claimed } = .ok after) :
    after.allBodiesEqual = true ∧ after.encodingMatchesSource = true := by
  rw [List.foldlM_cons] at h
  cases hstep : gatherSource old text { claimed } pc with
  | error error => simp [hstep, bind, Except.bind] at h
  | ok next =>
      rw [hstep] at h
      obtain rfl := Except.ok.inj h
      unfold gatherSource at hstep
      simp only [hinput] at hstep
      split_ifs at hstep
      obtain rfl := Except.ok.inj hstep
      exact ⟨rfl, by simp [htext]⟩

end Sources

/-! ### One new instruction -/

section Output

variable {old : List BytecodeInstruction} {scan : Scan} {progress progress' : Progress}
  {output instruction : BytecodeInstruction} {text : String} {sources : List ℕ}

@[simp] theorem mem_setMembers {numbers : List ℕ} {n : ℕ} : n ∈ setMembers numbers ↔ n ∈ numbers := by
  simp [setMembers]

theorem setMembers_pairwise (numbers : List ℕ) : (setMembers numbers).Pairwise (· < ·) := by
  have hsorted : (setMembers numbers).Pairwise (· ≤ ·) :=
    (List.pairwise_insertionSort _ numbers).sublist (List.dedup_sublist _)
  exact (hsorted.and (List.nodup_dedup _)).imp fun h => lt_of_le_of_ne h.1 h.2

/-- **A new instruction has the identity and the region of its lowest source, the origins of all its
sources, its text, and the body of its only source if that has the same text.** -/
structure Provenance (old : List BytecodeInstruction) (text : String) (sources : List ℕ)
    (instruction : BytecodeInstruction) : Prop where
  inRange : ∀ pc ∈ sources, pc < old.length
  lowest : ∀ first ∈ sources, (∀ pc ∈ sources, first ≤ pc) → ∀ input, old[first]? = some input →
    instruction.id = input.id ∧ instruction.region = input.region
  origins : sources ≠ [] → ∀ origin, origin ∈ instruction.origins ↔
    ∃ pc ∈ sources, ∃ input, old[pc]? = some input ∧ origin ∈ effectiveOrigins input
  sorted : instruction.origins.Pairwise (· < ·)
  kept : ∀ pc input, sources = [pc] → old[pc]? = some input →
    serializeInstructionPreserving input = text → instruction.body = withKnownSize old input.body
  text : instruction.legacyEncoding = some text

/-- What writing one new instruction does. -/
structure OutputSpec (old : List BytecodeInstruction) (progress : Progress) (text : String)
    (sources : List ℕ) (progress' : Progress) (instruction : BytecodeInstruction) : Prop where
  provenance : Provenance old text sources instruction
  nodup : sources.Nodup
  fresh : ∀ pc ∈ sources, pc ∉ progress.oldInstructionClaimed
  claimed : ∀ pc, pc ∈ progress'.oldInstructionClaimed ↔
    pc ∈ sources ∨ pc ∈ progress.oldInstructionClaimed
  freshId : instruction.id ∉ progress.outputInstructionIds
  ids : progress'.outputInstructionIds = instruction.id :: progress.outputInstructionIds
  sourced : sources ≠ [] → progress'.syntheticInstruction = progress.syntheticInstruction ∧
    progress'.syntheticOrigin = progress.syntheticOrigin
  synthetic : sources = [] → ∃ origin, instruction.origins = [origin] ∧
    FreshSupply.draw maxId progress.syntheticInstruction =
      some (instruction.id, progress'.syntheticInstruction) ∧
    FreshSupply.draw maxId progress.syntheticOrigin = some (origin, progress'.syntheticOrigin)

theorem finishOutput_eq_ok {knownSizes : List (String × Option ℕ)}
    (h : finishOutput knownSizes progress text output = .ok (progress', instruction)) :
    output.id ∉ progress.outputInstructionIds ∧
      progress' = { progress with
        outputInstructionIds := output.id :: progress.outputInstructionIds } ∧
      instruction = { output with
        origins := setMembers output.origins
        legacyEncoding := some text
        body := fillSize knownSizes output.body } := by
  unfold finishOutput at h
  split_ifs at h with hdup
  obtain ⟨rfl, rfl⟩ := Prod.mk.inj (Except.ok.inj h)
  exact ⟨by simpa using hdup, rfl, rfl⟩

/-- A body that was kept is given the size that is known. -/
theorem fillSize_of_mem (hscan : Scanned old scan) {input : BytecodeInstruction}
    (hmem : input ∈ old) : fillSize scan.knownSizes input.body = withKnownSize old input.body := by
  cases hbody : input.body with
  | placeholderPush label size =>
      have hany : old.any (mentions label) = true := by
        rw [List.any_eq_true]
        exact ⟨input, hmem, by simp [mentions, hbody]⟩
      simp only [fillSize, hscan.sizes, hany, if_true, Option.getD_some]
      cases size with
      | none => rfl
      | some size =>
          rw [hscan.agree label input hmem size (by simp [sizeGiven, hbody])]
          rfl
  | _ => rfl

theorem rewriteOutput_spec (hscan : Scanned old scan)
    (h : rewriteOutput old scan.knownSizes progress output text sources =
      .ok (progress', instruction)) :
    OutputSpec old progress text sources progress' instruction := by
  have hperm : (sources.insertionSort (· ≤ ·)).Perm sources := List.perm_insertionSort _ _
  have hsorted : (sources.insertionSort (· ≤ ·)).Pairwise (· ≤ ·) :=
    List.pairwise_insertionSort _ _
  have hmem : ∀ pc, pc ∈ sources.insertionSort (· ≤ ·) ↔ pc ∈ sources := fun pc => hperm.mem_iff
  unfold rewriteOutput at h
  simp only at h
  split_ifs at h with hnodup
  cases hgather : (sources.insertionSort (· ≤ ·)).foldlM (gatherSource old text)
      { claimed := progress.oldInstructionClaimed } with
  | error error => simp [hgather] at h
  | ok gathered =>
      have hg := GatheredFrom.run hnodup hgather
      simp only [hgather] at h
      have hinRange : ∀ pc ∈ sources, pc < old.length := by
        intro pc hpc
        exact hg.inRange pc ((hmem pc).mpr hpc)
      have hfreshPCs : ∀ pc ∈ sources, pc ∉ progress.oldInstructionClaimed := by
        intro pc hpc
        exact hg.fresh pc ((hmem pc).mpr hpc)
      have hclaimed : ∀ pc, pc ∈ gathered.claimed ↔
          pc ∈ sources ∨ pc ∈ progress.oldInstructionClaimed := by
        intro pc
        rw [hg.claimed, hmem]
      have hsourcesNodup : sources.Nodup := hperm.nodup_iff.mp hnodup
      have hfirst := hg.firstInput
      simp only [Option.none_or] at hfirst
      -- an output without sources is synthetic, any other takes after its lowest source
      cases hsources : sources.insertionSort (· ≤ ·) with
      | nil =>
          obtain rfl : sources = [] := by
            rw [hsources] at hperm
            exact hperm.nil_eq.symm
          simp only [hsources, List.head?_nil, Option.bind_none] at hfirst
          simp only [hfirst] at h
          split at h
          · rename_i id instructions origin origins hid horigin
            obtain ⟨hfreshId, rfl, rfl⟩ := finishOutput_eq_ok h
            refine ⟨⟨by simp, by simp, by simp, setMembers_pairwise _, by simp, rfl⟩, by simp,
              by simp, hclaimed, hfreshId, rfl, by simp, fun _ => ⟨origin, ?_, hid, horigin⟩⟩
            simp [setMembers]
          · simp at h
      | cons lowest others =>
          have hlowest : lowest ∈ sources := (hmem lowest).mp (by rw [hsources]; exact List.mem_cons_self)
          have hne : sources ≠ [] := List.ne_nil_of_mem hlowest
          obtain ⟨input, hinput⟩ : ∃ input, old[lowest]? = some input :=
            ⟨_, List.getElem?_eq_getElem (hinRange lowest hlowest)⟩
          simp only [hsources, List.head?_cons, Option.bind_some, hinput] at hfirst
          simp only [hfirst] at h
          obtain ⟨hfreshId, rfl, rfl⟩ := finishOutput_eq_ok h
          refine ⟨⟨hinRange, ?_, ?_, setMembers_pairwise _, ?_, rfl⟩, hsourcesNodup, hfreshPCs,
            hclaimed, hfreshId, rfl, fun _ => ⟨rfl, rfl⟩, fun hnil => absurd hnil hne⟩
          · intro first hmemFirst hmin input' hinput'
            have hle : lowest ≤ first := by
              rw [hsources] at hsorted
              have hfirstMem := (hmem first).mpr hmemFirst
              rw [hsources] at hfirstMem
              rcases List.mem_cons.mp hfirstMem with rfl | hrest
              · exact le_refl _
              · exact (List.pairwise_cons.mp hsorted).1 first hrest
            obtain rfl : first = lowest := le_antisymm (hmin lowest hlowest) hle
            obtain rfl : input = input' := Option.some.inj (hinput.symm.trans hinput')
            exact ⟨rfl, rfl⟩
          · intro _ origin
            simp only [mem_setMembers, hg.origins, List.nil_append, List.mem_flatMap, hmem]
            refine exists_congr fun pc => and_congr_right fun hpc => ?_
            have hget := List.getElem?_eq_getElem (hinRange pc hpc)
            simp [originsAt, hget]
          · intro pc input' hone hinput' htext
            subst hone
            obtain rfl : lowest = pc := List.mem_singleton.mp hlowest
            obtain rfl : input = input' := Option.some.inj (hinput.symm.trans hinput')
            have hsort : [lowest].insertionSort (· ≤ ·) = [lowest] := rfl
            rw [hsort] at hgather
            obtain ⟨hequal, hmatches⟩ := gatherSource_kept hinput htext hgather
            simp only [hequal, hmatches, Bool.and_self, if_true]
            exact fillSize_of_mem hscan (List.mem_of_getElem? hinput)

end Output

/-! ### The new script -/

section Outputs

variable {old : List BytecodeInstruction} {scan : Scan}
variable {progress : Progress} {usedIds usedOrigins : List ℕ} {output : BytecodeInstruction}

/-- What is written for a new instruction without sources is not in use. -/
def FreshOutput (usedIds usedOrigins : List ℕ) (instruction : BytecodeInstruction) : Prop :=
  instruction.id ∉ usedIds ∧ instruction.id ≤ maxId ∧
    ∃ origin, instruction.origins = [origin] ∧ origin ∉ usedOrigins ∧ origin ≤ maxId

/-- What writing a row of new instructions does, where the numbers `usedIds` and `usedOrigins` are
in use before. -/
structure OutputsSpec (old : List BytecodeInstruction) (progress : Progress)
    (items : List (BytecodeInstruction × String × List ℕ)) (usedIds usedOrigins : List ℕ)
    (instructions : List BytecodeInstruction) : Prop where
  length : instructions.length = items.length
  provenance : ∀ (i : ℕ) item instruction, items[i]? = some item →
    instructions[i]? = some instruction → Provenance old item.2.1 item.2.2 instruction
  nodup : (items.flatMap (·.2.2)).Nodup
  unclaimed : ∀ pc ∈ items.flatMap (·.2.2), pc ∉ progress.oldInstructionClaimed
  ids : (instructions.map (·.id)).Nodup
  freshIds : ∀ instruction ∈ instructions, instruction.id ∉ progress.outputInstructionIds
  synthetic : ∀ (i : ℕ) item instruction, items[i]? = some item →
    instructions[i]? = some instruction → item.2.2 = [] →
    FreshOutput usedIds usedOrigins instruction
  apart : ∀ (i j : ℕ) item item' instruction instruction', i < j → items[i]? = some item →
    items[j]? = some item' → instructions[i]? = some instruction →
    instructions[j]? = some instruction' → item.2.2 = [] → item'.2.2 = [] →
    ∀ origin ∈ instruction.origins, origin ∉ instruction'.origins

/-- The numbers in use after one new instruction: those drawn for it come to those in use before. -/
theorem OutputSpec.inUse {next : Progress} {text : String} {sources : List ℕ}
    {instruction : BytecodeInstruction}
    (hspec : OutputSpec old progress text sources next instruction)
    (hids : FreshSupply.Fresh maxId progress.syntheticInstruction usedIds)
    (horigins : FreshSupply.Fresh maxId progress.syntheticOrigin usedOrigins) :
    ∃ usedIds' usedOrigins', FreshSupply.Fresh maxId next.syntheticInstruction usedIds' ∧
      FreshSupply.Fresh maxId next.syntheticOrigin usedOrigins' ∧
      (∀ n ∈ usedIds, n ∈ usedIds') ∧ (∀ n ∈ usedOrigins, n ∈ usedOrigins') ∧
      (sources = [] → FreshOutput usedIds usedOrigins instruction ∧
        ∀ origin ∈ instruction.origins, origin ∈ usedOrigins') := by
  by_cases hsources : sources = []
  · obtain ⟨origin, horigin, hdrawId, hdrawOrigin⟩ := hspec.synthetic hsources
    obtain ⟨hnewId, hleId, hnextIds⟩ := hids.draw hdrawId
    obtain ⟨hnewOrigin, hleOrigin, hnextOrigins⟩ := horigins.draw hdrawOrigin
    refine ⟨_, _, hnextIds, hnextOrigins, fun n hn => List.mem_cons_of_mem _ hn,
      fun n hn => List.mem_cons_of_mem _ hn, fun _ => ⟨⟨hnewId, hleId, origin, horigin,
        hnewOrigin, hleOrigin⟩, fun o ho => ?_⟩⟩
    rw [horigin] at ho
    rw [List.mem_singleton.mp ho]
    exact List.mem_cons_self
  · obtain ⟨hsameIds, hsameOrigins⟩ := hspec.sourced hsources
    exact ⟨usedIds, usedOrigins, by rwa [hsameIds], by rwa [hsameOrigins],
      fun n hn => hn, fun n hn => hn, fun hnil => absurd hnil hsources⟩

theorem rewriteOutputs_spec (hscan : Scanned old scan)
    {items : List (BytecodeInstruction × String × List ℕ)}
    (hids : FreshSupply.Fresh maxId progress.syntheticInstruction usedIds)
    (horigins : FreshSupply.Fresh maxId progress.syntheticOrigin usedOrigins)
    {instructions : List BytecodeInstruction}
    (h : rewriteOutputs old scan.knownSizes progress items = .ok instructions) :
    OutputsSpec old progress items usedIds usedOrigins instructions := by
  induction items generalizing progress usedIds usedOrigins instructions with
  | nil =>
      obtain rfl := Except.ok.inj h
      exact ⟨rfl, by simp, by simp, by simp, by simp, by simp, by simp, by simp⟩
  | cons item items ih =>
      obtain ⟨output, text, sources⟩ := item
      rw [rewriteOutputs] at h
      cases hstep : rewriteOutput old scan.knownSizes progress output text sources with
      | error error => simp [hstep, bind, Except.bind] at h
      | ok step =>
          obtain ⟨next, instruction⟩ := step
          have hspec := rewriteOutput_spec hscan hstep
          cases hrest : rewriteOutputs old scan.knownSizes next items with
          | error error => simp [hstep, hrest, bind, Except.bind] at h
          | ok rest =>
              simp only [hstep, hrest, bind, Except.bind, pure, Except.pure] at h
              obtain rfl := Except.ok.inj h
              -- what the first output takes is in use for the outputs after it
              obtain ⟨usedIds', usedOrigins', hids', horigins', hsubIds, hsubOrigins, hfresh⟩ :=
                hspec.inUse hids horigins
              have hlast := ih hids' horigins' hrest
              refine ⟨by simp [hlast.length], ?_, ?_, ?_, ?_, ?_, ?_, ?_⟩
              · intro i item' instruction' hitem hinstruction
                cases i with
                | zero =>
                    obtain rfl := Option.some.inj hitem
                    obtain rfl := Option.some.inj hinstruction
                    exact hspec.provenance
                | succ i => exact hlast.provenance i item' instruction' hitem hinstruction
              · rw [List.flatMap_cons]
                refine List.Nodup.append hspec.nodup hlast.nodup fun pc hpc hpc' => ?_
                exact hlast.unclaimed pc hpc' ((hspec.claimed pc).mpr (Or.inl hpc))
              · intro pc hpc
                rw [List.flatMap_cons] at hpc
                rcases List.mem_append.mp hpc with hpc | hpc
                · exact hspec.fresh pc hpc
                · intro hclaimed
                  exact hlast.unclaimed pc hpc ((hspec.claimed pc).mpr (Or.inr hclaimed))
              · rw [List.map_cons, List.nodup_cons]
                refine ⟨fun hmem => ?_, hlast.ids⟩
                obtain ⟨other, hother, heq⟩ := List.mem_map.mp hmem
                refine hlast.freshIds other hother ?_
                rw [hspec.ids, heq]
                exact List.mem_cons_self
              · intro other hother
                rcases List.mem_cons.mp hother with rfl | hother
                · exact hspec.freshId
                · intro hmem
                  refine hlast.freshIds other hother ?_
                  rw [hspec.ids]
                  exact List.mem_cons_of_mem _ hmem
              · intro i item' instruction' hitem hinstruction hnone
                cases i with
                | zero =>
                    obtain rfl := Option.some.inj hitem
                    obtain rfl := Option.some.inj hinstruction
                    exact (hfresh hnone).1
                | succ i =>
                    obtain ⟨hnewId, hleId, origin, horigin, hnewOrigin, hleOrigin⟩ :=
                      hlast.synthetic i item' instruction' hitem hinstruction hnone
                    exact ⟨fun hmem => hnewId (hsubIds _ hmem), hleId, origin, horigin,
                      fun hmem => hnewOrigin (hsubOrigins _ hmem), hleOrigin⟩
              · intro i j item₁ item₂ instruction₁ instruction₂ hij hitem₁ hitem₂ h₁ h₂ hnone₁ hnone₂
                  origin horigin
                obtain ⟨j, rfl⟩ : ∃ k, j = k + 1 := ⟨j - 1, by omega⟩
                cases i with
                | zero =>
                    obtain rfl := Option.some.inj hitem₁
                    obtain rfl := Option.some.inj h₁
                    obtain ⟨-, -, origin', horigin', hnew, -⟩ :=
                      hlast.synthetic j item₂ instruction₂ hitem₂ h₂ hnone₂
                    rw [horigin', List.mem_singleton]
                    rintro rfl
                    exact hnew ((hfresh hnone₁).2 origin horigin)
                | succ i =>
                    exact hlast.apart i j item₁ item₂ instruction₁ instruction₂ (by omega) hitem₁ hitem₂
                      h₁ h₂ hnone₁ hnone₂ origin horigin

/-- The numbers of an instruction with sources are numbers of the old script. -/
theorem Provenance.numbersFit {text : String} {sources : List ℕ}
    (h : Provenance old text sources output) (hfit : ∀ i ∈ old, NumbersFit i) (hne : sources ≠ []) :
    NumbersFit output := by
  obtain ⟨first, hfirst, hmin⟩ := sources.toFinset.exists_min_image id
    ⟨sources.head hne, List.mem_toFinset.mpr (List.head_mem hne)⟩
  rw [List.mem_toFinset] at hfirst
  have hinput := List.getElem?_eq_getElem (h.inRange first hfirst)
  obtain ⟨hid, -⟩ := h.lowest first hfirst (fun pc hpc => hmin pc (List.mem_toFinset.mpr hpc)) _ hinput
  refine ⟨?_, fun o ho => ?_⟩
  · rw [hid]
    exact (hfit _ (List.mem_of_getElem? hinput)).1
  · obtain ⟨pc, -, other, hother, ho⟩ := (h.origins hne o).mp ho
    exact (hfit other (List.mem_of_getElem? hother)).effectiveOrigins o ho

theorem FreshOutput.numbersFit
    (h : FreshOutput usedIds usedOrigins output) : NumbersFit output := by
  obtain ⟨-, hleId, origin, horigin, -, hleOrigin⟩ := h
  refine ⟨hleId, fun o ho => ?_⟩
  rw [horigin] at ho
  rw [List.mem_singleton.mp ho]
  exact hleOrigin

/-- An instruction without sources shares its origin with no other new instruction. -/
theorem OutputsSpec.unshared {items : List (BytecodeInstruction × String × List ℕ)}
    {instructions : List BytecodeInstruction}
    (h : OutputsSpec old progress items usedIds (old.flatMap effectiveOrigins) instructions)
    {i j : ℕ} {item item' : BytecodeInstruction × String × List ℕ} {other : BytecodeInstruction}
    (hi : items[i]? = some item) (hj : items[j]? = some item') (houtput : instructions[i]? = some output)
    (hother : instructions[j]? = some other) (hne : j ≠ i) (hnil : item.2.2 = []) :
    ∀ origin ∈ output.origins, origin ∉ other.origins := by
  intro origin horigin hmem
  by_cases hnil' : item'.2.2 = []
  · rcases Nat.lt_or_gt_of_ne hne with hlt | hlt
    · exact h.apart j i _ _ other output hlt hj hi hother houtput hnil' hnil origin hmem horigin
    · exact h.apart i j _ _ output other hlt hi hj houtput hother hnil hnil' origin horigin hmem
  -- the other instruction takes its origins from the old script
  · obtain ⟨-, -, origin', horigin', hnew, -⟩ := h.synthetic i item output hi houtput hnil
    rw [horigin', List.mem_singleton] at horigin
    subst horigin
    obtain ⟨pc, -, input, hinput, ho⟩ :=
      ((h.provenance j item' other hj hother).origins hnil' origin).mp hmem
    exact hnew (List.mem_flatMap.mpr ⟨input, List.mem_of_getElem? hinput, ho⟩)

end Outputs

/-- **Identity and provenance of the new script.**  Where the rewriting succeeds the identities are
distinct, no old instruction is used twice, an instruction with sources takes the identity and the
region of the lowest of them and the origins of all, one without sources gets an identity and an
origin that are in no other use, an instruction that is kept keeps its body (a placeholder without a
size takes the one that is known for its label), and the text is the new one.  No number exceeds the
maximum of its type. -/
theorem rewrite_spec {oldArtifact result : BytecodeArtifact} {newInstructions : List String}
    {newToOld : List (List ℕ)} (hfit : ∀ i ∈ oldArtifact.lockingScript, NumbersFit i)
    (h : rewrite oldArtifact newInstructions newToOld = .ok result) :
    (result.lockingScript.map (·.id)).Nodup ∧ newToOld.flatten.Nodup ∧
      (∀ (i : ℕ) output text sources, result.lockingScript[i]? = some output →
        newInstructions[i]? = some text → newToOld[i]? = some sources →
        NumbersFit output ∧ Provenance oldArtifact.lockingScript text sources output ∧
          (sources = [] → output.id ∉ oldArtifact.lockingScript.map (·.id) ∧
            ∃ origin, output.origins = [origin] ∧
              (∀ input ∈ oldArtifact.lockingScript, origin ∉ effectiveOrigins input) ∧
              ∀ (j : ℕ) other, j ≠ i → result.lockingScript[j]? = some other →
                other.id ≠ output.id ∧ origin ∉ other.origins)) ∧
      exportPreserving result = (newInstructions, oldArtifact.unlockingScripts) := by
  unfold rewrite at h
  split_ifs at h with hlen
  rw [ne_eq, not_not] at hlen
  cases hscanned : scanArtifact oldArtifact.lockingScript with
  | error error => simp [hscanned, bind, Except.bind] at h
  | ok scan =>
      have hscan := scanArtifact_spec hfit hscanned
      set imported := importLegacy newInstructions oldArtifact.unlockingScripts with himported
      cases houtputs : rewriteOutputs oldArtifact.lockingScript scan.knownSizes
          { syntheticInstruction := scan.syntheticInstruction
            syntheticOrigin := scan.syntheticOrigin }
          (imported.lockingScript.zip (newInstructions.zip newToOld)) with
      | error error => simp [hscanned, houtputs, bind, Except.bind] at h
      | ok instructions =>
          simp only [hscanned, houtputs, bind, Except.bind, pure, Except.pure] at h
          obtain rfl := Except.ok.inj h
          have hspec := rewriteOutputs_spec hscan hscan.instruction hscan.origin houtputs
          have himportedLen : imported.lockingScript.length = newInstructions.length := by
            simp [himported, importLegacy]
          have hitemsLen : instructions.length = newInstructions.length := by
            rw [hspec.length]
            simp [himportedLen, hlen]
          have hsources : (imported.lockingScript.zip (newInstructions.zip newToOld)).map (·.2.2) =
              newToOld := by
            have hcomp : (fun item : BytecodeInstruction × String × List ℕ => item.2.2) =
                Prod.snd ∘ Prod.snd := rfl
            rw [hcomp, ← List.map_map, List.map_snd_zip (by simp [himportedLen, hlen]),
              List.map_snd_zip (by omega)]
          -- the row of new instructions, place by place
          have hitem : ∀ (i : ℕ) text sources, newInstructions[i]? = some text →
              newToOld[i]? = some sources → ∃ output,
                (imported.lockingScript.zip (newInstructions.zip newToOld))[i]? =
                  some (output, text, sources) := by
            intro i text sources htext hsource
            have hlt : i < imported.lockingScript.length := by
              rw [himportedLen]
              exact (List.getElem?_eq_some_iff.1 htext).1
            refine ⟨imported.lockingScript[i], ?_⟩
            rw [List.getElem?_zip_eq_some, List.getElem?_zip_eq_some]
            exact ⟨List.getElem?_eq_getElem hlt, htext, hsource⟩
          refine ⟨hspec.ids, ?_, ?_, ?_⟩
          · have := hspec.nodup
            rwa [List.flatMap_def, hsources] at this
          · intro i output text sources houtput htext hsource
            obtain ⟨imp, hi⟩ := hitem i text sources htext hsource
            have hprov := hspec.provenance i _ output hi houtput
            have hfresh := hspec.synthetic i _ output hi houtput
            simp only at hprov hfresh
            refine ⟨?_, hprov, ?_⟩
            · by_cases hnil : sources = []
              · exact (hfresh hnil).numbersFit
              · exact hprov.numbersFit hfit hnil
            · intro hnil
              obtain ⟨hnewId, -, origin, horigin, hnewOrigin, -⟩ := hfresh hnil
              refine ⟨hnewId, origin, horigin, fun input hinput hmem => ?_,
                fun j other hne hother => ⟨fun heq => hne ?_, ?_⟩⟩
              · exact hnewOrigin (List.mem_flatMap.mpr ⟨input, hinput, hmem⟩)
              · have hsame : (instructions.map (·.id))[j]? = (instructions.map (·.id))[i]? := by
                  simp only [List.getElem?_map]
                  rw [houtput, hother, Option.map_some, Option.map_some, heq]
                have hlt : j < (instructions.map (·.id)).length := by
                  rw [List.length_map]
                  exact (List.getElem?_eq_some_iff.1 hother).1
                exact (List.getElem?_inj hlt hspec.ids).1 hsame
              · have hj : j < newInstructions.length := by
                  rw [← hitemsLen]
                  exact (List.getElem?_eq_some_iff.1 hother).1
                obtain ⟨imp', hj'⟩ := hitem j _ _ (List.getElem?_eq_getElem hj)
                  (List.getElem?_eq_getElem (hlen ▸ hj))
                exact hspec.unshared hi hj' houtput hother hne hnil origin
                  (by rw [horigin]; exact List.mem_singleton.mpr rfl)
          · have htexts : instructions.map serializeInstructionPreserving = newInstructions := by
              refine List.ext_getElem (by simpa using hitemsLen) fun i hi hi' => ?_
              rw [List.length_map] at hi
              obtain ⟨imp, hitem'⟩ := hitem i _ _ (List.getElem?_eq_getElem hi')
                (List.getElem?_eq_getElem (hlen ▸ hi'))
              have htext := (hspec.provenance i _ _ hitem' (List.getElem?_eq_getElem hi)).text
              rw [List.getElem_map, serializeInstructionPreserving, htext]
              rfl
            simp only [exportPreserving, htexts]
            rfl

/-- A script of two placeholders with one label. -/
def twoPlaceholders : BytecodeArtifact where
  format := .canonicalV2
  lockingScript :=
    [⟨7, .placeholderPush "self.x" none, .executable, [], some "<self.x>"⟩,
      ⟨8, .placeholderPush "self.x" (some 2), .executable, [3], some "<self.x>"⟩]
  unlockingScripts := []
  constructorSchema := []
  layout := ⟨none, false⟩

/-- Both placeholders are kept, but the first one takes the size that the second one gives to their
label. -/
theorem rewrite_twoPlaceholders_ne :
    twoPlaceholders.lockingScript.map serializeInstructionPreserving = ["<self.x>", "<self.x>"] ∧
      ∃ result, rewrite twoPlaceholders ["<self.x>", "<self.x>"] [[0], [1]] = .ok result ∧
        result.lockingScript.map (·.body) ≠ twoPlaceholders.lockingScript.map (·.body) :=
  ⟨rfl, _, rfl, by decide⟩

/-- With an instruction put before them the placeholders keep identities and texts, and the new
instruction gets the identity nine and the origin eight. -/
theorem rewrite_spec_twoPlaceholders : ∃ result,
    rewrite twoPlaceholders ["61", "<self.x>", "<self.x>"] [[], [0], [1]] = .ok result ∧
      result.lockingScript.map (·.id) = [9, 7, 8] ∧
      result.lockingScript.map (·.origins) = [[8], [7], [3]] ∧
      (result.lockingScript.map (·.id)).Nodup ∧
      exportPreserving result = (["61", "<self.x>", "<self.x>"], []) := by
  refine ⟨_, rfl, by decide, by decide, ?_⟩
  have hspec := @rewrite_spec twoPlaceholders _ ["61", "<self.x>", "<self.x>"] [[], [0], [1]]
    (by decide) rfl
  exact ⟨hspec.1, hspec.2.2.2⟩

end AtomicProof.BytecodeArtifactRewriter
