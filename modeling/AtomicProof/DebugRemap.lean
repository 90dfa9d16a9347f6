/-
What a rewrite does to the debug information.

`DebugInfo::applyRemapTransactional` in `src/src/debugger/info/debug_info.cpp` moves the debug
information along the map from old places to new ones, on a copy that it checks before it takes the
place of the original.  A rewrite that knows where every new instruction comes from says so in a
table of references, and then the origins are those of the places that are referred to; otherwise
the origins of all old places that meet in a new place stay together.

Main definitions:

* `MovedTo` — the old places of a new place;
* `referredOrigin` — an origin that a table refers to;
* `DebugInfo.Remapped` — what the result of a remap has.

Main results:

* `covers_remapIntervals` — ranges become the new places of their old places;
* `mem_origins_remapInstructions` — the origins of a new place without a table;
* `mem_rewriteOrigins` — the origins of a new place with a table;
* `DebugInfo.applyRemapTransactional_spec` — **a remap is applied as a whole or not at all, and what
  it leaves**.
-/

import AtomicProof.DebugCopy

set_option autoImplicit false

namespace AtomicProof

namespace ApcDebug

section Ranges

variable {oldToNew : List (Option ℕ)} {count : ℕ}

/-! ### Ranges -/

theorem lt_of_mapPC {oldPC newPC : ℕ} (h : mapPC oldToNew count oldPC = some newPC) :
    oldPC < oldToNew.length ∧ newPC < count := by
  unfold mapPC at h
  rw [Option.filter_eq_some_iff] at h
  obtain ⟨hjoin, hlt⟩ := h
  refine ⟨?_, by simpa using hlt⟩
  by_contra hge
  rw [List.getElem?_eq_none (Nat.le_of_not_lt hge)] at hjoin
  exact absurd hjoin (by simp)

/-- **Ranges become the new places of their old places.** -/
theorem covers_remapIntervals {ranges : List PCRange} {newPC : ℕ} :
    HalfOpen.Covers (remapIntervals oldToNew count ranges) newPC ↔
      ∃ oldPC, mapPC oldToNew count oldPC = some newPC ∧ HalfOpen.Covers ranges oldPC := by
  rw [remapIntervals, (HalfOpen.ofPlaces_spec _).2, List.mem_flatMap]
  constructor
  · rintro ⟨range, hrange, hmem⟩
    obtain ⟨oldPC, holdPC, hmap⟩ := List.mem_filterMap.mp hmem
    rw [List.mem_range'_1] at holdPC
    exact ⟨oldPC, hmap, range, hrange, holdPC.1, by omega⟩
  · rintro ⟨oldPC, hmap, range, hrange, hlower, hupper⟩
    have hlt := (lt_of_mapPC hmap).1
    refine ⟨range, hrange, List.mem_filterMap.mpr ⟨oldPC, ?_, hmap⟩⟩
    rw [List.mem_range'_1]
    omega

/-- A scope covers the new places of the places it covered. -/
theorem containsPC_remapScope {scope : ScopeDebugInfo} {newPC : ℕ} :
    (remapScope oldToNew count scope).containsPC newPC = true ↔
      ∃ oldPC, mapPC oldToNew count oldPC = some newPC ∧ scope.containsPC oldPC = true := by
  have hranges : effectiveRanges (remapScope oldToNew count scope) =
      remapIntervals oldToNew count (effectiveRanges scope) := by
    have hnormal : HalfOpen.Normal (remapIntervals oldToNew count (effectiveRanges scope)) :=
      (HalfOpen.ofPlaces_spec _).1
    by_cases hnil : remapIntervals oldToNew count (effectiveRanges scope) = []
    · rw [effectiveRanges, if_neg (by simp [remapScope, hnil]),
        if_neg (by simp [remapScope, envelope, hnil]), hnil]
    · rw [effectiveRanges, if_pos (by simpa [remapScope] using hnil)]
      exact hnormal.normalize_eq
  rw [ScopeDebugInfo.containsPC, hranges, decide_eq_true_iff, covers_remapIntervals]
  simp [ScopeDebugInfo.containsPC]

/-- A variable with ranges is available at the new places of the places where it was; one without
stays without. -/
structure MovesAvailability (oldToNew : List (Option ℕ)) (count : ℕ)
    (variable_ moved : VariableDebugInfo) : Prop where
  explicit : moved.hasExplicitAvailability = variable_.hasExplicitAvailability
  places : variable_.hasExplicitAvailability = true → ∀ newPC,
    HalfOpen.Covers moved.availabilityRanges newPC ↔
      ∃ oldPC, mapPC oldToNew count oldPC = some newPC ∧
        HalfOpen.Covers variable_.availabilityRanges oldPC

theorem movesAvailability_remapVariable {variable_ copied : VariableDebugInfo}
    (hexplicit : copied.hasExplicitAvailability = variable_.hasExplicitAvailability)
    (hranges : copied.availabilityRanges = variable_.availabilityRanges) :
    MovesAvailability oldToNew count variable_ (remapVariable oldToNew count copied) := by
  unfold remapVariable
  split
  · refine ⟨hexplicit, ?_⟩
    intro _ newPC
    rw [covers_remapIntervals, hranges]
  · rename_i hnone
    refine ⟨hexplicit, ?_⟩
    intro hvariable
    rw [hexplicit] at hnone
    exact absurd hvariable hnone

end Ranges

/-! ### Origins without a table -/

/-- The origins of the instruction at a place. -/
def originsAt (instructions : PCMap InstructionDebugInfo) (pc : ℕ) : List SourceOrigin :=
  ((instructions[pc]?).map (·.origins)).getD []

theorem mem_originsAt {instructions : PCMap InstructionDebugInfo} {pc : ℕ} {origin : SourceOrigin} :
    origin ∈ originsAt instructions pc ↔
      ∃ instruction, instructions[pc]? = some instruction ∧ origin ∈ instruction.origins := by
  unfold originsAt
  cases instructions[pc]? with
  | none => simp
  | some instruction => simp

section Instructions

variable (oldToNew : List (Option ℕ)) (count : ℕ)

/-- What an instruction makes of the one that is at its new place already. -/
def mergeStep (found : Option InstructionDebugInfo) (entry : ℕ × InstructionDebugInfo) :
    InstructionDebugInfo :=
  let copy := remapInstruction oldToNew count entry.1
    ((mapPC oldToNew count entry.1).getD 0) entry.2
  match found with
  | none => copy
  | some destination =>
      { destination with origins := copy.origins.foldl appendUniqueOrigin destination.origins }

theorem remapInstructions_eq_fill (instructions : PCMap InstructionDebugInfo) :
    remapInstructions oldToNew count instructions =
      (OrderedMap.fill (fun entry => mapPC oldToNew count entry.1) (mergeStep oldToNew count)
        instructions.toList ∅).map fun _ instruction => settleInstruction instruction := by
  unfold remapInstructions OrderedMap.fill
  congr 2
  funext map entry
  cases hmap : mapPC oldToNew count entry.1 with
  | none => simp only [hmap]
  | some newPC =>
      simp only [mergeInstruction, mergeStep, hmap, Option.getD_some]
      cases map[newPC]? <;> rfl

theorem settleInstruction_origins (instruction : InstructionDebugInfo) :
    (settleInstruction instruction).origins = instruction.origins := by
  unfold settleInstruction
  split <;> rfl

variable {oldToNew count}

/-- The origins that meet in a place. -/
theorem mem_origins_meet {entries : List (ℕ × InstructionDebugInfo)}
    {start : Option InstructionDebugInfo} {origin : SourceOrigin} :
    (∃ instruction, OrderedMap.meet (mergeStep oldToNew count) entries start = some instruction ∧
        origin ∈ instruction.origins) ↔
      (∃ instruction, start = some instruction ∧ origin ∈ instruction.origins) ∨
      ∃ entry ∈ entries, origin ∈ (upgradeOrigins entry.1 entry.2 entry.2.origins).map
        (remapOrigin oldToNew count entry.1) := by
  induction entries generalizing start with
  | nil => simp
  | cons entry entries ih =>
      have hstep : origin ∈ (mergeStep oldToNew count start entry).origins ↔
          (∃ instruction, start = some instruction ∧ origin ∈ instruction.origins) ∨
          origin ∈ (upgradeOrigins entry.1 entry.2 entry.2.origins).map
            (remapOrigin oldToNew count entry.1) := by
        cases start with
        | none => simp [mergeStep, remapInstruction]
        | some destination =>
            simp only [mergeStep, mem_foldl_appendUniqueOrigin, remapInstruction,
              Option.some.injEq, exists_eq_left']
      rw [OrderedMap.meet_cons, ih]
      simp only [Option.some.injEq, exists_eq_left', hstep, List.mem_cons, exists_eq_or_imp,
        or_assoc]

/-- **The origins of a new place without a table** are those of its old places, moved. -/
theorem mem_origins_remapInstructions {instructions : PCMap InstructionDebugInfo} {newPC : ℕ}
    {origin : SourceOrigin} :
    origin ∈ originsAt (remapInstructions oldToNew count instructions) newPC ↔
      ∃ oldPC instruction, mapPC oldToNew count oldPC = some newPC ∧
        instructions[oldPC]? = some instruction ∧
        origin ∈ (upgradeOrigins oldPC instruction instruction.origins).map
          (remapOrigin oldToNew count oldPC) := by
  rw [mem_originsAt, remapInstructions_eq_fill, Std.ExtTreeMap.getElem?_map,
    OrderedMap.getElem?_fill]
  have hsettle : ∀ found : Option InstructionDebugInfo,
      (∃ instruction, found.map settleInstruction = some instruction ∧
        origin ∈ instruction.origins) ↔
      ∃ instruction, found = some instruction ∧ origin ∈ instruction.origins := by
    intro found
    cases found with
    | none => simp
    | some instruction => simp [settleInstruction_origins]
  rw [hsettle, mem_origins_meet]
  constructor
  · rintro (⟨instruction, hstart, _⟩ | ⟨⟨oldPC, instruction⟩, hmem, horigin⟩)
    · rw [Std.ExtTreeMap.getElem?_empty] at hstart
      exact absurd hstart (by simp)
    · rw [List.mem_filter, Std.ExtTreeMap.mem_toList_iff_getElem?_eq_some] at hmem
      exact ⟨oldPC, instruction, by simpa using hmem.2, hmem.1, horigin⟩
  · rintro ⟨oldPC, instruction, hmap, hget, horigin⟩
    refine Or.inr ⟨(oldPC, instruction), ?_, horigin⟩
    rw [List.mem_filter, Std.ExtTreeMap.mem_toList_iff_getElem?_eq_some]
    exact ⟨hget, by simpa using hmap⟩

end Instructions

/-- After the upgrade an instruction without an origin has no location either. -/
theorem upgradeInstruction_upgraded {scopes : List ScopeDebugInfo}
    {functions : NameMap FunctionDebugInfo} {instruction : InstructionDebugInfo}
    (h : (upgradeInstruction scopes functions instruction).origins = []) :
    (upgradeInstruction scopes functions instruction).location.isValid = false := by
  rw [upgradeInstruction_origins] at h
  have hnil := List.map_eq_nil_iff.mp h
  have hlocation : instruction.location.isValid = false := by
    by_contra hvalid
    rw [Bool.not_eq_false] at hvalid
    unfold upgradeOrigins at hnil
    split_ifs at hnil with hupgrade
    exact hupgrade ⟨hnil, hvalid⟩
  unfold upgradeInstruction
  simp only [h, hlocation]

theorem upgradeOrigins_copyInstruction (info : DebugInfo) (pc : ℕ)
    (instruction : InstructionDebugInfo) :
    upgradeOrigins pc (info.copyInstruction instruction)
      (info.copyInstruction instruction).origins = (info.copyInstruction instruction).origins := by
  unfold upgradeOrigins
  rw [if_neg]
  rintro ⟨hnil, hvalid⟩
  rw [DebugInfo.copyInstruction, upgradeInstruction_upgraded hnil] at hvalid
  exact absurd hvalid (by simp)

theorem mem_upgradeOrigins_uniqueOrigins {pc : ℕ} {instruction : InstructionDebugInfo}
    {origin : SourceOrigin} :
    origin ∈ upgradeOrigins pc { instruction with origins := uniqueOrigins instruction.origins }
        (uniqueOrigins instruction.origins) ↔
      origin ∈ upgradeOrigins pc instruction instruction.origins := by
  unfold upgradeOrigins
  simp only [uniqueOrigins_eq_nil_iff]
  split_ifs with hupgrade
  · rfl
  · exact mem_uniqueOrigins

/-! ### Origins with a table -/

/-- An origin of an old place that a table refers to: its regions are the new ones, and the path of
the reference is merged in. -/
def referredOrigin (oldToNew : List (Option ℕ)) (reference : OriginRewriteRef)
    (origin : SourceOrigin) : SourceOrigin :=
  { origin with
    originalPC := some (origin.originalPC.getD reference.oldPC)
    path := mergePath (origin.path.map fun predicate =>
      { predicate with region := ((oldToNew[predicate.region]?).join).getD predicate.region })
        reference.path }

/-- **The origins of a new place with a table** are those of the places it refers to. -/
theorem mem_rewriteOrigins {info candidate : DebugInfo} {oldToNew : List (Option ℕ)} {count : ℕ}
    {references : List OriginRewriteRef} {origins : List SourceOrigin}
    (h : info.rewriteOrigins candidate oldToNew count references = some origins)
    {origin : SourceOrigin} :
    origin ∈ origins ↔ ∃ reference ∈ references,
      ∃ original ∈ info.getOriginsForPC reference.oldPC,
        origin = referredOrigin oldToNew reference original := by
  have hgeneral : ∀ (references : List OriginRewriteRef) (start : List SourceOrigin),
      references.foldlM (fun origins reference =>
        let oldOrigins := info.getOriginsForPC reference.oldPC
        if oldToNew.length ≤ reference.oldPC ∨ oldOrigins = [] ∨
            reference.path.any (fun predicate => count ≤ predicate.region ||
              !isOpener candidate.instructions predicate.region) then none
        else
          some ((oldOrigins.map (referredOrigin oldToNew reference)).foldl appendUniqueOrigin
            origins)) start = some origins →
      (origin ∈ origins ↔ origin ∈ start ∨ ∃ reference ∈ references,
        ∃ original ∈ info.getOriginsForPC reference.oldPC,
          origin = referredOrigin oldToNew reference original) := by
    intro references
    induction references with
    | nil =>
        intro start hstart
        obtain rfl := Option.some.inj hstart
        simp
    | cons reference references ih =>
        intro start hstart
        rw [List.foldlM_cons] at hstart
        obtain ⟨next, hnext, hrest⟩ := Option.bind_eq_some_iff.mp hstart
        dsimp only at hnext
        split_ifs at hnext
        obtain rfl := Option.some.inj hnext
        rw [ih _ hrest, mem_foldl_appendUniqueOrigin, List.mem_map]
        simp only [List.mem_cons, exists_eq_or_imp, or_assoc, eq_comm (a := origin)]
  have hspec := hgeneral references [] h
  rw [hspec]
  simp

namespace DebugInfo

theorem setInstructionOrigins_instructions (info : DebugInfo) (pc : ℕ) (values : List SourceOrigin)
    (pc' : ℕ) :
    originsAt (info.setInstructionOrigins pc values).instructions pc' =
      if pc' = pc then uniqueOrigins values else originsAt info.instructions pc' := by
  have hinsert : ∀ (instruction : InstructionDebugInfo) (origins : List SourceOrigin),
      instruction.origins = origins →
      originsAt (info.instructions.insert pc instruction) pc' =
        if pc' = pc then origins else originsAt info.instructions pc' := by
    intro instruction origins horigins
    unfold originsAt
    rw [Std.ExtTreeMap.getElem?_insert]
    by_cases hpc : pc' = pc
    · subst hpc
      simp [horigins]
    · have hne : ¬ compare pc pc' = .eq := by
        rw [Std.LawfulEqCmp.compare_eq_iff_eq]
        exact fun heq => hpc heq.symm
      rw [if_neg hne, if_neg hpc]
  unfold setInstructionOrigins uniqueOrigins
  cases values.foldl appendUniqueOrigin [] with
  | nil => exact hinsert _ _ rfl
  | cons first rest => exact hinsert _ _ rfl

theorem setInstructionOrigins_frame (info : DebugInfo) (pc : ℕ) (values : List SourceOrigin) :
    (info.setInstructionOrigins pc values).version = info.version ∧
    (info.setInstructionOrigins pc values).scopes = info.scopes ∧
    (info.setInstructionOrigins pc values).functions = info.functions ∧
    (info.setInstructionOrigins pc values).variableMap = info.variableMap := by
  unfold setInstructionOrigins
  dsimp only
  split <;> exact ⟨rfl, rfl, rfl, rfl⟩

/-- What the loop over the table leaves: the origins of the places in the table come from it, those
of other places stay, and so does everything that is not about origins. -/
structure Rewritten (info : DebugInfo) (oldToNew : List (Option ℕ)) (first : ℕ)
    (table : List (List OriginRewriteRef)) (candidate result : DebugInfo) : Prop where
  version : result.version = candidate.version
  scopes : result.scopes = candidate.scopes
  functions : result.functions = candidate.functions
  variableMap : result.variableMap = candidate.variableMap
  others : ∀ pc, pc < first ∨ first + table.length ≤ pc →
    originsAt result.instructions pc = originsAt candidate.instructions pc
  origins : ∀ (index : ℕ) (references : List OriginRewriteRef),
    table[index]? = some references → ∀ origin,
      origin ∈ originsAt result.instructions (first + index) ↔ ∃ reference ∈ references,
        ∃ original ∈ info.getOriginsForPC reference.oldPC,
          origin = referredOrigin oldToNew reference original

theorem rewritten_of_foldlM {info : DebugInfo} {oldToNew : List (Option ℕ)} {count : ℕ}
    {table : List (List OriginRewriteRef)} {first : ℕ} {candidate result : DebugInfo}
    (h : (table.zipIdx first).foldlM (fun candidate entry => do
      let origins ← info.rewriteOrigins candidate oldToNew count entry.1
      pure (candidate.setInstructionOrigins entry.2 origins)) candidate = some result) :
    info.Rewritten oldToNew first table candidate result := by
  induction table generalizing first candidate with
  | nil =>
      obtain rfl := Option.some.inj h
      exact ⟨rfl, rfl, rfl, rfl, fun _ _ => rfl, by simp⟩
  | cons references table ih =>
      rw [List.zipIdx_cons, List.foldlM_cons] at h
      obtain ⟨next, hnext, hrest⟩ := Option.bind_eq_some_iff.mp h
      obtain ⟨origins, horigins, hset⟩ := Option.bind_eq_some_iff.mp hnext
      obtain rfl := Option.some.inj hset
      have hrewritten := ih hrest
      obtain ⟨hversion, hscopes, hfunctions, hvariables⟩ :=
        setInstructionOrigins_frame candidate first origins
      refine ⟨hrewritten.version.trans hversion, hrewritten.scopes.trans hscopes,
        hrewritten.functions.trans hfunctions, hrewritten.variableMap.trans hvariables, ?_, ?_⟩
      · intro pc hpc
        rw [List.length_cons] at hpc
        rw [hrewritten.others pc (by omega), setInstructionOrigins_instructions,
          if_neg (by omega)]
      · intro index references' hget origin
        cases index with
        | zero =>
            obtain rfl := Option.some.inj hget
            rw [Nat.add_zero, hrewritten.others first (by omega),
              setInstructionOrigins_instructions, if_pos rfl, mem_uniqueOrigins]
            exact mem_rewriteOrigins horigins
        | succ index =>
            have hplace : first + (index + 1) = first + 1 + index := by omega
            rw [hplace]
            exact hrewritten.origins index references' (by simpa using hget) origin

end DebugInfo

/-! ### The remap -/

/-- The variables of a list move with their availability. -/
abbrev MovesVariables (oldToNew : List (Option ℕ)) (count : ℕ) :
    List VariableDebugInfo → List VariableDebugInfo → Prop :=
  List.Forall₂ (MovesAvailability oldToNew count)

theorem movesVariables_map {oldToNew : List (Option ℕ)} {count : ℕ}
    {load : VariableDebugInfo → VariableDebugInfo} {list : List VariableDebugInfo}
    (hexplicit : ∀ variable_,
      (load variable_).hasExplicitAvailability = variable_.hasExplicitAvailability)
    (hranges : ∀ variable_ ∈ list,
      (load variable_).availabilityRanges = variable_.availabilityRanges) :
    MovesVariables oldToNew count list ((list.map load).map (remapVariable oldToNew count)) := by
  rw [MovesVariables, List.map_map, List.forall₂_map_right_iff, List.forall₂_same]
  intro variable_ hmem
  exact movesAvailability_remapVariable (hexplicit variable_) (hranges variable_ hmem)

/-- A scope moves with its places, unless all its ranges are empty, and with its variables. -/
structure MovesScope (oldToNew : List (Option ℕ)) (count : ℕ) (scope moved : ScopeDebugInfo) :
    Prop where
  places : scope.ranges = [] ∨ effectiveRanges scope ≠ [] → ∀ newPC,
    moved.containsPC newPC = true ↔
      ∃ oldPC, mapPC oldToNew count oldPC = some newPC ∧ scope.containsPC oldPC = true
  variableList : MovesVariables oldToNew count scope.variableList moved.variableList

structure MovesFunction (oldToNew : List (Option ℕ)) (count : ℕ)
    (function moved : FunctionDebugInfo) : Prop where
  parameters : MovesVariables oldToNew count function.parameters moved.parameters
  localVars : MovesVariables oldToNew count function.localVars moved.localVars

namespace DebugInfo

structure Remapped (info : DebugInfo) (oldToNew : List (Option ℕ)) (count : ℕ)
    (table : List (List OriginRewriteRef)) (result : DebugInfo) : Prop where
  valid : result.Valid
  regions : ∀ (pc : ℕ) (instruction : InstructionDebugInfo),
    info.instructions[pc]? = some instruction → ∀ origin ∈ instruction.origins,
      ∀ predicate ∈ origin.path, (mapPC oldToNew count predicate.region).isSome
  moved : table = [] → ∀ newPC origin, origin ∈ originsAt result.instructions newPC ↔
    ∃ (oldPC : ℕ) (instruction : InstructionDebugInfo),
      mapPC oldToNew count oldPC = some newPC ∧ info.instructions[oldPC]? = some instruction ∧
      ∃ original ∈ upgradeOrigins oldPC instruction instruction.origins,
        origin = remapOrigin oldToNew count oldPC
          (completeOrigin info.copyScopes info.copyFunctions oldPC original)
  kept : table = [] → ∀ (oldPC newPC : ℕ) (instruction : InstructionDebugInfo),
    mapPC oldToNew count oldPC = some newPC → info.instructions[oldPC]? = some instruction →
    ∀ original ∈ instruction.origins, ∃ origin ∈ originsAt result.instructions newPC,
      Completes { original with path := original.path.map (remapPredicate oldToNew count) } origin
  referred : table ≠ [] → table.length = count ∧
    ∀ newPC origin, origin ∈ originsAt result.instructions newPC ↔
      ∃ references, table[newPC]? = some references ∧ ∃ reference ∈ references,
        ∃ original ∈ info.getOriginsForPC reference.oldPC,
          origin = referredOrigin oldToNew reference original
  scopes : List.Forall₂ (MovesScope oldToNew count) info.scopes result.scopes
  functions : (∀ (name : String) (function : FunctionDebugInfo),
      info.functions[name]? = some function → function.name = name) →
    ∀ name : String,
      Option.Rel (MovesFunction oldToNew count) info.functions[name]? result.functions[name]?
  variableMap : (∀ (name : String) (variable_ : VariableDebugInfo),
      info.variableMap[name]? = some variable_ → variable_.name = name) →
    ∀ name : String,
      Option.Rel (MovesAvailability oldToNew count) info.variableMap[name]? result.variableMap[name]?

variable {info : DebugInfo} {oldToNew : List (Option ℕ)} {count : ℕ}

/-- The origins of a new place after the copy has moved. -/
theorem mem_origins_remapPCs_copy (h : info.Core) {newPC : ℕ} {origin : SourceOrigin} :
    origin ∈ originsAt (info.copy.remapPCs oldToNew count).instructions newPC ↔
      ∃ (oldPC : ℕ) (instruction : InstructionDebugInfo),
        mapPC oldToNew count oldPC = some newPC ∧ info.instructions[oldPC]? = some instruction ∧
        ∃ original ∈ upgradeOrigins oldPC instruction instruction.origins,
          origin = remapOrigin oldToNew count oldPC
            (completeOrigin info.copyScopes info.copyFunctions oldPC original) := by
  have hinstructions : (info.copy.remapPCs oldToNew count).instructions =
      remapInstructions oldToNew count info.copy.instructions := rfl
  have hcopy : ∀ pc : ℕ, (info.copy.instructions)[pc]? =
      (info.instructions[pc]?).map info.copyInstruction := map_map_eq _ _
  rw [hinstructions, mem_origins_remapInstructions]
  refine exists_congr fun oldPC => ?_
  constructor
  · rintro ⟨copied, hmap, hget, horigin⟩
    rw [hcopy] at hget
    obtain ⟨instruction, hinstruction, rfl⟩ := Option.map_eq_some_iff.mp hget
    rw [upgradeOrigins_copyInstruction, copyInstruction, upgradeInstruction_origins,
      (h.instructions oldPC instruction hinstruction).1, List.map_map] at horigin
    obtain ⟨original, horiginal, rfl⟩ := List.mem_map.mp horigin
    exact ⟨instruction, hmap, hinstruction, original,
      mem_upgradeOrigins_uniqueOrigins.mp horiginal, rfl⟩
  · rintro ⟨instruction, hmap, hinstruction, original, horiginal, rfl⟩
    refine ⟨info.copyInstruction instruction, hmap, by rw [hcopy, hinstruction]; rfl, ?_⟩
    rw [upgradeOrigins_copyInstruction, copyInstruction, upgradeInstruction_origins,
      (h.instructions oldPC instruction hinstruction).1, List.map_map]
    exact List.mem_map.mpr ⟨original, mem_upgradeOrigins_uniqueOrigins.mpr horiginal, rfl⟩

theorem movesScope_remapScope {scope : ScopeDebugInfo} (hsmall : scope.Small)
    (hvalid : ∀ variable_ ∈ scope.variableList, validVariableRanges variable_ = true) :
    MovesScope oldToNew count scope (remapScope oldToNew count (copyScope scope)) := by
  refine ⟨?_, ?_⟩
  · intro hplaces newPC
    have hsame := (copiesScope_copyScope hsmall hvalid).places hplaces
    rw [containsPC_remapScope]
    simp only [ScopeDebugInfo.containsPC, hsame]
  · exact movesVariables_map (fun _ => rfl)
      fun variable_ hmem => availabilityRanges_of_valid (hvalid variable_ hmem)

theorem movesScopes_remapPCs_copy (h : info.Core) (hsmall : info.Small) :
    List.Forall₂ (MovesScope oldToNew count) info.scopes
      (info.copy.remapPCs oldToNew count).scopes := by
  have hscopes : (info.copy.remapPCs oldToNew count).scopes =
      (info.scopes.map copyScope).map (remapScope oldToNew count) := rfl
  rw [hscopes, List.map_map, List.forall₂_map_right_iff, List.forall₂_same]
  intro scope hscope
  exact movesScope_remapScope (hsmall.scopes scope hscope) (h.scopes scope hscope).2.1

theorem movesFunctions_remapPCs_copy (h : info.Core)
    (hnames : ∀ (name : String) (function : FunctionDebugInfo),
      info.functions[name]? = some function → function.name = name) (name : String) :
    Option.Rel (MovesFunction oldToNew count) info.functions[name]?
      (info.copy.remapPCs oldToNew count).functions[name]? := by
  have hfunctions : (info.copy.remapPCs oldToNew count).functions =
      info.copyFunctions.map fun _ => remapFunction oldToNew count := rfl
  rw [hfunctions, Std.ExtTreeMap.getElem?_map, getElem?_copyFunctions hnames]
  cases hget : info.functions[name]? with
  | none => exact Option.Rel.none
  | some function =>
      obtain ⟨_, hparameters, hlocals⟩ := h.functions name function hget
      refine Option.Rel.some ⟨?_, ?_⟩
      · exact movesVariables_map (fun _ => rfl)
          fun variable_ hmem => availabilityRanges_of_valid (hparameters variable_ hmem)
      · exact movesVariables_map (fun _ => rfl)
          fun variable_ hmem => availabilityRanges_of_valid (hlocals variable_ hmem)

theorem movesVariableMap_remapPCs_copy (h : info.Core)
    (hnames : ∀ (name : String) (variable_ : VariableDebugInfo),
      info.variableMap[name]? = some variable_ → variable_.name = name) (name : String) :
    Option.Rel (MovesAvailability oldToNew count) info.variableMap[name]?
      (info.copy.remapPCs oldToNew count).variableMap[name]? := by
  have hvariables : (info.copy.remapPCs oldToNew count).variableMap =
      (rekey (·.name) loadVariable info.variableMap).map fun _ => remapVariable oldToNew count := rfl
  have hkeys : ∀ (name : String) (variable_ : VariableDebugInfo),
      info.variableMap[name]? = some variable_ → (loadVariable variable_).name = name := hnames
  rw [hvariables, Std.ExtTreeMap.getElem?_map, getElem?_rekey_of_keys hkeys]
  cases hget : info.variableMap[name]? with
  | none => exact Option.Rel.none
  | some variable_ =>
      exact Option.Rel.some (movesAvailability_remapVariable rfl
        (availabilityRanges_of_valid (h.variableMap name variable_ hget)))

/-- The result of a remap that succeeds. -/
theorem remapped_spec (h : info.Valid) (hsmall : info.Small)
    {table : List (List OriginRewriteRef)} {result : DebugInfo}
    (hremapped : info.remapped oldToNew count table = some result) :
    info.Remapped oldToNew count table result := by
  have hcore := (validate_iff.mp h.checked).2
  unfold remapped at hremapped
  split_ifs at hremapped with hlength hregions
  rw [fromJson_eq_copy hcore hsmall] at hremapped
  simp only [Option.bind_eq_bind, Option.bind_some] at hremapped
  obtain ⟨candidate, hcandidate, hchecked⟩ := Option.bind_eq_some_iff.mp hremapped
  split_ifs at hchecked with hvalid
  obtain rfl := Option.some.inj hchecked
  have hrewritten := rewritten_of_foldlM hcandidate
  have hversion : candidate.version = "2.0" := hrewritten.version.trans rfl
  have hvalidate : candidate.validate = .ok () := by
    cases hresult : candidate.validate with
    | ok _ => rfl
    | error message =>
        rw [hresult] at hvalid
        exact absurd hvalid (by simp [Except.isOk, Except.toBool])
  refine ⟨⟨hversion, hvalidate⟩, ?_, ?_, ?_, ?_, ?_, ?_, ?_⟩
  · intro pc instruction hget origin horigin predicate hpredicate
    have hall : info.regionsKept oldToNew count = true := by simpa using hregions
    unfold regionsKept at hall
    rw [List.all_eq_true] at hall
    have hentry := hall (pc, instruction)
      (Std.ExtTreeMap.mem_toList_iff_getElem?_eq_some.mpr hget)
    have horiginAll := List.all_eq_true.mp hentry origin horigin
    exact (Bool.and_eq_true _ _ ▸ List.all_eq_true.mp horiginAll predicate hpredicate).1
  · rintro rfl newPC origin
    rw [hrewritten.others newPC (by simp), mem_origins_remapPCs_copy hcore]
  · rintro rfl oldPC newPC instruction hmap hget original horiginal
    have hmem : original ∈ upgradeOrigins oldPC instruction instruction.origins := by
      unfold upgradeOrigins
      rwa [if_neg fun hnil => List.ne_nil_of_mem horiginal hnil.1]
    rw [hrewritten.others newPC (by simp)]
    refine ⟨_, (mem_origins_remapPCs_copy hcore).mpr
      ⟨oldPC, instruction, hmap, hget, original, hmem, rfl⟩, ?_⟩
    have hcompletes := completes_completeOrigin info.copyScopes info.copyFunctions oldPC original
    refine ⟨hcompletes.location, ?_, hcompletes.affectedVars, hcompletes.scopeId,
      hcompletes.functionName, ?_⟩
    · simp only [remapOrigin, hcompletes.path]
    · intro hne
      obtain ⟨originalPC, hpc⟩ := Option.ne_none_iff_exists'.mp hne
      have hpc' : original.originalPC = some originalPC := hpc
      simp [remapOrigin, completeOrigin, hpc']
  · intro hne
    have hcount : table.length = count := by
      by_contra hother
      exact hlength ⟨hne, hother⟩
    refine ⟨hcount, ?_⟩
    intro newPC origin
    cases hreferences : table[newPC]? with
    | some references =>
        have horigins := hrewritten.origins newPC references hreferences origin
        rw [Nat.zero_add] at horigins
        rw [horigins]
        simp
    | none =>
        -- no instruction is moved past the end
        have hge : count ≤ newPC := hcount ▸ List.getElem?_eq_none_iff.mp hreferences
        rw [hrewritten.others newPC (by omega), mem_origins_remapPCs_copy hcore]
        constructor
        · rintro ⟨oldPC, instruction, hmap, _⟩
          exact absurd (lt_of_mapPC hmap).2 (by omega)
        · rintro ⟨references, hsome, _⟩
          exact absurd hsome (by simp)
  · rw [hrewritten.scopes]
    exact movesScopes_remapPCs_copy hcore hsmall
  · rw [hrewritten.functions]
    exact movesFunctions_remapPCs_copy hcore
  · rw [hrewritten.variableMap]
    exact movesVariableMap_remapPCs_copy hcore

/-- **A remap is applied as a whole or not at all**, and what it leaves: the result is valid, and
the origins of every new place are exactly those of its old places, or those the table refers to. -/
theorem applyRemapTransactional_spec (h : info.Valid) (hsmall : info.Small)
    (oldToNew : List (Option ℕ)) (count : ℕ) (table : List (List OriginRewriteRef)) :
    info.applyRemapTransactional oldToNew count table = (false, info) ∨
      ∃ result, info.applyRemapTransactional oldToNew count table = (true, result) ∧
        info.Remapped oldToNew count table result := by
  unfold applyRemapTransactional
  cases hremapped : info.remapped oldToNew count table with
  | none => exact Or.inl rfl
  | some result => exact Or.inr ⟨result, rfl, remapped_spec h hsmall hremapped⟩

def oneOrigin : DebugInfo :=
  { oneInstruction with
    instructions := (∅ : PCMap InstructionDebugInfo).insert 0
      { pc := 0, location := { filename := "a.ct", line := 1 }, opcode := "51"
        origins := [{ location := { filename := "a.ct", line := 1 }, originalPC := some 0 }] } }

theorem oneOrigin_valid : oneOrigin.Valid := ⟨rfl, by decide +kernel⟩

theorem oneOrigin_small : oneOrigin.Small := by
  refine ⟨?_, ?_, ?_, ?_, ?_⟩
  · simp [oneOrigin, oneInstruction]
  · intro pc instruction hget
    simp only [oneOrigin, Std.ExtTreeMap.getElem?_insert, Std.ExtTreeMap.getElem?_empty] at hget
    split_ifs at hget
    obtain rfl := Option.some.inj hget
    refine ⟨by norm_num, ⟨by norm_num, by norm_num⟩, ?_⟩
    intro origin horigin
    obtain rfl := List.mem_singleton.mp horigin
    exact ⟨by norm_num, by norm_num⟩
  · simp [oneOrigin, oneInstruction]
  · simp [oneOrigin, oneInstruction]
  · simp [oneOrigin, oneInstruction]

theorem applyRemapTransactional_spec_oneOrigin :
    oneOrigin.Valid ∧ oneOrigin.Small ∧
      (oneOrigin.applyRemapTransactional [some 0] 1 [] = (false, oneOrigin) ∨
        ∃ result, oneOrigin.applyRemapTransactional [some 0] 1 [] = (true, result) ∧
          oneOrigin.Remapped [some 0] 1 [] result) :=
  ⟨oneOrigin_valid, oneOrigin_small,
    applyRemapTransactional_spec oneOrigin_valid oneOrigin_small [some 0] 1 []⟩

/-- A table that does not refer to an old place drops its origins, although the place is kept. -/
theorem not_kept_of_table : ¬ ∀ (info : DebugInfo) (oldToNew : List (Option ℕ)) (count : ℕ)
    (table : List (List OriginRewriteRef)) (result : DebugInfo), info.Valid →
    info.applyRemapTransactional oldToNew count table = (true, result) →
    ∀ oldPC newPC, mapPC oldToNew count oldPC = some newPC →
      originsAt info.instructions oldPC ≠ [] → originsAt result.instructions newPC ≠ [] := by
  intro hkept
  have hrun : ((oneOrigin.applyRemapTransactional [some 0] 1 [[]]).1,
      originsAt (oneOrigin.applyRemapTransactional [some 0] 1 [[]]).2.instructions 0) =
      (true, []) := by
    decide +kernel
  obtain ⟨happlied, hdropped⟩ := Prod.mk.inj hrun
  refine hkept oneOrigin [some 0] 1 [[]] _ oneOrigin_valid (Prod.ext happlied rfl) 0 0 rfl ?_ hdropped
  simp [originsAt, oneOrigin]

end DebugInfo

end ApcDebug

end AtomicProof
