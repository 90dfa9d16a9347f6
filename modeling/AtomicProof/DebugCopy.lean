/-
The copy of the debug information that a rewrite works on.

`DebugInfo::remapped` in `src/src/debugger/info/debug_info.cpp` writes the debug information as JSON
and reads it back.  Reading is also how files of the first version are brought up to date, whatever
the version of what is read, so the copy is the original exactly if the original is in the form that
reading establishes.

Main definitions:

* `DebugInfo.copy` — the copy;
* `DebugInfo.Canonical` — the form that reading establishes;
* `DebugInfo.Copies` — what the copy keeps of information in any form.

Main results:

* `DebugInfo.fromJson_eq_copy` — reading back what is valid gives the copy;
* `DebugInfo.copy_eq_self_iff` — the copy is the original exactly if the original is canonical;
* `DebugInfo.fromJson_spec` — **reading back succeeds, and what the copy is**.
-/

import AtomicProof.DebugRead

set_option autoImplicit false

namespace AtomicProof

namespace ApcDebug

/-! ### The copy -/

namespace DebugInfo

variable {info : DebugInfo}

def copyScopes (info : DebugInfo) : List ScopeDebugInfo := info.scopes.map copyScope

def copyFunctions (info : DebugInfo) : NameMap FunctionDebugInfo :=
  rekey (·.name) (loadFunction info.scopes info.copyScopes) info.functions

theorem getElem?_copyFunctions (hnames : ∀ (name : String) (function : FunctionDebugInfo),
    info.functions[name]? = some function → function.name = name) (name : String) :
    info.copyFunctions[name]? =
      (info.functions[name]?).map (loadFunction info.scopes info.copyScopes) := by
  have hkeys : ∀ (name : String) (function : FunctionDebugInfo),
      info.functions[name]? = some function →
        (loadFunction info.scopes info.copyScopes function).name = name := hnames
  exact getElem?_rekey_of_keys hkeys name

/-- The instruction of the copy that is made of an instruction. -/
def copyInstruction (info : DebugInfo) (instruction : InstructionDebugInfo) : InstructionDebugInfo :=
  upgradeInstruction info.copyScopes info.copyFunctions
    { instruction with origins := uniqueOrigins instruction.origins }

/-- The copy of information that is valid and whose numbers fit. -/
def copy (info : DebugInfo) : DebugInfo :=
  withLines
    { info with
      version := "2.0"
      instructions := info.instructions.map fun _ => info.copyInstruction
      pcToSource := addLocations (info.instructions.map fun _ => info.copyInstruction) info.pcToSource
      functions := info.copyFunctions
      scopes := info.copyScopes
      variableMap := rekey (·.name) loadVariable info.variableMap }

theorem map_map_eq {α β : Type} (f : α → β) (map : PCMap α) (pc : ℕ) :
    (map.map fun _ => f)[pc]? = map[pc]?.map f := Std.ExtTreeMap.getElem?_map

theorem Core.scopeId_ne (h : info.Core) : ∀ scope ∈ info.scopes, scope.scopeId ≠ 0 :=
  fun scope hscope => (h.scopes scope hscope).1

theorem copyScopes_scopeId (info : DebugInfo) :
    info.copyScopes.map (·.scopeId) = info.scopes.map (·.scopeId) := by
  rw [copyScopes, List.map_map]
  rfl

theorem copyScopes_parent (info : DebugInfo) :
    info.copyScopes.map (·.parent) = info.scopes.map (·.parent) := by
  rw [copyScopes, List.map_map]
  refine List.map_congr_left ?_
  intro scope _
  exact loadScope_parent scope.scopeId scope

/-- The instructions are read in their places. -/
theorem copyInstructions_eq (h : info.Core) (hsmall : info.Small) :
    ((rekey (·.pc) readInstruction info.instructions).map fun _ instruction =>
        upgradeInstruction info.copyScopes info.copyFunctions instruction) =
      info.instructions.map fun _ => info.copyInstruction := by
  have hread : ∀ (pc : ℕ) (instruction : InstructionDebugInfo),
      info.instructions[pc]? = some instruction →
        readInstruction instruction =
          { instruction with origins := uniqueOrigins instruction.origins } :=
    fun pc instruction hget => readInstruction_of_small (hsmall.instructions pc instruction hget)
  have hkeys : ∀ (pc : ℕ) (instruction : InstructionDebugInfo),
      info.instructions[pc]? = some instruction → (readInstruction instruction).pc = pc := by
    intro pc instruction hget
    rw [hread pc instruction hget]
    exact (h.instructions pc instruction hget).1
  refine Std.ExtTreeMap.ext_getElem? ?_
  intro pc
  rw [map_map_eq, Std.ExtTreeMap.getElem?_map, getElem?_rekey_of_keys hkeys]
  cases hget : info.instructions[pc]? with
  | none => rfl
  | some instruction =>
      simp only [Option.map_some, hread pc instruction hget]
      rfl

theorem loadLocation_pcToSource (hsmall : info.Small) :
    (info.pcToSource.map fun _ => loadLocation) = info.pcToSource := by
  refine Std.ExtTreeMap.ext_getElem? ?_
  intro pc
  rw [Std.ExtTreeMap.getElem?_map]
  cases hget : info.pcToSource[pc]? with
  | none => rfl
  | some location => rw [Option.map_some, loadLocation_of_small (hsmall.sources pc location hget)]

theorem core_withLines : info.withLines.Core ↔ info.Core := by
  constructor
  · intro h
    exact ⟨h.named, h.sources, h.functions, h.scopes, h.ids, h.rooted, h.instructions, h.variableMap⟩
  · intro h
    exact ⟨h.named, h.sources, h.functions, h.scopes, h.ids, h.rooted, h.instructions, h.variableMap⟩

theorem validVariableRanges_congr {a b : VariableDebugInfo}
    (hexplicit : a.hasExplicitAvailability = b.hasExplicitAvailability)
    (hranges : a.availabilityRanges = b.availabilityRanges) :
    validVariableRanges a = validVariableRanges b := by
  unfold validVariableRanges
  rw [hexplicit, hranges]

theorem validVariableRanges_loadVariable {variable_ : VariableDebugInfo}
    (h : validVariableRanges variable_ = true) :
    validVariableRanges (loadVariable variable_) = true := by
  have hsame : validVariableRanges (loadVariable variable_) = validVariableRanges variable_ :=
    validVariableRanges_congr rfl (availabilityRanges_of_valid h)
  rw [hsame, h]

/-- What is inferred about an origin passes the check. -/
theorem OriginCore_completeOrigin {scopes : List ScopeDebugInfo} {ids : List ℕ}
    (hids : ∀ scope ∈ scopes, scope.scopeId ∈ ids) {functions : NameMap FunctionDebugInfo}
    {instructions : PCMap InstructionDebugInfo} {pc : ℕ} {origin : SourceOrigin}
    (h : OriginCore instructions ids pc origin) :
    OriginCore instructions ids pc (completeOrigin scopes functions pc origin) := by
  refine ⟨h.located, h.arms, ?_, h.regions⟩
  intro hne
  simp only [completeOrigin] at hne ⊢
  split_ifs at hne ⊢ with hzero
  · cases hinfer : inferScope scopes pc with
    | none =>
        rw [hinfer] at hne
        exact absurd rfl hne
    | some scope => exact hids scope (mem_of_inferScope hinfer)
  · exact h.scope hzero

theorem OriginCore.congr {instructions others : PCMap InstructionDebugInfo} {ids : List ℕ} {pc : ℕ}
    {origin : SourceOrigin} (hopener : ∀ pc, isOpener others pc = isOpener instructions pc)
    (h : OriginCore instructions ids pc origin) : OriginCore others ids pc origin := by
  refine ⟨h.located, h.arms, h.scope, ?_⟩
  intro predicate hmem
  rw [hopener]
  exact h.regions predicate hmem

theorem upgradeInstruction_pc (scopes : List ScopeDebugInfo) (functions : NameMap FunctionDebugInfo)
    (instruction : InstructionDebugInfo) :
    (upgradeInstruction scopes functions instruction).pc = instruction.pc := by
  unfold upgradeInstruction
  dsimp only
  split <;> rfl

theorem upgradeInstruction_opcode (scopes : List ScopeDebugInfo)
    (functions : NameMap FunctionDebugInfo) (instruction : InstructionDebugInfo) :
    (upgradeInstruction scopes functions instruction).opcode = instruction.opcode := by
  unfold upgradeInstruction
  dsimp only
  split <;> rfl

theorem upgradeInstruction_operand (scopes : List ScopeDebugInfo)
    (functions : NameMap FunctionDebugInfo) (instruction : InstructionDebugInfo) :
    (upgradeInstruction scopes functions instruction).operand = instruction.operand := by
  unfold upgradeInstruction
  dsimp only
  split <;> rfl

theorem isOpener_map {instructions : PCMap InstructionDebugInfo}
    {f : InstructionDebugInfo → InstructionDebugInfo}
    (h : ∀ instruction, (f instruction).opcode = instruction.opcode) (pc : ℕ) :
    isOpener (instructions.map fun _ => f) pc = isOpener instructions pc := by
  unfold isOpener
  rw [map_map_eq, Option.any_map]
  cases instructions[pc]? with
  | none => rfl
  | some instruction => simp [h]

/-- The copy passes the check. -/
theorem copy_core (h : info.Core) (hsmall : info.Small) : info.copy.Core := by
  have hids : ∀ scope ∈ info.copyScopes, scope.scopeId ∈ info.scopes.map (·.scopeId) := by
    intro scope hscope
    rw [← copyScopes_scopeId]
    exact List.mem_map_of_mem hscope
  have hopener : ∀ pc, isOpener (info.instructions.map fun _ => info.copyInstruction) pc =
      isOpener info.instructions pc :=
    isOpener_map fun instruction => upgradeInstruction_opcode _ _ _
  have horigins : ∀ (pc : ℕ) (instruction : InstructionDebugInfo),
      info.instructions[pc]? = some instruction →
      ∀ origin ∈ (info.copyInstruction instruction).origins,
        OriginCore (info.instructions.map fun _ => info.copyInstruction)
          (info.scopes.map (·.scopeId)) pc origin := by
    intro pc instruction hget origin hmem
    obtain ⟨hpc, hinstruction⟩ := h.instructions pc instruction hget
    rw [copyInstruction, upgradeInstruction_origins, hpc] at hmem
    obtain ⟨original, horiginal, rfl⟩ := List.mem_map.mp hmem
    refine OriginCore_completeOrigin hids (OriginCore.congr hopener ?_)
    unfold upgradeOrigins at horiginal
    split_ifs at horiginal with hupgrade
    · obtain rfl := List.mem_singleton.mp horiginal
      exact ⟨hupgrade.2, List.nodup_nil, fun hne => absurd rfl hne, by simp⟩
    · exact hinstruction original (mem_uniqueOrigins.mp horiginal)
  -- one goal for each table of the debug information
  refine core_withLines.mpr ⟨h.named, ?_, ?_, ?_, ?_, ?_, ?_, ?_⟩
  · intro pc location hget
    rw [getElem?_addLocations] at hget
    split at hget
    · rename_i instruction hinstruction
      obtain rfl := Option.some.inj hget
      exact (Option.filter_eq_some_iff.mp hinstruction).2
    · exact h.sources pc location hget
  · intro name function hget
    obtain ⟨_, name', function', hget', rfl⟩ := exists_of_getElem?_rekey hget
    obtain ⟨hle, hparameters, hlocals⟩ := h.functions name' function' hget'
    obtain ⟨⟨hstart, hend, _⟩, _⟩ := hsmall.functions name' function' hget'
    refine ⟨?_, ?_, ?_⟩
    · simp only [loadFunction, readInt_of_lt hstart, readInt_of_lt hend]
      exact hle
    · intro variable_ hmem
      obtain ⟨parameter, hparameter, rfl⟩ := List.mem_map.mp hmem
      exact validVariableRanges_loadVariable (hparameters parameter hparameter)
    · intro variable_ hmem
      obtain ⟨localVar, hlocalVar, rfl⟩ := List.mem_map.mp hmem
      exact validVariableRanges_loadVariable (hlocals localVar hlocalVar)
  · intro scope hmem
    obtain ⟨original, horiginal, rfl⟩ := List.mem_map.mp hmem
    obtain ⟨hne, hvariables, hparent⟩ := h.scopes original horiginal
    refine ⟨hne, ?_, ?_⟩
    · intro variable_ hvariable
      obtain ⟨declared, hdeclared, rfl⟩ := List.mem_map.mp hvariable
      exact validVariableRanges_loadVariable (hvariables declared hdeclared)
    · intro parent hget
      have hlength : info.copyScopes.length = info.scopes.length := List.length_map _
      rw [hlength]
      exact hparent parent ((loadScope_parent _ _).symm.trans hget)
  · rw [copyScopes_scopeId]
    exact h.ids
  · rw [copyScopes_parent]
    have hlength : info.copyScopes.length = info.scopes.length := List.length_map _
    rw [hlength]
    exact h.rooted
  · intro pc instruction hget
    rw [map_map_eq] at hget
    obtain ⟨original, horiginal, rfl⟩ := Option.map_eq_some_iff.mp hget
    rw [copyScopes_scopeId]
    refine ⟨?_, horigins pc original horiginal⟩
    rw [copyInstruction, upgradeInstruction_pc]
    exact (h.instructions pc original horiginal).1
  · intro name variable_ hget
    obtain ⟨_, name', declared, hget', rfl⟩ := exists_of_getElem?_rekey hget
    exact validVariableRanges_loadVariable (h.variableMap name' declared hget')

theorem fromJson_eq_copy (h : info.Core) (hsmall : info.Small) :
    info.fromJson = some info.copy := by
  have hcore := validateV2Core_iff.mpr (copy_core h hsmall)
  unfold fromJson
  rw [h.loadScopes_eq]
  simp only [Option.bind_eq_bind, Option.bind_some]
  have hinstructions := copyInstructions_eq h hsmall
  unfold copyFunctions copyScopes at hinstructions
  rw [hinstructions, loadLocation_pcToSource hsmall]
  exact if_pos hcore

/-! ### The form that reading establishes -/

structure Canonical (info : DebugInfo) : Prop where
  scopes : ∀ scope ∈ info.scopes, CanonicalScope scope
  functions : ∀ (name : String) (function : FunctionDebugInfo),
    info.functions[name]? = some function →
      function.name = name ∧ CanonicalFunction info.scopes function
  variableMap : ∀ (name : String) (variable_ : VariableDebugInfo),
    info.variableMap[name]? = some variable_ → variable_.name = name
  instructions : ∀ (pc : ℕ) (instruction : InstructionDebugInfo),
    info.instructions[pc]? = some instruction →
      CanonicalInstruction info.scopes info.functions instruction
  sources : ∀ (pc : ℕ) (instruction : InstructionDebugInfo),
    info.instructions[pc]? = some instruction → instruction.location.isValid →
      info.pcToSource[pc]? = some instruction.location
  lines : info.lineToPCs = buildLineToPC info.instructions info.pcToSource

theorem map_eq_self_iff {map : PCMap InstructionDebugInfo}
    {f : InstructionDebugInfo → InstructionDebugInfo} :
    (map.map fun _ => f) = map ↔ ∀ (pc : ℕ) (instruction : InstructionDebugInfo),
      map[pc]? = some instruction → f instruction = instruction := by
  constructor
  · intro heq pc instruction hget
    have hmap := map_map_eq f map pc
    rw [heq, hget, Option.map_some] at hmap
    exact (Option.some.inj hmap).symm
  · intro h
    refine Std.ExtTreeMap.ext_getElem? ?_
    intro pc
    rw [map_map_eq]
    cases hget : map[pc]? with
    | none => rfl
    | some instruction => rw [Option.map_some, h pc instruction hget]

theorem copyScopes_eq_self_iff (h : info.Core) (hsmall : info.Small) :
    info.copyScopes = info.scopes ↔ ∀ scope ∈ info.scopes, CanonicalScope scope := by
  rw [copyScopes, ApcDebug.map_eq_self_iff]
  refine forall₂_congr ?_
  intro scope hscope
  exact copyScope_eq_self_iff (hsmall.scopes scope hscope) (h.scopeId_ne scope hscope)
    (h.scopes scope hscope).2.1

theorem copyFunctions_eq_self_iff (h : info.Core) (hsmall : info.Small)
    (hscopes : info.copyScopes = info.scopes) :
    info.copyFunctions = info.functions ↔ ∀ (name : String) (function : FunctionDebugInfo),
      info.functions[name]? = some function →
        function.name = name ∧ CanonicalFunction info.scopes function := by
  have hname : ∀ function : FunctionDebugInfo,
      (loadFunction info.scopes info.scopes function).name = function.name := fun _ => rfl
  rw [copyFunctions, hscopes, rekey_eq_self_iff hname]
  refine forall₃_congr ?_
  intro name function hget
  have hvalid := h.functions name function hget
  rw [loadFunction_eq_self_iff h.ids h.scopeId_ne (hsmall.functions name function hget)
    hvalid.2.1 hvalid.2.2]

theorem variableMap_eq_self_iff (h : info.Core) (hsmall : info.Small) :
    rekey (·.name) loadVariable info.variableMap = info.variableMap ↔
      ∀ (name : String) (variable_ : VariableDebugInfo),
        info.variableMap[name]? = some variable_ → variable_.name = name := by
  have hname : ∀ variable_ : VariableDebugInfo, (loadVariable variable_).name = variable_.name :=
    fun _ => rfl
  rw [rekey_eq_self_iff hname]
  refine forall₃_congr ?_
  intro name variable_ hget
  have hload := loadVariable_of_small (hsmall.variableMap name variable_ hget)
    (h.variableMap name variable_ hget)
  exact ⟨fun heq => heq.1, fun heq => ⟨heq, hload⟩⟩

theorem copyInstructions_eq_self_iff (h : info.Core) (hsmall : info.Small)
    (hscopes : info.copyScopes = info.scopes) (hfunctions : info.copyFunctions = info.functions) :
    (info.instructions.map fun _ => info.copyInstruction) = info.instructions ↔
      ∀ (pc : ℕ) (instruction : InstructionDebugInfo),
        info.instructions[pc]? = some instruction →
          CanonicalInstruction info.scopes info.functions instruction := by
  rw [map_eq_self_iff]
  refine forall₃_congr ?_
  intro pc instruction hget
  have hsmall' := hsmall.instructions pc instruction hget
  rw [← upgradeInstruction_eq_self_iff h.scopeId_ne hsmall', readInstruction_of_small hsmall',
    copyInstruction, hscopes, hfunctions]

/-- The copy is the original exactly if the original has the form that reading establishes. -/
theorem copy_eq_self_iff (h : info.Valid) (hsmall : info.Small) :
    info.copy = info ↔ info.Canonical := by
  have hcore := (validate_iff.mp h.checked).2
  constructor
  · intro heq
    have hscopes := congrArg DebugInfo.scopes heq
    have hfunctions := congrArg DebugInfo.functions heq
    have hinstructions := congrArg DebugInfo.instructions heq
    have hsources := congrArg DebugInfo.pcToSource heq
    have hlines := congrArg DebugInfo.lineToPCs heq
    have hvariables := congrArg DebugInfo.variableMap heq
    simp only [copy, withLines] at hscopes hfunctions hinstructions hsources hlines hvariables
    rw [hinstructions] at hsources hlines
    rw [hsources] at hlines
    exact ⟨(copyScopes_eq_self_iff hcore hsmall).mp hscopes,
      (copyFunctions_eq_self_iff hcore hsmall hscopes).mp hfunctions,
      (variableMap_eq_self_iff hcore hsmall).mp hvariables,
      (copyInstructions_eq_self_iff hcore hsmall hscopes hfunctions).mp hinstructions,
      addLocations_eq_self_iff.mp hsources, hlines.symm⟩
  · intro hcanonical
    have hscopes := (copyScopes_eq_self_iff hcore hsmall).mpr hcanonical.scopes
    have hfunctions := (copyFunctions_eq_self_iff hcore hsmall hscopes).mpr hcanonical.functions
    have hinstructions :=
      (copyInstructions_eq_self_iff hcore hsmall hscopes hfunctions).mpr hcanonical.instructions
    have hsources := addLocations_eq_self_iff.mpr hcanonical.sources
    have hvariables := (variableMap_eq_self_iff hcore hsmall).mpr hcanonical.variableMap
    simp only [copy, withLines, hinstructions, hsources, hfunctions, hscopes, hvariables,
      ← hcanonical.lines, ← h.version]

/-! ### What is kept in any form -/

/-- An origin with what was missing in it. -/
structure Completes (origin completed : SourceOrigin) : Prop where
  location : completed.location = origin.location
  path : completed.path = origin.path
  affectedVars : completed.affectedVars = origin.affectedVars
  scopeId : origin.scopeId ≠ 0 → completed.scopeId = origin.scopeId
  functionName : origin.functionName ≠ "" → completed.functionName = origin.functionName
  originalPC : origin.originalPC ≠ none → completed.originalPC = origin.originalPC

theorem completes_completeOrigin (scopes : List ScopeDebugInfo)
    (functions : NameMap FunctionDebugInfo) (pc : ℕ) (origin : SourceOrigin) :
    Completes origin (completeOrigin scopes functions pc origin) := by
  refine ⟨rfl, rfl, rfl, fun hne => if_neg hne, fun hne => if_neg hne, ?_⟩
  intro hne
  obtain ⟨original, horiginal⟩ := Option.ne_none_iff_exists'.mp hne
  simp [completeOrigin, horiginal]

/-- The origin that a location without one becomes. -/
def locationOrigin (instruction : InstructionDebugInfo) : SourceOrigin :=
  { location := instruction.location, affectedVars := instruction.affectedVars }

/-- An instruction of the copy has what the instruction has; its origins are the ones of the
instruction, or the one of its location where it has none. -/
structure CopiesInstruction (instruction copied : InstructionDebugInfo) : Prop where
  pc : copied.pc = instruction.pc
  opcode : copied.opcode = instruction.opcode
  operand : copied.operand = instruction.operand
  origins : ∀ origin ∈ instruction.origins, ∃ completed ∈ copied.origins, Completes origin completed
  onto : ∀ completed ∈ copied.origins, ∃ origin, Completes origin completed ∧
    (origin ∈ instruction.origins ∨ instruction.origins = [] ∧ origin = locationOrigin instruction)

/-- A variable of a scope of the copy has what the variable has, and may have got a scope. -/
structure CopiesVariable (variable_ copied : VariableDebugInfo) : Prop where
  scopeId : variable_.scopeId ≠ 0 → copied.scopeId = variable_.scopeId
  scopeName : variable_.scopeName ≠ "" → copied.scopeName = variable_.scopeName
  rest : { copied with scopeId := variable_.scopeId, scopeName := variable_.scopeName } = variable_

/-- A scope of the copy has what the scope has, and the same places unless all ranges of the scope
are empty. -/
structure CopiesScope (scope copied : ScopeDebugInfo) : Prop where
  scopeId : copied.scopeId = scope.scopeId
  name : copied.name = scope.name
  type : copied.type = scope.type
  location : copied.location = scope.location
  parent : copied.parent = scope.parent
  places : scope.ranges = [] ∨ effectiveRanges scope ≠ [] →
    effectiveRanges copied = effectiveRanges scope
  variableList : List.Forall₂ CopiesVariable scope.variableList copied.variableList

/-- A function of the copy has what the function has; its parameters are marked, and its scope is
the one that was found for it. -/
structure CopiesFunction (function copied : FunctionDebugInfo) : Prop where
  parameters : copied.parameters = function.parameters.map fun parameter =>
    { parameter with isParameter := true }
  rest : { copied with
    parameters := function.parameters
    scope := function.scope
    scopeId := function.scopeId } = function

/-- What the copy keeps of information in any form. -/
structure Copies (info copied : DebugInfo) : Prop where
  sourceFilename : copied.sourceFilename = info.sourceFilename
  contractName : copied.contractName = info.contractName
  places : ∀ pc : ℕ, (copied.instructions[pc]?).isSome = (info.instructions[pc]?).isSome
  instructions : ∀ (pc : ℕ) (instruction other : InstructionDebugInfo),
    info.instructions[pc]? = some instruction → copied.instructions[pc]? = some other →
      CopiesInstruction instruction other
  scopes : List.Forall₂ CopiesScope info.scopes copied.scopes
  functions : (∀ (name : String) (function : FunctionDebugInfo),
      info.functions[name]? = some function → function.name = name) →
    ∀ name : String, Option.Rel CopiesFunction info.functions[name]? copied.functions[name]?
  variableMap : (∀ (name : String) (variable_ : VariableDebugInfo),
      info.variableMap[name]? = some variable_ → variable_.name = name) →
    copied.variableMap = info.variableMap
  sources : ∀ pc : ℕ, info.instructions[pc]? = none → copied.pcToSource[pc]? = info.pcToSource[pc]?

theorem copiesInstruction_copyInstruction (instruction : InstructionDebugInfo) :
    CopiesInstruction instruction (info.copyInstruction instruction) := by
  refine ⟨upgradeInstruction_pc _ _ _, upgradeInstruction_opcode _ _ _,
    upgradeInstruction_operand _ _ _, ?_, ?_⟩
  · intro origin hmem
    have hne : uniqueOrigins instruction.origins ≠ [] :=
      List.ne_nil_of_mem (mem_uniqueOrigins.mpr hmem)
    refine ⟨_, ?_, completes_completeOrigin info.copyScopes info.copyFunctions instruction.pc origin⟩
    rw [copyInstruction, upgradeInstruction_origins, upgradeOrigins, if_neg fun h => hne h.1]
    exact List.mem_map_of_mem (mem_uniqueOrigins.mpr hmem)
  · intro completed hmem
    rw [copyInstruction, upgradeInstruction_origins] at hmem
    obtain ⟨origin, horigin, rfl⟩ := List.mem_map.mp hmem
    have hcompletes := completes_completeOrigin info.copyScopes info.copyFunctions instruction.pc origin
    unfold upgradeOrigins at horigin
    split_ifs at horigin with hupgrade
    · obtain rfl := List.mem_singleton.mp horigin
      refine ⟨locationOrigin instruction, ?_,
        Or.inr ⟨uniqueOrigins_eq_nil_iff.mp hupgrade.1, rfl⟩⟩
      exact ⟨rfl, rfl, rfl, fun hne => absurd rfl hne, fun hne => absurd rfl hne,
        fun hne => absurd rfl hne⟩
    · exact ⟨origin, hcompletes, Or.inl (mem_uniqueOrigins.mp horigin)⟩

theorem copiesVariable_loadScopeVariable {id : ℕ} {name : String} {variable_ : VariableDebugInfo}
    (hsmall : variable_.Small) (hvalid : validVariableRanges variable_ = true) :
    CopiesVariable variable_ (loadScopeVariable id name variable_) := by
  unfold loadScopeVariable
  rw [loadVariable_of_small hsmall hvalid]
  exact ⟨fun hne => if_neg hne, fun hne => if_neg hne, rfl⟩

theorem copiesFunction_loadFunction {written scopes : List ScopeDebugInfo}
    {function : FunctionDebugInfo} (hsmall : function.Small)
    (hparameters : ∀ variable_ ∈ function.parameters, validVariableRanges variable_ = true)
    (hlocals : ∀ variable_ ∈ function.localVars, validVariableRanges variable_ = true) :
    CopiesFunction function (loadFunction written scopes function) := by
  refine ⟨?_, ?_⟩
  · refine List.map_congr_left ?_
    intro parameter hmem
    rw [loadParameter,
      loadVariable_of_small (hsmall.2.1 parameter hmem) (hparameters parameter hmem)]
  · unfold loadFunction
    rw [readInt_of_lt hsmall.1.1, readInt_of_lt hsmall.1.2.1, loadLocation_of_small hsmall.1.2.2,
      map_loadVariable hsmall.2.2 hlocals]

theorem copiesScope_copyScope {scope : ScopeDebugInfo} (hsmall : scope.Small)
    (hvalid : ∀ variable_ ∈ scope.variableList, validVariableRanges variable_ = true) :
    CopiesScope scope (copyScope scope) := by
  refine ⟨rfl, ?_, ?_, ?_, loadScope_parent _ _, ?_, ?_⟩
  · rw [copyScope_eq hsmall]
    rfl
  · rw [copyScope_eq hsmall]
    rfl
  · rw [copyScope_eq hsmall]
    rfl
  · intro hplaces
    rw [copyScope_eq hsmall]
    by_cases hnil : effectiveRanges scope = []
    · have hranges : scope.ranges = [] := hplaces.resolve_right fun h => h hnil
      have hclosed : ¬ scope.startPC < scope.endPC := by
        intro hopen
        rw [effectiveRanges, if_neg (by simp [hranges]), if_pos hopen] at hnil
        exact absurd hnil (by simp)
      rw [hnil, if_neg fun h => hclosed h.2]
      simp [effectiveRanges, ScopeDebugInfo.withEnvelope, hclosed]
    · rw [if_neg fun h => hnil h.1]
      have hnormal := (normal_effectiveRanges scope).normalize_eq
      conv_lhs => rw [effectiveRanges]
      rw [if_pos hnil]
      exact hnormal
  · rw [copyScope_eq hsmall, List.forall₂_map_right_iff, List.forall₂_same]
    intro variable_ hmem
    exact copiesVariable_loadScopeVariable (hsmall.2.2 variable_ hmem) (hvalid variable_ hmem)

theorem copies_copy (h : info.Core) (hsmall : info.Small) : info.Copies info.copy := by
  have hget : ∀ pc : ℕ, (info.copy.instructions)[pc]? =
      (info.instructions[pc]?).map info.copyInstruction := map_map_eq _ _
  refine ⟨rfl, rfl, ?_, ?_, ?_, ?_, ?_, ?_⟩
  · intro pc
    rw [hget, Option.isSome_map]
  · intro pc instruction other hinstruction hother
    rw [hget, hinstruction] at hother
    obtain rfl := Option.some.inj hother
    exact copiesInstruction_copyInstruction instruction
  · have hscopes : info.copy.scopes = info.scopes.map copyScope := rfl
    rw [hscopes, List.forall₂_map_right_iff, List.forall₂_same]
    intro scope hscope
    exact copiesScope_copyScope (hsmall.scopes scope hscope) (h.scopes scope hscope).2.1
  · intro hnames name
    have hfunctions : info.copy.functions = info.copyFunctions := rfl
    rw [hfunctions, getElem?_copyFunctions hnames]
    cases hget : info.functions[name]? with
    | none => exact Option.Rel.none
    | some function =>
        obtain ⟨_, hparameters, hlocals⟩ := h.functions name function hget
        exact Option.Rel.some (copiesFunction_loadFunction
          (hsmall.functions name function hget) hparameters hlocals)
  · exact (variableMap_eq_self_iff h hsmall).mpr
  · intro pc hnone
    have hsource : info.copy.pcToSource =
        addLocations (info.instructions.map fun _ => info.copyInstruction) info.pcToSource := rfl
    rw [hsource, getElem?_addLocations, map_map_eq, hnone]
    rfl

/-- **Reading back what was written**: it succeeds on what is valid, the copy is valid and keeps the
instructions with their origins and the scopes with their parents and places, and it is the original
exactly if the original has the form that reading establishes. -/
theorem fromJson_spec (h : info.Valid) (hsmall : info.Small) :
    ∃ copied, info.fromJson = some copied ∧ copied.Valid ∧ info.Copies copied ∧
      (copied = info ↔ info.Canonical) := by
  obtain ⟨hnesting, hcore⟩ := validate_iff.mp h.checked
  refine ⟨info.copy, fromJson_eq_copy hcore hsmall, ?_, copies_copy hcore hsmall,
    copy_eq_self_iff h hsmall⟩
  exact ⟨rfl, validate_iff.mpr ⟨hnesting, copy_core hcore hsmall⟩⟩

/-- One instruction, with a location and without an origin. -/
def oneInstruction : DebugInfo where
  sourceFilename := "a.ct"
  contractName := "A"
  version := "2.0"
  pcToSource := ∅
  lineToPCs := ∅
  instructions := (∅ : PCMap InstructionDebugInfo).insert 0
    { pc := 0, location := { filename := "a.ct", line := 1 }, opcode := "51" }
  functions := ∅
  scopes := []
  variableMap := ∅

theorem oneInstruction_valid : oneInstruction.Valid :=
  ⟨rfl, by decide +kernel⟩

theorem oneInstruction_small : oneInstruction.Small := by
  refine ⟨?_, ?_, ?_, ?_, ?_⟩
  · simp [oneInstruction]
  · intro pc instruction hget
    simp only [oneInstruction, Std.ExtTreeMap.getElem?_insert, Std.ExtTreeMap.getElem?_empty] at hget
    split_ifs at hget
    obtain rfl := Option.some.inj hget
    exact ⟨by norm_num, ⟨by norm_num, by norm_num⟩, by simp⟩
  · simp [oneInstruction]
  · simp [oneInstruction]
  · simp [oneInstruction]

theorem fromJson_spec_oneInstruction :
    oneInstruction.Valid ∧ oneInstruction.Small ∧
      ∃ copied, oneInstruction.fromJson = some copied ∧ copied.Valid ∧
        oneInstruction.Copies copied ∧ (copied = oneInstruction ↔ oneInstruction.Canonical) :=
  ⟨oneInstruction_valid, oneInstruction_small,
    fromJson_spec oneInstruction_valid oneInstruction_small⟩

/-- The copy of an instruction without an origin has one. -/
theorem fromJson_oneInstruction_ne :
    oneInstruction.Valid ∧ oneInstruction.fromJson ≠ some oneInstruction := by
  refine ⟨oneInstruction_valid, ?_⟩
  intro heq
  have horigins : (oneInstruction.fromJson.bind (·.instructions[0]?)).map (·.origins.length) =
      some 1 := by
    decide +kernel
  rw [heq] at horigins
  exact absurd horigins (by decide +kernel)

end DebugInfo

end ApcDebug

end AtomicProof
