/-
The debug information of a script, and what a rewrite of the script does to it.

`DebugInfo` in `src/src/debugger/info/debug_info.cpp` maps the instructions of a script to the source
they come from and to the scopes and variables that are live there.  A pass that moves or deletes
instructions makes a copy of it, by writing it as JSON and reading it back, and moves the copy along
the map from old places to new ones.

A scope refers to its parent, and a function to its scope, by a place in the list of scopes.  The
links from a scope to its children and to the global scope follow from that list and are left out,
and so is the text of the JSON itself: what is modelled is what reading makes of what was written.

Main definitions:

* `DebugInfo` — the data;
* `validateV2Core` — what is checked about it;
* `fromJson` — the copy that is read back;
* `remapPCs`, `remapped`, `syncInstructionOpcodes` — what a rewrite does to it.
-/

import AtomicProof.HalfOpen
import Mathlib.Algebra.GroupWithZero.Nat
import Mathlib.Data.String.Basic
import Std.Data.ExtTreeMap

set_option autoImplicit false

namespace AtomicProof

namespace ApcDebug

abbrev PCMap (α : Type) := Std.ExtTreeMap ℕ α

abbrev NameMap (α : Type) := Std.ExtTreeMap String α

/-! ### Data -/

structure SourceLocation where
  filename : String := ""
  line : ℕ := 0
  column : ℕ := 0
  endLine : ℕ := 0
  endColumn : ℕ := 0
  deriving DecidableEq, Repr

def SourceLocation.isValid (location : SourceLocation) : Bool := 0 < location.line

inductive BranchArm
  | thenArm | elseArm
  deriving DecidableEq, Repr

structure BranchPredicate where
  region : ℕ
  arm : BranchArm
  deriving DecidableEq, Repr

/-- `SourceOrigin`.  The scope `0` is `INVALID_SCOPE_ID`, and no place stands for
`UNKNOWN_ORIGINAL_PC`. -/
structure SourceOrigin where
  location : SourceLocation
  scopeId : ℕ := 0
  functionName : String := ""
  originalPC : Option ℕ := none
  path : List BranchPredicate := []
  affectedVars : List String := []
  deriving DecidableEq, Repr

abbrev PCRange := HalfOpen.Interval

structure VariableDebugInfo where
  name : String
  type : String
  scopeName : String
  declLine : ℕ
  declColumn : ℕ
  isStackVar : Bool
  stackOffset : ℤ
  isParameter : Bool
  scopeId : ℕ
  hasExplicitAvailability : Bool
  availabilityRanges : List PCRange
  deriving DecidableEq, Repr

structure InstructionDebugInfo where
  pc : ℕ
  location : SourceLocation := {}
  opcode : String := ""
  operand : String := ""
  affectedVars : List String := []
  origins : List SourceOrigin := []
  deriving DecidableEq, Repr

inductive ScopeType
  | global | contract | function | block | loop | conditional
  deriving DecidableEq, Repr

structure ScopeDebugInfo where
  scopeId : ℕ
  name : String
  type : ScopeType
  location : SourceLocation
  startPC : ℕ
  endPC : ℕ
  ranges : List PCRange
  variableList : List VariableDebugInfo
  parent : Option ℕ
  deriving DecidableEq, Repr

structure FunctionDebugInfo where
  name : String
  location : SourceLocation
  startPC : ℕ
  endPC : ℕ
  parameters : List VariableDebugInfo
  localVars : List VariableDebugInfo
  scope : Option ℕ
  scopeId : ℕ
  isPublic : Bool
  deriving DecidableEq, Repr

structure DebugInfo where
  scopeNestingValid : Bool := true
  sourceFilename : String
  contractName : String
  version : String
  pcToSource : PCMap SourceLocation
  lineToPCs : PCMap (List ℕ)
  instructions : PCMap InstructionDebugInfo
  functions : NameMap FunctionDebugInfo
  scopes : List ScopeDebugInfo
  variableMap : NameMap VariableDebugInfo

structure OriginRewriteRef where
  oldPC : ℕ
  path : List BranchPredicate
  deriving DecidableEq, Repr

/-! ### Scopes, functions and lines -/

/-- `appendUniqueOrigin`: `sameOrigin` compares every field. -/
def appendUniqueOrigin (origins : List SourceOrigin) (origin : SourceOrigin) : List SourceOrigin :=
  if origin ∈ origins then origins else origins ++ [origin]

def effectiveRanges (scope : ScopeDebugInfo) : List PCRange :=
  if scope.ranges ≠ [] then HalfOpen.normalize scope.ranges
  else if scope.startPC < scope.endPC then [⟨scope.startPC, scope.endPC⟩]
  else []

def ScopeDebugInfo.containsPC (scope : ScopeDebugInfo) (pc : ℕ) : Bool :=
  HalfOpen.Covers (effectiveRanges scope) pc

def ScopeDebugInfo.coveredInstructionCount (scope : ScopeDebugInfo) : ℕ :=
  ((effectiveRanges scope).map fun range => range.upper - range.lower).sum

/-- The scopes from one to the root, at most `fuel` of them; `none` where the root is not among
them, which is where the parents form a cycle. -/
def parentChain (parents : List (Option ℕ)) : ℕ → ℕ → Option (List ℕ)
  | 0, _ => none
  | fuel + 1, index =>
      match parents[index]? with
      | some (some parent) => (parentChain parents fuel parent).map (index :: ·)
      | _ => some [index]

def scopeDepth (scopes : List ScopeDebugInfo) (index : ℕ) : ℕ :=
  ((parentChain (scopes.map (·.parent)) scopes.length index).map List.length).getD scopes.length

def getFunctionAtPC (functions : NameMap FunctionDebugInfo) (pc : ℕ) : Option FunctionDebugInfo :=
  (functions.toList.map Prod.snd).find? fun function => function.startPC ≤ pc && pc < function.endPC

/-- One step of the search for the scope of a place: the smallest scope, and of these the deepest. -/
def betterScope (scopes : List ScopeDebugInfo) (pc : ℕ) (best : Option (ScopeDebugInfo × ℕ × ℕ))
    (candidate : ScopeDebugInfo × ℕ) : Option (ScopeDebugInfo × ℕ × ℕ) :=
  if !candidate.1.containsPC pc then best
  else
    let coverage := candidate.1.coveredInstructionCount
    let depth := scopeDepth scopes candidate.2
    match best with
    | none => some (candidate.1, coverage, depth)
    | some (_, bestCoverage, bestDepth) =>
        if coverage < bestCoverage ∨ coverage = bestCoverage ∧ bestDepth < depth then
          some (candidate.1, coverage, depth)
        else best

def inferScope (scopes : List ScopeDebugInfo) (pc : ℕ) : Option ScopeDebugInfo :=
  (scopes.zipIdx.foldl (betterScope scopes pc) none).map Prod.fst

def instructionLines (instruction : InstructionDebugInfo) : List ℕ :=
  if instruction.origins ≠ [] then
    (instruction.origins.filter (·.location.isValid)).map (·.location.line)
  else if instruction.location.isValid then [instruction.location.line]
  else []

/-- The pairs of a line and a place that `buildLineToPC` goes through. -/
def lineEntries (instructions : PCMap InstructionDebugInfo) (pcToSource : PCMap SourceLocation) :
    List (ℕ × ℕ) :=
  instructions.toList.flatMap (fun entry => (instructionLines entry.2).map (·, entry.1)) ++
    (pcToSource.toList.filter fun entry =>
      !((instructions[entry.1]?).any fun instruction => instruction.origins ≠ []) &&
        entry.2.isValid).map fun entry => (entry.2.line, entry.1)

def buildLineToPC (instructions : PCMap InstructionDebugInfo) (pcToSource : PCMap SourceLocation) :
    PCMap (List ℕ) :=
  ((lineEntries instructions pcToSource).foldl
      (fun (map : PCMap (List ℕ)) entry => map.insert entry.1 (map.getD entry.1 [] ++ [entry.2])) ∅).map
    fun _ pcs => pcs.dedup.insertionSort (· ≤ ·)

def DebugInfo.withLines (info : DebugInfo) : DebugInfo :=
  { info with lineToPCs := buildLineToPC info.instructions info.pcToSource }

/-! ### Validation -/

def isStructuredIfOpcode (opcode : String) : Bool :=
  let normalized := (opcode.toList.filter fun c => !" \t\n\x0b\x0c\r".toList.contains c).map Char.toLower
  ["63", "64", "op_if", "op_notif"].any fun text => text.toList == normalized

/-- `validVariableRanges`: the ranges are not empty and in order. -/
def validVariableRanges (variable_ : VariableDebugInfo) : Bool :=
  if !variable_.hasExplicitAvailability then variable_.availabilityRanges.isEmpty
  else
    (variable_.availabilityRanges.all fun range => range.lower < range.upper) &&
      (variable_.availabilityRanges.zip variable_.availabilityRanges.tail).all fun pair =>
        pair.1.upper ≤ pair.2.lower

def hasDuplicatePathRegion (path : List BranchPredicate) : Bool :=
  !decide (path.map (·.region)).Nodup

def isOpener (instructions : PCMap InstructionDebugInfo) (pc : ℕ) : Bool :=
  (instructions[pc]?).any fun instruction => isStructuredIfOpcode instruction.opcode

/-- What `validateV2Core` checks about an origin of the instruction at a place. -/
def validOrigin (instructions : PCMap InstructionDebugInfo) (scopeIds : List ℕ) (pc : ℕ)
    (origin : SourceOrigin) : Bool :=
  origin.location.isValid && !hasDuplicatePathRegion origin.path &&
    (origin.scopeId == 0 || scopeIds.contains origin.scopeId) &&
    origin.path.all fun predicate => predicate.region < pc && isOpener instructions predicate.region

def DebugInfo.validateV2Core (info : DebugInfo) : Bool :=
  info.sourceFilename != "" &&
    info.pcToSource.toList.all (fun entry => entry.2.isValid) &&
    info.functions.toList.all (fun entry => entry.2.startPC ≤ entry.2.endPC &&
      entry.2.parameters.all validVariableRanges && entry.2.localVars.all validVariableRanges) &&
    info.scopes.all (fun scope => scope.scopeId != 0 && scope.variableList.all validVariableRanges &&
      scope.parent.all (· < info.scopes.length)) &&
    decide (info.scopes.map (·.scopeId)).Nodup &&
    (List.range info.scopes.length).all (fun index =>
      (parentChain (info.scopes.map (·.parent)) info.scopes.length index).isSome) &&
    info.instructions.toList.all (fun entry => entry.2.pc == entry.1 &&
      entry.2.origins.all
        (validOrigin info.instructions (info.scopes.map (·.scopeId)) entry.1)) &&
    info.variableMap.toList.all fun entry => validVariableRanges entry.2

/-- `validate` for version `2.0`, without a script. -/
def DebugInfo.validate (info : DebugInfo) : Except String Unit :=
  if !info.scopeNestingValid then .error "作用域 enter/exit 不配对"
  else if !info.validateV2Core then .error "DebugInfo V2 内部结构无效"
  else .ok ()

/-! ### The copy -/

/-- A number that is read with the `int` zero as its default: it is cut to 32 bits, and the sign of
these is extended when it is stored. -/
def readInt (n : ℕ) : ℕ :=
  if n % 2 ^ 32 < 2 ^ 31 then n % 2 ^ 32 else n % 2 ^ 32 + (2 ^ 64 - 2 ^ 32)

/-- `sourceLocationFromJson` of `sourceLocationToJson`.  The ends are read with a `size_t` as their
default. -/
def loadLocation (location : SourceLocation) : SourceLocation :=
  { location with line := readInt location.line, column := readInt location.column }

/-- `variableFromJson` of `variableToJson`. -/
def loadVariable (variable_ : VariableDebugInfo) : VariableDebugInfo :=
  { variable_ with
    declLine := readInt variable_.declLine
    declColumn := readInt variable_.declColumn
    availabilityRanges :=
      if variable_.hasExplicitAvailability then variable_.availabilityRanges else [] }

/-- A parameter that is read is marked as one. -/
def loadParameter (variable_ : VariableDebugInfo) : VariableDebugInfo :=
  { loadVariable variable_ with isParameter := true }

/-- A variable of a scope gets the identifier and the name of the scope where it has none. -/
def loadScopeVariable (scopeId : ℕ) (scopeName : String) (variable_ : VariableDebugInfo) :
    VariableDebugInfo :=
  let loaded := loadVariable variable_
  { loaded with
    scopeId := if loaded.scopeId = 0 then scopeId else loaded.scopeId
    scopeName := if loaded.scopeName = "" then scopeName else loaded.scopeName }

def ScopeDebugInfo.addRange (scope : ScopeDebugInfo) (range : PCRange) : ScopeDebugInfo :=
  if range.upper ≤ range.lower then scope
  else
    let ranges := HalfOpen.normalize (scope.ranges ++ [range])
    { scope with
      ranges
      startPC := (ranges.head?.map (·.lower)).getD scope.startPC
      endPC := (ranges.getLast?.map (·.upper)).getD scope.endPC }

/-- The ranges of a scope, and their envelope, as they are read. -/
def loadRanges (scope : ScopeDebugInfo) : ScopeDebugInfo :=
  ((effectiveRanges scope).map fun range => ⟨readInt range.lower, readInt range.upper⟩).foldl
    ScopeDebugInfo.addRange
    { scope with ranges := [], startPC := readInt scope.startPC, endPC := readInt scope.endPC }

/-- A scope as it is read, with the identifier it gets. -/
def loadScope (id : ℕ) (scope : ScopeDebugInfo) : ScopeDebugInfo :=
  let read := loadRanges scope
  { read with
    scopeId := id
    location := loadLocation scope.location
    ranges :=
      if read.ranges = [] ∧ read.startPC < read.endPC then [⟨read.startPC, read.endPC⟩]
      else read.ranges
    variableList := scope.variableList.map (loadScopeVariable id scope.name) }

/-- The identifiers the scopes are read with: a scope without one gets the next one. -/
def loadScopeIds : ℕ → List ScopeDebugInfo → List ℕ
  | _, [] => []
  | nextGeneratedScopeId, scope :: scopes =>
      let id := if scope.scopeId = 0 then nextGeneratedScopeId else scope.scopeId
      id :: loadScopeIds (max nextGeneratedScopeId (id + 1)) scopes

/-- The parent a scope is read with: it is looked up by the identifier that was written, and by its
place where none was. -/
def resolveParent (scopes : List ScopeDebugInfo) (ids : List ℕ) (scope : ScopeDebugInfo) :
    Option (Option ℕ) :=
  match scope.parent with
  | none => some none
  | some parent =>
      match scopes[parent]? with
      | none => some none
      | some parentScope =>
          if parentScope.scopeId ≠ 0 then (ids.idxOf? parentScope.scopeId).map some
          else some (some parent)

/-- The scopes that are read, unless two have one identifier, a parent is missing or the parents
form a cycle. -/
def loadScopes (scopes : List ScopeDebugInfo) : Option (List ScopeDebugInfo) := do
  let ids := loadScopeIds 1 scopes
  if ¬ ids.Nodup then none
  else do
    let parents ← scopes.mapM (resolveParent scopes ids)
    if (List.range scopes.length).all fun index =>
        (parentChain parents scopes.length index).isSome then
      some ((scopes.zip (ids.zip parents)).map fun entry =>
        { loadScope entry.2.1 entry.1 with parent := entry.2.2 })
    else none

/-- The identifier that is written for the scope of a function. -/
def writtenScopeId (scopes : List ScopeDebugInfo) (function : FunctionDebugInfo) : ℕ :=
  ((function.scope.bind (scopes[·]?)).map (·.scopeId)).getD function.scopeId

/-- The place of the scope of a function, and its identifier: where the scope is not found by its
identifier it is looked for by the name and the first place of the function. -/
def linkScope (scopes : List ScopeDebugInfo) (id : ℕ) (name : String) (startPC : ℕ) : Option ℕ × ℕ :=
  match if id = 0 then none else scopes.findIdx? (·.scopeId == id) with
  | some index => (some index, id)
  | none =>
      match scopes.findIdx? fun scope =>
          scope.type == .function && scope.name == name && scope.startPC == startPC with
      | some index => (some index, ((scopes[index]?).map (·.scopeId)).getD id)
      | none => (none, id)

def loadFunction (written scopes : List ScopeDebugInfo) (function : FunctionDebugInfo) :
    FunctionDebugInfo :=
  let startPC := readInt function.startPC
  let link := linkScope scopes (writtenScopeId written function) function.name startPC
  { function with
    location := loadLocation function.location
    startPC
    endPC := readInt function.endPC
    parameters := function.parameters.map loadParameter
    localVars := function.localVars.map loadVariable
    scope := link.1
    scopeId := link.2 }

/-- `sourceOriginFromJson` of `sourceOriginToJson`. -/
def readOrigin (origin : SourceOrigin) : SourceOrigin :=
  { origin with location := loadLocation origin.location }

/-- What is missing in an origin is inferred from the place of the instruction. -/
def completeOrigin (scopes : List ScopeDebugInfo) (functions : NameMap FunctionDebugInfo) (pc : ℕ)
    (origin : SourceOrigin) : SourceOrigin :=
  { origin with
    originalPC := some (origin.originalPC.getD pc)
    scopeId :=
      if origin.scopeId = 0 then ((inferScope scopes pc).map (·.scopeId)).getD 0 else origin.scopeId
    functionName :=
      if origin.functionName = "" then ((getFunctionAtPC functions pc).map (·.name)).getD ""
      else origin.functionName }

/-- The origins of an instruction: a location without an origin becomes one. -/
def upgradeOrigins (pc : ℕ) (instruction : InstructionDebugInfo) (origins : List SourceOrigin) :
    List SourceOrigin :=
  if origins = [] ∧ instruction.location.isValid then
    [{ location := instruction.location, originalPC := some pc
       affectedVars := instruction.affectedVars }]
  else origins

def readInstruction (instruction : InstructionDebugInfo) : InstructionDebugInfo :=
  { instruction with
    pc := readInt instruction.pc
    location := loadLocation instruction.location
    origins := (instruction.origins.map readOrigin).foldl appendUniqueOrigin [] }

/-- The upgrade of an instruction: it has an origin where it has a location, no origin misses
anything that can be inferred, and the first one gives the location and, where there are none, the
variables. -/
def upgradeInstruction (scopes : List ScopeDebugInfo) (functions : NameMap FunctionDebugInfo)
    (instruction : InstructionDebugInfo) : InstructionDebugInfo :=
  let origins := (upgradeOrigins instruction.pc instruction instruction.origins).map
    (completeOrigin scopes functions instruction.pc)
  match origins with
  | [] => { instruction with origins }
  | first :: _ =>
      { instruction with
        origins
        location := first.location
        affectedVars :=
          if instruction.affectedVars = [] then first.affectedVars else instruction.affectedVars }

/-- The locations of instructions are source locations of their places. -/
def addLocations (instructions : PCMap InstructionDebugInfo) (pcToSource : PCMap SourceLocation) :
    PCMap SourceLocation :=
  instructions.toList.foldl (fun map entry =>
    if entry.2.location.isValid then map.insert entry.1 entry.2.location else map) pcToSource

/-- The values of a map as they are read, under the keys they are read with; of two values with one
key the later one stays. -/
def rekey {κ α β : Type} [Ord κ] [Std.TransOrd κ] (key : β → κ) (load : α → β)
    (map : Std.ExtTreeMap κ α) : Std.ExtTreeMap κ β :=
  map.toList.foldl
    (fun (map : Std.ExtTreeMap κ β) entry => map.insert (key (load entry.2)) (load entry.2)) ∅

/-- `fromJson` of `toJson`: the copy that is read back. -/
def DebugInfo.fromJson (info : DebugInfo) : Option DebugInfo := do
  let scopes ← loadScopes info.scopes
  let functions := rekey (·.name) (loadFunction info.scopes scopes) info.functions
  let instructions := (rekey (·.pc) readInstruction info.instructions).map fun _ instruction =>
    upgradeInstruction scopes functions instruction
  let copy : DebugInfo :=
    { scopeNestingValid := true
      sourceFilename := info.sourceFilename
      contractName := info.contractName
      version := "2.0"
      pcToSource := addLocations instructions (info.pcToSource.map fun _ => loadLocation)
      lineToPCs := ∅
      instructions
      functions
      scopes
      variableMap := rekey (·.name) loadVariable info.variableMap }
  if copy.withLines.validateV2Core then
    some { copy.withLines with scopeNestingValid := info.scopeNestingValid }
  else none

/-! ### The remap -/

/-- `mapPC`: where an old place goes.  An entry that is missing in `oldToNew` was deleted. -/
def mapPC (oldToNew : List (Option ℕ)) (newInstructionCount oldPC : ℕ) : Option ℕ :=
  (oldToNew[oldPC]?).join.filter (· < newInstructionCount)

section Remap

variable (oldToNew : List (Option ℕ)) (newInstructionCount : ℕ)

/-- The source locations move; of two that meet the first one stays. -/
def remapSources (pcToSource : PCMap SourceLocation) : PCMap SourceLocation :=
  pcToSource.toList.foldl (fun (map : PCMap SourceLocation) entry =>
    match mapPC oldToNew newInstructionCount entry.1 with
    | some newPC => map.insertIfNew newPC entry.2
    | none => map) ∅

/-- The predicates of a path name the new places of the instructions that open their regions. -/
def remapPredicate (predicate : BranchPredicate) : BranchPredicate :=
  match mapPC oldToNew newInstructionCount predicate.region with
  | some region => { predicate with region }
  | none => predicate

/-- An origin of the instruction at an old place. -/
def remapOrigin (oldPC : ℕ) (origin : SourceOrigin) : SourceOrigin :=
  { origin with
    originalPC := some (origin.originalPC.getD oldPC)
    path := origin.path.map (remapPredicate oldToNew newInstructionCount) }

def remapInstruction (oldPC newPC : ℕ) (instruction : InstructionDebugInfo) : InstructionDebugInfo :=
  { instruction with
    pc := newPC
    origins := (upgradeOrigins oldPC instruction instruction.origins).map
      (remapOrigin oldToNew newInstructionCount oldPC) }

/-- Where two instructions meet, the first one stays and takes over the origins of the other. -/
def mergeInstruction (map : PCMap InstructionDebugInfo) (newPC : ℕ) (copy : InstructionDebugInfo) :
    PCMap InstructionDebugInfo :=
  match map[newPC]? with
  | none => map.insert newPC copy
  | some destination =>
      map.insert newPC { destination with
        origins := copy.origins.foldl appendUniqueOrigin destination.origins }

/-- An instruction has the location and the variables of its first origin. -/
def settleInstruction (instruction : InstructionDebugInfo) : InstructionDebugInfo :=
  match instruction.origins with
  | [] => instruction
  | first :: _ => { instruction with location := first.location, affectedVars := first.affectedVars }

def remapInstructions (instructions : PCMap InstructionDebugInfo) : PCMap InstructionDebugInfo :=
  (instructions.toList.foldl (fun (map : PCMap InstructionDebugInfo) entry =>
    match mapPC oldToNew newInstructionCount entry.1 with
    | some newPC =>
        mergeInstruction map newPC
          (remapInstruction oldToNew newInstructionCount entry.1 newPC entry.2)
    | none => map) ∅).map fun _ instruction => settleInstruction instruction

/-- The locations of instructions with an origin are source locations of their places. -/
def settleSources (instructions : PCMap InstructionDebugInfo) (pcToSource : PCMap SourceLocation) :
    PCMap SourceLocation :=
  instructions.toList.foldl (fun map entry =>
    if entry.2.origins ≠ [] ∧ entry.2.location.isValid then map.insert entry.1 entry.2.location
    else map) pcToSource

def remapIntervals (ranges : List PCRange) : List PCRange :=
  HalfOpen.ofPlaces (ranges.flatMap fun range =>
    (List.range' range.lower (min range.upper oldToNew.length - range.lower)).filterMap
      (mapPC oldToNew newInstructionCount))

/-- The envelope of intervals; the fallback is used where there is none. -/
def envelope (ranges : List PCRange) (fallback : ℕ) : ℕ × ℕ :=
  ((ranges.head?.map (·.lower)).getD fallback, (ranges.getLast?.map (·.upper)).getD fallback)

def remapVariable (variable_ : VariableDebugInfo) : VariableDebugInfo :=
  if variable_.hasExplicitAvailability then
    { variable_ with
      availabilityRanges := remapIntervals oldToNew newInstructionCount variable_.availabilityRanges }
  else variable_

/-- A function moves.  One that loses every instruction keeps its first place. -/
def remapFunction (function : FunctionDebugInfo) : FunctionDebugInfo :=
  let range := envelope (remapIntervals oldToNew newInstructionCount
    [⟨function.startPC, function.endPC⟩]) function.startPC
  { function with
    startPC := range.1
    endPC := range.2
    parameters := function.parameters.map (remapVariable oldToNew newInstructionCount)
    localVars := function.localVars.map (remapVariable oldToNew newInstructionCount) }

def remapScope (scope : ScopeDebugInfo) : ScopeDebugInfo :=
  let ranges := remapIntervals oldToNew newInstructionCount (effectiveRanges scope)
  let range := envelope ranges scope.startPC
  { scope with
    ranges
    startPC := range.1
    endPC := range.2
    variableList := scope.variableList.map (remapVariable oldToNew newInstructionCount) }

def DebugInfo.remapPCs (info : DebugInfo) : DebugInfo :=
  let instructions := remapInstructions oldToNew newInstructionCount info.instructions
  DebugInfo.withLines
    { info with
      instructions
      pcToSource := settleSources instructions
        (remapSources oldToNew newInstructionCount info.pcToSource)
      functions := info.functions.map fun _ => remapFunction oldToNew newInstructionCount
      scopes := info.scopes.map (remapScope oldToNew newInstructionCount)
      variableMap := info.variableMap.map fun _ => remapVariable oldToNew newInstructionCount }

/-- Every region a predicate names is opened by an IF that the rewrite keeps. -/
def DebugInfo.regionsKept (info : DebugInfo) : Bool :=
  info.instructions.toList.all fun entry => entry.2.origins.all fun origin =>
    origin.path.all fun predicate =>
      (mapPC oldToNew newInstructionCount predicate.region).isSome &&
        isOpener info.instructions predicate.region

end Remap

/-- `mergePath`: a later predicate of a region replaces the arm of an earlier one. -/
def mergePath (destination additional : List BranchPredicate) : List BranchPredicate :=
  additional.foldl (fun path predicate =>
    if path.any (·.region == predicate.region) then
      path.map fun item => if item.region = predicate.region then { item with arm := predicate.arm } else item
    else path ++ [predicate]) destination

def DebugInfo.getOriginsForPC (info : DebugInfo) (pc : ℕ) : List SourceOrigin :=
  let fromSource := ((info.pcToSource[pc]?).map fun location =>
    [({ location, originalPC := some pc } : SourceOrigin)]).getD []
  match info.instructions[pc]? with
  | some instruction =>
      if instruction.origins ≠ [] then instruction.origins
      else if instruction.location.isValid then
        [{ location := instruction.location, originalPC := some pc
           affectedVars := instruction.affectedVars }]
      else fromSource
  | none => fromSource

def DebugInfo.setInstructionOrigins (info : DebugInfo) (pc : ℕ) (values : List SourceOrigin) :
    DebugInfo :=
  let instruction := (info.instructions[pc]?).getD { pc }
  match values.foldl appendUniqueOrigin [] with
  | [] =>
      DebugInfo.withLines
        { info with
          instructions := info.instructions.insert pc
            { instruction with origins := [], location := {}, affectedVars := [] }
          pcToSource := info.pcToSource.erase pc }
  | first :: rest =>
      DebugInfo.withLines
        { info with
          instructions := info.instructions.insert pc
            { instruction with
              origins := first :: rest, location := first.location
              affectedVars := first.affectedVars }
          pcToSource :=
            if first.location.isValid then info.pcToSource.insert pc first.location
            else info.pcToSource.erase pc }

/-- The origins a rewrite that knows them gives to a new place. -/
def DebugInfo.rewriteOrigins (info candidate : DebugInfo) (oldToNew : List (Option ℕ))
    (newInstructionCount : ℕ) (references : List OriginRewriteRef) : Option (List SourceOrigin) :=
  references.foldlM (fun origins reference =>
    let oldOrigins := info.getOriginsForPC reference.oldPC
    if oldToNew.length ≤ reference.oldPC ∨ oldOrigins = [] ∨
        reference.path.any (fun predicate => newInstructionCount ≤ predicate.region ||
          !isOpener candidate.instructions predicate.region) then none
    else
      some ((oldOrigins.map fun origin =>
        { origin with
          originalPC := some (origin.originalPC.getD reference.oldPC)
          path := mergePath (origin.path.map fun predicate =>
            { predicate with region := ((oldToNew[predicate.region]?).join).getD predicate.region })
              reference.path }).foldl appendUniqueOrigin origins)) []

/-- `remapped`: the copy, moved and checked. -/
def DebugInfo.remapped (info : DebugInfo) (oldToNew : List (Option ℕ)) (newInstructionCount : ℕ)
    (newToOldOrigins : List (List OriginRewriteRef)) : Option DebugInfo := do
  if newToOldOrigins ≠ [] ∧ newToOldOrigins.length ≠ newInstructionCount then none
  else if !info.regionsKept oldToNew newInstructionCount then none
  else do
    let candidate ← info.fromJson
    let candidate := candidate.remapPCs oldToNew newInstructionCount
    let candidate ← newToOldOrigins.zipIdx.foldlM (fun candidate entry => do
      let origins ← info.rewriteOrigins candidate oldToNew newInstructionCount entry.1
      pure (candidate.setInstructionOrigins entry.2 origins)) candidate
    if candidate.validate.isOk then some candidate else none

/-- `applyRemapTransactional`: whether the remap was applied, and the result. -/
def DebugInfo.applyRemapTransactional (info : DebugInfo) (oldToNew : List (Option ℕ))
    (newInstructionCount : ℕ) (newToOldOrigins : List (List OriginRewriteRef)) : Bool × DebugInfo :=
  match info.remapped oldToNew newInstructionCount newToOldOrigins with
  | some candidate => (true, candidate)
  | none => (false, info)

def DebugInfo.syncInstructionOpcodes (info : DebugInfo) (bytecode : List String) : DebugInfo :=
  DebugInfo.withLines
    { info with
      instructions := info.instructions.filterMap fun pc instruction =>
        (bytecode[pc]?).map fun opcode => { instruction with pc, opcode, operand := "" }
      pcToSource := info.pcToSource.filter fun pc _ =>
        decide (pc < bytecode.length) || !(info.instructions[pc]?).isSome }

end ApcDebug

end AtomicProof
