/-
The lifetime analysis of stable values.

`ValueLifetimeAnalyzer::analyze` in `src/src/compiler/value_lifetime_analysis.cpp` checks a control
flow graph against a table of values, computes which values may be live and which definitely reach
every place, and suggests where the storage of an atom can be given up.

Main definitions:

* `Lifetime.LifetimeControlFlowGraph` — the graphs, with their statements;
* `Lifetime.transferLivenessStatement`, `Lifetime.transferReachingStatement` — the two transfer
  functions;
* `Lifetime.reachable`, `Lifetime.dominators`, `Lifetime.liveness`, `Lifetime.reaching` — the
  traversal and the three fixed points, each with a number of rounds that is always enough;
* `Lifetime.structureIssues`, `Lifetime.definitionIssues`, `Lifetime.availabilityIssues`,
  `Lifetime.consumeIssues` — the checks;
* `Lifetime.analyze` — **the analysis**.
-/

import AtomicProof.Fixpoint
import AtomicProof.ValueTable
import Mathlib.Data.Fintype.Fin
import Mathlib.Data.Fintype.Prod
import Mathlib.Data.List.FinRange

set_option autoImplicit false

namespace AtomicProof.Lifetime

/-! ### Graphs -/

inductive AccessKind
  | borrow | lValue
  deriving DecidableEq

inductive OwnershipEffect
  | none | consume | relocate | escape
  deriving DecidableEq

inductive EscapeKind
  | none | explicit | dynamicIndex | altStack
  deriving DecidableEq

structure ValueUse where
  value : ValueId
  access : AccessKind := .borrow
  ownership : OwnershipEffect := .none
  escapeKind : EscapeKind := .none
  deriving DecidableEq

def ValueUse.causesEscape (use : ValueUse) : Bool :=
  use.ownership == .escape || use.escapeKind != .none

def ValueUse.consumes (use : ValueUse) : Bool := use.ownership == .consume

/-- `LifetimeStatement`; a `ValueDefinition` holds nothing but its value. -/
structure LifetimeStatement where
  definitions : List ValueId
  uses : List ValueUse
  deriving DecidableEq

structure LifetimeBasicBlock where
  id : BasicBlockId
  statements : List LifetimeStatement
  successors : List BasicBlockId
  deriving DecidableEq

structure LifetimeControlFlowGraph where
  entry : BasicBlockId
  blocks : List LifetimeBasicBlock
  parameters : List ValueId := []
  deriving DecidableEq

namespace LifetimeControlFlowGraph

abbrev Index (cfg : LifetimeControlFlowGraph) : Type := Fin cfg.blocks.length

variable (cfg : LifetimeControlFlowGraph)

def block (i : cfg.Index) : LifetimeBasicBlock := cfg.blocks.get i

/-- `blockIndices`: the index of the first block with a valid id. -/
def indexOf (id : BasicBlockId) : Option cfg.Index :=
  (List.finRange cfg.blocks.length).find? fun i => id.valid && decide ((cfg.block i).id = id)

/-- The indices of the successors of a block, all of which exist once the structure is checked. -/
def successorIndices (i : cfg.Index) : List cfg.Index :=
  (cfg.block i).successors.filterMap cfg.indexOf

end LifetimeControlFlowGraph

abbrev LiveValueSet := Finset ValueId

/-! ### Transfer functions -/

section Transfer

variable (values : StableValueTable)

def atomsForValues (liveValues : LiveValueSet) : AtomSet := liveValues.biUnion values.atomsOf

def valuesForReachingAtom (reachingValues : LiveValueSet) (atom : AtomId) : List ValueId :=
  (inOrder reachingValues).filter fun value => atom ∈ values.atomsOf value

namespace LifetimeStatement

variable (statement : LifetimeStatement)

def defined : Finset ValueId := statement.definitions.toFinset

def used : Finset ValueId := (statement.uses.map (·.value)).toFinset

/-- The sources of the aliases and merges that a statement defines, other than the values it
defines itself. -/
def outerSources : Finset ValueId :=
  (statement.defined.biUnion values.relationSources) \ statement.defined

/-- The atoms of the values a statement defines. -/
def definitionAtoms : AtomSet := atomsForValues values statement.defined

/-- The atoms of the values a statement uses. -/
def useAtoms : AtomSet := atomsForValues values statement.used

/-- The atoms of the values a statement consumes. -/
def consumedAtoms : AtomSet :=
  atomsForValues values ((statement.uses.filter (·.consumes)).map (·.value)).toFinset

/-- How many uses of a statement consume an atom. -/
def consumeCount (atom : AtomId) : ℕ :=
  (statement.uses.filter fun use => use.consumes && decide (atom ∈ values.atomsOf use.value)).length

end LifetimeStatement

def transferLivenessStatement (statement : LifetimeStatement) (liveAfter : LiveValueSet) :
    LiveValueSet :=
  (liveAfter \ statement.defined) ∪ statement.outerSources values ∪ statement.used

/-- `transferLivenessBlock`, on the statements of a block. -/
def transferLivenessBlock (statements : List LifetimeStatement) (liveOut : LiveValueSet) :
    LiveValueSet :=
  statements.foldr (transferLivenessStatement values) liveOut

def transferReachingStatement (reachingBefore : LiveValueSet) (statement : LifetimeStatement) :
    LiveValueSet :=
  (reachingBefore.filter fun value =>
    Disjoint (values.atomsOf value) (statement.consumedAtoms values)) ∪ statement.defined

/-- `transferReachingBlock`, on the statements of a block. -/
def transferReachingBlock (statements : List LifetimeStatement) (reachingIn : LiveValueSet) :
    LiveValueSet :=
  statements.foldl (transferReachingStatement values) reachingIn

/-- `intersectPredecessors`, on the sets at the predecessors. -/
def intersectPredecessors (out : List LiveValueSet) (everything : LiveValueSet) : LiveValueSet :=
  if out.isEmpty then ∅ else out.foldl (· ∩ ·) everything

end Transfer

/-! ### Issues -/

inductive LifetimeIssueCode
  | missingEntry | duplicateBlock | unknownSuccessor | unknownValue | duplicateParameter
  | parameterDefined | missingDefinition | duplicateDefinition | useBeforeDefinition
  | aliasSourceUnavailable | multipleConsume | consumeWithDefinition | consumedAtomStillLive
  | consumedEscapedAtom
  deriving DecidableEq

structure LifetimeIssue where
  code : LifetimeIssueCode
  block : BasicBlockId
  statementIndex : ℕ
  value : Option ValueId
  message : String
  deriving DecidableEq

section Structure

variable (cfg : LifetimeControlFlowGraph) (values : StableValueTable)

/-- The loop that fills `blockIndices`; `seen` holds the ids that are already there. -/
def blockIssues : List BasicBlockId → List LifetimeBasicBlock → List LifetimeIssue
  | _, [] => []
  | seen, block :: rest =>
      if !block.id.valid || seen.contains block.id then
        ⟨.duplicateBlock, block.id, 0, none, "CFG contains an invalid or duplicate block id"⟩ ::
          blockIssues seen rest
      else blockIssues (block.id :: seen) rest

def entryIssues : List LifetimeIssue :=
  if (cfg.indexOf cfg.entry).isNone then
    [⟨.missingEntry, cfg.entry, 0, none, "CFG entry block is missing"⟩]
  else []

/-- The checks of the values of a statement. -/
def unknownValueIssues (block : LifetimeBasicBlock) (statementIndex : ℕ)
    (statement : LifetimeStatement) : List LifetimeIssue :=
  (statement.definitions.filter fun value => (values.find value).isNone).map (fun value =>
    ⟨.unknownValue, block.id, statementIndex, some value,
      "definition references unknown value " ++ idText value.value⟩) ++
  ((statement.uses.map (·.value)).filter fun value => (values.find value).isNone).map fun value =>
    ⟨.unknownValue, block.id, statementIndex, some value,
      "use references unknown value " ++ idText value.value⟩

/-- The checks of the successors and the values of a block. -/
def referenceIssues (block : LifetimeBasicBlock) : List LifetimeIssue :=
  ((block.successors.filter fun successor => (cfg.indexOf successor).isNone).map fun successor =>
    ⟨.unknownSuccessor, block.id, block.statements.length, none,
      "block references unknown successor " ++ idText successor.value⟩) ++
  block.statements.zipIdx.flatMap fun p => unknownValueIssues values block p.2 p.1

/-- The loop over the parameters; `seen` holds the ones that are already there. -/
def parameterIssues : List ValueId → List ValueId → List LifetimeIssue
  | _, [] => []
  | seen, parameter :: rest =>
      if (values.find parameter).isNone then
        ⟨.unknownValue, cfg.entry, 0, some parameter,
          "parameter references unknown value " ++ idText parameter.value⟩ ::
          parameterIssues seen rest
      else if seen.contains parameter then
        ⟨.duplicateParameter, cfg.entry, 0, some parameter,
          "parameter value is listed more than once"⟩ :: parameterIssues seen rest
      else parameterIssues (parameter :: seen) rest

/-- The first group of checks of `analyze`. -/
def structureIssues : List LifetimeIssue :=
  blockIssues [] cfg.blocks ++ entryIssues cfg ++
    cfg.blocks.flatMap (referenceIssues cfg values) ++ parameterIssues cfg values [] cfg.parameters

end Structure

/-! ### Reachable blocks -/

section Reachable

variable (cfg : LifetimeControlFlowGraph)

/-- The loop over `pending`; the blocks of `marked` have been visited. -/
def visit : ℕ → Finset cfg.Index → List cfg.Index → Finset cfg.Index
  | 0, marked, _ => marked
  | _ + 1, marked, [] => marked
  | fuel + 1, marked, i :: pending =>
      if i ∈ marked then visit fuel marked pending
      else visit fuel (insert i marked) (pending ++ cfg.successorIndices i)

def entryIndex : Option cfg.Index := cfg.indexOf cfg.entry

/-- `reachable`: the blocks visited from the entry.  Every turn of the loop takes one block from
`pending`, and a block puts its successors there once. -/
def reachable : Finset cfg.Index :=
  visit cfg (∑ i, (cfg.successorIndices i).length + 1) ∅ (entryIndex cfg).toList

/-- The reachable blocks in the order of the graph. -/
def reachableIndices : List cfg.Index :=
  (List.finRange cfg.blocks.length).filter (· ∈ reachable cfg)

/-- `predecessors`, one for every edge. -/
def predecessors (i : cfg.Index) : List cfg.Index :=
  (reachableIndices cfg).flatMap fun j => ((cfg.successorIndices j).filter (· = i)).map fun _ => j

end Reachable

/-! ### Definitions -/

section Definitions

variable (cfg : LifetimeControlFlowGraph) (values : StableValueTable)

structure DefinitionLocation where
  block : BasicBlockId
  statement : ℕ
  deriving DecidableEq

/-- All definitions of the graph with their values, in order. -/
def definitionSites : List (ValueId × DefinitionLocation) :=
  cfg.blocks.flatMap fun block => block.statements.zipIdx.flatMap fun p =>
    p.1.definitions.map fun value => (value, ⟨block.id, p.2⟩)

/-- `definitions`, at one value. -/
def definitions (value : ValueId) : List DefinitionLocation :=
  ((definitionSites cfg).filter (·.1 = value)).map (·.2)

/-- The keys of `definitions`. -/
def definedValues : Finset ValueId := ((definitionSites cfg).map (·.1)).toFinset

def statements : List LifetimeStatement := cfg.blocks.flatMap (·.statements)

def referencedValues : Finset ValueId :=
  ((statements cfg).toFinset.biUnion fun statement =>
      statement.defined.biUnion values.relationSources) ∪
    (statements cfg).toFinset.biUnion (·.used)

def parameters : Finset ValueId := cfg.parameters.toFinset

/-- The checks of the places where one value is defined. -/
def locationIssues (value : ValueId) : List LifetimeIssue :=
  match definitions cfg value with
  | [] => []
  | first :: others =>
      (if value ∈ parameters cfg then
        [⟨.parameterDefined, first.block, first.statement, some value,
          "a parameter/live-in value cannot also be defined in the CFG"⟩]
      else []) ++
      match others with
      | [] => []
      | second :: _ =>
          [⟨.duplicateDefinition, second.block, second.statement, some value,
            "a stable value must have exactly one definition"⟩]

/-- The second group of checks of `analyze`. -/
def definitionIssues : List LifetimeIssue :=
  (inOrder (definedValues cfg)).flatMap (locationIssues cfg) ++
    ((inOrder (referencedValues cfg values)).filter fun value =>
      value ∉ parameters cfg ∧ value ∉ definedValues cfg).map fun value =>
        ⟨.missingDefinition, cfg.entry, 0, some value,
          "used value is neither a parameter nor defined in the CFG"⟩

end Definitions

/-! ### Dominators -/

section Dominators

variable (cfg : LifetimeControlFlowGraph) (values : StableValueTable)

def allReachableBlocks : Finset BasicBlockId := (reachable cfg).image fun i => (cfg.block i).id

def dominatorsTransfer (dominators : cfg.Index → Finset BasicBlockId) (i : cfg.Index) :
    Finset BasicBlockId :=
  insert (cfg.block i).id
    (((predecessors cfg i).map dominators).foldl (· ∩ ·) (allReachableBlocks cfg))

def initialDominators (i : cfg.Index) : Finset BasicBlockId :=
  if i ∈ reachable cfg then
    if entryIndex cfg = some i then {cfg.entry} else allReachableBlocks cfg
  else ∅

def dominatorsOrder : List cfg.Index :=
  (reachableIndices cfg).filter fun i => entryIndex cfg ≠ some i

def dominators : cfg.Index → Finset BasicBlockId :=
  Fixpoint.untilStable (Fixpoint.sweep (dominatorsTransfer cfg) (dominatorsOrder cfg))
    (cfg.blocks.length * (reachable cfg).card) (initialDominators cfg)

def isAvailableBefore (value : ValueId) (useBlockIndex : cfg.Index) (useStatement : ℕ) : Bool :=
  if value ∈ parameters cfg then true
  else
    match definitions cfg value with
    | [definition] =>
        if definition.block = (cfg.block useBlockIndex).id then definition.statement < useStatement
        else definition.block ∈ dominators cfg useBlockIndex
    | _ => false

/-- The checks of the values that one statement needs. -/
def statementAvailabilityIssues (i : cfg.Index) (statementIndex : ℕ)
    (statement : LifetimeStatement) : List LifetimeIssue :=
  ((statement.uses.filter fun use =>
      !isAvailableBefore cfg use.value i statementIndex).map fun use =>
    ⟨.useBeforeDefinition, (cfg.block i).id, statementIndex, some use.value,
      "value use is not dominated by its definition"⟩) ++
  statement.definitions.flatMap fun definition =>
    ((inOrder (values.relationSources definition)).filter fun source =>
      source ∉ statement.defined ∧ !isAvailableBefore cfg source i statementIndex).map fun source =>
        ⟨.aliasSourceUnavailable, (cfg.block i).id, statementIndex, some source,
          "atom relation source is not available at its definition"⟩

/-- The third group of checks of `analyze`. -/
def availabilityIssues : List LifetimeIssue :=
  (reachableIndices cfg).flatMap fun i => (cfg.block i).statements.zipIdx.flatMap fun p =>
    statementAvailabilityIssues cfg values i p.2 p.1

end Dominators

/-! ### Consumed and escaped atoms -/

section Consume

variable (cfg : LifetimeControlFlowGraph) (values : StableValueTable)

/-- `unsafeConsumes`, at one statement and one atom: it is consumed twice, or consumed and
defined. -/
def unsafeConsume (statement : LifetimeStatement) (atom : AtomId) : Bool :=
  1 < statement.consumeCount values atom ||
    (0 < statement.consumeCount values atom && atom ∈ statement.definitionAtoms values)

/-- The checks of the atoms that one statement consumes. -/
def statementConsumeIssues (i : cfg.Index) (statementIndex : ℕ) (statement : LifetimeStatement) :
    List LifetimeIssue :=
  (inOrder (statement.consumedAtoms values)).flatMap fun atom =>
    (if 1 < statement.consumeCount values atom then
      [⟨.multipleConsume, (cfg.block i).id, statementIndex, none,
        "one physical atom is consumed multiple times in a statement"⟩]
    else []) ++
    if atom ∈ statement.definitionAtoms values then
      [⟨.consumeWithDefinition, (cfg.block i).id, statementIndex, none,
        "a statement cannot consume and define the same atom; model a transfer with Relocate"⟩]
    else []

/-- The fourth group of checks of `analyze`. -/
def consumeIssues : List LifetimeIssue :=
  (reachableIndices cfg).flatMap fun i => (cfg.block i).statements.zipIdx.flatMap fun p =>
    statementConsumeIssues cfg values i p.2 p.1

def escapedAtoms : AtomSet :=
  (reachable cfg).biUnion fun i => (cfg.block i).statements.toFinset.biUnion fun statement =>
    atomsForValues values ((statement.uses.filter (·.causesEscape)).map (·.value)).toFinset

end Consume

/-! ### Liveness -/

section Liveness

variable (cfg : LifetimeControlFlowGraph) (values : StableValueTable)

/-- What a round puts at a block: `liveIn` and `liveOut`. -/
def livenessTransfer (live : cfg.Index → LiveValueSet × LiveValueSet) (i : cfg.Index) :
    LiveValueSet × LiveValueSet :=
  let nextOut := (cfg.successorIndices i).toFinset.biUnion fun successor => (live successor).1
  (transferLivenessBlock values (cfg.block i).statements nextOut, nextOut)

/-- `liveIn` and `liveOut`. -/
def liveness : cfg.Index → LiveValueSet × LiveValueSet :=
  Fixpoint.untilStable
    (Fixpoint.sweep (livenessTransfer cfg values) (reachableIndices cfg).reverse)
    (cfg.blocks.length * (2 * (referencedValues cfg values).card)) fun _ => (∅, ∅)

structure StatementLiveness where
  liveBefore : LiveValueSet := ∅
  liveAfter : LiveValueSet := ∅
  liveAtomsBefore : AtomSet := ∅
  liveAtomsAfter : AtomSet := ∅
  deriving DecidableEq

structure BlockLiveness where
  block : BasicBlockId
  liveIn : LiveValueSet
  liveOut : LiveValueSet
  liveAtomsIn : AtomSet
  liveAtomsOut : AtomSet
  statements : List StatementLiveness
  deriving DecidableEq

/-- The liveness around each statement of a block, from the liveness at its end. -/
def statementLiveness (liveOut : LiveValueSet) : List LifetimeStatement → List StatementLiveness
  | [] => []
  | statement :: rest =>
      let liveAfter := transferLivenessBlock values rest liveOut
      let liveBefore := transferLivenessStatement values statement liveAfter
      ⟨liveBefore, liveAfter, atomsForValues values liveBefore, atomsForValues values liveAfter⟩ ::
        statementLiveness liveOut rest

/-- The entry of a block in `blocks`. -/
def blockLiveness (i : cfg.Index) : BlockLiveness :=
  let live := liveness cfg values i
  { block := (cfg.block i).id
    liveIn := live.1
    liveOut := live.2
    liveAtomsIn := atomsForValues values live.1
    liveAtomsOut := atomsForValues values live.2
    statements :=
      if i ∈ reachable cfg then statementLiveness values live.2 (cfg.block i).statements
      else (cfg.block i).statements.map fun _ => {} }

end Liveness

/-! ### Reaching values -/

section Reaching

variable (cfg : LifetimeControlFlowGraph) (values : StableValueTable)

def reachingUniverse : LiveValueSet := parameters cfg ∪ definedValues cfg

/-- What a round puts at a block: `reachingIn` and `reachingOut`. -/
def reachingTransfer (reaching : cfg.Index → LiveValueSet × LiveValueSet) (i : cfg.Index) :
    LiveValueSet × LiveValueSet :=
  let nextIn :=
    if entryIndex cfg = some i then parameters cfg
    else intersectPredecessors ((predecessors cfg i).map fun p => (reaching p).2)
      (reachingUniverse cfg)
  (nextIn, transferReachingBlock values (cfg.block i).statements nextIn)

def initialReaching (i : cfg.Index) : LiveValueSet × LiveValueSet :=
  if i ∈ reachable cfg then
    let reachingIn := if entryIndex cfg = some i then parameters cfg else reachingUniverse cfg
    (reachingIn, transferReachingBlock values (cfg.block i).statements reachingIn)
  else (∅, ∅)

/-- `reachingIn` and `reachingOut`. -/
def reaching : cfg.Index → LiveValueSet × LiveValueSet :=
  Fixpoint.untilStable (Fixpoint.sweep (reachingTransfer cfg values) (reachableIndices cfg))
    (cfg.blocks.length * (2 * (reachingUniverse cfg).card)) (initialReaching cfg values)

def reachingBefore (i : cfg.Index) (statementIndex : ℕ) : LiveValueSet :=
  transferReachingBlock values ((cfg.block i).statements.take statementIndex)
    (reaching cfg values i).1

end Reaching

/-! ### Kills -/

structure StatementBoundary where
  block : BasicBlockId
  afterStatement : ℕ
  deriving DecidableEq

structure EdgeBoundary where
  fromBlock : BasicBlockId
  toBlock : BasicBlockId
  deriving DecidableEq

inductive KillReason
  | lastUse | deadDefinition | consumed | edgeExit
  deriving DecidableEq

structure KillSuggestion where
  boundary : StatementBoundary
  atom : AtomId
  retiredValues : List ValueId
  reason : KillReason
  requiresCleanup : Bool
  deriving DecidableEq

structure EdgeKillSuggestion where
  boundary : EdgeBoundary
  atom : AtomId
  retiredValues : List ValueId
  reason : KillReason
  requiresCleanup : Bool
  deriving DecidableEq

structure EdgeLiveness where
  boundary : EdgeBoundary
  liveValues : LiveValueSet
  liveAtoms : AtomSet
  deriving DecidableEq

section Kills

variable (cfg : LifetimeControlFlowGraph) (values : StableValueTable)

/-- The keys of `facts`: the atoms that a statement defines or uses. -/
def factAtoms (statement : LifetimeStatement) : AtomSet :=
  statement.definitionAtoms values ∪ statement.useAtoms values

/-- `representative`: the last use of an atom in a statement, or else its last definition. -/
def representative (statement : LifetimeStatement) (atom : AtomId) : Option ValueId :=
  ((statement.definitions ++ statement.uses.map (·.value)).filter fun value =>
    atom ∈ values.atomsOf value).getLast?

/-- The issues of one atom of a statement. -/
def atomIssues (i : cfg.Index) (statementIndex : ℕ) (statement : LifetimeStatement)
    (remainsLive : Bool) (atom : AtomId) : List LifetimeIssue :=
  (if 0 < statement.consumeCount values atom ∧ atom ∈ escapedAtoms cfg values then
    [⟨.consumedEscapedAtom, (cfg.block i).id, statementIndex,
      representative values statement atom, "an escaped atom cannot be proven safe to consume"⟩]
  else []) ++
  if 0 < statement.consumeCount values atom ∧ remainsLive then
    [⟨.consumedAtomStillLive, (cfg.block i).id, statementIndex,
      representative values statement atom, "a consumed atom still has a may-live alias"⟩]
  else []

/-- The suggestion for one atom of a statement. -/
def atomKill (i : cfg.Index) (statementIndex : ℕ) (statement : LifetimeStatement)
    (remainsLive : Bool) (atom : AtomId) : Option KillSuggestion :=
  let hasConsume : Bool := 0 < statement.consumeCount values atom
  if unsafeConsume values statement atom || remainsLive ||
      decide (atom ∈ escapedAtoms cfg values) then none
  else
    let reaching :=
      if hasConsume then reachingBefore cfg values i statementIndex
      else reachingBefore cfg values i (statementIndex + 1)
    let retired := valuesForReachingAtom values reaching atom
    if retired.isEmpty then none
    else some
      { boundary := ⟨(cfg.block i).id, statementIndex + 1⟩
        atom := atom
        retiredValues := retired
        reason :=
          if hasConsume then .consumed
          else if atom ∈ statement.useAtoms values then .lastUse
          else if atom ∈ statement.definitionAtoms values then .deadDefinition
          else .lastUse
        requiresCleanup := !hasConsume }

/-- What the loop over `facts` does for every atom of every statement of the reachable blocks. -/
def atomEvents {α : Type} (event : cfg.Index → ℕ → LifetimeStatement → Bool → AtomId → List α) :
    List α :=
  (reachableIndices cfg).flatMap fun i =>
    ((cfg.block i).statements.zip (blockLiveness cfg values i).statements).zipIdx.flatMap fun p =>
      (inOrder (factAtoms values p.1.1)).flatMap fun atom =>
        event i p.2 p.1.1 (decide (atom ∈ p.1.2.liveAtomsAfter)) atom

/-- The last group of checks of `analyze`. -/
def killIssues : List LifetimeIssue :=
  atomEvents cfg values fun i statementIndex statement remainsLive atom =>
    atomIssues cfg values i statementIndex statement remainsLive atom

def kills : List KillSuggestion :=
  atomEvents cfg values fun i statementIndex statement remainsLive atom =>
    (atomKill cfg values i statementIndex statement remainsLive atom).toList

/-- The edges out of the reachable blocks, in order. -/
def reachableEdges : List (cfg.Index × cfg.Index) :=
  (reachableIndices cfg).flatMap fun i => (cfg.successorIndices i).map fun successor =>
    (i, successor)

def edgeBoundary (edge : cfg.Index × cfg.Index) : EdgeBoundary :=
  ⟨(cfg.block edge.1).id, (cfg.block edge.2).id⟩

def edges : List EdgeLiveness :=
  (reachableEdges cfg).map fun edge =>
    ⟨edgeBoundary cfg edge, (liveness cfg values edge.2).1,
      atomsForValues values (liveness cfg values edge.2).1⟩

/-- The suggestion for one atom that is live at the end of a block, on one edge. -/
def edgeAtomKill (edge : cfg.Index × cfg.Index) (atom : AtomId) : Option EdgeKillSuggestion :=
  let reachingOut := (reaching cfg values edge.1).2
  if atom ∈ atomsForValues values (liveness cfg values edge.2).1 ∨
      atom ∉ atomsForValues values reachingOut ∨ atom ∈ escapedAtoms cfg values then none
  else
    let retired := valuesForReachingAtom values reachingOut atom
    if retired.isEmpty then none
    else some ⟨edgeBoundary cfg edge, atom, retired, .edgeExit, true⟩

def edgeKills : List EdgeKillSuggestion :=
  (reachableEdges cfg).flatMap fun edge =>
    (inOrder (blockLiveness cfg values edge.1).liveAtomsOut).filterMap (edgeAtomKill cfg values edge)

end Kills

/-! ### The analysis -/

structure LifetimeAnalysisResult where
  blocks : List BlockLiveness := []
  edges : List EdgeLiveness := []
  kills : List KillSuggestion := []
  edgeKills : List EdgeKillSuggestion := []
  escapedAtoms : AtomSet := ∅
  issues : List LifetimeIssue := []
  deriving DecidableEq

def analyze (cfg : LifetimeControlFlowGraph) (values : StableValueTable) :
    LifetimeAnalysisResult :=
  if structureIssues cfg values ≠ [] then { issues := structureIssues cfg values }
  else if definitionIssues cfg values ≠ [] then { issues := definitionIssues cfg values }
  else if availabilityIssues cfg values ≠ [] then { issues := availabilityIssues cfg values }
  else
    { blocks := (List.finRange cfg.blocks.length).map (blockLiveness cfg values)
      edges := edges cfg values
      kills := kills cfg values
      edgeKills := edgeKills cfg values
      escapedAtoms := escapedAtoms cfg values
      issues := consumeIssues cfg values ++ killIssues cfg values }

end AtomicProof.Lifetime
