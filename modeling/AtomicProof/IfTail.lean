/-
The common-tail optimiser for conditionals.

`StructuredIfTailOptimizer` in `src/src/bytecode/structured_if_tail_optimizer.cpp` parses the atoms
of a script into a tree of conditionals, moves the common tail of the two arms of a conditional
behind its `OP_ENDIF`, and writes the tree back together with a record of where every atom came
from.

Main definitions:

* `IfTail.Node` — the tree;
* `IfTail.parseSequence` — the parser, with a bound on the depth of its calls;
* `IfTail.optimizeSequence` — the rewriting, children before parents;
* `IfTail.flatten` — the atoms of a tree;
* `IfTail.normalizeBranchPaths`, `IfTail.validateInstructionRewritePlan` — the check of the record;
* `IfTail.optimize` — the whole pass.
-/

import AtomicProof.Script
import Mathlib.Data.List.Sort

set_option autoImplicit false

namespace AtomicProof.IfTail

/-! ### Recognising atoms -/

def normalizeHex (value : String) : List Char :=
  (ScriptCodec.stripHexPrefix value.toList).map toLower

def isPureHex (value : String) : Bool :=
  let normalized := normalizeHex value
  !normalized.isEmpty && normalized.length % 2 == 0 && normalized.all isXDigit

def isSingleOpcode (value : String) (opcode : BytOpcode) : Bool :=
  isPureHex value && normalizeHex value == byteToHex opcode.toByte

inductive ControlToken
  | none | if | notif | else | endif
  deriving DecidableEq, Repr

def controlToken (value : String) : ControlToken :=
  if isSingleOpcode value .opIf then .if
  else if isSingleOpcode value .opNotif then .notif
  else if isSingleOpcode value .opElse then .else
  else if isSingleOpcode value .opEndif then .endif
  else .none

/-- `StructuredIfTailOptions`: the labels that stand for pushed data. -/
structure StructuredIfTailOptions where
  knownDataPlaceholderLabels : List String

def isKnownDataPlaceholderEncoding (value : String) (options : StructuredIfTailOptions) : Bool :=
  match placeholderLabel value with
  | some label => options.knownDataPlaceholderLabels.contains label
  | Option.none => false

/-! ### The tree -/

inductive BranchArm
  | then | else
  deriving DecidableEq, Repr

structure BranchPredicate where
  ifPC : ℕ
  arm : BranchArm
  deriving DecidableEq, Repr

structure InstructionOriginRef where
  oldPC : ℕ
  path : List BranchPredicate
  deriving DecidableEq, Repr

structure Atom where
  encoding : String
  origins : List InstructionOriginRef
  extractionSafe : Bool
  deriving DecidableEq, Repr

/-- `Node`: an atom, or a conditional with its arms. -/
inductive Node
  | atom (atom : Atom)
  | ifRegion (opener : Atom) (thenBody : List Node) (elseMarker : Option Atom)
      (elseBody : List Node) (endMarker : Atom)

def makeAtom (encoding : String) (oldPC : ℕ) (path : List BranchPredicate)
    (options : StructuredIfTailOptions) : Atom where
  encoding := encoding
  origins := [⟨oldPC, path⟩]
  extractionSafe :=
    (isPureHex encoding && !isSingleOpcode encoding .opReturn &&
        !isSingleOpcode encoding .opCodeseparator) ||
      isKnownDataPlaceholderEncoding encoding options

/-! ### The parser -/

/-- What `parseSequence` leaves: the nodes it has read and the atoms from the stopping place on,
with the index of the first of them. -/
structure Parsed where
  nodes : List Node
  index : ℕ
  rest : List String

/-- `parseSequence`.  The atoms from `index` on are `rest`; every call reads at least one atom
before it makes another, so a bound above the number of atoms is never reached. -/
def parseSequence (options : StructuredIfTailOptions) :
    ℕ → ℕ → List String → List BranchPredicate → Option Parsed
  | 0, _, _, _ => Option.none
  | _ + 1, index, [], _ => some ⟨[], index, []⟩
  | fuel + 1, index, instruction :: rest, path =>
      match controlToken instruction with
      | .else => some ⟨[], index, instruction :: rest⟩
      | .endif => some ⟨[], index, instruction :: rest⟩
      | .none => do
          let tail ← parseSequence options fuel (index + 1) rest path
          pure { tail with nodes := .atom (makeAtom instruction index path options) :: tail.nodes }
      | _ => do
          let opener := makeAtom instruction index path options
          let thenArm ← parseSequence options fuel (index + 1) rest (path ++ [⟨index, .then⟩])
          match thenArm.rest with
          | [] => Option.none
          | stop :: afterStop =>
              if controlToken stop = .else then do
                let elseMarker := makeAtom stop thenArm.index path options
                let elseArm ← parseSequence options fuel (thenArm.index + 1) afterStop
                  (path ++ [⟨index, .else⟩])
                match elseArm.rest with
                | [] => Option.none
                | close :: afterClose =>
                    if controlToken close ≠ .endif then Option.none
                    else do
                      let endMarker := makeAtom close elseArm.index path options
                      let tail ← parseSequence options fuel (elseArm.index + 1) afterClose path
                      pure { tail with
                        nodes := .ifRegion opener thenArm.nodes (some elseMarker) elseArm.nodes
                          endMarker :: tail.nodes }
              else if controlToken stop ≠ .endif then Option.none
              else do
                let endMarker := makeAtom stop thenArm.index path options
                let tail ← parseSequence options fuel (thenArm.index + 1) afterStop path
                pure { tail with
                  nodes := .ifRegion opener thenArm.nodes Option.none [] endMarker :: tail.nodes }

def parse (instructions : List String) (options : StructuredIfTailOptions) : Option (List Node) :=
  match parseSequence options (instructions.length + 1) 0 instructions [] with
  | some parsed => if parsed.rest = [] then some parsed.nodes else Option.none
  | Option.none => Option.none

/-! ### Comparing and extracting -/

/-- `equivalent` on atoms. -/
def equivalentAtom (lhs rhs : Atom) : Bool :=
  if isPureHex lhs.encoding && isPureHex rhs.encoding then
    normalizeHex lhs.encoding == normalizeHex rhs.encoding
  else lhs.encoding == rhs.encoding

mutual

/-- `equivalent` on nodes. -/
def equivalent : Node → Node → Bool
  | .atom lhs, .atom rhs => equivalentAtom lhs rhs
  | .ifRegion opener thenBody elseMarker elseBody endMarker,
    .ifRegion opener' thenBody' elseMarker' elseBody' endMarker' =>
      equivalentAtom opener opener' &&
        (match elseMarker, elseMarker' with
          | some marker, some marker' => equivalentAtom marker marker'
          | Option.none, Option.none => true
          | _, _ => false) &&
        equivalentAtom endMarker endMarker' && equivalentSequence thenBody thenBody' &&
        equivalentSequence elseBody elseBody'
  | _, _ => false

/-- `equivalent` on sequences. -/
def equivalentSequence : List Node → List Node → Bool
  | [], [] => true
  | lhs :: ls, rhs :: rs => equivalent lhs rhs && equivalentSequence ls rs
  | _, _ => false

end

theorem equivalent_atom_ifRegion (a o e : Atom) (m : Option Atom) (t f : List Node) :
    equivalent (.atom a) (.ifRegion o t m f e) = false := rfl

theorem equivalent_ifRegion_atom (a o e : Atom) (m : Option Atom) (t f : List Node) :
    equivalent (.ifRegion o t m f e) (.atom a) = false := rfl

theorem equivalentSequence_nil_cons (n : Node) (ns : List Node) :
    equivalentSequence [] (n :: ns) = false := rfl

theorem equivalentSequence_cons_nil (n : Node) (ns : List Node) :
    equivalentSequence (n :: ns) [] = false := rfl

@[simp] theorem equivalentSequence_cons_cons (m n : Node) (ms ns : List Node) :
    equivalentSequence (m :: ms) (n :: ns) = (equivalent m n && equivalentSequence ms ns) := rfl

mutual

/-- `extractionSafe` on nodes. -/
def extractionSafe : Node → Bool
  | .atom atom => atom.extractionSafe
  | .ifRegion opener thenBody elseMarker elseBody endMarker =>
      opener.extractionSafe && endMarker.extractionSafe &&
        (match elseMarker with
          | some marker => marker.extractionSafe
          | Option.none => true) &&
        extractionSafeSequence thenBody && extractionSafeSequence elseBody

/-- `extractionSafe` on sequences. -/
def extractionSafeSequence : List Node → Bool
  | [] => true
  | node :: rest => extractionSafe node && extractionSafeSequence rest

end

def branchPredicateLess (lhs rhs : BranchPredicate) : Bool :=
  if lhs.ifPC ≠ rhs.ifPC then lhs.ifPC < rhs.ifPC
  else lhs.arm == .then && rhs.arm == .else

/-- `std::lexicographical_compare` of two paths. -/
def pathLess : List BranchPredicate → List BranchPredicate → Bool
  | _, [] => false
  | [], _ :: _ => true
  | l :: ls, r :: rs =>
      if branchPredicateLess l r then true
      else if branchPredicateLess r l then false
      else pathLess ls rs

def originLess (lhs rhs : InstructionOriginRef) : Bool :=
  if lhs.oldPC ≠ rhs.oldPC then lhs.oldPC < rhs.oldPC else pathLess lhs.path rhs.path

/-- `std::sort` with `originLess`. -/
def sortOrigins (origins : List InstructionOriginRef) : List InstructionOriginRef :=
  origins.insertionSort fun a b => originLess b a = false

/-- `std::unique`. -/
def uniqueOrigins : List InstructionOriginRef → List InstructionOriginRef
  | [] => []
  | [origin] => [origin]
  | origin :: next :: rest =>
      if origin = next then uniqueOrigins (next :: rest)
      else origin :: uniqueOrigins (next :: rest)

/-- `mergeOrigins` on atoms. -/
def mergeOriginsAtom (kept duplicate : Atom) : Atom :=
  { kept with origins := uniqueOrigins (sortOrigins (kept.origins ++ duplicate.origins)) }

mutual

/-- `mergeOrigins` on nodes. -/
def mergeOrigins : Node → Node → Node
  | .atom kept, .atom duplicate => .atom (mergeOriginsAtom kept duplicate)
  | .ifRegion opener thenBody elseMarker elseBody endMarker,
    .ifRegion opener' thenBody' elseMarker' elseBody' endMarker' =>
      .ifRegion (mergeOriginsAtom opener opener') (mergeOriginsSequence thenBody thenBody')
        (match elseMarker, elseMarker' with
          | some marker, some marker' => some (mergeOriginsAtom marker marker')
          | _, _ => elseMarker)
        (mergeOriginsSequence elseBody elseBody') (mergeOriginsAtom endMarker endMarker')
  | kept, _ => kept

/-- `mergeOrigins` on sequences. -/
def mergeOriginsSequence : List Node → List Node → List Node
  | kept :: ks, duplicate :: ds => mergeOrigins kept duplicate :: mergeOriginsSequence ks ds
  | ks, _ => ks

end

theorem mergeOrigins_atom_ifRegion (a o e : Atom) (m : Option Atom) (t f : List Node) :
    mergeOrigins (.atom a) (.ifRegion o t m f e) = .atom a := rfl

theorem mergeOrigins_ifRegion_atom (a o e : Atom) (m : Option Atom) (t f : List Node) :
    mergeOrigins (.ifRegion o t m f e) (.atom a) = .ifRegion o t m f e := rfl

@[simp] theorem mergeOriginsSequence_nil (ds : List Node) : mergeOriginsSequence [] ds = [] := rfl

theorem mergeOriginsSequence_cons_nil (k : Node) (ks : List Node) :
    mergeOriginsSequence (k :: ks) [] = k :: ks := rfl

theorem mergeOriginsSequence_cons_cons (k d : Node) (ks ds : List Node) :
    mergeOriginsSequence (k :: ks) (d :: ds) = mergeOrigins k d :: mergeOriginsSequence ks ds := rfl

/-- The counters that `optimizeSequence` keeps in the result. -/
structure Counters where
  changed : Bool := false
  mergedIfCount : ℕ := 0
  skippedUnsafeTailCount : ℕ := 0
  deriving DecidableEq, Repr

/-- The loop that counts the common tail, on the arms read from their ends. -/
def commonCount : List Node → List Node → ℕ
  | lhs :: ls, rhs :: rs => if equivalent lhs rhs then commonCount ls rs + 1 else 0
  | _, _ => 0

@[simp] theorem commonCount_nil (ns : List Node) : commonCount [] ns = 0 := rfl

@[simp] theorem commonCount_cons_nil (m : Node) (ms : List Node) : commonCount (m :: ms) [] = 0 :=
  rfl

@[simp] theorem commonCount_cons_cons (m n : Node) (ms ns : List Node) :
    commonCount (m :: ms) (n :: ns) = if equivalent m n then commonCount ms ns + 1 else 0 := rfl

/-- The arms of a conditional with both arms, the tail extracted from them, and the counters. -/
structure Extracted where
  thenBody : List Node
  elseBody : List Node
  commonTail : List Node
  counters : Counters

/-- The middle part of `optimizeSequence`: extraction from two optimised arms. -/
def extractCommonTail (thenBody elseBody : List Node) (counters : Counters) : Extracted :=
  if !(extractionSafeSequence thenBody && extractionSafeSequence elseBody) then
    let skipped :=
      match thenBody.getLast?, elseBody.getLast? with
      | some lhs, some rhs => equivalent lhs rhs
      | _, _ => false
    ⟨thenBody, elseBody, [],
      if skipped then
        { counters with skippedUnsafeTailCount := counters.skippedUnsafeTailCount + 1 }
      else counters⟩
  else
    let count := commonCount thenBody.reverse elseBody.reverse
    if count = 0 then ⟨thenBody, elseBody, [], counters⟩
    else
      let thenStart := thenBody.length - count
      let elseStart := elseBody.length - count
      ⟨thenBody.take thenStart, elseBody.take elseStart,
        List.zipWith mergeOrigins (thenBody.drop thenStart) (elseBody.drop elseStart),
        { counters with changed := true, mergedIfCount := counters.mergedIfCount + 1 }⟩

mutual

/-- One node of the loop of `optimizeSequence`, with the nodes it turns into. -/
def optimizeNode : Node → Counters → List Node × Counters
  | .atom atom, counters => ([.atom atom], counters)
  | .ifRegion opener thenBody elseMarker elseBody endMarker, counters =>
      let (thenBody, counters) := optimizeSequence thenBody counters
      let (elseBody, counters) := optimizeSequence elseBody counters
      match elseMarker with
      | Option.none => ([.ifRegion opener thenBody Option.none elseBody endMarker], counters)
      | some marker =>
          let extracted := extractCommonTail thenBody elseBody counters
          (.ifRegion opener extracted.thenBody (some marker) extracted.elseBody endMarker ::
            extracted.commonTail, extracted.counters)

def optimizeSequence : List Node → Counters → List Node × Counters
  | [], counters => ([], counters)
  | node :: rest, counters =>
      let (output, counters) := optimizeNode node counters
      let (outputs, counters) := optimizeSequence rest counters
      (output ++ outputs, counters)

end

/-! ### Writing the tree back -/

mutual

/-- The atoms of a node, in the order in which `flatten` writes them. -/
def flattenNode : Node → List Atom
  | .atom atom => [atom]
  | .ifRegion opener thenBody elseMarker elseBody endMarker =>
      opener :: flatten thenBody ++
        (match elseMarker with
          | some marker => marker :: flatten elseBody
          | Option.none => []) ++ [endMarker]

/-- The atoms of a sequence, in the order in which `flatten` writes them. -/
def flatten : List Node → List Atom
  | [] => []
  | node :: rest => flattenNode node ++ flatten rest

end

/-- `InstructionRewritePlan`; a deleted old instruction has no new place. -/
structure InstructionRewritePlan where
  oldToNew : List (Option ℕ)
  newToOld : List (List InstructionOriginRef)
  deriving DecidableEq, Repr

/-- The part of `flattenAtom` that records the new place of an atom's origins. -/
def recordOrigins (newPC : ℕ) (oldToNew : List (Option ℕ)) (origins : List InstructionOriginRef) :
    List (Option ℕ) :=
  origins.foldl (fun places origin => places.set origin.oldPC (some newPC)) oldToNew

/-- The plan that `flatten` fills in, atom by atom. -/
def flattenPlan (oldToNew : List (Option ℕ)) (atoms : List Atom) : InstructionRewritePlan where
  oldToNew := (atoms.zipIdx).foldl (fun places p => recordOrigins p.2 places p.1.origins) oldToNew
  newToOld := atoms.map (·.origins)

/-- The new predicate of one in an origin's path, when the conditional it names is still one. -/
def normalizePredicate (plan : InstructionRewritePlan)
    (oldInstructions newInstructions : List String) (predicate : BranchPredicate) :
    Option BranchPredicate := do
  let oldInstruction ← oldInstructions[predicate.ifPC]?
  let oldToken := controlToken oldInstruction
  if oldToken = .if ∨ oldToken = .notif then
    let mappedIfPC ← (plan.oldToNew[predicate.ifPC]?).join
    let newInstruction ← newInstructions[mappedIfPC]?
    if controlToken newInstruction = oldToken then
      pure { predicate with ifPC := mappedIfPC }
    else Option.none
  else Option.none

/-- No conditional occurs twice in a path. -/
def distinctRegions (path : List BranchPredicate) : Bool := (path.map (·.ifPC)).Nodup

def normalizeBranchPaths (plan : InstructionRewritePlan)
    (oldInstructions newInstructions : List String) : Option InstructionRewritePlan := do
  let newToOld ← plan.newToOld.mapM fun origins => do
    let origins ← origins.mapM fun origin => do
      let path ← origin.path.mapM (normalizePredicate plan oldInstructions newInstructions)
      if distinctRegions path then pure { origin with path } else Option.none
    pure (sortOrigins origins)
  pure { plan with newToOld }

/-- The check of one origin in `validateInstructionRewritePlan`. -/
def validOrigin (plan : InstructionRewritePlan) (oldInstructions newInstructions : List String)
    (newPC : ℕ) (origin : InstructionOriginRef) : Bool :=
  origin.oldPC < oldInstructions.length && plan.oldToNew[origin.oldPC]? == some (some newPC) &&
    (origin.path.all fun predicate =>
      predicate.ifPC < newInstructions.length && predicate.ifPC < newPC &&
        (match newInstructions[predicate.ifPC]? with
          | some instruction =>
              controlToken instruction == .if || controlToken instruction == .notif
          | Option.none => false)) &&
    distinctRegions origin.path

def validateInstructionRewritePlan (plan : InstructionRewritePlan)
    (oldInstructions newInstructions : List String) : Bool :=
  plan.oldToNew.length == oldInstructions.length &&
    plan.newToOld.length == newInstructions.length &&
    ((plan.newToOld.zipIdx).all fun p =>
      !p.1.isEmpty && p.1.all (validOrigin plan oldInstructions newInstructions p.2)) &&
    ((List.range oldInstructions.length).all fun oldPC =>
      let count := (plan.newToOld.flatten.filter fun origin => origin.oldPC == oldPC).length
      match (plan.oldToNew[oldPC]?).join with
      | Option.none => count == 0
      | some newPC => count == 1 && newPC < newInstructions.length)

/-- `StructuredIfTailRewriteResult`, without the two views that `populateCompatibilityViews`
derives from the plan. -/
structure StructuredIfTailRewriteResult where
  instructions : List String
  rewritePlan : InstructionRewritePlan
  rewritePlanValid : Bool
  changed : Bool
  structurallyValid : Bool
  mergedIfCount : ℕ
  skippedUnsafeTailCount : ℕ
  removedInstructionCount : ℕ
  deriving DecidableEq, Repr

def unchangedResult (instructions : List String) (structurallyValid rewritePlanValid : Bool) :
    StructuredIfTailRewriteResult where
  instructions := instructions
  rewritePlan :=
    ⟨(List.range instructions.length).map some,
      (List.range instructions.length).map fun pc => [⟨pc, []⟩]⟩
  rewritePlanValid := rewritePlanValid
  changed := false
  structurallyValid := structurallyValid
  mergedIfCount := 0
  skippedUnsafeTailCount := 0
  removedInstructionCount := 0

def optimize (instructions : List String) (options : StructuredIfTailOptions) :
    StructuredIfTailRewriteResult :=
  match parse instructions options with
  | Option.none => unchangedResult instructions false true
  | some parsed =>
      let (optimized, counters) := optimizeSequence parsed {}
      let atoms := flatten optimized
      let output := atoms.map (·.encoding)
      let plan := flattenPlan (List.replicate instructions.length Option.none) atoms
      match normalizeBranchPaths plan instructions output with
      | Option.none => unchangedResult instructions true false
      | some plan =>
          if validateInstructionRewritePlan plan instructions output then
            { instructions := output
              rewritePlan := plan
              rewritePlanValid := true
              changed := counters.changed
              structurallyValid := true
              mergedIfCount := counters.mergedIfCount
              skippedUnsafeTailCount := counters.skippedUnsafeTailCount
              removedInstructionCount := instructions.length - output.length }
          else unchangedResult instructions true false

end AtomicProof.IfTail
