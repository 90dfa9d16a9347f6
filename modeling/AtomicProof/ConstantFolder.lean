/-
The constant folder.

`ConstantFolder` of `src/src/compiler/constant_folder.cpp` rewrites the functions of a contract before they
are lowered.  It computes operators on literals, puts literals for variables that are written once in the
whole function, takes the branch that a literal condition selects, and drops loops over empty ranges and
variables that nothing reads.  What is known of a variable is kept in an environment that follows the
blocks: a declaration of an inner block is forgotten at its end, and after two branches only that remains
on which both agree.

Main definitions:

* `ConstEnvironment`, `Folder` — what is known, and what the folder changes on its way;
* `countAssignmentsInStmt`, `countReadsInStmt` — the counts that a function is folded with;
* `foldExpr`, `foldStmt`, `foldFunction` — folding;
* `Shrinks`, `Advances` — what folding an expression and a statement does to the environment.

Main results:

* `shrinks_foldExpr` — folding an expression forgets constants and learns none;
* `Advances.foldBlock` — a block forgets what it learns;
* `advances_foldStmt`, `foldStmt_learns` — **what a statement learns is bound to its block**: it is of
  names that the block declares, and whose one assignment the statement has.
-/

import AtomicProof.OperatorMeaning
import AtomicProof.RangePlan
import Mathlib.Logic.Function.Basic
import Mathlib.Order.Basic

set_option autoImplicit false

namespace AtomicProof

namespace ConstantFolder

/-! ### What is known -/

inductive FoldContext
  | rValue | lValue | identity
  deriving DecidableEq, Repr

/-- A `LiteralNode` as it is recorded. -/
structure Constant where
  type : BytecodeType
  value : String
  deriving DecidableEq, Repr

/-- The literal of a constant, `cloneLiteralAt`. -/
def Constant.node (constant : Constant) : AstExpr := .literal constant.type constant.value

def literal? : AstExpr → Option Constant
  | .literal type value => some ⟨type, value⟩
  | _ => none

def literalAsInt (constant : Constant) : Option ℤ :=
  if constant.type = .number then stoll constant.value.toList else none

/-- A `std::map` from names. -/
abbrev ConstMap (α : Type) := String → Option α

namespace ConstMap

variable {α : Type}

/-- `invalidateName` on one of the two maps. -/
def invalidateName (name : String) (map : ConstMap α) : ConstMap α :=
  if name = "" then map else Function.update map name none

/-- `mergeEnvironments` on one of the two maps: the bindings that both have. -/
def merge [DecidableEq α] (thenMap elseMap : ConstMap α) : ConstMap α := fun name =>
  if thenMap name = elseMap name then thenMap name else none

/-- A step of `restoreDeclaredNames` on one of the two maps: the binding at the entry, where there is
one. -/
def restoreName (entryMap map : ConstMap α) (name : String) : ConstMap α :=
  let map := map.invalidateName name
  Function.update map name ((entryMap name).orElse fun _ => map name)

end ConstMap

/-- `ConstEnvironment`: the constants of the variables and those of the arrays. -/
structure ConstEnvironment where
  scalars : ConstMap Constant := fun _ => none
  arrays : ConstMap (List Constant) := fun _ => none

namespace ConstEnvironment

def invalidateName (name : String) (env : ConstEnvironment) : ConstEnvironment :=
  ⟨env.scalars.invalidateName name, env.arrays.invalidateName name⟩

def mergeEnvironments (thenEnvironment elseEnvironment : ConstEnvironment) : ConstEnvironment :=
  ⟨thenEnvironment.scalars.merge elseEnvironment.scalars,
    thenEnvironment.arrays.merge elseEnvironment.arrays⟩

def restoreDeclaredNames (entryEnvironment : ConstEnvironment) (declaredNames : List String)
    (env : ConstEnvironment) : ConstEnvironment :=
  ⟨declaredNames.foldl (ConstMap.restoreName entryEnvironment.scalars) env.scalars,
    declaredNames.foldl (ConstMap.restoreName entryEnvironment.arrays) env.arrays⟩

/-- The constant that takes the place of a variable. -/
def scalarAt (env : ConstEnvironment) (context : FoldContext) (name : String) : Option Constant :=
  if context = .rValue then env.scalars name else none

/-- The constant that takes the place of an element of an array. -/
def elementAt (env : ConstEnvironment) (context : FoldContext) (base index : AstExpr) :
    Option Constant := do
  let name ← match base with
    | .identifier name => if context = .rValue then some name else none
    | _ => none
  let elements ← env.arrays name
  let position ← (← literal? index) |> literalAsInt
  if 0 ≤ position then elements[position.toNat]? else none

end ConstEnvironment

/-! ### The counts of a function -/

/-- `extractAssignTargetName`: the variable at the root of a target, or the empty text. -/
def extractAssignTargetName : AstExpr → String
  | .identifier name => name
  | .indexAccess base _ => extractAssignTargetName base
  | .fieldAccess base _ => extractAssignTargetName base
  | _ => ""

section Counts

variable (name : String)

mutual

/-- `countAssignmentsInStmt`: what a statement adds to the count of a name. -/
def countAssignmentsInStmt : AstStmt → ℕ
  | .block statements => countAssignmentsInStmts statements
  | .ifElse _ thenBranch elseBranch =>
      countAssignmentsInBranch thenBranch + countAssignmentsInBranch elseBranch
  | .forLoop target _ _ body =>
      -- a target is written in every round, and so is what the body writes
      (if target = name ∧ name ≠ "" then 2 else 0) +
        if 0 < countAssignmentsInBody body then countAssignmentsInBody body + 1 else 0
  | .assign target _ =>
      if target.any (fun target => extractAssignTargetName target = name) ∧ name ≠ "" then 1 else 0
  | .varDecl _ declared _ _ _ => if declared = name then 1 else 0
  | .arrayDecl declared _ _ _ => if declared = name then 1 else 0
  | .exprStmt _ => 0
  | .returnStmt _ _ => 0
  | .destructureAssign targets _ => targets.count name

def countAssignmentsInBranch : Option AstStmt → ℕ
  | some stmt => countAssignmentsInStmt stmt
  | none => 0

def countAssignmentsInBody : Option (List AstStmt) → ℕ
  | some statements => countAssignmentsInStmts statements
  | none => 0

def countAssignmentsInStmts : List AstStmt → ℕ
  | [] => 0
  | stmt :: rest => countAssignmentsInStmt stmt + countAssignmentsInStmts rest

end

mutual

/-- `countReadsInExpr`: what an expression adds to the count of a name. -/
def countReadsInExpr : AstExpr → ℕ
  | .literal _ _ => 0
  | .identifier read => if read = name then 1 else 0
  | .unary _ rhs => countReadsInExpr rhs
  | .binary _ lhs rhs => countReadsInExpr lhs + countReadsInExpr rhs
  | .arrayDef _ elements => countReadsInExprs elements
  | .brace elements => countReadsInExprs elements
  | .call _ args _ => countReadsInExprs args
  | .methodCall object _ args => countReadsInExpr object + countReadsInExprs args
  | .fieldAccess base _ => countReadsInExpr base
  | .indexAccess base index => countReadsInExpr base + countReadsInExpr index

def countReadsInExprs : List AstExpr → ℕ
  | [] => 0
  | expr :: rest => countReadsInExpr expr + countReadsInExprs rest

end

def countReadsInOption : Option AstExpr → ℕ
  | some expr => countReadsInExpr name expr
  | none => 0

/-- What the target of an assignment adds: the index of an element is read. -/
def countReadsInTarget : Option AstExpr → ℕ
  | some (.indexAccess _ index) => countReadsInExpr name index
  | _ => 0

mutual

/-- `countReadsInStmt`: what a statement adds to the count of a name. -/
def countReadsInStmt : AstStmt → ℕ
  | .block statements => countReadsInStmts statements
  | .ifElse condition thenBranch elseBranch =>
      countReadsInOption name condition + countReadsInBranch thenBranch + countReadsInBranch elseBranch
  | .forLoop _ _ iterable body => countReadsInOption name iterable + countReadsInBody body
  | .assign target value => countReadsInTarget name target + countReadsInOption name value
  | .varDecl _ _ _ initValue _ => countReadsInOption name initValue
  | .arrayDecl _ _ sizeExpr initArray =>
      countReadsInOption name sizeExpr + countReadsInExprs name ((initArray.map Prod.snd).getD [])
  | .exprStmt expr => countReadsInOption name expr
  | .returnStmt expr _ => countReadsInOption name expr
  | .destructureAssign _ value => countReadsInOption name value

def countReadsInBranch : Option AstStmt → ℕ
  | some stmt => countReadsInStmt stmt
  | none => 0

def countReadsInBody : Option (List AstStmt) → ℕ
  | some statements => countReadsInStmts statements
  | none => 0

def countReadsInStmts : List AstStmt → ℕ
  | [] => 0
  | stmt :: rest => countReadsInStmt stmt + countReadsInStmts rest

end

end Counts

/-- What a function is folded with: `m_assignCounts`, `m_readCounts` and `m_parameterNames`. -/
structure Counts where
  assignCounts : String → ℕ
  readCounts : String → ℕ
  parameterNames : List String

/-! ### Expressions -/

/-- What the folder changes: the environment, `m_declaredNamesStack` from the innermost block outwards,
and the messages of `m_result`. -/
structure Folder where
  consts : ConstEnvironment := {}
  declaredNames : List (List String) := []
  errors : List String := []

abbrev Folding (α : Type) := StateM Folder α

def alterConsts (f : ConstEnvironment → ConstEnvironment) : Folding Unit :=
  modify fun F => { F with consts := f F.consts }

def reportError (message : String) : Folding Unit :=
  modify fun F => { F with errors := F.errors ++ [message] }

def isIdentitySensitiveCall (functionName : String) : Bool :=
  ["Delete", "Keep", "Move", "SetAlt", "SetMain"].contains functionName

/-- The test of `tryFoldOp`: the operands are literals. -/
def hasLiteralOperands : AstExpr → Bool
  | .unary _ rhs => (literal? rhs).isSome
  | .binary _ lhs rhs => (literal? rhs).isSome && (literal? lhs).isSome
  | _ => false

def numberLiteral (value : ℤ) : AstExpr := .literal .number (toString value)

/-- `tryFoldOp`, with `tryFoldUnary` and `tryFoldBinary`: an operator that cannot be computed stays. -/
def tryFoldOp (op : AstExpr) : Folding AstExpr :=
  if hasLiteralOperands op then
    match evaluate (fun _ => none) op.node with
    | some (.known value) => pure (numberLiteral value.toInt)
    | some (.error diagnostic) => do
        reportError diagnostic
        pure op
    | _ => pure op
  else pure op

/-- The literal that the left operand of `&&` or `||` decides. -/
def shortCircuit (op : String) (lhs : AstExpr) : Option AstExpr := do
  let value ← (← literal? lhs) |> literalAsInt
  if op = "&&" ∧ value = 0 then some (numberLiteral 0)
  else if op = "||" ∧ value ≠ 0 then some (numberLiteral 1)
  else none

mutual

def foldExpr (context : FoldContext) : AstExpr → Folding AstExpr
  | .literal type value => pure (.literal type value)
  | .identifier name => do
      let F ← get
      pure (((F.consts.scalarAt context name).map Constant.node).getD (.identifier name))
  | .unary op rhs => do
      let rhs ← foldExpr context rhs
      if context = .rValue then tryFoldOp (.unary op rhs) else pure (.unary op rhs)
  | .binary op lhs rhs => do
      let lhs ← foldExpr context lhs
      let rhs ← foldExpr context rhs
      if context = .rValue then
        match shortCircuit op lhs with
        | some literal => pure literal
        | none => tryFoldOp (.binary op lhs rhs)
      else pure (.binary op lhs rhs)
  | .arrayDef elementType elements => do
      let elements ← foldExprs .rValue elements
      pure (.arrayDef elementType elements)
  | .brace elements => do
      let elements ← foldExprs .rValue elements
      pure (.brace elements)
  | .call funcName args isRangeCall => do
      let identitySensitive := isIdentitySensitiveCall funcName
      let args ← foldExprs (if identitySensitive then .identity else context) args
      -- the runtime slots of these variables are looked at or moved from here on
      alterConsts fun consts =>
        if identitySensitive then
          args.foldl (fun consts arg => consts.invalidateName (extractAssignTargetName arg)) consts
        else consts
      pure (.call funcName args isRangeCall)
  | .methodCall object methodName args => do
      let object ← foldExpr .identity object
      let args ← foldExprs .rValue args
      alterConsts (·.invalidateName (extractAssignTargetName object))
      pure (.methodCall object methodName args)
  | .fieldAccess base field => do
      let base ← foldExpr (if context = .rValue then .rValue else .identity) base
      pure (.fieldAccess base field)
  | .indexAccess base index => do
      let base ← foldExpr (if context = .rValue then .rValue else .identity) base
      let index ← foldExpr .rValue index
      let F ← get
      pure (((F.consts.elementAt context base index).map Constant.node).getD (.indexAccess base index))

/-- The expressions of a list, in their order. -/
def foldExprs (context : FoldContext) : List AstExpr → Folding (List AstExpr)
  | [] => pure []
  | expr :: rest => do
      let expr ← foldExpr context expr
      let rest ← foldExprs context rest
      pure (expr :: rest)

end

def foldOption (context : FoldContext) : Option AstExpr → Folding (Option AstExpr)
  | some expr => do
      let expr ← foldExpr context expr
      pure (some expr)
  | none => pure none

/-! ### Statements -/

def recordDeclaration (name : String) : Folding Unit :=
  modify fun F => { F with declaredNames := F.declaredNames.modifyHead (name :: ·) }

def isNameVisible (counts : Counts) (name : String) (F : Folder) : Bool :=
  counts.parameterNames.contains name || F.declaredNames.any (·.contains name)

/-- The branch that a condition selects, where it has become a literal of a number. -/
def selectedBranch (condition : Option AstExpr) : Option Bool := do
  let value ← (← literal? (← condition)) |> literalAsInt
  pure (value ≠ 0)

def knownBound (bound : AstExpr) : Option Int64 :=
  match evaluate (fun _ => none) bound.node with
  | some (.known value) => some value
  | _ => none

def planIsEmpty (start stop step : Int64) : Bool :=
  match RangePlan.build start stop step none with
  | .ok plan => plan.count = 0
  | .error _ => false

/-- The test of dead loops: a call of `Range` with known bounds has no values. -/
def rangeIsEmpty : AstExpr → Bool
  | .call funcName args _ =>
      if funcName = "Range" then
        match args.mapM knownBound with
        | some [stop] => planIsEmpty 0 stop 1
        | some [start, stop] => planIsEmpty start stop 1
        | some [start, stop, step] => planIsEmpty start stop step
        | _ => false
      else false
  | _ => false

/-- `foldBlock` around what stands in the block: the names that it declares are as they were. -/
def foldBlock {α : Type} (inner : Folding α) : Folding α := do
  let entry ← get
  modify fun F => { F with declaredNames := [] :: F.declaredNames }
  let result ← inner
  modify fun F =>
    { F with
      consts := .restoreDeclaredNames entry.consts (F.declaredNames.headD []) F.consts
      declaredNames := F.declaredNames.tail }
  pure result

/-- A declared variable becomes a constant, where its literal is its one assignment. -/
def recordScalar (counts : Counts) (name : String) (initValue : Option AstExpr) : Folding Unit :=
  alterConsts fun consts =>
    match initValue.bind literal? with
    | some constant =>
        if counts.assignCounts name = 1 then
          ⟨Function.update consts.scalars name (some constant), consts.arrays⟩
        else consts
    | none => consts

/-- A declared array becomes one of constants, where its literals are its one assignment. -/
def recordArray (counts : Counts) (name : String) (initArray : Option (String × List AstExpr)) :
    Folding Unit :=
  alterConsts fun consts =>
    match initArray.bind fun array => array.2.mapM literal? with
    | some constants =>
        if counts.assignCounts name = 1 then
          ⟨consts.scalars, Function.update consts.arrays name (some constants)⟩
        else consts
    | none => consts

def foldInitArray : Option (String × List AstExpr) → Folding (Option (String × List AstExpr))
  | some (elementType, elements) => do
      let elements ← foldExprs .rValue elements
      pure (some (elementType, elements))
  | none => pure none

/-- The test of dead variables: one assignment, of a literal or of nothing, and no reads. -/
def isDeadVariable (counts : Counts) (name : String) (initValue : Option AstExpr) : Bool :=
  counts.assignCounts name = 1 && counts.readCounts name = 0 &&
    initValue.all fun value => (literal? value).isSome

section Statements

variable (counts : Counts)

/-- The target of a loop is declared for it where it is no name in sight, and is no constant. -/
def enterLoop (target : String) (targetExistedBeforeLoop : Bool) : Folding Unit := do
  if targetExistedBeforeLoop then pure () else recordDeclaration target
  alterConsts (·.invalidateName target)

mutual

/-- `foldStmt`; a statement that is dropped has no result. -/
def foldStmt : AstStmt → Folding (Option AstStmt)
  | .block statements => do
      let statements ← foldBlock (foldStatements statements)
      pure (some (.block statements))
  | .ifElse condition thenBranch elseBranch => do
      let condition ← foldOption .rValue condition
      match selectedBranch condition with
      | some true => foldBranch thenBranch
      | some false => foldBranch elseBranch
      | none => do
          let entry ← get
          let thenBranch ← foldBranch thenBranch
          let thenFolder ← get
          -- both branches start from the environment in front of them
          alterConsts fun _ => entry.consts
          let elseBranch ← foldBranch elseBranch
          alterConsts fun elseEnvironment => thenFolder.consts.mergeEnvironments elseEnvironment
          pure (some (.ifElse condition thenBranch elseBranch))
  | .forLoop target inferredType iterable body => do
      let iterable ← foldOption .rValue iterable
      if iterable.any rangeIsEmpty then pure none
      else do
        let F ← get
        let body ← foldBlock do
          enterLoop target (isNameVisible counts target F)
          foldBody body
        pure (some (.forLoop target inferredType iterable body))
  | .assign target value => do
      let target ← foldOption .lValue target
      let value ← foldOption .rValue value
      alterConsts (·.invalidateName ((target.map extractAssignTargetName).getD ""))
      pure (some (.assign target value))
  | .varDecl node name type initValue compoundFields => do
      let initValue ← foldOption .rValue initValue
      if isDeadVariable counts name initValue then pure none
      else do
        recordDeclaration name
        alterConsts (·.invalidateName name)
        recordScalar counts name initValue
        pure (some (.varDecl node name type initValue compoundFields))
  | .arrayDecl name elementType sizeExpr initArray => do
      let sizeExpr ← foldOption .rValue sizeExpr
      let initArray ← foldInitArray initArray
      recordDeclaration name
      alterConsts (·.invalidateName name)
      recordArray counts name initArray
      pure (some (.arrayDecl name elementType sizeExpr initArray))
  | .exprStmt expr => do
      let expr ← foldOption .rValue expr
      pure (some (.exprStmt expr))
  | .returnStmt expr isValueReturn => do
      let expr ← foldOption (if isValueReturn then .identity else .rValue) expr
      pure (some (.returnStmt expr isValueReturn))
  | .destructureAssign targets value => do
      let value ← foldOption .rValue value
      alterConsts fun consts => targets.foldl (fun consts name => consts.invalidateName name) consts
      pure (some (.destructureAssign targets value))

def foldBranch : Option AstStmt → Folding (Option AstStmt)
  | some stmt => foldStmt stmt
  | none => pure none

/-- The body of a loop is a block of its own. -/
def foldBody : Option (List AstStmt) → Folding (Option (List AstStmt))
  | some statements => do
      let statements ← foldBlock (foldStatements statements)
      pure (some statements)
  | none => pure none

/-- The statements of a block; what is dropped is filtered out. -/
def foldStatements : List AstStmt → Folding (List AstStmt)
  | [] => pure []
  | stmt :: rest => do
      let stmt ← foldStmt stmt
      let rest ← foldStatements rest
      pure (stmt.toList ++ rest)

end

end Statements

def countsOf (fn : FunctionNode) : Counts where
  assignCounts name := countAssignmentsInBody name fn.block
  readCounts name := countReadsInBody name fn.block
  parameterNames := fn.parameters.map Prod.fst

/-- `foldFunction`, with the messages of the errors. -/
def foldFunction (fn : FunctionNode) : FunctionNode × List String :=
  let (block, F) := foldBody (countsOf fn) fn.block {}
  ({ fn with block := block }, F.errors)

/-! ### Environments in order -/

namespace ConstMap

variable {α : Type} {map map' map'' entry : ConstMap α} {name : String}

/-- One map knows less than another one.  The empty text is no name: no block forgets it. -/
def Below (map map' : ConstMap α) : Prop := ∀ x, x ≠ "" → ∀ a, map x = some a → map' x = some a

theorem Below.refl (map : ConstMap α) : map.Below map := fun _ _ _ => id

theorem Below.trans (h : map.Below map') (h' : map'.Below map'') : map.Below map'' :=
  fun x hx a ha => h' x hx a (h x hx a ha)

theorem invalidateName_apply (hname : name ≠ "") (x : String) :
    map.invalidateName name x = if x = name then none else map x := by
  rw [invalidateName, if_neg hname, Function.update_apply]

theorem invalidateName_below (map : ConstMap α) (name : String) : (map.invalidateName name).Below map := by
  by_cases hname : name = ""
  · rw [invalidateName, if_pos hname]
    exact .refl map
  · intro x _ a ha
    rw [invalidateName_apply hname] at ha
    split_ifs at ha
    exact ha

theorem merge_below [DecidableEq α] : (map.merge map').Below map ∧ (map.merge map').Below map' := by
  refine ⟨fun x _ a ha => ?_, fun x _ a ha => ?_⟩
  · rw [merge] at ha
    split_ifs at ha
    exact ha
  · rw [merge] at ha
    split_ifs at ha with hsame
    exact hsame.symm.trans ha

theorem restoreName_apply {x : String} (hx : x ≠ "") :
    restoreName entry map name x = if x = name then entry x else map x := by
  by_cases hname : x = name
  · subst hname
    rw [restoreName, Function.update_self, if_pos rfl, invalidateName_apply hx, if_pos rfl]
    cases entry x with
    | none => rfl
    | some a => rfl
  · rw [restoreName, Function.update_of_ne hname, if_neg hname, invalidateName]
    split_ifs
    · rfl
    · exact Function.update_of_ne hname _ _

theorem foldl_restoreName_apply {x : String} (hx : x ≠ "") (declaredNames : List String) :
    declaredNames.foldl (restoreName entry) map x = if x ∈ declaredNames then entry x else map x := by
  induction declaredNames generalizing map with
  | nil => rfl
  | cons name declaredNames ih =>
      rw [List.foldl_cons, ih, restoreName_apply hx]
      by_cases hname : x = name
      · rw [if_pos hname, if_pos (List.mem_cons.2 (Or.inl hname)), ite_self]
      · simp only [List.mem_cons, hname, false_or, if_false]

end ConstMap

namespace ConstEnvironment

variable {env env' entry : ConstEnvironment}

/-- An environment below another one knows less. -/
instance : Preorder ConstEnvironment where
  le env env' := env.scalars.Below env'.scalars ∧ env.arrays.Below env'.arrays
  le_refl env := ⟨.refl _, .refl _⟩
  le_trans env env' env'' h h' := ⟨h.1.trans h'.1, h.2.trans h'.2⟩

theorem invalidateName_le (env : ConstEnvironment) (name : String) : env.invalidateName name ≤ env :=
  ⟨ConstMap.invalidateName_below _ _, ConstMap.invalidateName_below _ _⟩

theorem foldl_invalidateName_le {α : Type} (f : α → String) (names : List α) (env : ConstEnvironment) :
    names.foldl (fun consts a => consts.invalidateName (f a)) env ≤ env := by
  induction names generalizing env with
  | nil => exact le_refl env
  | cons a names ih => exact le_trans (ih _) (invalidateName_le env (f a))

theorem mergeEnvironments_le_left (env env' : ConstEnvironment) : env.mergeEnvironments env' ≤ env :=
  ⟨ConstMap.merge_below.1, ConstMap.merge_below.1⟩

end ConstEnvironment

/-! ### What folding does to the environment -/

theorem run_bind {α β : Type} (m : Folding α) (f : α → Folding β) (F : Folder) :
    (m >>= f) F = f (m F).1 (m F).2 := rfl

/-- Every run of a part of the folder relates the folder before it to the folder after it. -/
def Every {α : Type} (R : Folder → Folder → Prop) (m : Folding α) : Prop := ∀ F, R F (m F).2

namespace Every

variable {α β : Type} {R : Folder → Folder → Prop}

theorem pure (hrefl : ∀ F, R F F) (a : α) : Every R (Pure.pure a : Folding α) := fun F => hrefl F

theorem bind (htrans : ∀ F F' F'', R F F' → R F' F'' → R F F'') {m : Folding α} {f : α → Folding β}
    (hm : Every R m) (hf : ∀ a, Every R (f a)) : Every R (m >>= f) := fun F =>
  htrans F _ _ (hm F) (hf (m F).1 (m F).2)

theorem get_bind {f : Folder → Folding β} (hf : ∀ F, Every R (f F)) : Every R (get >>= f) := fun F =>
  hf F F

end Every

/-- The blocks stay, and what is known becomes less. -/
structure Shrinks (F F' : Folder) : Prop where
  names : F'.declaredNames = F.declaredNames
  consts : F'.consts ≤ F.consts

namespace Shrinks

theorem refl (F : Folder) : Shrinks F F := ⟨rfl, le_refl _⟩

theorem trans (F F' F'' : Folder) (h : Shrinks F F') (h' : Shrinks F' F'') : Shrinks F F'' :=
  ⟨h'.names.trans h.names, le_trans h'.consts h.consts⟩

theorem alterConsts {f : ConstEnvironment → ConstEnvironment} (hf : ∀ env, f env ≤ env) :
    Every Shrinks (alterConsts f) := fun F => ⟨rfl, hf F.consts⟩

theorem tryFoldOp (op : AstExpr) : Every Shrinks (tryFoldOp op) := by
  unfold ConstantFolder.tryFoldOp
  split_ifs
  · cases evaluate (fun _ => none) op.node with
    | none => exact .pure refl _
    | some result =>
        cases result with
        | known value => exact .pure refl _
        | unknown => exact .pure refl _
        | error diagnostic => exact .bind trans (fun F => ⟨rfl, le_refl _⟩) fun _ => .pure refl _
  · exact .pure refl _

end Shrinks

mutual

/-- **Folding an expression forgets constants and learns none.** -/
theorem shrinks_foldExpr (context : FoldContext) (e : AstExpr) : Every Shrinks (foldExpr context e) := by
  cases e with
  | literal type value =>
      rw [foldExpr]
      exact .pure Shrinks.refl _
  | identifier name =>
      rw [foldExpr]
      exact .get_bind fun F => .pure Shrinks.refl _
  | unary op rhs =>
      rw [foldExpr]
      refine .bind Shrinks.trans (shrinks_foldExpr context rhs) fun rhs' => ?_
      split_ifs
      · exact Shrinks.tryFoldOp _
      · exact .pure Shrinks.refl _
  | binary op lhs rhs =>
      rw [foldExpr]
      refine .bind Shrinks.trans (shrinks_foldExpr context lhs) fun lhs' =>
        .bind Shrinks.trans (shrinks_foldExpr context rhs) fun rhs' => ?_
      split_ifs
      · cases shortCircuit op lhs' with
        | none => exact Shrinks.tryFoldOp _
        | some literal => exact .pure Shrinks.refl _
      · exact .pure Shrinks.refl _
  | arrayDef elementType elements =>
      rw [foldExpr]
      exact .bind Shrinks.trans (shrinks_foldExprs _ elements) fun _ => .pure Shrinks.refl _
  | brace elements =>
      rw [foldExpr]
      exact .bind Shrinks.trans (shrinks_foldExprs _ elements) fun _ => .pure Shrinks.refl _
  | call funcName args isRangeCall =>
      rw [foldExpr]
      refine .bind Shrinks.trans (shrinks_foldExprs _ args) fun args' =>
        .bind Shrinks.trans (Shrinks.alterConsts fun env => ?_) fun _ => .pure Shrinks.refl _
      split_ifs
      · exact ConstEnvironment.foldl_invalidateName_le _ _ _
      · exact le_refl env
  | methodCall object methodName args =>
      rw [foldExpr]
      exact .bind Shrinks.trans (shrinks_foldExpr _ object) fun _ =>
        .bind Shrinks.trans (shrinks_foldExprs _ args) fun _ =>
          .bind Shrinks.trans (Shrinks.alterConsts fun env => env.invalidateName_le _) fun _ =>
            .pure Shrinks.refl _
  | fieldAccess base field =>
      rw [foldExpr]
      exact .bind Shrinks.trans (shrinks_foldExpr _ base) fun _ => .pure Shrinks.refl _
  | indexAccess base index =>
      rw [foldExpr]
      exact .bind Shrinks.trans (shrinks_foldExpr _ base) fun _ =>
        .bind Shrinks.trans (shrinks_foldExpr _ index) fun _ => .get_bind fun F => .pure Shrinks.refl _

theorem shrinks_foldExprs (context : FoldContext) (es : List AstExpr) :
    Every Shrinks (foldExprs context es) := by
  cases es with
  | nil =>
      rw [foldExprs]
      exact .pure Shrinks.refl _
  | cons e rest =>
      rw [foldExprs]
      exact .bind Shrinks.trans (shrinks_foldExpr context e) fun _ =>
        .bind Shrinks.trans (shrinks_foldExprs context rest) fun _ => .pure Shrinks.refl _

end

theorem shrinks_foldOption (context : FoldContext) (e : Option AstExpr) :
    Every Shrinks (foldOption context e) := by
  cases e with
  | none => exact .pure Shrinks.refl _
  | some e => exact .bind Shrinks.trans (shrinks_foldExpr context e) fun _ => .pure Shrinks.refl _

theorem shrinks_foldInitArray (initArray : Option (String × List AstExpr)) :
    Every Shrinks (foldInitArray initArray) := by
  cases initArray with
  | none => exact .pure Shrinks.refl _
  | some array => exact .bind Shrinks.trans (shrinks_foldExprs _ array.2) fun _ => .pure Shrinks.refl _

/-! ### What a statement learns -/

/-- What the second map knows and the first one does not is of names of a kind. -/
def ConstMap.Gains {α : Type} (fresh : String → Prop) (map map' : ConstMap α) : Prop :=
  ∀ x, x ≠ "" → ∀ a, map' x = some a → map x = some a ∨ fresh x

namespace ConstMap.Gains

variable {α : Type} {fresh fresh' : String → Prop} {map map' map'' entry : ConstMap α}

theorem trans (h : Gains fresh map map') (h' : Gains fresh map' map'') : Gains fresh map map'' :=
  fun x hx a ha => (h' x hx a ha).elim (h x hx a) Or.inr

theorem imp (h : Gains fresh map map') (himp : ∀ x, fresh x → fresh' x) : Gains fresh' map map' :=
  fun x hx a ha => (h x hx a ha).imp_right (himp x)

theorem update (name : String) (a : α) : Gains (· = name) map (Function.update map name (some a)) := by
  intro x _ b hb
  by_cases hx : x = name
  · exact Or.inr hx
  · rw [Function.update_of_ne hx] at hb
    exact Or.inl hb

theorem restored {declaredNames : List String} (h : Gains (· ∈ declaredNames) entry map) :
    (declaredNames.foldl (restoreName entry) map).Below entry := by
  intro x hx a ha
  rw [foldl_restoreName_apply hx] at ha
  split_ifs at ha with hmem
  · exact ha
  · exact (h x hx a ha).resolve_right hmem

end ConstMap.Gains

/-- What is known in the second environment and not in the first one is of names of a kind. -/
def LearnsOnly (fresh : String → Prop) (env env' : ConstEnvironment) : Prop :=
  env.scalars.Gains fresh env'.scalars ∧ env.arrays.Gains fresh env'.arrays

namespace LearnsOnly

variable {fresh fresh' : String → Prop} {env env' env'' : ConstEnvironment}

theorem of_le (h : env' ≤ env) : LearnsOnly fresh env env' :=
  ⟨fun x hx a ha => Or.inl (h.1 x hx a ha), fun x hx a ha => Or.inl (h.2 x hx a ha)⟩

theorem trans (h : LearnsOnly fresh env env') (h' : LearnsOnly fresh env' env'') :
    LearnsOnly fresh env env'' := ⟨h.1.trans h'.1, h.2.trans h'.2⟩

theorem imp (h : LearnsOnly fresh env env') (himp : ∀ x, fresh x → fresh' x) :
    LearnsOnly fresh' env env' := ⟨h.1.imp himp, h.2.imp himp⟩

end LearnsOnly

section Learning

variable (counts : Counts)

/-- A name whose one assignment is among those that are counted. -/
def AssignedOnce (written : String → ℕ) (x : String) : Prop := counts.assignCounts x = 1 ∧ 0 < written x

/-- In the innermost block names are declared, and what is learnt is of these names. -/
def Advances (written : String → ℕ) (F F' : Folder) : Prop :=
  ∀ names rest, F.declaredNames = names :: rest →
    ∃ names', F'.declaredNames = names' :: rest ∧ names ⊆ names' ∧
      LearnsOnly (fun x => x ∈ names' ∧ AssignedOnce counts written x) F.consts F'.consts

namespace Advances

variable {counts} {written written' : String → ℕ} {F F' F'' : Folder}

theorem refl (F : Folder) : Advances counts written F F := fun names _ hF =>
  ⟨names, hF, List.Subset.refl _, .of_le (le_refl _)⟩

theorem trans (F F' F'' : Folder) (h : Advances counts written F F')
    (h' : Advances counts written F' F'') : Advances counts written F F'' := by
  intro names rest hF
  obtain ⟨names', hF', hsub, hlearns⟩ := h names rest hF
  obtain ⟨names'', hF'', hsub', hlearns'⟩ := h' names' rest hF'
  refine ⟨names'', hF'', List.Subset.trans hsub hsub', ?_⟩
  exact (hlearns.imp fun x hx => ⟨hsub' hx.1, hx.2⟩).trans hlearns'

theorem mono (h : Advances counts written F F') (hle : ∀ x, written x ≤ written' x) :
    Advances counts written' F F' := by
  intro names rest hF
  obtain ⟨names', hF', hsub, hlearns⟩ := h names rest hF
  exact ⟨names', hF', hsub, hlearns.imp fun x hx => ⟨hx.1, hx.2.1, hx.2.2.trans_le (hle x)⟩⟩

theorem of_shrinks (h : Shrinks F F') : Advances counts written F F' := fun names _ hF =>
  ⟨names, h.names.trans hF, List.Subset.refl _, .of_le h.consts⟩

/-- **A block forgets what it learns**, whatever it counts. -/
theorem foldBlock {α : Type} {inner : Folding α} (h : Every (Advances counts written) inner) :
    Every Shrinks (foldBlock inner) := by
  intro F
  obtain ⟨names', hnames, -, hlearns⟩ :=
    h { F with declaredNames := [] :: F.declaredNames } [] F.declaredNames rfl
  have hdeclared := hlearns.imp fun x hx => hx.1
  have hconsts : ConstEnvironment.restoreDeclaredNames F.consts names'
      (inner { F with declaredNames := [] :: F.declaredNames }).2.consts ≤ F.consts :=
    ⟨hdeclared.1.restored, hdeclared.2.restored⟩
  refine ⟨?_, ?_⟩
  · show (inner _).2.declaredNames.tail = _
    rw [hnames]
    rfl
  · show ConstEnvironment.restoreDeclaredNames F.consts ((inner _).2.declaredNames.headD []) _ ≤ _
    rw [hnames]
    exact hconsts

theorem recordDeclaration (name : String) : Every (Advances counts written) (recordDeclaration name) := by
  intro F names rest hF
  refine ⟨name :: names, ?_, List.subset_cons_self name names, .of_le (le_refl _)⟩
  show F.declaredNames.modifyHead _ = _
  rw [hF]
  rfl

/-- What is recorded of a name that is declared is learnt. -/
theorem recorded {α : Type} {name : String} {record : Folding Unit} (result : α)
    (hwritten : 0 < written name) (hnames : ∀ F, (record F).2.declaredNames = F.declaredNames)
    (hlearns : ∀ F, LearnsOnly (fun x => x = name ∧ counts.assignCounts x = 1) F.consts
      (record F).2.consts) :
    Every (Advances counts written) (do
      ConstantFolder.recordDeclaration name
      alterConsts (·.invalidateName name)
      record
      pure result) := by
  intro F names rest hF
  refine ⟨name :: names, ?_, List.subset_cons_self name names, ?_⟩
  · show (record _).2.declaredNames = _
    rw [hnames]
    show F.declaredNames.modifyHead _ = _
    rw [hF]
    rfl
  · refine (LearnsOnly.of_le (F.consts.invalidateName_le name)).trans ((hlearns _).imp ?_)
    rintro x ⟨rfl, hx⟩
    exact ⟨List.mem_cons_self .., hx, hwritten⟩

end Advances

theorem learnsOnly_recordScalar (name : String) (initValue : Option AstExpr) (F : Folder) :
    LearnsOnly (fun x => x = name ∧ counts.assignCounts x = 1) F.consts
      (recordScalar counts name initValue F).2.consts := by
  rw [recordScalar]
  show LearnsOnly _ _ (match initValue.bind literal? with
    | some constant =>
        if counts.assignCounts name = 1 then
          ⟨Function.update F.consts.scalars name (some constant), F.consts.arrays⟩
        else F.consts
    | none => F.consts)
  cases initValue.bind literal? with
  | none => exact .of_le (le_refl _)
  | some constant =>
      dsimp only
      split_ifs with hcount
      · refine ⟨(ConstMap.Gains.update name constant).imp ?_, fun _ _ _ => Or.inl⟩
        rintro x rfl
        exact ⟨rfl, hcount⟩
      · exact .of_le (le_refl _)

theorem learnsOnly_recordArray (name : String) (initArray : Option (String × List AstExpr))
    (F : Folder) :
    LearnsOnly (fun x => x = name ∧ counts.assignCounts x = 1) F.consts
      (recordArray counts name initArray F).2.consts := by
  rw [recordArray]
  show LearnsOnly _ _ (match initArray.bind fun array => array.2.mapM literal? with
    | some constants =>
        if counts.assignCounts name = 1 then
          ⟨F.consts.scalars, Function.update F.consts.arrays name (some constants)⟩
        else F.consts
    | none => F.consts)
  cases initArray.bind fun array => array.2.mapM literal? with
  | none => exact .of_le (le_refl _)
  | some constants =>
      dsimp only
      split_ifs with hcount
      · refine ⟨fun _ _ _ => Or.inl, (ConstMap.Gains.update name constants).imp ?_⟩
        rintro x rfl
        exact ⟨rfl, hcount⟩
      · exact .of_le (le_refl _)

theorem every_shrinks {α : Type} {written : String → ℕ} {m : Folding α} (h : Every Shrinks m) :
    Every (Advances counts written) m := fun F => .of_shrinks (h F)

theorem advances_enterLoop {written : String → ℕ} (target : String) (existed : Bool) :
    Every (Advances counts written) (enterLoop target existed) := by
  have hforget : Every (Advances counts written) (alterConsts (·.invalidateName target)) :=
    every_shrinks counts (Shrinks.alterConsts fun env => env.invalidateName_le target)
  cases existed with
  | true => exact .bind Advances.trans (.pure Advances.refl ()) fun _ => hforget
  | false => exact .bind Advances.trans (Advances.recordDeclaration target) fun _ => hforget

mutual

/-- What a statement learns is bound to its block, by induction on the statement. -/
theorem advances_foldStmt (stmt : AstStmt) :
    Every (Advances counts fun x => countAssignmentsInStmt x stmt) (foldStmt counts stmt) := by
  cases stmt with
  | block statements =>
      rw [foldStmt]
      exact .bind Advances.trans (every_shrinks counts
        (Advances.foldBlock (advances_foldStatements statements))) fun _ => .pure Advances.refl _
  | ifElse condition thenBranch elseBranch =>
      have hthen := advances_foldBranch thenBranch
      have helse := advances_foldBranch elseBranch
      have hleft : ∀ x, countAssignmentsInBranch x thenBranch ≤
          countAssignmentsInStmt x (.ifElse condition thenBranch elseBranch) := fun x => by
        rw [countAssignmentsInStmt]
        exact Nat.le_add_right _ _
      have hright : ∀ x, countAssignmentsInBranch x elseBranch ≤
          countAssignmentsInStmt x (.ifElse condition thenBranch elseBranch) := fun x => by
        rw [countAssignmentsInStmt]
        exact Nat.le_add_left _ _
      rw [foldStmt]
      refine .bind Advances.trans (every_shrinks counts (shrinks_foldOption _ condition)) fun condition' => ?_
      cases hselected : selectedBranch condition' with
      | some selected =>
          cases selected with
          | true => exact fun F => (hthen F).mono hleft
          | false => exact fun F => (helse F).mono hright
      | none =>
          intro F names rest hF
          obtain ⟨names', hF', hsub, hlearns⟩ := (hthen F).mono hleft names rest hF
          obtain ⟨names'', hF'', hsub', -⟩ := (helse
            { (foldBranch counts thenBranch F).2 with consts := F.consts }).mono hright names' rest hF'
          refine ⟨names'', hF'', List.Subset.trans hsub hsub', ?_⟩
          -- what the second branch learns alone is not known to the merged environment
          refine (hlearns.imp fun x hx => ⟨hsub' hx.1, hx.2⟩).trans (.of_le ?_)
          exact ConstEnvironment.mergeEnvironments_le_left _ _
  | forLoop target inferredType iterable body =>
      rw [foldStmt]
      refine .bind Advances.trans (every_shrinks counts (shrinks_foldOption _ iterable)) fun iterable' => ?_
      split_ifs
      · exact .pure Advances.refl _
      · refine .get_bind fun F => .bind Advances.trans (every_shrinks counts ?_) fun _ =>
          .pure Advances.refl _
        -- the rounds of the loop share one folded body, which starts from no more than is known here
        have hbody := advances_foldBody body
        exact Advances.foldBlock
          (Every.bind Advances.trans (advances_enterLoop counts target _) fun _ => hbody)
  | assign target value =>
      rw [foldStmt]
      exact every_shrinks counts (.bind Shrinks.trans (shrinks_foldOption _ target) fun _ =>
        .bind Shrinks.trans (shrinks_foldOption _ value) fun _ =>
          .bind Shrinks.trans (Shrinks.alterConsts fun env => env.invalidateName_le _) fun _ =>
            .pure Shrinks.refl _)
  | varDecl node name type initValue compoundFields =>
      rw [foldStmt]
      refine .bind Advances.trans (every_shrinks counts (shrinks_foldOption _ initValue)) fun initValue' => ?_
      split_ifs
      · exact .pure Advances.refl _
      · refine Advances.recorded _ ?_ (fun F => rfl) (learnsOnly_recordScalar counts name initValue')
        rw [countAssignmentsInStmt, if_pos rfl]
        exact Nat.one_pos
  | arrayDecl name elementType sizeExpr initArray =>
      rw [foldStmt]
      refine .bind Advances.trans (every_shrinks counts (shrinks_foldOption _ sizeExpr)) fun sizeExpr' =>
        .bind Advances.trans (every_shrinks counts (shrinks_foldInitArray initArray)) fun initArray' => ?_
      refine Advances.recorded _ ?_ (fun F => rfl) (learnsOnly_recordArray counts name initArray')
      rw [countAssignmentsInStmt, if_pos rfl]
      exact Nat.one_pos
  | exprStmt expr =>
      rw [foldStmt]
      exact every_shrinks counts (.bind Shrinks.trans (shrinks_foldOption _ expr) fun _ =>
        .pure Shrinks.refl _)
  | returnStmt expr isValueReturn =>
      rw [foldStmt]
      exact every_shrinks counts (.bind Shrinks.trans (shrinks_foldOption _ expr) fun _ =>
        .pure Shrinks.refl _)
  | destructureAssign targets value =>
      rw [foldStmt]
      exact every_shrinks counts (.bind Shrinks.trans (shrinks_foldOption _ value) fun _ =>
        .bind Shrinks.trans (Shrinks.alterConsts fun env =>
          ConstEnvironment.foldl_invalidateName_le id targets env) fun _ => .pure Shrinks.refl _)

theorem advances_foldBranch (branch : Option AstStmt) :
    Every (Advances counts fun x => countAssignmentsInBranch x branch) (foldBranch counts branch) := by
  cases branch with
  | none =>
      rw [foldBranch]
      exact .pure Advances.refl _
  | some stmt =>
      rw [foldBranch]
      exact advances_foldStmt stmt

theorem advances_foldBody (body : Option (List AstStmt)) :
    Every (Advances counts fun x => countAssignmentsInBody x body) (foldBody counts body) := by
  cases body with
  | none =>
      rw [foldBody]
      exact .pure Advances.refl _
  | some statements =>
      rw [foldBody]
      exact .bind Advances.trans (every_shrinks counts
        (Advances.foldBlock (advances_foldStatements statements))) fun _ => .pure Advances.refl _

theorem advances_foldStatements (statements : List AstStmt) :
    Every (Advances counts fun x => countAssignmentsInStmts x statements)
      (foldStatements counts statements) := by
  cases statements with
  | nil =>
      rw [foldStatements]
      exact .pure Advances.refl _
  | cons stmt rest =>
      have hstmt := advances_foldStmt stmt
      have hrest := advances_foldStatements rest
      rw [foldStatements]
      refine .bind Advances.trans (fun F => (hstmt F).mono fun x => ?_) fun _ =>
        .bind Advances.trans (fun F => (hrest F).mono fun x => ?_) fun _ => .pure Advances.refl _
      · rw [countAssignmentsInStmts]
        exact Nat.le_add_right _ _
      · rw [countAssignmentsInStmts]
        exact Nat.le_add_left _ _

end

/-- **What a statement learns is bound to its block.**  Names are declared in the innermost block alone, and
a constant that is known behind a statement and was not known in front of it is of a name that this block
declares and whose one assignment in the function stands in the statement. -/
theorem foldStmt_learns (stmt : AstStmt) (consts : ConstEnvironment) (names : List String)
    (rest : List (List String)) (errors : List String) :
    ∃ names', (foldStmt counts stmt ⟨consts, names :: rest, errors⟩).2.declaredNames = names' :: rest ∧
      names ⊆ names' ∧ ∀ x, x ≠ "" →
        (∀ constant, (foldStmt counts stmt ⟨consts, names :: rest, errors⟩).2.consts.scalars x =
          some constant → consts.scalars x = some constant ∨
            (x ∈ names' ∧ counts.assignCounts x = 1 ∧ 0 < countAssignmentsInStmt x stmt)) ∧
        (∀ elements, (foldStmt counts stmt ⟨consts, names :: rest, errors⟩).2.consts.arrays x =
          some elements → consts.arrays x = some elements ∨
            (x ∈ names' ∧ counts.assignCounts x = 1 ∧ 0 < countAssignmentsInStmt x stmt)) := by
  obtain ⟨names', hnames, hsub, hscalars, harrays⟩ :=
    advances_foldStmt counts stmt ⟨consts, names :: rest, errors⟩ names rest rfl
  exact ⟨names', hnames, hsub, fun x hx => ⟨hscalars x hx, harrays x hx⟩⟩

end Learning

end ConstantFolder

end AtomicProof
