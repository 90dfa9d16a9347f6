/-
The interpreter of contracts.

`ASTInterpreter` of `src/src/interpreter/ast_interpreter.cpp` runs the statements of a contract on
variables.  An expression or a statement is a computation: it reads and changes the variables, can throw,
and need not end, as user functions can call themselves.  A call runs its function in a new scope around
which the scopes of the caller stay in sight.  A reference into a variable is a place, which is followed
anew whenever it is used; where nothing is left at the place the reference dangles and there is no result.

Main definitions:

* `AstExpr`, `AstStmt`, `FunctionNode` — the nodes;
* `RuntimeContext` — what a run does not change;
* `ASTInterpreter.State` — what it does: the scopes, the globals and what was learnt of declarations;
* `ASTInterpreter.evalExpr`, `ASTInterpreter.execStmt` — an expression and a statement, over the meaning
  of calls;
* `ASTInterpreter.callFunction` — a call, with the depth that calls may reach.
-/

import AtomicProof.Computation
import AtomicProof.Environment
import AtomicProof.RuntimeArgument
import AtomicProof.StructBytes

set_option autoImplicit false

namespace AtomicProof

/-! ### Nodes -/

inductive BytecodeType
  | number | string | boolean | hex | fixedArray | pubKey | sig | ripemd160 | pubKeyHash | sha1 | sha256
  | sigHashType | sigHashPreimage | opCodeType | addr | privKey
  deriving DecidableEq, Repr

/-- `TypeMapper::toString`. -/
def BytecodeType.toText : BytecodeType → String
  | number => "number"
  | string => "string"
  | boolean => "boolean"
  | hex => "hex"
  | fixedArray => "array"
  | pubKey => "pubkey"
  | sig => "signature"
  | ripemd160 => "ripemd160"
  | pubKeyHash => "pubkeyhash"
  | sha1 => "sha1"
  | sha256 => "sha256"
  | sigHashType => "sighashtype"
  | sigHashPreimage => "sighashpreimage"
  | opCodeType => "opcodetype"
  | addr => "address"
  | privKey => "privkey"

/-- The expressions: `LiteralNode`, `IdentifierNode`, `OpNode` without and with a left operand,
`ArrayDefNode`, `BraceExprNode`, `CallNode`, `MethodCallNode`, `FieldAccessNode`, `IndexAccessNode`. -/
inductive AstExpr
  | literal (type : BytecodeType) (value : String)
  | identifier (name : String)
  | unary (op : String) (rhs : AstExpr)
  | binary (op : String) (lhs rhs : AstExpr)
  | arrayDef (elementType : String) (elements : List AstExpr)
  | brace (elements : List AstExpr)
  | call (funcName : String) (args : List AstExpr) (isRangeCall : Bool)
  | methodCall (object : AstExpr) (methodName : String) (args : List AstExpr)
  | fieldAccess (base : AstExpr) (field : String)
  | indexAccess (base index : AstExpr)

/-- The statements: `BlockNode`, `IfNode`, `ForNode`, `AssignNode`, `VarDeclNode`, `ArrayDeclNode`,
`ExprStmtNode`, `ReturnNode`, `DestructureAssignNode`.  A `VarDeclNode` has a number of its own, under
which the type that the interpreter writes into the node is kept. -/
inductive AstStmt
  | block (statements : List AstStmt)
  | ifElse (condition : Option AstExpr) (thenBranch elseBranch : Option AstStmt)
  | forLoop (target inferredType : String) (iterable : Option AstExpr) (body : Option (List AstStmt))
  | assign (name value : Option AstExpr)
  | varDecl (node : ℕ) (name type : String) (initValue : Option AstExpr)
      (compoundFields : Option (List CompoundFieldInfo))
  | arrayDecl (name elementType : String) (sizeExpr : Option AstExpr)
      (initArray : Option (String × List AstExpr))
  | exprStmt (expr : Option AstExpr)
  | returnStmt (expr : Option AstExpr) (isValueReturn : Bool)
  | destructureAssign (targets : List String) (value : Option AstExpr)

/-- `FunctionNode`: the parameters with their types. -/
structure FunctionNode where
  name : String
  parameters : List (String × String)
  block : Option (List AstStmt)

/-- What `RuntimeContext` holds besides the variables, with the hash functions of the builtins. -/
structure RuntimeContext where
  functions : List FunctionNode
  structs : List StructDefNode
  objects : RuntimeObjects
  hashes : Env

namespace RuntimeContext

/-- `findFunction`: a later function of a name replaces an earlier one. -/
def findFunction (ctx : RuntimeContext) (name : String) : Option FunctionNode :=
  ctx.functions.reverse.find? (·.name = name)

def findStruct (ctx : RuntimeContext) (name : String) : Option StructDefNode :=
  ctx.structs.reverse.find? (·.name = name)

end RuntimeContext

/-! ### Values -/

namespace RuntimeValue

def fromAddress (value : String) : RuntimeValue := .address value "address"

def setDeclaredType (t : String) : RuntimeValue → RuntimeValue
  | void _ => void t
  | int value _ => int value t
  | bool value _ => bool value t
  | bytes data _ => bytes data t
  | string value _ => string value t
  | address value _ => address value t
  | array values _ => array values t
  | struct fields _ => struct fields t
  | builtinObject name fields _ => builtinObject name fields t

def typeName : RuntimeType → String
  | .void => "void"
  | .int => "int"
  | .bool => "bool"
  | .bytes => "bytes"
  | .string => "string"
  | .address => "address"
  | .array => "array"
  | .struct => "struct"
  | .builtinObject => "builtin"

end RuntimeValue

def isRuntimeIntegerType (typeName : String) : Bool :=
  ["int", "number", "uint64", "uint32", "uint16", "uint8"].any fun name =>
    normalizeRuntimeName typeName = name.toList

def defaultRuntimeCompoundValue (fields : List CompoundFieldInfo) : RuntimeValue :=
  .struct (collect (fields.map fun field =>
    (field.name, .fromBytes (List.replicate field.byteSize 0) field.type))) "__compound__"

/-- `defaultRuntimeValueForType` for a type that is no structure. -/
def defaultPlainValue (typeName : String) : RuntimeValue :=
  if isRuntimeBoolType typeName then .fromBool false
  else if isRuntimeHexType typeName then .fromBytes [] typeName
  else if normalizeRuntimeName typeName = "string".toList then .fromString ""
  else if normalizeRuntimeName typeName = "address".toList then .fromAddress ""
  else if isRuntimeIntegerType typeName ∨ typeName = "" then
    .fromInt 0 (if typeName = "" then "int" else typeName)
  else .struct [] typeName

/-- `defaultRuntimeValueForFieldType` over the default values of types. -/
def defaultRuntimeValueForFieldType (ofType : String → Option RuntimeValue)
    (fieldType : StructFieldType) : Option RuntimeValue :=
  if fieldType.isCompoundType then some (defaultRuntimeCompoundValue fieldType.compoundFields)
  else if fieldType.isArray then
    ((List.replicate fieldType.arraySize fieldType.baseType).mapM ofType).map fun values =>
      .array values (fieldType.baseType ++ "[]")
  else ofType fieldType.baseType

/-- `defaultRuntimeValueForType`, with the depth to which structures may contain others.  Where there are
no more structures than that, a deeper one contains itself, and there is no value. -/
def defaultRuntimeValueForType (structs : List StructDefNode) : ℕ → String → Option RuntimeValue
  | 0, typeName =>
      if (structs.find? (·.name = typeName)).isSome then none else some (defaultPlainValue typeName)
  | depth + 1, typeName =>
      match structs.find? (·.name = typeName) with
      | none => some (defaultPlainValue typeName)
      | some structDef =>
          (structDef.fields.mapM fun field =>
            (defaultRuntimeValueForFieldType (defaultRuntimeValueForType structs depth) field.2).map
              fun value => (field.1, value)).map
            fun fields => .struct (collect fields) structDef.name

/-! ### The state -/

namespace ASTInterpreter

/-- `FlowKind` and `ControlFlow`, with the kind of the `ReturnNode` that ended the statement, which the
code does not keep. -/
structure Flow where
  kind : FlowKind := .normal
  values : List RuntimeValue := []
  isValueReturn : Bool := false

/-- The variables, the scopes inside the global one from the current one outwards; the compound types
under the names of their variables; the types that were written into declarations. -/
structure State where
  scopes : Environment
  globals : Scope
  compoundDeclarations : List (String × List CompoundFieldInfo) := []
  nodeTypes : List (ℕ × String) := []

abbrev Interpretation (α : Type) := Computation RuntimeError State α

namespace State

/-- `m_currentEnv`. -/
def env (s : State) : Environment := s.scopes ++ [s.globals]

/-- The slot that `tryResolve` finds is changed. -/
def update (f : RuntimeSlot → RuntimeSlot) (name : String) (s : State) : State :=
  if (s.scopes.tryResolve name).isSome then { s with scopes := Environment.update f s.scopes name }
  else { s with globals := Environment.updateScope name f s.globals }

def define (name : String) (slot : RuntimeSlot) (s : State) : Except RuntimeError State :=
  match s.scopes with
  | [] => (Environment.define [s.globals] name slot).map fun env => { s with globals := env.headD [] }
  | scope :: rest =>
      (Environment.define [scope] name slot).map fun env => { s with scopes := env.headD [] :: rest }

/-- The scope around the current one is defined in. -/
def defineOutside (name : String) (slot : RuntimeSlot) (s : State) : Except RuntimeError State :=
  match s.scopes with
  | [] => s.define name slot
  | scope :: rest =>
      ({ s with scopes := rest }.define name slot).map fun (inner : State) =>
        { inner with scopes := scope :: inner.scopes }

/-- `Environment::assign` in the current environment. -/
def assign (name : String) (value : RuntimeValue) (s : State) : Except RuntimeError State :=
  (s.env.resolve name).map fun _ => s.update (Environment.assignSlot value) name

/-- `Environment::assign` in the global environment. -/
def assignGlobal (name : String) (value : RuntimeValue) (s : State) : Except RuntimeError State :=
  (Environment.resolve [s.globals] name).map fun _ =>
    { s with globals := Environment.updateScope name (Environment.assignSlot value) s.globals }

/-- `Environment::define` in the global environment. -/
def defineGlobal (name : String) (slot : RuntimeSlot) (s : State) : Except RuntimeError State :=
  (Environment.define [s.globals] name slot).map fun env => { s with globals := env.headD [] }

def storeGlobal (name : String) (storage : StorageClass) (s : State) : State :=
  { s with globals := Environment.updateScope name (fun slot => { slot with storage := storage }) s.globals }

end State

open AtomicProof.Computation

def attempt (f : State → Except RuntimeError State) : Interpretation Unit := do
  let s ← get
  let s' ← MonadExcept.ofExcept (f s)
  set s'

/-- What an `Environment` says of a name. -/
def inspect {α : Type} (f : State → Except RuntimeError α) : Interpretation α := do
  let s ← get
  MonadExcept.ofExcept (f s)

/-- The number of scopes inside the global one. -/
def currentDepth : Interpretation ℕ := do
  let s ← get
  pure s.scopes.length

/-- `createChild`. -/
def enterScope : Interpretation Unit := modify fun s => { s with scopes := [] :: s.scopes }

/-- The environment that was current at a depth is current again. -/
def leaveTo (depth : ℕ) : Interpretation Unit :=
  modify fun s => { s with scopes := s.scopes.drop (s.scopes.length - depth) }

/-- The environment that was current is current again, also when something is thrown. -/
def returning {α : Type} (m : Interpretation α) : Interpretation α := do
  let depth ← currentDepth
  let a ← tryCatch m fun error => do
    leaveTo depth
    throw error
  leaveTo depth
  pure a

/-! ### Values of types -/

section Meaning

variable (ctx : RuntimeContext)

def defaultValueForType (typeName : String) : Interpretation RuntimeValue :=
  ofOption (defaultRuntimeValueForType ctx.structs ctx.structs.length typeName)

def defaultValueForStructField (fieldType : StructFieldType) : Interpretation RuntimeValue :=
  ofOption (defaultRuntimeValueForFieldType
    (defaultRuntimeValueForType ctx.structs ctx.structs.length) fieldType)

def coerceDeclaredValue (value : RuntimeValue) (declaredType : String)
    (compoundFields : Option (List CompoundFieldInfo)) : Interpretation RuntimeValue :=
  match compoundFields with
  | some fields =>
      if value.type = .struct then
        pure (value.setDeclaredType (if declaredType = "" then "__compound__" else declaredType))
      else MonadExcept.ofExcept (unpackCompoundValue value fields)
  | none =>
      match if declaredType = "" then none else ctx.findStruct declaredType with
      | none => pure value
      | some structDef =>
          match value with
          | .void _ => defaultValueForType ctx structDef.name
          | .struct [] _ => defaultValueForType ctx structDef.name
          | .struct fields _ => pure (.struct fields declaredType)
          | value => MonadExcept.ofExcept (unpackStructValue ctx.findStruct value structDef)

/-! ### Expressions over their parts -/

/-- `evalLiteral`.  The text of the error of a number is that of `std::stoll`. -/
def evalLiteral (type : BytecodeType) (value : String) : Except RuntimeError RuntimeValue :=
  match type with
  | .number =>
      match stoll value.toList with
      | some number => .ok (.fromInt number "number")
      | none => .error ⟨.generic, "stoll"⟩
  | .boolean => .ok (.fromBool (["true", "1", "yes"].contains (String.ofList (value.toList.map toLower))))
  | .string => .ok (.fromString value)
  | .addr => .ok (.fromAddress value)
  | type => RuntimeValue.fromHexString value.toList type.toText

def isReserved (name : String) : Bool :=
  let lower := String.ofList (name.toList.map toLower)
  lower = "true" || lower = "false" || name = "self" || name = "BVM" || name = "bvm"

def evalIdentifier (name : String) : Interpretation RuntimeValue :=
  inspect fun s => (AtomicProof.evalIdentifier ctx.objects name s.env).map Prod.fst

/-- `evalOp` without a left operand. -/
def evalUnary (op : String) (rhs : RuntimeValue) : Except RuntimeError RuntimeValue :=
  if op = "-" then rhs.toScriptNum.map fun n => .fromInt (wrap64 (-n)) rhs.declaredType
  else .error ⟨.generic, "unsupported unary operator '" ++ op ++ "'"⟩

/-- `evalOp` with two operands, which are both evaluated first. -/
def evalBinary (op : String) (lhs rhs : RuntimeValue) : Except RuntimeError RuntimeValue :=
  let numbers (f : ℤ → ℤ → RuntimeValue) : Except RuntimeError RuntimeValue := do
    let n ← lhs.toScriptNum
    let m ← rhs.toScriptNum
    pure (f n m)
  if op = "+" then
    if lhs.type = .string ∨ rhs.type = .string then
      .ok (.fromString (lhs.toDisplayString ++ rhs.toDisplayString))
    else numbers fun n m => .fromInt (wrap64 (n + m))
  else if op = "-" then numbers fun n m => .fromInt (wrap64 (n - m))
  else if op = "*" then numbers fun n m => .fromInt (wrap64 (n * m))
  else if op = "/" then do
    let divisor ← rhs.toScriptNum
    if divisor = 0 then throw ⟨.generic, "division by zero"⟩
    else
      let n ← lhs.toScriptNum
      pure (.fromInt (wrap64 (n.tdiv divisor)))
  else if op = "==" ∨ op = "=" then .ok (.fromBool (lhs.eq rhs))
  else if op = "!=" then .ok (.fromBool (!lhs.eq rhs))
  else if op = "<" then numbers fun n m => .fromBool (n < m)
  else if op = ">" then numbers fun n m => .fromBool (m < n)
  else if op = "<=" then numbers fun n m => .fromBool (n ≤ m)
  else if op = ">=" then numbers fun n m => .fromBool (m ≤ n)
  else if op = "&&" ∨ op = "and" then .ok (.fromBool (lhs.truthy && rhs.truthy))
  else if op = "||" ∨ op = "or" then .ok (.fromBool (lhs.truthy || rhs.truthy))
  else .error ⟨.generic, "unsupported binary operator '" ++ op ++ "'"⟩

/-- `evalFieldAccess` on a value. -/
def fieldOf (field : String) (base : RuntimeValue) : Except RuntimeError RuntimeValue :=
  let isSize := ["Size", "size", "Length", "length"].contains field
  let noField : Except RuntimeError RuntimeValue := .error ⟨.invalidFieldAccess,
    "value of type '" ++ RuntimeValue.typeName base.type ++ "' has no field '" ++ field ++ "'"⟩
  match base with
  | .struct fields _ =>
      match fields.lookup field with
      | some value => .ok value
      | none => .error ⟨.invalidFieldAccess, "struct value has no field '" ++ field ++ "'"⟩
  | .builtinObject name fields _ =>
      match fields.lookup field with
      | some value => .ok value
      | none => .error ⟨.invalidFieldAccess,
          "builtin object '" ++ name ++ "' has no field '" ++ field ++ "'"⟩
  | .array values _ => if isSize then .ok (.fromInt values.length) else noField
  | .bytes data _ => if isSize then .ok (.fromInt data.length) else noField
  | .string value _ => if isSize then .ok (.fromInt value.utf8ByteSize) else noField
  | .address value _ => if isSize then .ok (.fromInt value.utf8ByteSize) else noField
  | _ => noField

def outOfBounds (what : String) (index length : ℕ) : RuntimeError :=
  ⟨.invalidIndexAccess, what ++ " index " ++ toString index ++ " is out of bounds for length " ++
    toString length⟩

/-- `evalIndexAccess` on a value. -/
def elementOf (base : RuntimeValue) (rawIndex : ℤ) : Except RuntimeError RuntimeValue :=
  let index := rawIndex.toNat
  let character (text : String) : Except RuntimeError RuntimeValue :=
    match text.toUTF8.toList[index]? with
    | some byte => .ok (.fromString (String.ofList [Char.ofNat byte.toNat]))
    | none => .error (outOfBounds "string" index text.utf8ByteSize)
  if rawIndex < 0 then .error ⟨.invalidIndexAccess, "array index cannot be negative"⟩
  else
    match base with
    | .array values _ =>
        match values[index]? with
        | some value => .ok value
        | none => .error (outOfBounds "array" index values.length)
    | .bytes data _ =>
        match data[index]? with
        | some byte => .ok (.fromInt byte.toNat "uint8")
        | none => .error (outOfBounds "bytes" index data.length)
    | .string text _ => character text
    | .address text _ => character text
    | _ => .error ⟨.invalidIndexAccess,
        "value of type '" ++ RuntimeValue.typeName base.type ++ "' is not indexable"⟩

/-- The loop of `evalRange`: no result where there are more than `limit` values. -/
def rangeValues (stop step : ℤ) : ℕ → ℤ → Option (List ℤ)
  | 0, value => if (if 0 < step then value < stop else stop < value) then none else some []
  | limit + 1, value =>
      if (if 0 < step then value < stop else stop < value) then
        (rangeValues stop step limit (wrap64 (value + step))).map (value :: ·)
      else some []

/-- `evalRange` on the bounds. -/
def rangeOf (bounds : List ℤ) : Except RuntimeError (List ℤ) :=
  let (start, stop, step) : ℤ × ℤ × ℤ :=
    match bounds with
    | [stop] => (0, stop, 1)
    | [start, stop] => (start, stop, 1)
    | start :: stop :: step :: _ => (start, stop, step)
    | [] => (0, 0, 1)
  if step = 0 then .error ⟨.builtinError, "Range(...) step cannot be zero"⟩
  else
    match rangeValues stop step 1000000 start with
    | some values => .ok values
    | none => .error ⟨.builtinError, "Range(...) produced too many values"⟩

def isSignatureBuiltinName (name : String) : Bool :=
  ["CheckSig", "CheckSigVerify", "MultiSig", "MultiSigVerify"].contains name

def lookupSignatureResult (bvm : RuntimeValue) (builtinName : String) : Option Bool :=
  let fields := match bvm with
    | .builtinObject _ fields _ => fields
    | .struct fields _ => fields
    | _ => []
  let keys := if builtinName = "MultiSig" ∨ builtinName = "MultiSigVerify" then
    ["multiSigResult", "signatureValid", "checkSigResult"] else ["checkSigResult", "signatureValid"]
  (keys.findSome? fun key => fields.lookup key).map RuntimeValue.truthy

/-- The signature builtins of `evalCall`. -/
def evalSignature (funcName : String) (args : List RuntimeValue) :
    Except RuntimeError RuntimeValue :=
  if args.length ≠ 2 then .error (BuiltinRuntime.argCountError funcName args 2)
  else
    match lookupSignatureResult ctx.objects.bvm funcName with
    | none => .error ⟨.builtinError, funcName ++ "(...) requires BVM.checkSigResult or " ++
        "BVM.multiSigResult in AST interpreter mode"⟩
    | some ok =>
        if funcName = "CheckSigVerify" ∨ funcName = "MultiSigVerify" then
          if ok then .ok .voidValue else .error ⟨.builtinError, funcName ++ "(...) failed"⟩
        else .ok (.fromBool ok)

def firstOrAggregateReturn (values : List RuntimeValue) (functionName : String) : RuntimeValue :=
  match values with
  | [] => .voidValue
  | [value] => value
  | values => .array values
      (if functionName = "" then "return[]" else functionName ++ "_return[]")

/-! ### Transfers -/

def resolveSlot (name : String) : Interpretation RuntimeSlot := inspect fun s => s.env.resolve name

def updateSlot (name : String) (f : RuntimeSlot → RuntimeSlot) : Interpretation Unit :=
  modify fun s => s.update f name

/-- A slot as it is copied between the current and the global scope. -/
def copiedSlot (slot : RuntimeSlot) (storage : StorageClass) : RuntimeSlot where
  value := slot.value
  declaredType := if slot.declaredType = "" then slot.value.declaredType else slot.declaredType
  storage := storage

/-- A global slot comes into the current scope. -/
def takeGlobal (name : String) (slot : RuntimeSlot) : Interpretation Unit := do
  let s ← get
  if s.env.containsLocal name then
    attempt fun s => s.assign name slot.value
    updateSlot name fun slot => { slot with storage := .mainStack }
  else attempt fun s => s.define name (copiedSlot slot .mainStack)

def putGlobal (name : String) (slot : RuntimeSlot) : Interpretation Unit := do
  let s ← get
  if Environment.containsLocal [s.globals] name then
    attempt fun s => s.assignGlobal name slot.value
    modify fun s => s.storeGlobal name .altStack
  else attempt fun s => s.defineGlobal name (copiedSlot slot .altStack)

/-- `evalStackTransferCall` of `Delete`. -/
def deleteSlot (name : String) : Interpretation RuntimeValue := do
  let s ← get
  if s.env.contains name then
    updateSlot name fun slot => { slot with ownership := .deleted }
    pure .voidValue
  else throw ⟨.undefinedVariable, "variable '" ++ name ++ "' is not defined"⟩

/-- `evalStackTransferCall` of `SetMain`. -/
def setMainSlot (name : String) : Interpretation RuntimeValue := do
  let s ← get
  if Environment.contains [s.globals] name then
    let slot ← inspect fun s => Environment.resolve [s.globals] name
    takeGlobal name slot
    modify fun s => s.storeGlobal name .mainStack
    pure slot.value
  else
    let slot ← resolveSlot name
    updateSlot name fun slot => { slot with storage := .mainStack }
    pure slot.value

/-- `evalStackTransferCall` of `Keep`, `Move` and `SetAlt`: the slot is changed and its value read. -/
def passSlot (name : String) (f : RuntimeSlot → RuntimeSlot) : Interpretation RuntimeSlot := do
  let slot ← resolveSlot name
  updateSlot name f
  pure slot

/-- `evalStackTransferCall` on a name. -/
def transferSlot (funcName name : String) : Interpretation RuntimeValue :=
  if funcName = "Delete" then deleteSlot name
  else if funcName = "Keep" then do
    let slot ← passSlot name fun slot => { slot with keepOnScopeExit := true }
    pure slot.value
  else if funcName = "Move" then do
    let slot ← passSlot name fun slot => { slot with ownership := .consumed }
    pure slot.value
  else if funcName = "SetMain" then setMainSlot name
  else do
    let slot ← passSlot name fun slot => { slot with storage := .altStack }
    putGlobal name slot
    pure slot.value

end Meaning

/-! ### Places -/

inductive Step
  | field (name : String)
  | index (position : ℕ)
  deriving DecidableEq, Repr

/-- A reference into a variable: the number of scopes around that of the variable, its name, and the way
into its value. -/
structure Place where
  level : ℕ
  name : String
  path : List Step

def follow : List Step → RuntimeValue → Option RuntimeValue
  | [], value => some value
  | .field name :: path, .struct fields _ => (fields.lookup name).bind (follow path)
  | .index position :: path, .array values _ => values[position]?.bind (follow path)
  | _, _ => none

/-- The value behind some steps is changed. -/
def alter (f : RuntimeValue → RuntimeValue) : List Step → RuntimeValue → RuntimeValue
  | [], value => f value
  | .field name :: path, .struct fields declaredType =>
      .struct (fields.map fun field =>
        if field.1 = name then (field.1, alter f path field.2) else field) declaredType
  | .index position :: path, .array values declaredType =>
      .array (values.modify position (alter f path)) declaredType
  | _, value => value

/-- The number of scopes around the one in which a name is found. -/
def levelOf : Environment → String → ℕ
  | [], _ => 0
  | scope :: parents, name =>
      if (scope.lookup name).isSome then parents.length else levelOf parents name

namespace State

def scopeAt (s : State) (level : ℕ) : Option Scope := s.env.reverse[level]?

def read (s : State) (place : Place) : Option RuntimeValue :=
  (s.scopeAt place.level).bind fun scope =>
    (scope.lookup place.name).bind fun slot => follow place.path slot.value

/-- The slot of a name in the scope of a level is changed. -/
def updateAt (level : ℕ) (name : String) (f : RuntimeSlot → RuntimeSlot) (s : State) : State :=
  if level = 0 then { s with globals := Environment.updateScope name f s.globals }
  else { s with scopes := s.scopes.modify (s.scopes.length - level) (Environment.updateScope name f) }

def write (f : RuntimeValue → RuntimeValue) (place : Place) (s : State) : State :=
  s.updateAt place.level place.name fun slot => { slot with value := alter f place.path slot.value }

end State

/-- The value at a place; a reference that dangles has none. -/
def readPlace (place : Place) : Interpretation RuntimeValue := do
  let s ← get
  ofOption (s.read place)

def astNodeName : AstExpr → String
  | .call _ _ _ => "CallNode"
  | .methodCall _ _ _ => "MethodCallNode"
  | .fieldAccess _ _ => "FieldAccessNode"
  | .indexAccess _ _ => "IndexAccessNode"
  | _ => "ASTNode"

/-- A name that is no variable is not assigned to. -/
def notAssignable (name : String) : RuntimeError :=
  ⟨.generic, "runtime object or literal '" ++ name ++ "' is not assignable"⟩

/-! ### Expressions and statements -/

section Running

variable (ctx : RuntimeContext)
  (callFunction : FunctionNode → List RuntimeValue → Interpretation (List RuntimeValue))

mutual

def evalExpr : AstExpr → Interpretation RuntimeValue
  | .literal type value => MonadExcept.ofExcept (evalLiteral type value)
  | .identifier name => evalIdentifier ctx name
  | .unary op rhs => do
      let rhs ← evalExpr rhs
      MonadExcept.ofExcept (evalUnary op rhs)
  | .binary op lhs rhs => do
      let lhs ← evalExpr lhs
      let rhs ← evalExpr rhs
      MonadExcept.ofExcept (evalBinary op lhs rhs)
  | .arrayDef elementType elements => do
      let values ← evalExprs elements
      pure (.array values elementType)
  | .brace elements => do
      let values ← evalExprs elements
      pure (.array values "brace")
  | .call funcName args isRangeCall =>
      if funcName = "Range" ∨ isRangeCall then do
        if args.length = 0 ∨ 3 < args.length then
          throw ⟨.builtinError, "Range(...) expects 1 to 3 arguments"⟩
        else
          let bounds ← evalNumbers args
          let items ← MonadExcept.ofExcept (rangeOf bounds)
          pure (.array (items.map fun item => .fromInt item) "int[]")
      else if ["Delete", "Keep", "Move", "SetAlt", "SetMain"].contains funcName then
        if args.length ≠ 1 then
          throw ⟨.builtinError,
            funcName ++ "(...) expects 1 argument(s), got " ++ toString args.length⟩
        else
          match args.head? with
          | some (.identifier name) => transferSlot funcName name
          | _ => do
              let values ← evalExprs args
              MonadExcept.ofExcept (BuiltinRuntime.callFunction ctx.hashes funcName values)
      else do
        let values ← evalExprs args
        if isSignatureBuiltinName funcName then
          MonadExcept.ofExcept (evalSignature ctx funcName values)
        else if BuiltinRuntime.isBuiltinFunction funcName then
          MonadExcept.ofExcept (BuiltinRuntime.callFunction ctx.hashes funcName values)
        else
          match ctx.findFunction funcName with
          | none => throw ⟨.undefinedVariable, "function '" ++ funcName ++ "' is not defined"⟩
          | some function => do
              let results ← callFunction function values
              pure (firstOrAggregateReturn results funcName)
  | .methodCall object methodName args => do
      let object ← evalExpr object
      if methodName = "Clone" ∨ methodName = "Push" then
        if args.length ≠ 0 then
          throw ⟨.builtinError, "." ++ methodName ++ "() expects no arguments"⟩
        else pure object
      else if BuiltinRuntime.isBuiltinFunction methodName then
        let values ← evalExprs args
        MonadExcept.ofExcept
          (BuiltinRuntime.callFunction ctx.hashes methodName (object :: values))
      else throw ⟨.builtinError, "unsupported method call '." ++ methodName ++ "()'"⟩
  | .fieldAccess base field => do
      let base ← evalExpr base
      MonadExcept.ofExcept (fieldOf field base)
  | .indexAccess base index => do
      let base ← evalExpr base
      let index ← evalExpr index
      let rawIndex ← MonadExcept.ofExcept index.toScriptNum
      MonadExcept.ofExcept (elementOf base rawIndex)

/-- The expressions of a list, in their order. -/
def evalExprs : List AstExpr → Interpretation (List RuntimeValue)
  | [] => pure []
  | expr :: rest => do
      let value ← evalExpr expr
      let values ← evalExprs rest
      pure (value :: values)

/-- The expressions of a list as numbers. -/
def evalNumbers : List AstExpr → Interpretation (List ℤ)
  | [] => pure []
  | expr :: rest => do
      let value ← evalExpr expr
      let number ← MonadExcept.ofExcept value.toScriptNum
      let numbers ← evalNumbers rest
      pure (number :: numbers)

end

def resolveAssignable : AstExpr → Interpretation Place
  | .identifier name =>
      if isReserved name then throw (notAssignable name)
      else do
        let _ ← resolveSlot name
        let s ← get
        pure ⟨levelOf s.env name, name, []⟩
  | .fieldAccess base field => do
      let place ← resolveAssignable base
      let inner : Place := { place with path := place.path ++ [.field field] }
      match ← readPlace place with
      | .struct fields declaredType =>
          if (fields.lookup field).isSome then pure inner
          else
            match (ctx.findStruct declaredType).bind fun structDef =>
                structDef.fields.lookup field with
            | some fieldType => do
                let value ← defaultValueForStructField ctx fieldType
                let insert (base : RuntimeValue) : RuntimeValue :=
                  match base with
                  | .struct fields declaredType => .struct (insertEntry field value fields) declaredType
                  | base => base
                modify fun s => s.write insert place
                pure inner
            | none =>
                throw ⟨.invalidFieldAccess,
                  "struct value has no assignable field '" ++ field ++ "'"⟩
      | base =>
          throw ⟨.invalidFieldAccess, "value of type '" ++ RuntimeValue.typeName base.type ++
            "' has no assignable field '" ++ field ++ "'"⟩
  | .indexAccess base index => do
      let place ← resolveAssignable base
      let index ← evalExpr ctx callFunction index
      let rawIndex ← MonadExcept.ofExcept index.toScriptNum
      if rawIndex < 0 then throw ⟨.invalidIndexAccess, "array index cannot be negative"⟩
      else
        match ← readPlace place with
        | .array values _ =>
            if rawIndex.toNat < values.length then
              pure { place with path := place.path ++ [.index rawIndex.toNat] }
            else throw (outOfBounds "array" rawIndex.toNat values.length)
        | base =>
            throw ⟨.invalidIndexAccess, "value of type '" ++ RuntimeValue.typeName base.type ++
              "' is not assignable by index"⟩
  | target => throw ⟨.generic, "expression '" ++ astNodeName target ++ "' is not assignable"⟩

def assignIdentifier (name : String) (value : RuntimeValue) : Interpretation Unit := do
  if isReserved name then throw (notAssignable name)
  else
    let s ← get
    if s.env.contains name then
      let slot ← resolveSlot name
      let value ← coerceDeclaredValue ctx value slot.declaredType (s.compoundDeclarations.lookup name)
      attempt fun s => s.assign name value
    else attempt fun s => s.define name { value := value, declaredType := value.declaredType }

/-- The value of an assignment, which may be missing. -/
def assignedValue : Option AstExpr → Interpretation RuntimeValue
  | some value => evalExpr ctx callFunction value
  | none => pure .voidValue

/-- A value that takes the place of another one gets its declared type. -/
def coerceTo (old value : RuntimeValue) : Interpretation RuntimeValue :=
  if old.declaredType = "" then pure value
  else do
    let coerced ← coerceDeclaredValue ctx value old.declaredType none
    pure (coerced.setDeclaredType old.declaredType)

def execAssign (name value : Option AstExpr) : Interpretation Flow := do
  let value ← assignedValue ctx callFunction value
  match name with
  | some (.identifier name) => do
      assignIdentifier ctx name value
      pure {}
  | none => throw ⟨.generic, "assignment has no target expression"⟩
  | some target => do
      let place ← resolveAssignable ctx callFunction target
      let old ← readPlace place
      let value ← coerceTo ctx old value
      modify fun s => s.write (fun _ => value) place
      pure {}

/-- The declaration of a compound variable is known under its name. -/
def declareCompound (name : String) (compoundFields : Option (List CompoundFieldInfo)) :
    Interpretation Unit :=
  match compoundFields with
  | some fields => modify fun s =>
      { s with compoundDeclarations := (name, fields) :: s.compoundDeclarations }
  | none => pure ()

/-- `node.type` of a `VarDeclNode` that was written with a type. -/
def State.nodeType (s : State) (node : ℕ) (type : String) : String :=
  (s.nodeTypes.lookup node).getD type

/-- The type of a declaration; one without a type gets that of its first value. -/
def settleType (node : ℕ) (type : String) (value : RuntimeValue) : Interpretation String := do
  let s ← get
  if s.nodeType node type = "" then
    modify fun s => { s with nodeTypes := (node, value.declaredType) :: s.nodeTypes }
    pure value.declaredType
  else pure (s.nodeType node type)

/-- The first value of a declared variable. -/
def initialValue (node : ℕ) (type : String) (initValue : Option AstExpr)
    (compoundFields : Option (List CompoundFieldInfo)) : Interpretation RuntimeValue :=
  match initValue, compoundFields with
  | some value, _ => evalExpr ctx callFunction value
  | none, some fields => pure (defaultRuntimeCompoundValue fields)
  | none, none => do
      let s ← get
      defaultValueForType ctx (s.nodeType node type)

def execVarDecl (node : ℕ) (name type : String) (initValue : Option AstExpr)
    (compoundFields : Option (List CompoundFieldInfo)) : Interpretation Flow := do
  declareCompound name compoundFields
  let value ← initialValue ctx callFunction node type initValue compoundFields
  let type ← settleType node type value
  let s ← get
  -- the fields are looked up where the initial value may have declared the name anew
  let value ← coerceDeclaredValue ctx value type
    (if compoundFields.isSome then s.compoundDeclarations.lookup name else none)
  attempt fun s => s.define name { value := value.setDeclaredType type, declaredType := type }
  pure {}

def arraySize : Option AstExpr → Interpretation ℤ
  | some sizeExpr => do
      let value ← evalExpr ctx callFunction sizeExpr
      let size ← MonadExcept.ofExcept value.toScriptNum
      if size < 0 then throw ⟨.invalidIndexAccess, "array size cannot be negative"⟩ else pure size
  | none => pure 0

def initialArray (elementType : String) (sizeExpr : Option AstExpr)
    (initArray : Option (String × List AstExpr)) : Interpretation RuntimeValue :=
  match initArray with
  | some (arrayType, elements) => do
      let values ← evalExprs ctx callFunction elements
      pure (.array values arrayType)
  | none => do
      let size ← arraySize ctx callFunction sizeExpr
      let values ← ofOption ((List.replicate size.toNat elementType).mapM
        (defaultRuntimeValueForType ctx.structs ctx.structs.length))
      pure (.array values elementType)

def execArrayDecl (name elementType : String) (sizeExpr : Option AstExpr)
    (initArray : Option (String × List AstExpr)) : Interpretation Flow := do
  let value ← initialArray ctx callFunction elementType sizeExpr initArray
  let declaredType := if elementType = "" then "array" else elementType ++ "[]"
  attempt fun s =>
    s.define name { value := value.setDeclaredType declaredType, declaredType := declaredType }
  pure {}

/-- The variables that a lowercase `return` names. -/
def returnedNames : List AstExpr → Interpretation (List RuntimeValue)
  | [] => pure []
  | .identifier name :: rest => do
      let value ← evalIdentifier ctx name
      let values ← returnedNames rest
      pure (value :: values)
  | _ :: _ =>
      throw ⟨.generic, "lowercase return brace expression only accepts existing variable names"⟩

def returnedValues (expr : Option AstExpr) (isValueReturn : Bool) :
    Interpretation (List RuntimeValue) :=
  match expr, isValueReturn with
  | none, _ => pure []
  | some (.identifier name), true => do
      let value ← evalIdentifier ctx name
      pure [value]
  | some (.brace elements), true => returnedNames ctx elements
  | some _, true => throw ⟨.generic,
      "lowercase return only accepts an existing variable or a brace list of variables"⟩
  | some (.brace elements), false => evalExprs ctx callFunction elements
  | some expr, false => do
      let value ← evalExpr ctx callFunction expr
      pure [value]

def execReturn (expr : Option AstExpr) (isValueReturn : Bool) : Interpretation Flow := do
  let values ← returnedValues ctx callFunction expr isValueReturn
  pure { kind := .ret, values := values, isValueReturn := isValueReturn }

/-- The values of a destructuring assignment go to its targets. -/
def assignTargets : List (String × RuntimeValue) → Interpretation Unit
  | [] => pure ()
  | (target, value) :: rest => do
      if target = "" then
        throw ⟨.undefinedVariable, "destructure assignment target cannot be empty"⟩
      else
        assignIdentifier ctx target value
        assignTargets rest

/-- The values of a destructuring assignment. -/
def destructuredValues (targetCount : ℕ) (value : RuntimeValue) :
    Except RuntimeError (List RuntimeValue) := do
  let values ← match value with
    | .array values _ => pure values
    | value =>
        if targetCount = 1 then pure [value]
        else throw ⟨.typeMismatch, "destructure assignment expects an array or multi-value return"⟩
  if values.length ≠ targetCount then
    throw ⟨.typeMismatch, "destructure assignment target count " ++ toString targetCount ++
      " does not match value count " ++ toString values.length⟩
  else pure values

def execDestructureAssign (targets : List String) (value : Option AstExpr) : Interpretation Flow := do
  match value with
  | none => throw ⟨.generic, "destructure assignment has no value expression"⟩
  | some value => do
      let value ← evalExpr ctx callFunction value
      let values ← MonadExcept.ofExcept (destructuredValues targets.length value)
      assignTargets ctx (targets.zip values)
      pure {}

/-- The values that a loop runs through, and whether they are those of a range. -/
def iterationValues (iterable : AstExpr) : Interpretation (Bool × List RuntimeValue) := do
  let value ← evalExpr ctx callFunction iterable
  let isStaticRangeLoop := match iterable with
    | .call funcName _ isRangeCall => funcName = "Range" || isRangeCall
    | _ => false
  match value with
  | .array values _ => pure (isStaticRangeLoop, values)
  | _ => throw ⟨.typeMismatch, "for loop iterable must be Range(...) or an array"⟩

/-- The target of a loop takes a value; that of a range loop is defined around the loop. -/
def bindTarget (target inferredType : String) (isStaticRangeLoop : Bool) (value : RuntimeValue) :
    Interpretation Unit := do
  let s ← get
  if s.env.contains target then attempt fun s => s.assign target value
  else if isStaticRangeLoop then
    attempt fun s => s.defineOutside target { value := value, declaredType := inferredType }
  else attempt fun s => s.define target { value := value, declaredType := inferredType }

def execRounds (bind : RuntimeValue → Interpretation Unit) (body : Interpretation Flow) :
    List RuntimeValue → Interpretation Flow
  | [] => pure {}
  | value :: rest => do
      bind value
      let flow ← body
      if flow.kind = .normal then execRounds bind body rest else pure flow

def enterBlock (createScope : Bool) : Interpretation Unit := if createScope then enterScope else pure ()

/-- The body of `execBlock`: an error leaves its scope current. -/
def inBlock (createScope : Bool) (statements : Interpretation Flow) : Interpretation Flow := do
  let depth ← currentDepth
  enterBlock createScope
  let flow ← statements
  leaveTo depth
  pure flow

mutual

def execStmt : AstStmt → Interpretation Flow
  | .block statements => inBlock true (execStatements statements)
  | .ifElse condition thenBranch elseBranch => do
      match condition with
      | none => throw ⟨.generic, "if statement has no condition"⟩
      | some condition => do
          let value ← evalExpr ctx callFunction condition
          if value.truthy then execBranch thenBranch else execBranch elseBranch
  | .forLoop target inferredType iterable body => do
      match iterable with
      | none => throw ⟨.generic, "for loop has no iterable expression"⟩
      | some iterable =>
          match body with
          | none => pure {}
          | some body => do
              let (isStaticRangeLoop, values) ← iterationValues ctx callFunction iterable
              returning do
                enterScope
                execRounds (bindTarget target inferredType isStaticRangeLoop)
                  (inBlock true (execStatements body)) values
  | .assign name value => execAssign ctx callFunction name value
  | .varDecl node name type initValue compoundFields =>
      execVarDecl ctx callFunction node name type initValue compoundFields
  | .arrayDecl name elementType sizeExpr initArray =>
      execArrayDecl ctx callFunction name elementType sizeExpr initArray
  | .exprStmt expr => do
      match expr with
      | some expr => do
          let _ ← evalExpr ctx callFunction expr
          pure {}
      | none => pure {}
  | .returnStmt expr isValueReturn => execReturn ctx callFunction expr isValueReturn
  | .destructureAssign targets value => execDestructureAssign ctx callFunction targets value

def execBranch : Option AstStmt → Interpretation Flow
  | some stmt => execStmt stmt
  | none => pure {}

/-- The loop of `execBlock`. -/
def execStatements : List AstStmt → Interpretation Flow
  | [] => pure {}
  | stmt :: rest => do
      let flow ← execStmt stmt
      if flow.kind = .normal then execStatements rest else pure flow

end

/-- The value of a parameter: its argument or a default. -/
def argumentOr (type : String) : List RuntimeValue → Interpretation RuntimeValue
  | value :: _ => pure value
  | [] => defaultValueForType ctx type

def bindParameters : List (String × String) → List RuntimeValue → Interpretation Unit
  | [], _ => pure ()
  | (name, type) :: rest, args => do
      let value ← argumentOr ctx type args
      let value ← coerceDeclaredValue ctx value type none
      let value := if type = "" then value else value.setDeclaredType type
      attempt fun s => s.define name
        { value := value, declaredType := if type = "" then value.declaredType else type }
      bindParameters rest args.tail

/-- `callFunction` over the meaning of the calls within. -/
def callWith (function : FunctionNode) (args : List RuntimeValue) :
    Interpretation (List RuntimeValue) :=
  match function.block with
  | none => throw ⟨.generic, "function '" ++ function.name ++ "' has no body"⟩
  | some body =>
      if function.parameters.length < args.length then
        throw ⟨.generic, "too many arguments for function '" ++ function.name ++ "'"⟩
      else do
        let flow ← returning do
          enterScope
          bindParameters ctx function.parameters args
          inBlock false (execStatements ctx callFunction body)
        pure (if flow.kind = .ret then flow.values else [])

end Running

/-- `callFunction`: the calls within a call may be nested to a depth; where that does not suffice there is
no result. -/
def callFunction (ctx : RuntimeContext) :
    ℕ → FunctionNode → List RuntimeValue → Interpretation (List RuntimeValue)
  | 0 => fun _ _ => ofOption none
  | depth + 1 => callWith ctx (callFunction ctx depth)

end ASTInterpreter

end AtomicProof
