/-
The variables of the interpreter.

`Environment` in `src/src/interpreter/environment.cpp` is a scope with a link to the scope around
it.  A variable is a slot with a value, the type it was declared with, and what became of it under
the language's rules of ownership.  Here an environment is the list of its scopes from the current
one outwards; a program never reaches a scope except through the current one.

Main definitions:

* `RuntimeSlot` — a variable;
* `Environment` — the scopes from the current one outwards;
* `Environment.resolve`, `Environment.define`, `Environment.assignSlot` — reading and writing;
* `execIf` — the conditional statement over the meanings of its parts.

Main results:

* `execIf_of_value` — the branch is chosen by the truth of the condition.
-/

import AtomicProof.RuntimeValue

set_option autoImplicit false

namespace AtomicProof

inductive OwnershipState
  | available | consumed | deleted
  deriving DecidableEq, Repr

inductive StorageClass
  | mainStack | altStack | fixed | selfMember | builtinObject
  deriving DecidableEq, Repr

structure RuntimeSlot where
  value : RuntimeValue
  declaredType : String := ""
  ownership : OwnershipState := .available
  storage : StorageClass := .mainStack
  keepOnScopeExit : Bool := false

abbrev Scope := List (String × RuntimeSlot)

/-- `Environment`: the current scope and those around it. -/
abbrev Environment := List Scope

namespace Environment

/-! ### Reading -/

/-- `tryResolve`: the slot of the innermost scope that has the name. -/
def tryResolve : Environment → String → Option RuntimeSlot
  | [], _ => none
  | scope :: parents, name =>
      match scope.lookup name with
      | some slot => some slot
      | none => tryResolve parents name

def contains (env : Environment) (name : String) : Bool := (env.tryResolve name).isSome

def containsLocal (env : Environment) (name : String) : Bool :=
  match env with
  | [] => false
  | scope :: _ => (scope.lookup name).isSome

def requireUsable (name : String) (slot : RuntimeSlot) : Except RuntimeError RuntimeSlot :=
  match slot.ownership with
  | .consumed => .error ⟨.ownershipViolation, "variable '" ++ name ++ "' has been consumed"⟩
  | .deleted => .error ⟨.ownershipViolation, "variable '" ++ name ++ "' has been deleted"⟩
  | .available => .ok slot

def resolve (env : Environment) (name : String) : Except RuntimeError RuntimeSlot :=
  match env.tryResolve name with
  | some slot => requireUsable name slot
  | none => .error ⟨.undefinedVariable, "variable '" ++ name ++ "' is not defined"⟩

/-! ### Writing -/

/-- The slot of a name in a scope is changed. -/
def updateScope (name : String) (f : RuntimeSlot → RuntimeSlot) (scope : Scope) : Scope :=
  scope.map fun entry => if entry.1 = name then (entry.1, f entry.2) else entry

/-- The slot that `tryResolve` finds is changed. -/
def update (f : RuntimeSlot → RuntimeSlot) : Environment → String → Environment
  | [], _ => []
  | scope :: parents, name =>
      match scope.lookup name with
      | some _ => updateScope name f scope :: parents
      | none => scope :: update f parents name

def define (env : Environment) (name : String) (slot : RuntimeSlot) :
    Except RuntimeError Environment :=
  if name = "" then .error ⟨.undefinedVariable, "cannot define an empty variable name"⟩
  else if env.containsLocal name then
    .error ⟨.duplicateVariable, "variable '" ++ name ++
      "' is already defined in this environment"⟩
  else
    let slot := if slot.declaredType = "" then
      { slot with declaredType := slot.value.declaredType } else slot
    match env with
    | [] => .ok [[(name, slot)]]
    | scope :: parents => .ok (((name, slot) :: scope) :: parents)

/-- What `assign` makes of a slot. -/
def assignSlot (value : RuntimeValue) (slot : RuntimeSlot) : RuntimeSlot :=
  { slot with
    value
    ownership := .available
    declaredType := if slot.declaredType = "" then value.declaredType else slot.declaredType }

end Environment

/-! ### Expressions and statements over their parts -/

/-- What an expression or a statement does to the variables, and what it yields. -/
abbrev Interp (α : Type) := Environment → Except RuntimeError (α × Environment)

inductive FlowKind
  | normal | ret
  deriving DecidableEq, Repr

structure ControlFlow where
  kind : FlowKind := .normal
  values : List RuntimeValue := []

/-- The objects of `RuntimeContext` that an identifier can name. -/
structure RuntimeObjects where
  self : RuntimeValue
  bvm : RuntimeValue

def evalIdentifier (objects : RuntimeObjects) (name : String) : Interp RuntimeValue := fun env =>
  let lower := String.ofList (name.toList.map toLower)
  if lower = "true" then .ok (.fromBool true, env)
  else if lower = "false" then .ok (.fromBool false, env)
  else if name = "self" then .ok (objects.self, env)
  else if name = "BVM" ∨ name = "bvm" then .ok (objects.bvm, env)
  else do
    let slot ← env.resolve name
    pure (slot.value, env)

def execBranch (branch : Option (Interp ControlFlow)) : Interp ControlFlow := fun env =>
  match branch with
  | some stmt => stmt env
  | none => .ok ({}, env)

def execIf (condition : Option (Interp RuntimeValue)) (thenBranch elseBranch :
    Option (Interp ControlFlow)) : Interp ControlFlow := fun env =>
  match condition with
  | none => .error ⟨.generic, "if statement has no condition"⟩
  | some condition => do
      let (value, env) ← condition env
      if value.truthy then execBranch thenBranch env else execBranch elseBranch env

theorem execIf_of_value {condition : Interp RuntimeValue} {env env' : Environment}
    {value : RuntimeValue} (h : condition env = .ok (value, env'))
    (thenBranch elseBranch : Option (Interp ControlFlow)) :
    execIf (some condition) thenBranch elseBranch env =
      execBranch (if value.truthy then thenBranch else elseBranch) env' := by
  simp only [execIf, h, bind, Except.bind]
  split_ifs <;> rfl

end AtomicProof
