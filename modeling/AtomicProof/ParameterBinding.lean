/-
The binding of the parameters of an inlined private function.

A private call is inlined: its parameters become names for the slots of the arguments, in a new frame of
bindings of the symbol table.  The loop of `privateFunctionResolution` in
`src/src/compiler/ast_to_bytecode_visitor.cpp` takes the parameters one by one, the last one first, and
resolves each argument in the frame as it stands by then.  A parameter of a basic type is bound under its
name, a structure under the paths of its fields, and a fixed array under its name, the paths of its
elements and those of their fields.  Structures and arrays also declare arrays in the scope of the call,
which from then on owns the names that belong to them.

A structure may contain itself; then the expansion of its fields does not end, so it has a depth here.

Main definitions:

* `parseFixedArrayType`, `PrivateCall.getStructFieldsExpanded` — the types of the parameters;
* `PrivateCall.bindParameter`, `PrivateCall.privateFunctionResolution` — a turn of the loop, and what
  comes before it;
* `PrivateCall.parameterPaths`, `PrivateCall.parameterBindings` — what a parameter is bound under;
* `SymbolTable.Widens` — a table with more bindings and a larger scope.

Main results:

* `PrivateCall.getStructFieldsExpanded_under` — the paths of a structure do not depend on its name;
* `PrivateCall.bindParameter_widens` — **what a turn of the loop adds**.
-/

import AtomicProof.Disassembly
import AtomicProof.SymbolRename

set_option autoImplicit false

namespace AtomicProof

/-! ### Types -/

structure ParameterInfo where
  name : String
  type : String
  deriving DecidableEq, Repr

structure FixedArrayType where
  elementType : String
  size : ℕ
  deriving DecidableEq, Repr

/-- `std::stoull`, which takes a number below zero from `2 ^ 64`. -/
def unsignedValue (text : List Char) : Option ℕ :=
  (readInteger 10 text).bind fun value =>
    if value.natAbs < 2 ^ 64 then some (value % 2 ^ 64).toNat else none

def parseFixedArrayType (typeName : String) : Option FixedArrayType :=
  let elementType := typeName.toList.takeWhile (· ≠ '[')
  match typeName.toList.dropWhile (· ≠ '[') with
  | [] => none
  | _ :: inside =>
      let sizeText := inside.takeWhile (· ≠ ']')
      -- the first closing bracket has to be the last character
      if elementType = [] ∨ inside.dropWhile (· ≠ ']') ≠ [']'] ∨ sizeText = [] then none
      else (unsignedValue sizeText).map fun size => ⟨String.ofList elementType, size⟩

/-- `m_structDefinitions`. -/
abbrev StructDefinitions := List (String × List (String × StructFieldType))

def StructDefinitions.isStruct (structs : StructDefinitions) (type : String) : Bool :=
  (structs.lookup type).isSome

/-- What the label of an element adds to the name of its array. -/
def elementSuffix (index : ℕ) : String := "[" ++ numberToScriptHex index ++ "]"

/-! ### The table of a call -/

namespace SymbolTable

def addBindSymbol (st : SymbolTable) (binding : String × String) : SymbolTable :=
  { st with bindSymbol := st.bindSymbol ++ [binding] }

/-- A binding that is only made for another name. -/
def bindUnlessSame (st : SymbolTable) (path target : String) : SymbolTable :=
  if path ≠ target then st.addBindSymbol (path, target) else st

def beginBindSymbolFrame (st : SymbolTable) : SymbolTable :=
  { st with activeBindSymbolStart := st.bindSymbol.length }

def beginScopeEntryFrame (st : SymbolTable) : SymbolTable :=
  { st with activeScopeEntryStart := st.currentScope.length }

def getArrayElementLabel (st : SymbolTable) (arrayName : String) (index : ℕ) : String :=
  match st.getArrayInfo arrayName with
  | some info => info.getElementLabel index
  | none => arrayName ++ elementSuffix index

def markSymbolInitialized (st : SymbolTable) (name : String) : SymbolTable :=
  { st with currentScope := updateLastEntry st.currentScope name ({ · with isInitialized := true }) }

end SymbolTable

namespace PrivateCall

/-! ### Structures -/

/-- What `getStructFieldsExpanded` returns, with the arrays that it defines on its way. -/
structure Expansion where
  fields : List (String × String) := []
  arrays : List ArrayInfo := []
  deriving DecidableEq, Repr

namespace Expansion

def append (first second : Expansion) : Expansion :=
  ⟨first.fields ++ second.fields, first.arrays ++ second.arrays⟩

def under (path : String) (expansion : Expansion) : Expansion where
  fields := expansion.fields.map fun field => (path ++ field.1, field.2)
  arrays := expansion.arrays.map fun array => { array with name := path ++ array.name }

end Expansion

def expandAll {α : Type} (expand : α → Option Expansion) : List α → Option Expansion
  | [] => some {}
  | x :: rest => do
      let first ← expand x
      let others ← expandAll expand rest
      return first.append others

/-- The body of the loop of `getStructFieldsExpanded`; `expand` is the recursion. -/
def expandField (structs : StructDefinitions) (expand : String → String → Option Expansion)
    (path : String) (field : String × StructFieldType) : Option Expansion :=
  let fieldPath := path ++ "." ++ field.1
  let fieldType := field.2
  let array : ArrayInfo := ⟨fieldPath, fieldType.baseType, fieldType.arraySize, true⟩
  if fieldType.isCompoundType then some { fields := [(fieldPath, "__compound__")] }
  else if fieldType.isArray then
    if structs.isStruct fieldType.baseType then
      (expandAll (fun index => expand fieldType.baseType (fieldPath ++ elementSuffix index))
        (List.range fieldType.arraySize)).map fun elements =>
          { elements with arrays := array :: elements.arrays }
    -- the numbers of such an array stay one block of bytes
    else if fieldType.baseType = "uint64" then
      some { fields := [(fieldPath, fieldType.getTypeString)] }
    else
      some {
        fields := (List.range fieldType.arraySize).map fun index =>
          (fieldPath ++ elementSuffix index, fieldType.baseType)
        arrays := [array] }
  else if structs.isStruct fieldType.baseType then expand fieldType.baseType fieldPath
  else some { fields := [(fieldPath, fieldType.getTypeString)] }

/-- `getStructFieldsExpanded`, to a depth. -/
def getStructFieldsExpanded (structs : StructDefinitions) : ℕ → String → String → Option Expansion
  | 0, _, _ => none
  | depth + 1, structName, path =>
      match structs.lookup structName with
      | none => some {}
      | some fields => expandAll (expandField structs (getStructFieldsExpanded structs depth) path) fields

/-! ### The loop -/

/-- How the loop fails: with an exception, or in the expansion of a structure that contains itself. -/
inductive CallFailure
  | thrown (message : String)
  | unbounded
  deriving DecidableEq, Repr

section Loop

variable (structs : StructDefinitions) (depth : ℕ)

def expansionOf (structName path : String) : Except CallFailure Expansion :=
  match getStructFieldsExpanded structs depth structName path with
  | some expansion => .ok expansion
  | none => .error .unbounded

def defineArrays (st : SymbolTable) (arrays : List ArrayInfo) : SymbolTable :=
  arrays.foldl (fun st array => (st.defineArray array).2) st

/-- The fields of an element of an array of structures. -/
def bindElementFields (paramName : String) :
    SymbolTable → List ((String × String) × (String × String)) → Except CallFailure SymbolTable
  | st, [] => .ok st
  | st, (paramField, argumentField) :: rest =>
      if paramField.2 ≠ argumentField.2 then
        .error (.thrown ("Unable to bind struct-array parameter '" ++ paramName ++ "' field '" ++
          paramField.1 ++ "': expected type '" ++ paramField.2 ++ "', argument field has type '" ++
          argumentField.2 ++ "'"))
      else
        let st := (st.defineSymbol paramField.1 paramField.2).2
        bindElementFields paramName (st.bindUnlessSame paramField.1 argumentField.1) rest

def bindElement (paramName : String) (arrayType : FixedArrayType) (sourceArray : ArrayInfo)
    (st : SymbolTable) (index : ℕ) : Except CallFailure SymbolTable :=
  let paramElement := st.getArrayElementLabel paramName index
  let argumentElement := sourceArray.getElementLabel index
  let st := st.bindUnlessSame paramElement argumentElement
  if structs.isStruct arrayType.elementType then do
    let paramFields ← expansionOf structs depth arrayType.elementType paramElement
    let argumentFields ← expansionOf structs depth arrayType.elementType argumentElement
    let st := defineArrays (defineArrays st paramFields.arrays) argumentFields.arrays
    if paramFields.fields.length ≠ argumentFields.fields.length then
      .error (.thrown ("Unable to bind struct-array parameter '" ++ paramName ++ "' element " ++
        toString index ++ ": parameter has " ++ toString paramFields.fields.length ++
        " runtime fields, argument has " ++ toString argumentFields.fields.length))
    else
      bindElementFields paramName st (paramFields.fields.zip argumentFields.fields)
  else .ok (st.defineSymbol paramElement arrayType.elementType).2

def bindArray (st : SymbolTable) (parameter : ParameterInfo) (arrayType : FixedArrayType)
    (argRootName : String) : Except CallFailure SymbolTable :=
  let mismatch : CallFailure := .thrown ("Unable to bind fixed-array argument '" ++ argRootName ++
    "' to parameter '" ++ parameter.name ++ "' of type '" ++ parameter.type ++ "'")
  match st.getArrayInfo argRootName with
  | none => .error mismatch
  | some sourceArray =>
      if sourceArray.elementType ≠ arrayType.elementType ∨ sourceArray.size ≠ arrayType.size then
        .error mismatch
      else
        match st.defineArray ⟨parameter.name, arrayType.elementType, arrayType.size, true⟩ with
        | (false, _) =>
            .error (.thrown ("failed to declare private fixed-array parameter '" ++ parameter.name ++
              "'"))
        | (true, st) => do
            let st ← (List.range arrayType.size).foldlM
              (bindElement structs depth parameter.name arrayType sourceArray)
              (st.bindUnlessSame parameter.name argRootName)
            return st.markSymbolInitialized parameter.name

/-- A parameter of a structure type: the paths of its fields are bound even to themselves. -/
def bindStruct (st : SymbolTable) (parameter : ParameterInfo) (argRootName : String) :
    Except CallFailure SymbolTable := do
  let paramFields ← expansionOf structs depth parameter.type parameter.name
  let argFields ← expansionOf structs depth parameter.type argRootName
  let st := defineArrays (defineArrays st paramFields.arrays) argFields.arrays
  return (paramFields.fields.zip argFields.fields).foldl
    (fun st fields => st.addBindSymbol (fields.1.1, fields.2.1)) st

def bindParameter (st : SymbolTable) (parameter : ParameterInfo) (argument : StackElement) :
    Except CallFailure SymbolTable :=
  let argRootName := st.resolveBindSymbol argument.name
  match parseFixedArrayType parameter.type with
  | some arrayType => bindArray structs depth st parameter arrayType argRootName
  | none =>
      if parameter.type ≠ "" ∧ structs.isStruct parameter.type then
        bindStruct structs depth st parameter argRootName
      else .ok (st.addBindSymbol (parameter.name, argRootName))

/-- The loop: the last pair of parameter and argument comes first. -/
def bindParameters (st : SymbolTable) :
    List (ParameterInfo × StackElement) → Except CallFailure SymbolTable
  | [] => .ok st
  | (parameter, argument) :: later => do
      bindParameter structs depth (← bindParameters st later) parameter argument

/-- What `privateFunctionResolution` does to the table before the loop. -/
def enterCall (st : SymbolTable) : SymbolTable :=
  { st.beginBindSymbolFrame.beginScopeEntryFrame with declaredSymbols := [] }

/-- `privateFunctionResolution`, up to the end of the loop. -/
def privateFunctionResolution (st : SymbolTable) (function : String)
    (parameters : List ParameterInfo) (existingArgs : List StackElement) :
    Except CallFailure SymbolTable :=
  if existingArgs.length ≠ parameters.length then
    .error (.thrown ("Parameter count mismatch for private function '" ++ function ++
      "': expected " ++ toString parameters.length ++ ", got " ++ toString existingArgs.length))
  else bindParameters structs depth (enterCall st) (parameters.zip existingArgs)

/-! ### What a parameter is bound under -/

/-- The expansion of a structure type under no name. -/
def structExpansion (type : String) : Expansion :=
  (getStructFieldsExpanded structs depth type "").getD {}

/-- The paths of the fields of a structure type. -/
def structPaths (type : String) : List String :=
  (structExpansion structs depth type).fields.map Prod.fst

/-- The paths of the arrays in a structure type. -/
def structArrays (type : String) : List String :=
  (structExpansion structs depth type).arrays.map (·.name)

/-- A type with neither fields nor elements. -/
def IsBasic (type : String) : Prop :=
  parseFixedArrayType type = none ∧ ¬ (type ≠ "" ∧ structs.isStruct type = true)

def elementPaths (elementType : String) (index : ℕ) : List String :=
  elementSuffix index :: (structPaths structs depth elementType).map (elementSuffix index ++ ·)

/-- The paths that a parameter is bound under, each one after its name. -/
def parameterPaths (type : String) : List String :=
  match parseFixedArrayType type with
  | some arrayType =>
      "" :: (List.range arrayType.size).flatMap (elementPaths structs depth arrayType.elementType)
  | none =>
      if type ≠ "" ∧ structs.isStruct type then structPaths structs depth type else [""]

/-- The bindings of a parameter; an array is not bound to itself. -/
def parameterBindings (parameter : ParameterInfo) (argRootName : String) : List (String × String) :=
  if (parseFixedArrayType parameter.type).isSome ∧ parameter.name = argRootName then []
  else (parameterPaths structs depth parameter.type).map fun path =>
    (parameter.name ++ path, argRootName ++ path)

/-- The names that the scope of the call owns from a parameter on: an array, and the arrays in a
structure, on both sides. -/
def parameterRoots (parameter : ParameterInfo) (argRootName : String) : List String :=
  match parseFixedArrayType parameter.type with
  | some arrayType =>
      parameter.name :: (List.range arrayType.size).flatMap fun index =>
        (structArrays structs depth arrayType.elementType).map
          (argRootName ++ elementSuffix index ++ ·)
  | none =>
      if parameter.type ≠ "" ∧ structs.isStruct parameter.type then
        (structArrays structs depth parameter.type).map (parameter.name ++ ·) ++
          (structArrays structs depth parameter.type).map (argRootName ++ ·)
      else []

end Loop

end PrivateCall

/-! ### Paths -/

/-- What may follow the name of a structure or an array: nothing, a field or an element. -/
def IsPath (path : String) : Prop :=
  path = "" ∨ path.toList.head? = some '.' ∨ path.toList.head? = some '['

def IsPlain (name : String) : Prop := ∀ c ∈ name.toList, c ≠ '.' ∧ c ≠ '['

section Paths

variable {root name path other : String}

theorem IsPath.append (h : IsPath path) (hother : IsPath other) : IsPath (path ++ other) := by
  rcases h with rfl | h
  · rwa [String.empty_append]
  -- the first character is that of the first part
  · refine Or.inr ?_
    rw [String.toList_append, List.head?_append]
    rcases h with h | h
    · exact Or.inl (by rw [h, Option.some_or])
    · exact Or.inr (by rw [h, Option.some_or])

theorem isPath_elementSuffix_append (index : ℕ) (rest : String) :
    IsPath (elementSuffix index ++ rest) := by
  refine Or.inr (Or.inr ?_)
  rw [elementSuffix, String.toList_append, String.toList_append, String.toList_append]
  rfl

theorem isPath_elementSuffix (index : ℕ) : IsPath (elementSuffix index) := by
  have happend := isPath_elementSuffix_append index ""
  rwa [String.append_empty] at happend

/-- What belongs to a root is the root with a path. -/
theorem belongsTo_iff :
    SymbolTable.belongsTo root name = true ↔ ∃ path, IsPath path ∧ name = root ++ path := by
  rw [SymbolTable.belongsTo, Bool.and_eq_true, List.isPrefixOf_iff_prefix]
  constructor
  · rintro ⟨⟨rest, hrest⟩, hmatch⟩
    refine ⟨String.ofList rest, ?_, ?_⟩
    · rw [← hrest, List.drop_left] at hmatch
      cases rest with
      | nil => exact Or.inl rfl
      | cons c rest =>
          refine Or.inr ?_
          rw [String.toList_ofList, List.head?_cons, Option.some.injEq, Option.some.injEq]
          simpa using hmatch
    · rw [← String.toList_inj, String.toList_append, String.toList_ofList, hrest]
  · rintro ⟨path, hpath, rfl⟩
    rw [String.toList_append, List.drop_left]
    refine ⟨List.prefix_append _ _, ?_⟩
    rcases hpath with rfl | hpath
    · rfl
    · cases hchars : path.toList with
      | nil => rfl
      | cons c rest =>
          rw [hchars, List.head?_cons, Option.some.injEq, Option.some.injEq] at hpath
          simpa using hpath

theorem belongsTo_append (h : IsPath path) : SymbolTable.belongsTo root (root ++ path) = true :=
  belongsTo_iff.mpr ⟨path, h, rfl⟩

theorem belongsTo_of_append (h : IsPath path)
    (hname : SymbolTable.belongsTo (root ++ path) name = true) :
    SymbolTable.belongsTo root name = true := by
  obtain ⟨other, hother, rfl⟩ := belongsTo_iff.mp hname
  exact belongsTo_iff.mpr ⟨path ++ other, h.append hother, String.append_assoc⟩

/-- A plain name and the path after it can be told apart. -/
theorem takeWhile_append_path (hname : IsPlain name) (hpath : IsPath path) :
    (name ++ path).toList.takeWhile (fun c => c ≠ '.' ∧ c ≠ '[') = name.toList := by
  rw [String.toList_append, List.takeWhile_append_of_pos fun c hc => decide_eq_true (hname c hc)]
  have hnil : path.toList.takeWhile (fun c => c ≠ '.' ∧ c ≠ '[') = [] := by
    cases hchars : path.toList with
    | nil => rfl
    | cons c rest =>
        rw [List.takeWhile_cons_of_neg]
        rcases hpath with rfl | hpath | hpath
        · exact nomatch hchars
        · rw [hchars, List.head?_cons, Option.some.injEq] at hpath
          simp [hpath]
        · rw [hchars, List.head?_cons, Option.some.injEq] at hpath
          simp [hpath]
  rw [hnil, List.append_nil]

theorem append_path_inj {name' path' : String} (hname : IsPlain name) (hname' : IsPlain name')
    (hpath : IsPath path) (hpath' : IsPath path') (h : name ++ path = name' ++ path') :
    name = name' ∧ path = path' := by
  have hsame : name = name' := by
    rw [← String.toList_inj, ← takeWhile_append_path hname hpath, h,
      takeWhile_append_path hname' hpath']
  subst hsame
  exact ⟨rfl, String.append_right_inj name |>.mp h⟩

end Paths

/-! ### Tables that grow -/

namespace SymbolTable

/-- The frame of the scope is within it, and every declared symbol has an entry in the frame. -/
structure Opened (st : SymbolTable) : Prop where
  start_le : st.activeScopeEntryStart ≤ st.currentScope.length
  declared : ∀ name ∈ st.declaredSymbols,
    ∃ entry ∈ st.currentScope.drop st.activeScopeEntryStart, entry.1 = name

/-- The array of a name, where there is one, carries that name. -/
def ArrayNamed (st : SymbolTable) (name : String) : Prop :=
  ∀ info, st.getArrayInfo name = some info → info.name = name

def OwnedBy (roots : List String) (name : String) : Prop :=
  ∃ root ∈ roots, belongsTo root name = true

/-- The table `after` has some more bindings, and its active scope owns what belongs to some more roots. -/
structure Widens (before after : SymbolTable) (roots : List String) (added : List (String × String)) :
    Prop where
  opened : after.Opened
  bindSymbol : after.bindSymbol = before.bindSymbol ++ added
  bindStart : after.activeBindSymbolStart = before.activeBindSymbolStart
  owned : ∀ name, after.isOwnedByActiveScope name = true ↔
    before.isOwnedByActiveScope name = true ∨ OwnedBy roots name
  named : ∀ name, before.ArrayNamed name → after.ArrayNamed name

/-- The binding of a name to another one. -/
def aliasOf (path target : String) : List (String × String) :=
  if path = target then [] else [(path, target)]

section Widens

variable {st st' st'' : SymbolTable} {roots roots' : List String} {added added' : List (String × String)}
  {name : String}

@[simp] theorem ownedBy_nil : ¬ OwnedBy [] name := fun ⟨_, h, _⟩ => nomatch h

theorem ownedBy_append : OwnedBy (roots ++ roots') name ↔ OwnedBy roots name ∨ OwnedBy roots' name := by
  constructor
  · rintro ⟨root, hroot, hname⟩
    rcases List.mem_append.mp hroot with hroot | hroot
    · exact Or.inl ⟨root, hroot, hname⟩
    · exact Or.inr ⟨root, hroot, hname⟩
  · rintro (⟨root, hroot, hname⟩ | ⟨root, hroot, hname⟩)
    · exact ⟨root, List.mem_append_left _ hroot, hname⟩
    · exact ⟨root, List.mem_append_right _ hroot, hname⟩

theorem ownedBy_cons {root : String} :
    OwnedBy (root :: roots) name ↔ belongsTo root name = true ∨ OwnedBy roots name := by
  simp [OwnedBy]

theorem Opened.isOwned_iff (h : st.Opened) :
    st.isOwnedByActiveScope name = true ↔
      OwnedBy ((st.currentScope.drop st.activeScopeEntryStart).map Prod.fst) name := by
  rw [isOwnedByActiveScope, scopeStart, min_eq_left h.start_le, List.any_eq_true]
  constructor
  · rintro ⟨entry, hentry, hname⟩
    exact ⟨entry.1, List.mem_map_of_mem hentry, hname⟩
  · rintro ⟨root, hroot, hname⟩
    obtain ⟨entry, hentry, rfl⟩ := List.mem_map.mp hroot
    exact ⟨entry, hentry, hname⟩

theorem Widens.refl (h : st.Opened) : Widens st st [] [] :=
  ⟨h, (List.append_nil _).symm, rfl, fun name => by simp, fun _ h => h⟩

theorem Widens.trans (h : Widens st st' roots added) (h' : Widens st' st'' roots' added') :
    Widens st st'' (roots ++ roots') (added ++ added') := by
  refine ⟨h'.opened, ?_, h'.bindStart.trans h.bindStart, ?_, fun name hname =>
    h'.named name (h.named name hname)⟩
  · rw [h'.bindSymbol, h.bindSymbol, List.append_assoc]
  · intro name
    rw [h'.owned, h.owned, ownedBy_append, or_assoc]

theorem Widens.of_roots (h : Widens st st' roots added)
    (hroots : ∀ name, OwnedBy roots name ↔ OwnedBy roots' name) : Widens st st' roots' added :=
  ⟨h.opened, h.bindSymbol, h.bindStart, fun name => by rw [h.owned, hroots], h.named⟩

theorem widens_addBindSymbol (h : st.Opened) (binding : String × String) :
    Widens st (st.addBindSymbol binding) [] [binding] :=
  ⟨⟨h.start_le, h.declared⟩, rfl, rfl,
    fun name => (or_iff_left (show ¬ OwnedBy [] name from ownedBy_nil)).symm, fun _ h => h⟩

theorem widens_bindUnlessSame (h : st.Opened) (path target : String) :
    Widens st (st.bindUnlessSame path target) [] (aliasOf path target) := by
  by_cases hsame : path = target
  · rw [bindUnlessSame, aliasOf, if_pos hsame, if_neg (not_not_intro hsame)]
    exact .refl h
  · rw [bindUnlessSame, aliasOf, if_neg hsame, if_pos hsame]
    exact widens_addBindSymbol h (path, target)

theorem getArrayInfo_declare (st : SymbolTable) (name other : String) (info : SymbolInfo) :
    (st.declare name info).getArrayInfo other =
      if other = name then info.arrayInfo else st.getArrayInfo other := by
  rw [getArrayInfo, getArrayInfo, scopeEntry, scopeEntry, declare, List.reverse_append]
  change (((name, info) :: st.currentScope.reverse).lookup other).bind _ = _
  rw [List.lookup_cons]
  split_ifs with h
  · rw [beq_iff_eq.mpr h]
    rfl
  · rw [beq_eq_false_iff_ne.mpr h]

theorem widens_declare (h : st.Opened) (name : String) (info : SymbolInfo)
    (hinfo : ∀ array, info.arrayInfo = some array → array.name = name) :
    Widens st (st.declare name info) [name] [] := by
  have hdrop : (st.declare name info).currentScope.drop (st.declare name info).activeScopeEntryStart =
      st.currentScope.drop st.activeScopeEntryStart ++ [(name, info)] :=
    List.drop_append_of_le_length h.start_le
  have hopened : (st.declare name info).Opened := by
    constructor
    · change _ ≤ (st.currentScope ++ [(name, info)]).length
      rw [List.length_append]
      exact Nat.le_add_right_of_le h.start_le
    · intro other hother
      rw [hdrop]
      rcases List.mem_append.mp hother with hother | hother
      · obtain ⟨entry, hentry, hname⟩ := h.declared other hother
        exact ⟨entry, List.mem_append_left _ hentry, hname⟩
      · exact ⟨(name, info), List.mem_append_right _ List.mem_cons_self,
          (List.mem_singleton.mp hother).symm⟩
  refine ⟨hopened, (List.append_nil _).symm, rfl, ?_, ?_⟩
  · intro other
    rw [hopened.isOwned_iff, hdrop, h.isOwned_iff, List.map_append, ownedBy_append]
    rfl
  · intro other hother array harray
    rw [getArrayInfo_declare] at harray
    split_ifs at harray with hsame
    · rw [hinfo array harray, hsame]
    · exact hother array harray

theorem widens_of_declared (h : st.Opened) (hname : st.isDeclaredInCurrentScope name = true) :
    Widens st st [name] [] := by
  refine ⟨h, (List.append_nil _).symm, rfl, ?_, fun _ h => h⟩
  intro other
  refine (or_iff_left_of_imp ?_).symm
  rw [ownedBy_cons, or_iff_left ownedBy_nil, h.isOwned_iff]
  intro hbelongs
  obtain ⟨entry, hentry, rfl⟩ := h.declared name (List.contains_iff_mem.mp hname)
  exact ⟨entry.1, List.mem_map_of_mem hentry, hbelongs⟩

theorem widens_defineSymbol (h : st.Opened) (name type : String) :
    Widens st (st.defineSymbol name type).2 [name] [] := by
  unfold defineSymbol
  split_ifs with hdeclared
  · exact widens_of_declared h hdeclared
  · exact widens_declare h name _ fun _ harray => nomatch harray

theorem widens_defineArray (h : st.Opened) (array : ArrayInfo) :
    Widens st (st.defineArray array).2 [array.name] [] := by
  unfold defineArray
  split_ifs with hdeclared
  · exact widens_of_declared h hdeclared
  · exact widens_declare h array.name _ fun _ harray => by
      rw [← Option.some.inj harray]

theorem arrayNamed_defineArray {array : ArrayInfo} (h : st.defineArray array = (true, st')) :
    st'.ArrayNamed array.name := by
  unfold defineArray at h
  split_ifs at h with hdeclared
  · exact nomatch h
  · obtain rfl := (Prod.mk.inj h).2
    intro info hinfo
    rw [getArrayInfo_declare, if_pos rfl] at hinfo
    rw [← Option.some.inj hinfo]

/-- Only the flag of an entry changes. -/
theorem widens_markSymbolInitialized (h : st.Opened) (name : String) :
    Widens st (st.markSymbolInitialized name) [] [] := by
  have hnames : ∀ count, ((st.markSymbolInitialized name).currentScope.drop count).map Prod.fst =
      (st.currentScope.drop count).map Prod.fst := by
    intro count
    rw [List.map_drop, List.map_drop, markSymbolInitialized, map_fst_updateLastEntry]
  have hopened : (st.markSymbolInitialized name).Opened := by
    constructor
    · have hlength := congrArg List.length (hnames 0)
      rw [List.length_map, List.length_map, List.drop_zero, List.drop_zero] at hlength
      rw [hlength]
      exact h.start_le
    · intro declared hdeclared
      obtain ⟨found, hfound, rfl⟩ := h.declared declared hdeclared
      have hmem := List.mem_map_of_mem (f := Prod.fst) hfound
      rw [← hnames] at hmem
      exact List.mem_map.mp hmem
  refine ⟨hopened, (List.append_nil _).symm, rfl, ?_, ?_⟩
  · intro other
    rw [hopened.isOwned_iff, h.isOwned_iff, or_iff_left ownedBy_nil, hnames]
    rfl
  · intro other hother array harray
    refine hother array ?_
    rw [← harray, getArrayInfo, getArrayInfo, scopeEntry, scopeEntry, markSymbolInitialized,
      lookup_updateLastEntry]
    cases st.currentScope.reverse.lookup other with
    | none => rfl
    | some info =>
        rw [Option.map_some]
        split_ifs <;> rfl

end Widens

end SymbolTable

namespace PrivateCall

open SymbolTable

/-! ### Expansions -/

section Expansions

variable {structs : StructDefinitions} {depth : ℕ} {type path : String}

theorem Expansion.under_append (path : String) (first second : Expansion) :
    (first.append second).under path = (first.under path).append (second.under path) := by
  simp only [Expansion.append, Expansion.under, List.map_append]

theorem Expansion.under_under (outer inner : String) (expansion : Expansion) :
    (expansion.under inner).under outer = expansion.under (outer ++ inner) := by
  simp [Expansion.under, String.append_assoc]

theorem expandAll_under {α : Type} {expand expand' : α → Option Expansion} {xs : List α}
    (h : ∀ x, expand' x = (expand x).map (·.under path)) :
    expandAll expand' xs = (expandAll expand xs).map (·.under path) := by
  induction xs with
  | nil => rfl
  | cons x rest ih =>
      rw [expandAll, expandAll, h, ih]
      cases expand x with
      | none => rfl
      | some first =>
          cases expandAll expand rest with
          | none => rfl
          | some others => exact congrArg some (Expansion.under_append path first others).symm

theorem expandField_under {expand : String → String → Option Expansion}
    (h : ∀ type path, expand type path = (expand type "").map (·.under path)) (path : String)
    (field : String × StructFieldType) :
    expandField structs expand path field =
      (expandField structs expand "" field).map (·.under path) := by
  have hpath : ∀ rest, path ++ "." ++ field.1 ++ rest = path ++ ("" ++ "." ++ field.1 ++ rest) := by
    intro rest
    simp only [String.append_assoc, String.empty_append]
  have hfield : path ++ "." ++ field.1 = path ++ ("" ++ "." ++ field.1) := by
    simp only [String.append_assoc, String.empty_append]
  -- what the recursion gives under a longer path
  have hnested : ∀ inner, expand field.2.baseType (path ++ inner) =
      (expand field.2.baseType inner).map (·.under path) := by
    intro inner
    rw [h, h _ inner, Option.map_map]
    exact congrArg (Option.map · _) (funext fun expansion =>
      (Expansion.under_under path inner expansion).symm)
  unfold expandField
  dsimp only
  split_ifs
  · rw [hfield]
    rfl
  · have hall : expandAll (fun index =>
          expand field.2.baseType (path ++ "." ++ field.1 ++ elementSuffix index))
          (List.range field.2.arraySize) =
        (expandAll (fun index => expand field.2.baseType ("" ++ "." ++ field.1 ++ elementSuffix index))
          (List.range field.2.arraySize)).map (·.under path) :=
      expandAll_under fun index => by rw [hpath, hnested]
    rw [hall, Option.map_map, Option.map_map, hfield]
    rfl
  · rw [hfield]
    rfl
  · simp only [Option.map_some, Expansion.under, List.map_map, Function.comp_def, List.map_cons,
      List.map_nil, hfield, String.append_assoc]
  · rw [hfield, hnested]
  · rw [hfield]
    rfl

theorem getStructFieldsExpanded_under (structs : StructDefinitions) (depth : ℕ) (type path : String) :
    getStructFieldsExpanded structs depth type path =
      (getStructFieldsExpanded structs depth type "").map (·.under path) := by
  induction depth generalizing type path with
  | zero => rfl
  | succ depth ih =>
      rw [getStructFieldsExpanded, getStructFieldsExpanded]
      cases structs.lookup type with
      | none => rfl
      | some fields => exact expandAll_under fun field => expandField_under ih path field

theorem expansionOf_eq_ok {expansion : Expansion}
    (h : expansionOf structs depth type path = .ok expansion) :
    expansion = (structExpansion structs depth type).under path := by
  rw [expansionOf, getStructFieldsExpanded_under] at h
  rw [structExpansion]
  cases hexpanded : getStructFieldsExpanded structs depth type "" with
  | none =>
      rw [hexpanded] at h
      exact nomatch h
  | some bare =>
      rw [hexpanded] at h
      exact (Except.ok.inj h).symm

theorem expandAll_forall {α : Type} {expand : α → Option Expansion} {P : String × String → Prop}
    {xs : List α} (h : ∀ x e, expand x = some e → ∀ field ∈ e.fields, P field) {expansion : Expansion}
    (hall : expandAll expand xs = some expansion) : ∀ field ∈ expansion.fields, P field := by
  induction xs generalizing expansion with
  | nil =>
      obtain rfl := Option.some.inj hall
      exact fun field hfield => nomatch hfield
  | cons x rest ih =>
      rw [expandAll] at hall
      obtain ⟨first, hfirst, hall⟩ := Option.bind_eq_some_iff.mp hall
      obtain ⟨others, hothers, hall⟩ := Option.bind_eq_some_iff.mp hall
      obtain rfl := Option.some.inj hall
      intro field hfield
      rcases List.mem_append.mp hfield with hfield | hfield
      · exact h x first hfirst field hfield
      · exact ih hothers field hfield

theorem isPath_field (name rest : String) : IsPath ("" ++ "." ++ name ++ rest) := by
  refine Or.inr (Or.inl ?_)
  rw [String.empty_append, String.toList_append, String.toList_append]
  rfl

/-- The path of a field begins with a dot. -/
theorem isPath_expandField {expand : String → String → Option Expansion}
    (h : ∀ type path, expand type path = (expand type "").map (·.under path))
    {field : String × StructFieldType} {expansion : Expansion}
    (hexpand : expandField structs expand "" field = some expansion) :
    ∀ entry ∈ expansion.fields, IsPath entry.1 := by
  have hname : IsPath ("" ++ "." ++ field.1) := by
    have hrest := isPath_field field.1 ""
    rwa [String.append_empty] at hrest
  have hnested : ∀ rest e, expand field.2.baseType ("" ++ "." ++ field.1 ++ rest) = some e →
      ∀ entry ∈ e.fields, IsPath entry.1 := by
    intro rest e he entry hentry
    rw [h] at he
    obtain ⟨bare, -, rfl⟩ := Option.map_eq_some_iff.mp he
    obtain ⟨inner, -, rfl⟩ := List.mem_map.mp hentry
    dsimp only
    rw [String.append_assoc]
    exact isPath_field field.1 (rest ++ inner.1)
  unfold expandField at hexpand
  dsimp only at hexpand
  split_ifs at hexpand
  · obtain rfl := Option.some.inj hexpand
    simpa using hname
  · obtain ⟨elements, helements, rfl⟩ := Option.map_eq_some_iff.mp hexpand
    intro entry hentry
    exact expandAll_forall (fun index e he => hnested (elementSuffix index) e he) helements entry hentry
  · obtain rfl := Option.some.inj hexpand
    simpa using hname
  · obtain rfl := Option.some.inj hexpand
    intro entry hentry
    obtain ⟨index, -, rfl⟩ := List.mem_map.mp hentry
    exact isPath_field field.1 (elementSuffix index)
  · refine hnested "" expansion ?_
    rwa [String.append_empty]
  · obtain rfl := Option.some.inj hexpand
    simpa using hname

theorem isPath_structPaths (hpath : path ∈ structPaths structs depth type) : IsPath path := by
  obtain ⟨field, hfield, rfl⟩ := List.mem_map.mp hpath
  rw [structExpansion] at hfield
  cases hexpanded : getStructFieldsExpanded structs depth type "" with
  | none =>
      rw [hexpanded] at hfield
      exact absurd hfield List.not_mem_nil
  | some expansion =>
      rw [hexpanded] at hfield
      cases depth with
      | zero => exact nomatch hexpanded
      | succ depth =>
          rw [getStructFieldsExpanded] at hexpanded
          split at hexpanded
          · obtain rfl := Option.some.inj hexpanded
            exact absurd hfield List.not_mem_nil
          · exact expandAll_forall (fun _ _ he => isPath_expandField
              (getStructFieldsExpanded_under structs depth) he) hexpanded field hfield

theorem structExpansion_of_not_struct (h : structs.isStruct type = false) :
    structExpansion structs depth type = {} := by
  rw [StructDefinitions.isStruct, Option.isSome_eq_false_iff, Option.isNone_iff_eq_none] at h
  rw [structExpansion]
  cases depth with
  | zero => rfl
  | succ depth =>
      rw [getStructFieldsExpanded, h]
      rfl

theorem isPath_elementPaths {index : ℕ} (hpath : path ∈ elementPaths structs depth type index) :
    IsPath path := by
  rcases List.mem_cons.mp hpath with rfl | hpath
  · exact isPath_elementSuffix index
  · obtain ⟨inner, -, rfl⟩ := List.mem_map.mp hpath
    exact isPath_elementSuffix_append index inner

theorem isPath_parameterPaths (hpath : path ∈ parameterPaths structs depth type) : IsPath path := by
  unfold parameterPaths at hpath
  split at hpath
  · rcases List.mem_cons.mp hpath with rfl | hpath
    · exact Or.inl rfl
    · obtain ⟨index, -, hpath⟩ := List.mem_flatMap.mp hpath
      exact isPath_elementPaths hpath
  · split_ifs at hpath
    · exact isPath_structPaths hpath
    · exact Or.inl (List.mem_singleton.mp hpath)

end Expansions

/-! ### A turn of the loop -/

/-- The bindings of some paths under two names. -/
def pathAliases (name target : String) (paths : List String) : List (String × String) :=
  paths.flatMap fun path => aliasOf (name ++ path) (target ++ path)

def Within (name : String) (roots : List String) : Prop :=
  ∀ root ∈ roots, ∃ path, IsPath path ∧ root = name ++ path

section Turn

variable {structs : StructDefinitions} {depth index : ℕ} {st st' : SymbolTable}
  {name target paramName : String} {paths : List String} {arrayType : FixedArrayType}
  {sourceArray : ArrayInfo}

theorem pathAliases_eq : pathAliases name target paths =
    if name = target then [] else paths.map fun path => (name ++ path, target ++ path) := by
  induction paths with
  | nil => exact (ite_self _).symm
  | cons path paths ih =>
      rw [pathAliases, List.flatMap_cons, ← pathAliases, ih, aliasOf, List.map_cons]
      simp only [String.append_left_inj]
      split_ifs <;> rfl

theorem pathAliases_append (name target : String) (paths paths' : List String) :
    pathAliases name target (paths ++ paths') =
      pathAliases name target paths ++ pathAliases name target paths' := List.flatMap_append

theorem pathAliases_elementPaths (name target elementType : String) (index : ℕ) :
    pathAliases name target (elementPaths structs depth elementType index) =
      aliasOf (name ++ elementSuffix index) (target ++ elementSuffix index) ++
        pathAliases (name ++ elementSuffix index) (target ++ elementSuffix index)
          (structPaths structs depth elementType) := by
  rw [elementPaths, pathAliases, List.flatMap_cons, List.flatMap_map, pathAliases]
  simp only [String.append_assoc]

theorem Within.belongsTo {roots : List String} {candidate : String} (h : Within name roots)
    (howned : OwnedBy roots candidate) : SymbolTable.belongsTo name candidate = true := by
  obtain ⟨root, hroot, hcandidate⟩ := howned
  obtain ⟨path, hpath, rfl⟩ := h root hroot
  exact belongsTo_of_append hpath hcandidate

theorem Within.append {roots roots' : List String} (h : Within name roots) (h' : Within name roots') :
    Within name (roots ++ roots') := by
  intro root hroot
  rcases List.mem_append.mp hroot with hroot | hroot
  · exact h root hroot
  · exact h' root hroot

theorem getElementLabel_eq (info : ArrayInfo) (index : ℕ) :
    info.getElementLabel index = info.name ++ elementSuffix index := by
  simp only [ArrayInfo.getElementLabel, elementSuffix, String.append_assoc]

theorem getArrayElementLabel_eq (h : st.ArrayNamed name) (index : ℕ) :
    st.getArrayElementLabel name index = name ++ elementSuffix index := by
  rw [getArrayElementLabel]
  cases harray : st.getArrayInfo name with
  | none => rfl
  | some info =>
      dsimp only
      rw [getElementLabel_eq, h info harray]

theorem widens_defineArrays (h : st.Opened) (arrays : List ArrayInfo) :
    Widens st (defineArrays st arrays) (arrays.map (·.name)) [] := by
  induction arrays generalizing st with
  | nil => exact .refl h
  | cons array arrays ih =>
      have hfirst := widens_defineArray h array
      exact hfirst.trans (ih hfirst.opened)

theorem widens_addBindings (h : st.Opened) (bindings : List (String × String)) :
    Widens st (bindings.foldl addBindSymbol st) [] bindings := by
  induction bindings generalizing st with
  | nil => exact .refl h
  | cons binding bindings ih =>
      have hfirst := widens_addBindSymbol h binding
      exact hfirst.trans (ih hfirst.opened)

/-- The fields of an element are declared, and bound to those of the argument. -/
theorem bindElementFields_widens {fields : List (String × String)} (hopened : st.Opened)
    (h : bindElementFields paramName st (fields.map fun field =>
      ((name ++ field.1, field.2), (target ++ field.1, field.2))) = .ok st') :
    Widens st st' (fields.map fun field => name ++ field.1)
      (pathAliases name target (fields.map Prod.fst)) := by
  induction fields generalizing st with
  | nil =>
      obtain rfl := Except.ok.inj h
      exact .refl hopened
  | cons field fields ih =>
      rw [List.map_cons, bindElementFields, if_neg (not_not_intro rfl)] at h
      have hsymbol := widens_defineSymbol hopened (name ++ field.1) field.2
      have hbound := widens_bindUnlessSame hsymbol.opened (name ++ field.1) (target ++ field.1)
      exact hsymbol.trans (hbound.trans (ih hbound.opened h))

/-- What an element adds. -/
theorem bindElement_widens (hopened : st.Opened) (hnamed : st.ArrayNamed paramName)
    (h : bindElement structs depth paramName arrayType sourceArray st index = .ok st') :
    ∃ inner, Within paramName inner ∧
      Widens st st' (inner ++ (structArrays structs depth arrayType.elementType).map
          (sourceArray.name ++ elementSuffix index ++ ·))
        (pathAliases paramName sourceArray.name
          (elementPaths structs depth arrayType.elementType index)) := by
  rw [bindElement, getArrayElementLabel_eq hnamed, getElementLabel_eq] at h
  have hbound := widens_bindUnlessSame hopened (paramName ++ elementSuffix index)
    (sourceArray.name ++ elementSuffix index)
  have hwithin : ∀ rests : List String,
      Within paramName (rests.map (paramName ++ elementSuffix index ++ ·)) := by
    intro rests root hroot
    obtain ⟨rest, -, rfl⟩ := List.mem_map.mp hroot
    exact ⟨_, isPath_elementSuffix_append index rest, String.append_assoc⟩
  rw [pathAliases_elementPaths]
  dsimp only at h
  split_ifs at h with hstruct
  · obtain ⟨paramFields, hparam, h⟩ := bind_eq_ok_iff.mp h
    obtain ⟨argumentFields, hargument, h⟩ := bind_eq_ok_iff.mp h
    obtain rfl := expansionOf_eq_ok hparam
    obtain rfl := expansionOf_eq_ok hargument
    have hnames : ∀ path, ((structExpansion structs depth arrayType.elementType).under path).arrays.map
        (·.name) = (structArrays structs depth arrayType.elementType).map (path ++ ·) := by
      intro path
      rw [Expansion.under, structArrays, List.map_map, List.map_map]
      rfl
    -- both sides have the same fields
    rw [if_neg (by simp [Expansion.under]), Expansion.under, Expansion.under, List.zip_map'] at h
    have harrays := widens_defineArrays hbound.opened
      ((structExpansion structs depth arrayType.elementType).under
        (paramName ++ elementSuffix index)).arrays
    have harrays' := widens_defineArrays harrays.opened
      ((structExpansion structs depth arrayType.elementType).under
        (sourceArray.name ++ elementSuffix index)).arrays
    have hfields := bindElementFields_widens harrays'.opened h
    have hall := hbound.trans (harrays.trans (harrays'.trans hfields))
    rw [hnames, hnames] at hall
    refine ⟨_, (hwithin (structArrays structs depth arrayType.elementType)).append
      (hwithin (structPaths structs depth arrayType.elementType)), hall.of_roots fun candidate => ?_⟩
    simp only [ownedBy_append, ownedBy_nil, false_or, structPaths, List.map_map, Function.comp_def]
    tauto
  · have hempty : structExpansion structs depth arrayType.elementType = {} :=
      structExpansion_of_not_struct (Bool.eq_false_iff.mpr hstruct)
    obtain rfl := Except.ok.inj h
    have hsymbol := widens_defineSymbol hbound.opened (paramName ++ elementSuffix index)
      arrayType.elementType
    have hall := hbound.trans hsymbol
    refine ⟨[paramName ++ elementSuffix index], ?_, ?_⟩
    · intro root hroot
      exact ⟨_, isPath_elementSuffix index, List.mem_singleton.mp hroot⟩
    · rw [structArrays, structPaths, hempty]
      exact hall

/-- What the elements of an array add. -/
theorem bindElements_widens (indexes : List ℕ) (hopened : st.Opened) (hnamed : st.ArrayNamed paramName)
    (h : indexes.foldlM (bindElement structs depth paramName arrayType sourceArray) st = .ok st') :
    ∃ inner, Within paramName inner ∧
      Widens st st' (inner ++ indexes.flatMap fun index =>
          (structArrays structs depth arrayType.elementType).map
            (sourceArray.name ++ elementSuffix index ++ ·))
        (pathAliases paramName sourceArray.name
          (indexes.flatMap (elementPaths structs depth arrayType.elementType))) := by
  induction indexes generalizing st with
  | nil =>
      obtain rfl := Except.ok.inj h
      exact ⟨[], fun root hroot => absurd hroot List.not_mem_nil, .refl hopened⟩
  | cons index indexes ih =>
      rw [List.foldlM_cons] at h
      obtain ⟨between, hfirst, hrest⟩ := bind_eq_ok_iff.mp h
      obtain ⟨inner, hinner, hwidens⟩ := bindElement_widens hopened hnamed hfirst
      obtain ⟨inner', hinner', hwidens'⟩ := ih hwidens.opened (hwidens.named _ hnamed) hrest
      refine ⟨inner ++ inner', hinner.append hinner', ?_⟩
      rw [List.flatMap_cons, List.flatMap_cons, pathAliases_append]
      refine (hwidens.trans hwidens').of_roots fun candidate => ?_
      simp only [ownedBy_append]
      tauto

/-- What an array adds. -/
theorem bindArray_widens {parameter : ParameterInfo} (hopened : st.Opened) (hnamed : st.ArrayNamed target)
    (h : bindArray structs depth st parameter arrayType target = .ok st') :
    Widens st st' (parameter.name :: (List.range arrayType.size).flatMap fun index =>
          (structArrays structs depth arrayType.elementType).map (target ++ elementSuffix index ++ ·))
        (pathAliases parameter.name target ("" :: (List.range arrayType.size).flatMap
          (elementPaths structs depth arrayType.elementType))) := by
  unfold bindArray at h
  dsimp only at h
  split at h
  · exact nomatch h
  · rename_i sourceArray hsource
    have hname := hnamed sourceArray hsource
    split_ifs at h
    split at h
    · exact nomatch h
    · rename_i defined hdefined
      obtain ⟨elements, helements, h⟩ := bind_eq_ok_iff.mp h
      obtain rfl := Except.ok.inj h
      have hroot := widens_defineArray hopened ⟨parameter.name, arrayType.elementType, arrayType.size, true⟩
      rw [hdefined] at hroot
      have hbound := widens_bindUnlessSame hroot.opened parameter.name target
      have hparam := hbound.named _ (arrayNamed_defineArray hdefined)
      obtain ⟨inner, hinner, hwidens⟩ := bindElements_widens _ hbound.opened hparam helements
      have hmarked := widens_markSymbolInitialized hwidens.opened parameter.name
      have hall := hroot.trans (hbound.trans (hwidens.trans hmarked))
      simp only [hname, List.append_nil, List.nil_append] at hall
      rw [pathAliases, List.flatMap_cons, String.append_empty, String.append_empty]
      refine hall.of_roots fun candidate => ?_
      simp only [ownedBy_append, ownedBy_cons, ownedBy_nil, or_false]
      -- the parameter owns what its elements own
      have hown : OwnedBy inner candidate → belongsTo parameter.name candidate = true :=
        hinner.belongsTo
      tauto

/-- What a structure adds. -/
theorem bindStruct_widens {parameter : ParameterInfo} (hopened : st.Opened)
    (h : bindStruct structs depth st parameter target = .ok st') :
    Widens st st' ((structArrays structs depth parameter.type).map (parameter.name ++ ·) ++
        (structArrays structs depth parameter.type).map (target ++ ·))
      ((structPaths structs depth parameter.type).map fun path =>
        (parameter.name ++ path, target ++ path)) := by
  obtain ⟨paramFields, hparam, h⟩ := bind_eq_ok_iff.mp h
  obtain ⟨argFields, hargument, h⟩ := bind_eq_ok_iff.mp h
  obtain rfl := expansionOf_eq_ok hparam
  obtain rfl := expansionOf_eq_ok hargument
  obtain rfl := Except.ok.inj h
  set expansion := structExpansion structs depth parameter.type with hexpansion
  have harrays := widens_defineArrays hopened (expansion.under parameter.name).arrays
  have harrays' := widens_defineArrays harrays.opened (expansion.under target).arrays
  have hbindings := widens_addBindings harrays'.opened (((expansion.under parameter.name).fields.zip
    (expansion.under target).fields).map fun fields => (fields.1.1, fields.2.1))
  rw [List.foldl_map] at hbindings
  have hall := harrays.trans (harrays'.trans hbindings)
  simpa [Expansion.under, structArrays, structPaths, List.zip_map', Function.comp_def, hexpansion]
    using hall

/-- **What a turn of the loop adds.** -/
theorem bindParameter_widens {parameter : ParameterInfo} {argument : StackElement}
    (hopened : st.Opened)
    (hnamed : (parseFixedArrayType parameter.type).isSome →
      st.ArrayNamed (st.resolveBindSymbol argument.name))
    (h : bindParameter structs depth st parameter argument = .ok st') :
    Widens st st'
      (parameterRoots structs depth parameter (st.resolveBindSymbol argument.name))
      (parameterBindings structs depth parameter (st.resolveBindSymbol argument.name)) := by
  unfold bindParameter at h
  unfold parameterRoots parameterBindings parameterPaths
  dsimp only at h
  cases harray : parseFixedArrayType parameter.type with
  | some arrayType =>
      rw [harray] at h hnamed
      have hwidens := bindArray_widens hopened (hnamed rfl) h
      rw [pathAliases_eq] at hwidens
      simpa using hwidens
  | none =>
      rw [harray] at h
      dsimp only at h ⊢
      split_ifs at h ⊢ with hstruct hfalse hfalse
      · exact absurd hfalse.1 (by simp)
      · exact bindStruct_widens hopened h
      · exact absurd hfalse.1 (by simp)
      · obtain rfl := Except.ok.inj h
        simpa using widens_addBindSymbol hopened (parameter.name, st.resolveBindSymbol argument.name)

end Turn

end PrivateCall

end AtomicProof
