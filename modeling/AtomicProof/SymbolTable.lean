/-
The symbolic state of the code generator.

While it emits instructions the visitor keeps a picture of the two run-time stacks: `SymbolTable` in
`src/src/bytecode/symtab.cpp` holds the names of the slots of the main and the alt stack, the
symbols of the current scopes and, while a private function is inlined, the names its parameters are
bound to.  As with the stacks of the machine, a stack of slots is listed from the top down.  The
accounting of memory in `OpStack` is left out; it bounds the number of slots by `maxSlots`.

Main definitions:

* `StackElement`, `SymbolInfo`, `SymbolTable` — the state;
* `SymbolTable.resolveBindSymbol` — the name a name is bound to;
* `SymbolTable.getPos`, `SymbolTable.getAltPos` — the place of the slot of a name;
* `SymbolTable.roll`, `SymbolTable.dropAt`, `SymbolTable.setMain` — the moves;
* `Matches` — the picture fits two run-time stacks.

Main results:

* `SymbolTable.resolveBindSymbol_congr` — what the resolution of a name depends on;
* `SymbolTable.resolveBindSymbol_slots` — not on the slots;
* `SymbolTable.roll_of_lt`, `SymbolTable.dropAt_of_lt` — the moves of existing slots.
-/

import AtomicProof.Generator

set_option autoImplicit false

namespace AtomicProof

/-! ### Slots and symbols -/

/-- `StackElement`.  `operator==` compares the names alone. -/
structure StackElement where
  name : String
  type : String := ""
  data : String := ""
  deriving DecidableEq, Repr

structure ArrayInfo where
  name : String
  elementType : String
  size : ℕ
  isFixedSize : Bool := true
  deriving DecidableEq, Repr

def ArrayInfo.getElementLabel (info : ArrayInfo) (index : ℕ) : String :=
  info.name ++ "[" ++ numberToScriptHex index ++ "]"

/-- `CompoundFieldInfo`, as far as it is read. -/
structure CompoundFieldInfo where
  name : String
  type : String
  byteSize : ℕ
  deriving DecidableEq, Repr

/-- `CompoundTypeInfo`; `isSplitted` records that the split was done. -/
structure CompoundTypeInfo where
  name : String
  fields : List CompoundFieldInfo
  isSplitted : Bool := false
  deriving DecidableEq, Repr

structure StructFieldType where
  baseType : String
  isArray : Bool := false
  arraySize : ℕ := 0
  elementByteSize : ℕ := 0
  isCompoundType : Bool := false
  compoundFields : List CompoundFieldInfo := []

def StructFieldType.getTypeString (fieldType : StructFieldType) : String :=
  if fieldType.isCompoundType then "__compound__"
  else if !fieldType.isArray then fieldType.baseType
  else fieldType.baseType ++ "[" ++ toString fieldType.arraySize ++ "]"

def StructFieldType.getTotalByteSize (fieldType : StructFieldType) : ℕ :=
  if fieldType.isCompoundType then (fieldType.compoundFields.map (·.byteSize)).sum
  else if fieldType.isArray then fieldType.arraySize * fieldType.elementByteSize
  else fieldType.elementByteSize

structure StructDefNode where
  name : String
  fields : List (String × StructFieldType)

/-- `SymbolInfo`; an array and a compound type carry their descriptions. -/
structure SymbolInfo where
  name : String
  type : String := ""
  modifiers : String := ""
  arrayInfo : Option ArrayInfo := none
  compoundInfo : Option CompoundTypeInfo := none
  isStackFlag : Bool := true
  isInitialized : Bool := false
  isExternalArrayView : Bool := false
  deriving DecidableEq, Repr

def SymbolInfo.ofArray (arrayInfo : ArrayInfo) : SymbolInfo where
  name := arrayInfo.name
  type := arrayInfo.elementType ++ "[]"
  arrayInfo := some arrayInfo

/-- `SymbolTable`.  The stacks are listed from the top down, every other list from the oldest entry
to the newest. -/
structure SymbolTable where
  main : List StackElement
  alt : List StackElement
  newSymbol : List String := []
  declaredSymbols : List String := []
  keepSymbol : List String := []
  bindSymbol : List (String × String) := []
  currentScope : List (String × SymbolInfo) := []
  activeBindSymbolStart : ℕ := 0
  activeScopeEntryStart : ℕ := 0
  deriving DecidableEq, Repr

/-- `DEFAULT_MAX_STACK_SIZE / ELEMENT_OVERHEAD`: more slots do not fit the memory limit of a
symbolic stack. -/
def maxSlots : ℕ := 31250

/-- The picture fits two run-time stacks: there is a slot for every value, on the same stack. -/
structure Matches (st : SymbolTable) (main alt : Stack) : Prop where
  main_length : main.length = st.main.length
  alt_length : alt.length = st.alt.length
  main_bound : st.main.length ≤ maxSlots
  alt_bound : st.alt.length ≤ maxSlots

theorem bind_eq_ok_iff {ε α β : Type} {x : Except ε α} {f : α → Except ε β} {b : β} :
    (x >>= f) = .ok b ↔ ∃ a, x = .ok a ∧ f a = .ok b := by
  cases x with
  | error e => exact iff_of_false (fun h => nomatch h) fun ⟨_, h, _⟩ => nomatch h
  | ok a =>
      constructor
      · exact fun h => ⟨a, rfl, h⟩
      · rintro ⟨a', ha, h⟩
        obtain rfl := Except.ok.inj ha
        exact h

/-- The place of the topmost slot with a name. -/
def posOf (name : String) (slots : List StackElement) : Option ℕ :=
  slots.findIdx? fun element => element.name == name

/-- `altElementTop == symbolName` ends the loop of `setMain`: the tops of `source` are
moved to `target` until the slot of that name has been moved; the number counts the others. -/
def moveUntil (symbolName : String) :
    List StackElement → List StackElement → List StackElement × List StackElement × ℕ
  | [], target => ([], target, 0)
  | element :: source, target =>
      if element.name = symbolName then (source, element :: target, 0)
      else
        let (source', target', num) := moveUntil symbolName source (element :: target)
        (source', target', num + 1)

/-- The list without the last entry equal to `name`. -/
def eraseLast (name : String) (names : List String) : List String :=
  (names.reverse.erase name).reverse

namespace SymbolTable

/-! ### The resolution of names -/

/-- `activeBindSymbolStart()`. -/
def bindStart (st : SymbolTable) : ℕ := min st.activeBindSymbolStart st.bindSymbol.length

/-- `activeScopeEntryStart()`. -/
def scopeStart (st : SymbolTable) : ℕ := min st.activeScopeEntryStart st.currentScope.length

/-- `candidate` is `root`, or a field or an element of `root`. -/
def belongsTo (root candidate : String) : Bool :=
  root.toList.isPrefixOf candidate.toList &&
    match candidate.toList.drop root.toList.length with
    | [] => true
    | next :: _ => next = '.' || next = '['

def isOwnedByActiveScope (st : SymbolTable) (candidate : String) : Bool :=
  (st.currentScope.drop st.scopeStart).any fun entry => belongsTo entry.1 candidate

def findLatestBinding (bindings : List (String × String)) (name : String) : Option String :=
  bindings.reverse.lookup name

/-- One turn of the loop of `resolveBindSymbol`: the name to go on with, when it goes on.  The
innermost frame is consulted first; a name the active scope owns is not looked up in the frames
below unless an alias has been followed. -/
def nextBinding (st : SymbolTable) (followedActiveBinding : Bool) (resolved : String) :
    Option String :=
  match findLatestBinding (st.bindSymbol.drop st.bindStart) resolved with
  | some target => if target = resolved then none else some target
  | none =>
      if !followedActiveBinding && st.isOwnedByActiveScope resolved then none
      else
        match findLatestBinding (st.bindSymbol.take st.bindStart) resolved with
        | some target => if target = resolved then none else some target
        | none => none

/-- The loop of `resolveBindSymbol`, with the number of turns that are left. -/
def resolveLoop (st : SymbolTable) : ℕ → Bool → String → String
  | 0, _, resolved => resolved
  | turns + 1, followedActiveBinding, resolved =>
      match st.nextBinding followedActiveBinding resolved with
      | some target => resolveLoop st turns true target
      | none => resolved

def resolveBindSymbol (st : SymbolTable) (name : String) : String :=
  st.resolveLoop st.bindSymbol.length false name

variable {st : SymbolTable} {offset : ℕ}

/-- The resolution of a name depends on the bindings and on the scope entries alone. -/
theorem resolveBindSymbol_congr {st' : SymbolTable} (hbind : st'.bindSymbol = st.bindSymbol)
    (hscope : st'.currentScope = st.currentScope)
    (hbindStart : st'.activeBindSymbolStart = st.activeBindSymbolStart)
    (hscopeStart : st'.activeScopeEntryStart = st.activeScopeEntryStart) :
    st'.resolveBindSymbol = st.resolveBindSymbol := by
  have hnext : st'.nextBinding = st.nextBinding := by
    funext followed resolved
    obtain ⟨_, _, _, _, _, bind', scope', bindStart', scopeStart'⟩ := st'
    simp only at hbind hscope hbindStart hscopeStart
    subst hbind hscope hbindStart hscopeStart
    rfl
  have hloop : ∀ turns followed resolved,
      st'.resolveLoop turns followed resolved = st.resolveLoop turns followed resolved := by
    intro turns
    induction turns with
    | zero => intro followed resolved; rfl
    | succ turns ih =>
        intro followed resolved
        simp only [resolveLoop, hnext, ih]
  funext name
  rw [resolveBindSymbol, resolveBindSymbol, hbind, hloop]

theorem resolveBindSymbol_slots (st : SymbolTable) (main alt : List StackElement)
    (newSymbol : List String) :
    resolveBindSymbol { st with main, alt, newSymbol } = st.resolveBindSymbol :=
  resolveBindSymbol_congr rfl rfl rfl rfl

/-! ### Places and symbols -/

/-- `getPos` on the main stack. -/
def getPos (st : SymbolTable) (name : String) : Option ℕ :=
  posOf (st.resolveBindSymbol name) st.main

/-- `getPos` on the alt stack. -/
def getAltPos (st : SymbolTable) (name : String) : Option ℕ :=
  posOf (st.resolveBindSymbol name) st.alt

def symbolExists (st : SymbolTable) (name : String) : Bool :=
  st.currentScope.any fun entry => entry.1 == name

def isDeclaredInCurrentScope (st : SymbolTable) (name : String) : Bool :=
  st.declaredSymbols.contains name

def scopeEntry (st : SymbolTable) (name : String) : Option SymbolInfo :=
  st.currentScope.reverse.lookup name

def getArrayInfo (st : SymbolTable) (name : String) : Option ArrayInfo :=
  (st.scopeEntry name).bind (·.arrayInfo)

def isArraySymbol (st : SymbolTable) (name : String) : Bool := (st.getArrayInfo name).isSome

def declare (st : SymbolTable) (name : String) (info : SymbolInfo) : SymbolTable :=
  { st with
    currentScope := st.currentScope ++ [(name, info)]
    declaredSymbols := st.declaredSymbols ++ [name] }

def defineSymbol (st : SymbolTable) (name type : String) : Bool × SymbolTable :=
  if st.isDeclaredInCurrentScope name then (false, st)
  else (true, st.declare name { name := name, type := type })

def defineArray (st : SymbolTable) (array : ArrayInfo) : Bool × SymbolTable :=
  if st.isDeclaredInCurrentScope array.name then (false, st)
  else (true, st.declare array.name (.ofArray array))

/-! ### Moves -/

def validateStackOperation (st : SymbolTable) (offsetFromTop : ℕ) (operationName : String) :
    Except String Unit :=
  if st.main.length < 1 then
    .error ("Stack operation error (" ++ operationName ++ "): insufficient stack elements")
  else if st.main.length ≤ offsetFromTop then
    .error ("Stack operation error (" ++ operationName ++ "): invalid offset")
  else .ok ()

/-- `m_stackPtr->pop()`: the slot alone, without the record of new symbols. -/
def popSlot (st : SymbolTable) : SymbolTable := { st with main := st.main.tail }

/-- `pop`: the slot and the newest record of its name. -/
def pop (st : SymbolTable) : SymbolTable :=
  match st.main with
  | [] => st
  | element :: rest => { st with main := rest, newSymbol := eraseLast element.name st.newSymbol }

def roll (st : SymbolTable) (offsetFromTop : ℕ) : Except String SymbolTable := do
  st.validateStackOperation offsetFromTop "ROLL"
  if offsetFromTop = 0 then pure st
  else
    match st.main[offsetFromTop]? with
    | some element => pure { st with main := element :: st.main.eraseIdx offsetFromTop }
    | none => throw "Invalid argument - index out of range."

def dropAt (st : SymbolTable) (offsetFromTop : ℕ) : Except String SymbolTable := do
  st.validateStackOperation offsetFromTop "dropAt"
  match st.main[offsetFromTop]? with
  | some element =>
      pure { st with
        main := st.main.eraseIdx offsetFromTop
        newSymbol := eraseLast element.name st.newSymbol }
  | none => throw "Invalid argument - index out of range."

/-- `setMain`: the tops of the alt stack are moved to the main stack, down to the slot of the name;
the result counts the slots above it. -/
def setMain (st : SymbolTable) (symbolName : String) : SymbolTable × ℕ :=
  let (alt, main, num) := moveUntil symbolName st.alt st.main
  ({ st with main, alt }, num)

/-- `m_altStackPtr->moveTopToStack(*m_stackPtr, true)`. -/
def moveTopToAlt (st : SymbolTable) : SymbolTable :=
  match st.main with
  | [] => st
  | element :: rest => { st with main := rest, alt := element :: st.alt }

theorem validateStackOperation_of_lt (h : offset < st.main.length)
    (operationName : String) : st.validateStackOperation offset operationName = .ok () := by
  rw [validateStackOperation, if_neg (by omega), if_neg (by omega)]

theorem roll_of_lt (h : offset < st.main.length) :
    st.roll offset = .ok { st with main := st.main[offset] :: st.main.eraseIdx offset } := by
  simp only [roll, validateStackOperation_of_lt h, bind, Except.bind, List.getElem?_eq_getElem h]
  split_ifs with h0
  · subst h0
    obtain ⟨x, rest, hmain⟩ := List.exists_cons_of_length_pos h
    cases st
    subst hmain
    rfl
  · rfl

theorem dropAt_of_lt (h : offset < st.main.length) : st.dropAt offset = .ok { st with
      main := st.main.eraseIdx offset
      newSymbol := eraseLast st.main[offset].name st.newSymbol } := by
  simp only [dropAt, validateStackOperation_of_lt h, bind, Except.bind,
    List.getElem?_eq_getElem h, pure, Except.pure]

end SymbolTable

end AtomicProof
