/-
The scopes of the code generator, with their memory.

A `Scope` of `src/src/bytecode/scope.cpp` owns the symbol table it works on and the tables of the
enclosing lexical scopes.  A table owns its main stack and its stack of fixed values, which a copy pushes
anew; the alt stack is behind a pointer that a copy shares.  Every stack counts the memory of its
elements apart from them, as the root stacks of `src/src/util/op_stack.cpp` do.  An operation that throws
leaves behind what it has done so far.

The stacks are listed from the top down, every other list from the oldest entry to the newest.

Main definitions:

* `RootStack` — a stack with its counter;
* `ScopeTable`, `ScopeState` — a symbol table, and a scope with the alt stacks that its tables point to;
* `ScopeTable.validateState` — the check of a table;
* `ControlFlowStateSnapshot` — what is captured of a scope;
* `TableOp`, `ScopeOp`, `Session.step` — the operations on a table and on a scope.

Main results:

* `RootStack.Accounted.replaceStackContent` — an accounted stack takes every content that fits;
* `RootStack.copy_eq_ok_iff` — a stack can be copied exactly where its elements fit;
* `TableOp.apply_shares` — what the operations on the main stack and the lists leave alone.
-/

import AtomicProof.OpStack
import AtomicProof.SymbolRename

set_option autoImplicit false

namespace AtomicProof

/-- What an operation leaves behind, with the text of what it throws. -/
abbrev Thrown (σ : Type) := Option String × σ

/-- Going on unless something was thrown. -/
def Thrown.andThen {σ : Type} (result : Thrown σ) (next : σ → Thrown σ) : Thrown σ :=
  match result with
  | (none, state) => next state
  | (some error, state) => (some error, state)

/-! ### Stacks -/

/-- An `OpStack` without a parent.  Its counter is a `size_t`; a number below zero stands for the size
that is larger by `2 ^ 64`. -/
@[ext]
structure RootStack where
  content : List StackElement := []
  combinedStackSize : ℤ := 0
  deriving DecidableEq, Repr

namespace RootStack

def push (st : RootStack) (element : StackElement) : Thrown RootStack :=
  let size := st.combinedStackSize + element.getMemoryUsage
  if size < 0 ∨ maxStackSize < size then (some stackOverflow, st)
  else (none, ⟨element :: st.content, size⟩)

def pop (st : RootStack) : RootStack :=
  match st.content with
  | [] => st
  | top :: rest => ⟨rest, st.combinedStackSize - top.getMemoryUsage⟩

def erase (st : RootStack) (index : ℤ) : Thrown RootStack :=
  if index < 0 then (some "Invalid argument - index should be >= STACK_TOP_POS.", st)
  else
    match st.content[index.toNat]? with
    | some element =>
        (none, ⟨st.content.eraseIdx index.toNat,
          st.combinedStackSize - element.getMemoryUsage⟩)
    | none => (some "Invalid argument - index out of range.", st)

def swap (st : RootStack) (index1 index2 : ℤ) : Thrown RootStack :=
  let size : ℤ := st.content.length
  if index1 < 0 ∨ size ≤ index1 ∨ index2 < 0 ∨ size ≤ index2 then
    (some "Invalid argument - indices out of range.", st)
  else (none, { st with content := StackForest.swapElements st.content index1.toNat index2.toNat })

def replaceStackContent (st : RootStack) (newContent : List StackElement) : Thrown RootStack :=
  let oldContentSize := AtomicProof.combinedStackSize st.content
  let newContentSize := AtomicProof.combinedStackSize newContent
  let size := st.combinedStackSize + newContentSize - oldContentSize
  if 0 ≤ st.combinedStackSize ∧ st.combinedStackSize < oldContentSize then
    (some ("cannot replace stack content: combined stack size is smaller " ++
      "than the current content"), st)
  else if oldContentSize < newContentSize ∧ (size < 0 ∨ maxStackSize < size) then
    (some stackOverflow, st)
  else (none, ⟨newContent, size⟩)

def setCombinedStackSize (st : RootStack) (size : ℤ) : RootStack :=
  { st with combinedStackSize := size }

/-- Elements that are pushed one after the other. -/
def pushAll : List StackElement → RootStack → Thrown RootStack
  | [], st => (none, st)
  | element :: rest, st => (st.push element).andThen (pushAll rest)

/-- The copy of a stack that a copy of its table gets: a new stack on which the elements are pushed from
the lowest to the top. -/
def copy (st : RootStack) : Thrown RootStack := pushAll st.content.reverse {}

/-- The loops of `setAlt` and `setMain`: the tops of a stack are popped and pushed on the other one, at
most `fuel` of them, up to the first that `stops` them, which is not counted. -/
def transfer (stops : StackElement → Bool) :
    ℕ → RootStack → RootStack → Option String × ℕ × RootStack × RootStack
  | 0, source, target => (none, 0, source, target)
  | fuel + 1, source, target =>
      match source.content with
      | [] => (none, 0, source, target)
      | top :: _ =>
          match target.push top with
          | (some error, target) => (some error, 0, source.pop, target)
          | (none, target) =>
              if stops top then (none, 0, source.pop, target)
              else
                let (error, num, source, target) := transfer stops fuel source.pop target
                (error, num + 1, source, target)

/-- The counter is the memory of the elements, which is within the limit. -/
structure Accounted (st : RootStack) : Prop where
  size_eq : st.combinedStackSize = AtomicProof.combinedStackSize st.content
  le_max : AtomicProof.combinedStackSize st.content ≤ maxStackSize

end RootStack

/-! ### Accounted stacks -/

namespace RootStack

variable {st : RootStack}

theorem Accounted.empty : Accounted {} := ⟨rfl, Nat.zero_le _⟩

/-- An accounted stack takes an element exactly where it fits. -/
theorem Accounted.push_eq (h : st.Accounted) (element : StackElement) :
    st.push element =
      if maxStackSize < AtomicProof.combinedStackSize (element :: st.content) then
        (some stackOverflow, st)
      else
        (none, ⟨element :: st.content, AtomicProof.combinedStackSize (element :: st.content)⟩) := by
  have hsize : st.combinedStackSize + element.getMemoryUsage =
      AtomicProof.combinedStackSize (element :: st.content) := by
    rw [h.size_eq, combinedStackSize_cons]
    push_cast
    omega
  unfold RootStack.push
  dsimp only
  rw [hsize]
  by_cases hfits : maxStackSize < AtomicProof.combinedStackSize (element :: st.content)
  · rw [if_pos hfits, if_pos (by omega)]
  · rw [if_neg hfits, if_neg (by omega)]

theorem Accounted.push (h : st.Accounted) (element : StackElement) : (st.push element).2.Accounted := by
  rw [h.push_eq]
  split_ifs with hfits
  · exact h
  · exact ⟨rfl, by simpa using hfits⟩

theorem Accounted.pop (h : st.Accounted) : st.pop.Accounted := by
  obtain ⟨content, size⟩ := st
  obtain ⟨hsize, hmax⟩ := h
  cases content with
  | nil => exact ⟨hsize, hmax⟩
  | cons top rest =>
      simp only [combinedStackSize_cons] at hsize hmax
      constructor
      · simp only [RootStack.pop, hsize]
        push_cast
        omega
      · simp only [RootStack.pop]
        omega

theorem Accounted.erase (h : st.Accounted) (index : ℤ) : (st.erase index).2.Accounted := by
  unfold RootStack.erase
  split_ifs
  · exact h
  · split
    · rename_i element helement
      obtain ⟨hlt, rfl⟩ := List.getElem?_eq_some_iff.1 helement
      have hsum := combinedStackSize_eraseIdx hlt
      have hsize := h.size_eq
      have hmax := h.le_max
      constructor
      · dsimp only
        omega
      · dsimp only
        omega
    · exact h

/-- **An accounted stack takes every content that fits.** -/
theorem Accounted.replaceStackContent (h : st.Accounted) {newContent : List StackElement}
    (hfits : AtomicProof.combinedStackSize newContent ≤ maxStackSize) :
    st.replaceStackContent newContent =
      (none, ⟨newContent, AtomicProof.combinedStackSize newContent⟩) := by
  have hsize := h.size_eq
  unfold RootStack.replaceStackContent
  dsimp only
  rw [if_neg (by omega), if_neg (by omega)]
  simp only [Prod.mk.injEq, mk.injEq, true_and]
  omega

theorem pushAll_eq (h : st.Accounted) {elements : List StackElement}
    (hfits : AtomicProof.combinedStackSize (elements.reverse ++ st.content) ≤ maxStackSize) :
    pushAll elements st = (none, ⟨elements.reverse ++ st.content,
      AtomicProof.combinedStackSize (elements.reverse ++ st.content)⟩) := by
  induction elements generalizing st with
  | nil =>
      rw [pushAll, List.reverse_nil, List.nil_append, ← h.size_eq]
  | cons element rest ih =>
      rw [List.reverse_cons, List.append_assoc, List.singleton_append] at hfits ⊢
      have hone : ¬ maxStackSize < AtomicProof.combinedStackSize (element :: st.content) := by
        rw [combinedStackSize_append] at hfits
        omega
      have hpushed := h.push element
      rw [h.push_eq, if_neg hone] at hpushed
      rw [pushAll, h.push_eq, if_neg hone]
      exact ih hpushed hfits

theorem fits_of_pushAll (h : st.Accounted) {elements : List StackElement} {st' : RootStack}
    (hok : pushAll elements st = (none, st')) :
    AtomicProof.combinedStackSize (elements.reverse ++ st.content) ≤ maxStackSize := by
  induction elements generalizing st with
  | nil => simpa using h.le_max
  | cons element rest ih =>
      rw [List.reverse_cons, List.append_assoc, List.singleton_append]
      rw [pushAll, h.push_eq] at hok
      split_ifs at hok with hone
      · cases hok
      · exact ih ⟨rfl, by simpa using hone⟩ hok

def recounted (st : RootStack) : RootStack :=
  ⟨st.content, AtomicProof.combinedStackSize st.content⟩

/-- **A stack can be copied exactly where its elements fit.** -/
theorem copy_eq_ok_iff {st' : RootStack} :
    st.copy = (none, st') ↔
      AtomicProof.combinedStackSize st.content ≤ maxStackSize ∧ st' = st.recounted := by
  constructor
  · intro hok
    have hfits := fits_of_pushAll .empty hok
    rw [List.reverse_reverse, List.append_nil] at hfits
    refine ⟨hfits, ?_⟩
    have heq := @pushAll_eq {} .empty st.content.reverse (by simpa using hfits)
    rw [copy, heq, List.reverse_reverse, List.append_nil] at hok
    exact (Prod.mk.inj hok).2.symm
  · rintro ⟨hfits, rfl⟩
    have heq := @pushAll_eq {} .empty st.content.reverse (by simpa using hfits)
    rw [copy, heq, List.reverse_reverse, List.append_nil]
    rfl

theorem Accounted.recounted (h : st.Accounted) : st.recounted = st :=
  RootStack.ext rfl h.size_eq.symm

/-- Moving elements between stacks keeps the one that is accounted. -/
theorem Accounted.transfer_target {stops : StackElement → Bool} {fuel : ℕ} {source target : RootStack}
    (h : target.Accounted) : (transfer stops fuel source target).2.2.2.Accounted := by
  induction fuel generalizing source target with
  | zero => exact h
  | succ fuel ih =>
      have hpush := fun top => h.push top
      unfold transfer
      split
      · exact h
      · rename_i top rest hcontent
        specialize hpush top
        split
        · rename_i error target' hpushed
          rw [hpushed] at hpush
          exact hpush
        · rename_i target' hpushed
          rw [hpushed] at hpush
          split_ifs
          · exact hpush
          · exact ih hpush

theorem Accounted.transfer_source {stops : StackElement → Bool} {fuel : ℕ} {source target : RootStack}
    (h : source.Accounted) : (transfer stops fuel source target).2.2.1.Accounted := by
  induction fuel generalizing source target with
  | zero => exact h
  | succ fuel ih =>
      unfold transfer
      split
      · exact h
      · split
        · exact h.pop
        · split_ifs
          · exact h.pop
          · exact ih h.pop

end RootStack

/-! ### Tables -/

/-- `SymbolTable`, with the place of its alt stack among those that were made. -/
@[ext]
structure ScopeTable where
  main : RootStack := {}
  altStackPtr : ℕ
  fixed : RootStack := {}
  newSymbol : List String := []
  declaredSymbols : List String := []
  keepSymbol : List String := []
  bindSymbol : List (String × String) := []
  currentScope : List (String × SymbolInfo) := []
  activeBindSymbolStart : ℕ := 0
  activeScopeEntryStart : ℕ := 0
  savedSharedAltStackElements : List (List StackElement) := []
  savedAltStackCombinedStackSize : List ℤ := []
  savedCombinedStackSize : List ℤ := []
  deriving DecidableEq, Repr

/-- The first elements of every key that is picked are altered or erased. -/
def alterFirsts {α : Type} (key : α → String) (picks : String → Bool) (alter : α → Option α) :
    List String → List α → List α
  | _, [] => []
  | seen, x :: rest =>
      if picks (key x) && !seen.contains (key x) then
        (alter x).toList ++ alterFirsts key picks alter (key x :: seen) rest
      else x :: alterFirsts key picks alter seen rest

def startsWith (lead name : String) : Bool := lead.toList.isPrefixOf name.toList

def exchange (oldPrefix newPrefix name : String) : String :=
  newPrefix ++ String.ofList (name.toList.drop oldPrefix.toList.length)

/-- The topmost slots of the names with a beginning get another one. -/
def RootStack.renameByPrefix (st : RootStack) (oldPrefix newPrefix : String) : RootStack :=
  let alter (slot : StackElement) : Option StackElement :=
    some { slot with name := exchange oldPrefix newPrefix slot.name }
  { st with content := alterFirsts StackElement.name (startsWith oldPrefix) alter [] st.content }

/-- `eraseScopeEntriesByPrefix`: the innermost entries. -/
def eraseScopeEntriesByPrefix (scope : List (String × SymbolInfo)) (lead : String) :
    List (String × SymbolInfo) :=
  (alterFirsts Prod.fst (startsWith lead) (fun _ => none) [] scope.reverse).reverse

def rekey (newKey : String) (entry : String × SymbolInfo) : String × SymbolInfo :=
  let info := { entry.2 with name := newKey }
  (newKey,
    match info.arrayInfo, info.compoundInfo with
    | some array, _ => { info with arrayInfo := some { array with name := newKey } }
    | none, some compound => { info with compoundInfo := some { compound with name := newKey } }
    | none, none => info)

namespace ScopeTable

/-- The picture that a table is, for the operations that take no account of the memory. -/
def picture (t : ScopeTable) : SymbolTable where
  main := t.main.content
  alt := []
  newSymbol := t.newSymbol
  declaredSymbols := t.declaredSymbols
  keepSymbol := t.keepSymbol
  bindSymbol := t.bindSymbol
  currentScope := t.currentScope
  activeBindSymbolStart := t.activeBindSymbolStart
  activeScopeEntryStart := t.activeScopeEntryStart

/-- The table with the slots and lists of a picture. -/
def redraw (t : ScopeTable) (st : SymbolTable) : ScopeTable :=
  { t with
    main := { t.main with content := st.main }
    newSymbol := st.newSymbol
    declaredSymbols := st.declaredSymbols
    keepSymbol := st.keepSymbol
    bindSymbol := st.bindSymbol
    currentScope := st.currentScope
    activeBindSymbolStart := st.activeBindSymbolStart
    activeScopeEntryStart := st.activeScopeEntryStart }

def push (t : ScopeTable) (element : StackElement) : Thrown ScopeTable :=
  let (error, main) := t.main.push element
  (error, { t with newSymbol := t.newSymbol ++ [element.name], main := main })

def pop (t : ScopeTable) : Option StackElement × ScopeTable :=
  match t.main.content with
  | [] => (none, t)
  | top :: _ =>
      (some top, { t with newSymbol := eraseLast top.name t.newSymbol, main := t.main.pop })

def validateStackOperation (t : ScopeTable) (offsetFromTop : ℤ) (operationName : String) :
    Option String :=
  if t.main.content.length < 1 then
    some ("Stack operation error (" ++ operationName ++ "): insufficient stack elements")
  else if offsetFromTop < 0 ∨ (t.main.content.length : ℤ) ≤ offsetFromTop then
    some ("Stack operation error (" ++ operationName ++ "): invalid offset")
  else none

def performStackOperation (t : ScopeTable) (offsetFromTop : ℤ) (shouldRemoveOriginal : Bool)
    (operationName : String) : Thrown ScopeTable :=
  match t.validateStackOperation offsetFromTop operationName,
      t.main.content[offsetFromTop.toNat]? with
  | some error, _ => (some error, t)
  | none, none => (none, t)
  | none, some element =>
      if shouldRemoveOriginal = true ∧ offsetFromTop = 0 then (none, t)
      else
        let (error, main) := Thrown.andThen
          (if shouldRemoveOriginal then t.main.erase offsetFromTop else (none, t.main))
          (·.push element)
        (error, { t with main := main })

def pick (t : ScopeTable) (offsetFromTop : ℤ) : Thrown ScopeTable :=
  t.performStackOperation offsetFromTop false "PICK"

def roll (t : ScopeTable) (offsetFromTop : ℤ) : Thrown ScopeTable :=
  t.performStackOperation offsetFromTop true "ROLL"

def dropAt (t : ScopeTable) (offsetFromTop : ℤ) : Thrown ScopeTable :=
  match t.validateStackOperation offsetFromTop "dropAt",
      t.main.content[offsetFromTop.toNat]? with
  | some error, _ => (some error, t)
  | none, none => (none, t)
  | none, some removed =>
      let (error, main) := t.main.erase offsetFromTop
      (error, { t with newSymbol := eraseLast removed.name t.newSymbol, main := main })

/-- `Scope::erase` and `Scope::swap`. -/
def erase (t : ScopeTable) (index : ℤ) : Thrown ScopeTable :=
  let (error, main) := t.main.erase index
  (error, { t with main := main })

def swap (t : ScopeTable) (index1 index2 : ℤ) : Thrown ScopeTable :=
  let (error, main) := t.main.swap index1 index2
  (error, { t with main := main })

def rename (t : ScopeTable) (oldName newName : String) : Bool × ScopeTable :=
  (t.main.content.any fun slot => slot.name == oldName,
    { t with main := { t.main with content := renameTopToBottom oldName newName t.main.content } })

def renameAtPosition (t : ScopeTable) (position : ℤ) (newName : String) : Bool × ScopeTable :=
  if position < 0 ∨ (t.main.content.length : ℤ) ≤ position then (false, t)
  else
    (true, { t with main := { t.main with
      content := t.main.content.modify position.toNat fun slot => { slot with name := newName } } })

def fixedIndex (t : ScopeTable) (name : String) : Option ℕ :=
  (t.fixed.content.reverse.findIdx? fun element => element.name == name).map
    (t.fixed.content.length - 1 - ·)

/-- `SymbolTable::setFixed`: the loop keeps the last index. -/
def setFixed (t : ScopeTable) (element : StackElement) : Thrown ScopeTable :=
  let (error, fixed) := Thrown.andThen
    (match t.fixedIndex element.name with
      | some index => t.fixed.erase index
      | none => (none, t.fixed))
    (·.push element)
  (error, { t with fixed := fixed })

/-- `SymbolTable::removeFixed`: the loop ends at the first index. -/
def removeFixed (t : ScopeTable) (name : String) : Thrown ScopeTable :=
  match t.fixed.content.findIdx? fun element => element.name == name with
  | some index =>
      let (error, fixed) := t.fixed.erase index
      (error, { t with fixed := fixed })
  | none => (none, t)

/-! ### Symbols -/

def isDeclaredInCurrentScope (t : ScopeTable) (name : String) : Bool :=
  t.declaredSymbols.contains name

def declare (t : ScopeTable) (name : String) (info : SymbolInfo) : ScopeTable :=
  { t with
    currentScope := t.currentScope ++ [(name, info)]
    declaredSymbols := t.declaredSymbols ++ [name] }

def defineSymbol (t : ScopeTable) (name type modifiers : String) : Bool × ScopeTable :=
  if t.isDeclaredInCurrentScope name then (false, t)
  else (true, t.declare name { name := name, type := type, modifiers := modifiers })

def defineArray (t : ScopeTable) (name elementType : String) (size : ℕ) (isFixedSize : Bool) :
    Bool × ScopeTable :=
  if t.isDeclaredInCurrentScope name then (false, t)
  else (true, t.declare name (.ofArray ⟨name, elementType, size, isFixedSize⟩))

def importExternalArrayView (t : ScopeTable) (name elementType : String) (size : ℕ)
    (isFixedSize : Bool) : Bool × ScopeTable :=
  match t.currentScope.reverse.lookup name with
  | some info =>
      match info.arrayInfo with
      | some existing =>
          (existing.elementType = elementType && existing.size = size &&
            existing.isFixedSize = isFixedSize, t)
      | none => (false, t)
  | none =>
      (true, { t with currentScope := t.currentScope ++
        [(name, { SymbolInfo.ofArray ⟨name, elementType, size, isFixedSize⟩ with
          isExternalArrayView := true })] })

def defineCompoundType (t : ScopeTable) (compoundInfo : CompoundTypeInfo) : Bool × ScopeTable :=
  if t.currentScope.any fun entry => entry.1 == compoundInfo.name then (false, t)
  else
    (true, t.declare compoundInfo.name
      { name := compoundInfo.name, type := "__compound__", compoundInfo := some compoundInfo })

def markCompoundTypeSplitted (t : ScopeTable) (name : String) : ScopeTable :=
  { t with currentScope := updateLastEntry t.currentScope name fun info =>
      { info with compoundInfo := info.compoundInfo.map ({ · with isSplitted := true }) } }

def markSymbolInitialized (t : ScopeTable) (name : String) : ScopeTable :=
  { t with currentScope := updateLastEntry t.currentScope name ({ · with isInitialized := true }) }

def removeSymbol (t : ScopeTable) (name : String) : ScopeTable :=
  { t with
    currentScope := eraseScopeEntriesByKey t.currentScope name
    declaredSymbols := t.declaredSymbols.filter (· ≠ name) }

def renameWith (rename : SymbolTable → String → String → Bool × SymbolTable) (t : ScopeTable)
    (oldName newName : String) : Bool × ScopeTable :=
  let (found, st) := rename t.picture oldName newName
  (found, t.redraw st)

/-- `SymbolTable::renameEntriesByPrefix` on what the table owns. -/
def renameEntriesByPrefix (t : ScopeTable) (oldPrefix newPrefix : String) : ScopeTable :=
  let renameList (names : List String) : List String :=
    names.map fun name =>
      if startsWith oldPrefix name then exchange oldPrefix newPrefix name else name
  let scope := eraseScopeEntriesByPrefix t.currentScope newPrefix
  { t with
    main := t.main.renameByPrefix oldPrefix newPrefix
    fixed := t.fixed.renameByPrefix oldPrefix newPrefix
    currentScope := (alterFirsts Prod.fst (startsWith oldPrefix)
      (fun entry => some (rekey (exchange oldPrefix newPrefix entry.1) entry)) [] scope.reverse).reverse
    newSymbol := renameList t.newSymbol
    declaredSymbols := renameList t.declaredSymbols }

/-! ### Frames -/

/-- `activeBindSymbolStart()` and `activeScopeEntryStart()`. -/
def bindStart (t : ScopeTable) : ℕ := min t.activeBindSymbolStart t.bindSymbol.length

def scopeStart (t : ScopeTable) : ℕ := min t.activeScopeEntryStart t.currentScope.length

def removeBindSymbol (t : ScopeTable) (paramName : String) : ScopeTable :=
  { t with bindSymbol := t.bindSymbol.take t.bindStart ++
      (t.bindSymbol.drop t.bindStart).filter (·.1 ≠ paramName) }

def beginBindSymbolFrame (t : ScopeTable) : ℕ × ScopeTable :=
  (t.bindStart, { t with activeBindSymbolStart := t.bindSymbol.length })

def beginScopeEntryFrame (t : ScopeTable) : ℕ × ScopeTable :=
  (t.scopeStart, { t with activeScopeEntryStart := t.currentScope.length })

/-- `resetFunctionState`: the alt stack is kept. -/
def resetFunctionState (t : ScopeTable) : ScopeTable := { altStackPtr := t.altStackPtr }

/-! ### Copies -/

def copy (t : ScopeTable) : Except String ScopeTable :=
  match t.main.copy, t.fixed.copy with
  | (some error, _), _ => .error error
  | (none, _), (some error, _) => .error error
  | (none, main), (none, fixed) => .ok { t with main := main, fixed := fixed }

/-- `operator=`: the lists and the pointer first, then the stacks. -/
def assign (t other : ScopeTable) : Thrown ScopeTable :=
  let (error, main) := other.main.copy
  match error with
  | some error => (some error, { other with main := main, fixed := t.fixed })
  | none =>
      let (error, fixed) := other.fixed.copy
      (error, { other with main := main, fixed := fixed })

/-! ### The check -/

/-- `validateAccounting`. -/
def accountingError (st : RootStack) (stackName : String) : Option String :=
  if st.combinedStackSize ≠ combinedStackSize st.content then
    some (stackName ++ " stack accounting mismatch: expected " ++
      toString (combinedStackSize st.content) ++ ", got " ++
      toString (st.combinedStackSize % 2 ^ 64))
  else none

/-- `SymbolTable::validateState`: the text of what is wrong. -/
def validateState (t : ScopeTable) (alt : RootStack) : Option String :=
  (accountingError t.main "main").or <|
  (accountingError alt "alternative").or <|
  (accountingError t.fixed "fixed").or <|
  ((t.declaredSymbols.find? fun declared => t.currentScope.all fun entry => entry.1 ≠ declared).map
    ("declared symbol is missing from the current scope: " ++ ·)).or <|
  if t.savedSharedAltStackElements.length ≠ t.savedAltStackCombinedStackSize.length ∨
      t.savedSharedAltStackElements.length ≠ t.savedCombinedStackSize.length then
    some "incomplete alternative-stack snapshot metadata"
  else if t.bindSymbol.length < t.activeBindSymbolStart ∨
      t.currentScope.length < t.activeScopeEntryStart then
    some "private-call frame boundary is outside symbol metadata"
  else none

end ScopeTable

/-- The operations on the main stack and the lists of a table.  The code generator also writes the lists of
new and of kept symbols itself. -/
inductive TableOp
  | push (element : StackElement)
  | pop
  | pick (offsetFromTop : ℤ)
  | roll (offsetFromTop : ℤ)
  | dropAt (offsetFromTop : ℤ)
  | erase (index : ℤ)
  | swap (index1 index2 : ℤ)
  | rename (oldName newName : String)
  | renameAtPosition (position : ℤ) (newName : String)
  | defineSymbol (name type modifiers : String)
  | defineArray (name elementType : String) (size : ℕ) (isFixedSize : Bool)
  | importExternalArrayView (name elementType : String) (size : ℕ) (isFixedSize : Bool)
  | defineCompoundType (compoundInfo : CompoundTypeInfo)
  | markCompoundTypeSplitted (name : String)
  | markSymbolInitialized (name : String)
  | removeSymbol (name : String)
  | renameSymbolEntry (oldName newName : String)
  | renameArraySymbol (oldName newName : String)
  | renameCompoundSymbol (oldName newName : String)
  | writeNewSymbol (names : List String)
  | writeKeepSymbol (names : List String)
  | addBindSymbol (bindPair : String × String)
  | removeBindSymbol (paramName : String)
  | clearBindSymbols
  | beginBindSymbolFrame
  | restoreBindSymbolFrame (start : ℕ)
  | beginScopeEntryFrame
  | restoreScopeEntryFrame (start : ℕ)

def TableOp.apply (t : ScopeTable) : TableOp → Thrown ScopeTable
  | .push element => t.push element
  | .pop => (none, t.pop.2)
  | .pick offset => t.pick offset
  | .roll offset => t.roll offset
  | .dropAt offset => t.dropAt offset
  | .erase index => t.erase index
  | .swap index1 index2 => t.swap index1 index2
  | .rename oldName newName => (none, (t.rename oldName newName).2)
  | .renameAtPosition position newName => (none, (t.renameAtPosition position newName).2)
  | .defineSymbol name type modifiers => (none, (t.defineSymbol name type modifiers).2)
  | .defineArray name elementType size isFixedSize =>
      (none, (t.defineArray name elementType size isFixedSize).2)
  | .importExternalArrayView name elementType size isFixedSize =>
      (none, (t.importExternalArrayView name elementType size isFixedSize).2)
  | .defineCompoundType compoundInfo => (none, (t.defineCompoundType compoundInfo).2)
  | .markCompoundTypeSplitted name => (none, t.markCompoundTypeSplitted name)
  | .markSymbolInitialized name => (none, t.markSymbolInitialized name)
  | .removeSymbol name => (none, t.removeSymbol name)
  | .renameSymbolEntry oldName newName =>
      (none, (t.renameWith SymbolTable.renameSymbolEntry oldName newName).2)
  | .renameArraySymbol oldName newName =>
      (none, (t.renameWith SymbolTable.renameArraySymbol oldName newName).2)
  | .renameCompoundSymbol oldName newName =>
      (none, (t.renameWith SymbolTable.renameCompoundSymbol oldName newName).2)
  | .writeNewSymbol names => (none, { t with newSymbol := names })
  | .writeKeepSymbol names => (none, { t with keepSymbol := names })
  | .addBindSymbol bindPair => (none, { t with bindSymbol := t.bindSymbol ++ [bindPair] })
  | .removeBindSymbol paramName => (none, t.removeBindSymbol paramName)
  | .clearBindSymbols => (none, { t with bindSymbol := [], activeBindSymbolStart := 0 })
  | .beginBindSymbolFrame => (none, t.beginBindSymbolFrame.2)
  | .restoreBindSymbolFrame start =>
      (none, { t with activeBindSymbolStart := min start t.bindSymbol.length })
  | .beginScopeEntryFrame => (none, t.beginScopeEntryFrame.2)
  | .restoreScopeEntryFrame start =>
      (none, { t with activeScopeEntryStart := min start t.currentScope.length })

/-- What the operations on the main stack and the lists leave alone. -/
structure ScopeTable.Shares (t t' : ScopeTable) : Prop where
  altStackPtr : t'.altStackPtr = t.altStackPtr
  fixed : t'.fixed = t.fixed
  elements : t'.savedSharedAltStackElements = t.savedSharedAltStackElements
  altSizes : t'.savedAltStackCombinedStackSize = t.savedAltStackCombinedStackSize
  sizes : t'.savedCombinedStackSize = t.savedCombinedStackSize

theorem ScopeTable.Shares.refl (t : ScopeTable) : t.Shares t := ⟨rfl, rfl, rfl, rfl, rfl⟩

/-- **The operations on the main stack and the lists leave the rest of a table alone.** -/
theorem TableOp.apply_shares (t : ScopeTable) (op : TableOp) : t.Shares (op.apply t).2 := by
  have hperform : ∀ offset remove name, t.Shares (t.performStackOperation offset remove name).2 := by
    intro offset remove name
    unfold ScopeTable.performStackOperation
    split
    · exact .refl t
    · exact .refl t
    · split_ifs <;> exact ⟨rfl, rfl, rfl, rfl, rfl⟩
  cases op with
  | pop =>
      simp only [TableOp.apply, ScopeTable.pop]
      split <;> exact ⟨rfl, rfl, rfl, rfl, rfl⟩
  | pick offset => exact hperform offset false _
  | roll offset => exact hperform offset true _
  | dropAt offset =>
      simp only [TableOp.apply, ScopeTable.dropAt]
      split <;> exact ⟨rfl, rfl, rfl, rfl, rfl⟩
  | renameAtPosition position newName =>
      simp only [TableOp.apply, ScopeTable.renameAtPosition]
      split_ifs <;> exact ⟨rfl, rfl, rfl, rfl, rfl⟩
  | defineSymbol name type modifiers =>
      simp only [TableOp.apply, ScopeTable.defineSymbol]
      split_ifs <;> exact ⟨rfl, rfl, rfl, rfl, rfl⟩
  | defineArray name elementType size isFixedSize =>
      simp only [TableOp.apply, ScopeTable.defineArray]
      split_ifs <;> exact ⟨rfl, rfl, rfl, rfl, rfl⟩
  | importExternalArrayView name elementType size isFixedSize =>
      simp only [TableOp.apply, ScopeTable.importExternalArrayView]
      split
      · split <;> exact .refl t
      · exact ⟨rfl, rfl, rfl, rfl, rfl⟩
  | defineCompoundType compoundInfo =>
      simp only [TableOp.apply, ScopeTable.defineCompoundType]
      split_ifs <;> exact ⟨rfl, rfl, rfl, rfl, rfl⟩
  | _ => exact ⟨rfl, rfl, rfl, rfl, rfl⟩

/-! ### Scopes -/

structure ControlFlowStateSnapshot where
  symbolTable : ScopeTable
  altStack : List StackElement
  mainCombinedSize : ℤ
  altCombinedSize : ℤ
  lexicalDepth : ℕ
  deriving DecidableEq, Repr

/-- `Scope`: the tables, the innermost enclosing one first, and the alt stacks they point to.  The places
from `altStackCount` on are free. -/
structure ScopeState where
  currentSymtab : ScopeTable
  symtabScopes : List ScopeTable
  altStacks : ℕ → RootStack
  altStackCount : ℕ

namespace ScopeState

def fresh : ScopeState := ⟨{ altStackPtr := 0 }, [], fun _ => {}, 1⟩

/-- `m_symtabScopes.size()`. -/
def depth (s : ScopeState) : ℕ := s.symtabScopes.length

/-- `*m_altStackPtr`. -/
def altStack (s : ScopeState) : RootStack := s.altStacks s.currentSymtab.altStackPtr

/-- The alt stack of the current table with other contents. -/
def setAltStack (s : ScopeState) (alt : RootStack) : ScopeState :=
  { s with altStacks := Function.update s.altStacks s.currentSymtab.altStackPtr alt }

/-- The current table with other contents. -/
def setTable (s : ScopeState) (t : ScopeTable) : ScopeState := { s with currentSymtab := t }

def onTable (s : ScopeState) (f : ScopeTable → Thrown ScopeTable) : Thrown ScopeState :=
  let (error, t) := f s.currentSymtab
  (error, s.setTable t)

def onAltStack (s : ScopeState) (f : RootStack → Thrown RootStack) : Thrown ScopeState :=
  let (error, alt) := f s.altStack
  (error, s.setAltStack alt)

/-! ### The alt stack -/

/-- What the loops between the stacks leave behind. -/
def settle (s : ScopeState) (main alt : RootStack) : ScopeState :=
  (s.setTable { s.currentSymtab with main := main }).setAltStack alt

/-- `SymbolTable::setAlt` with a name. -/
def setAltUntil (s : ScopeState) (symbolName : String) : Option String × ℕ × ScopeState :=
  let main := s.currentSymtab.main
  let (error, num, main, alt) := RootStack.transfer (fun element => element.name == symbolName)
    main.content.length main s.altStack
  (error, num, s.settle main alt)

/-- `SymbolTable::setAlt` with a number. -/
def setAltCount (s : ScopeState) (moveElementNum : ℤ) : Thrown ScopeState :=
  let (error, _, main, alt) := RootStack.transfer (fun _ => false) moveElementNum.toNat
    s.currentSymtab.main s.altStack
  (error, s.settle main alt)

/-- `SymbolTable::setMain` with a name. -/
def setMain (s : ScopeState) (symbolName : String) : Option String × ℕ × ScopeState :=
  let alt := s.altStack
  let (error, num, alt, main) := RootStack.transfer (fun element => element.name == symbolName)
    alt.content.length alt s.currentSymtab.main
  (error, num, s.settle main alt)

/-- `SymbolTable::setMain` with a number. -/
def setMainCount (s : ScopeState) (moveElementNum : ℤ) : Thrown ScopeState :=
  let (error, _, alt, main) := RootStack.transfer (fun _ => false) moveElementNum.toNat
    s.altStack s.currentSymtab.main
  (error, s.settle main alt)

/-- `Scope::setAlt`: with `moveOnlyMatch` the slot of the name alone is moved. -/
def setAlt (s : ScopeState) (symbolName : String) (moveOnlyMatch : Bool) :
    Option String × ℕ × ScopeState :=
  if moveOnlyMatch then
    match s.currentSymtab.picture.getPos symbolName with
    | none =>
        (some ("cannot move symbol to alt stack: symbol not found: " ++ symbolName), 0, s)
    | some num =>
        match s.currentSymtab.roll num with
        | (some error, t) => (some error, 0, s.setTable t)
        | (none, t) =>
            match t.pop with
            | (none, t) =>
                (some "cannot move symbol to alt stack: main stack is empty", 0, s.setTable t)
            | (some top, t) =>
                let (error, s) := (s.setTable t).onAltStack (·.push top)
                (error, num, s)
  else s.setAltUntil symbolName

/-- `m_altStackPtr->moveTopToStack(*m_stackPtr, true)`: the counters are changed before the elements. -/
def moveTopToAlt (s : ScopeState) : Thrown ScopeState :=
  let main := s.currentSymtab.main
  match main.content with
  | [] => (none, s)
  | top :: _ =>
      let size := main.combinedStackSize - top.getMemoryUsage
      match s.altStack.push top with
      | (some error, _) =>
          (some error, s.setTable { s.currentSymtab with main := main.setCombinedStackSize size })
      | (none, alt) => (none, s.settle main.pop alt)

def clearSharedAltStack (s : ScopeState) : Thrown ScopeState := s.onAltStack (·.replaceStackContent [])

def saveSharedAltStack (s : ScopeState) : ScopeState :=
  let t := s.currentSymtab
  s.setTable { t with
    savedSharedAltStackElements := s.altStack.content :: t.savedSharedAltStackElements
    savedAltStackCombinedStackSize := s.altStack.combinedStackSize :: t.savedAltStackCombinedStackSize
    savedCombinedStackSize := t.main.combinedStackSize :: t.savedCombinedStackSize }

def restoreSharedAltStack (s : ScopeState) : Thrown ScopeState :=
  let t := s.currentSymtab
  match t.savedSharedAltStackElements, t.savedAltStackCombinedStackSize, t.savedCombinedStackSize with
  | elements :: savedElements, altSize :: savedAltSizes, mainSize :: savedSizes =>
      match s.altStack.replaceStackContent elements with
      | (some error, alt) => (some error, s.setAltStack alt)
      | (none, alt) =>
          (none, (s.setAltStack (alt.setCombinedStackSize altSize)).setTable { t with
            main := t.main.setCombinedStackSize mainSize
            savedSharedAltStackElements := savedElements
            savedAltStackCombinedStackSize := savedAltSizes
            savedCombinedStackSize := savedSizes })
  | _, _, _ => (some "cannot restore alt stack: no complete snapshot is available", s)

def renameEntriesByPrefix (s : ScopeState) (oldPrefix newPrefix : String) : ScopeState :=
  if oldPrefix = newPrefix ∨ oldPrefix = "" then s
  else
    (s.setAltStack (s.altStack.renameByPrefix oldPrefix newPrefix)).setTable
      (s.currentSymtab.renameEntriesByPrefix oldPrefix newPrefix)

/-! ### Lexical scopes -/

def clean (s : ScopeState) : Thrown ScopeState :=
  let s := { s.setTable s.currentSymtab.resetFunctionState with symtabScopes := [] }
  ((s.currentSymtab.validateState s.altStack).map
    ("invalid symbol-table state after function reset: " ++ ·), s)

/-- `Scope::enterScope`: the table is saved before its lists are cleared. -/
def enterScope (s : ScopeState) : Thrown ScopeState :=
  match s.currentSymtab.copy with
  | .error error => (some error, s)
  | .ok saved =>
      (none, { s with
        currentSymtab := { s.currentSymtab with newSymbol := [], declaredSymbols := [] }
        symtabScopes := saved :: s.symtabScopes })

/-- `Scope::exitScope`, with the table that is left. -/
def exitScope (s : ScopeState) : Except String ScopeTable × ScopeState :=
  match s.currentSymtab.copy with
  | .error error => (.error error, s)
  | .ok currentSymtab =>
      match s.symtabScopes with
      | willIt :: rest =>
          match willIt.copy with
          | .error error => (.error error, s)
          | .ok willIt =>
              match s.currentSymtab.assign willIt with
              | (some error, t) => (.error error, s.setTable t)
              | (none, t) => (.ok currentSymtab, { s.setTable t with symtabScopes := rest })
      | [] =>
          -- a table made anew has an alt stack of its own
          match s.currentSymtab.assign { altStackPtr := s.altStackCount } with
          | (some error, t) => (.error error, s.setTable t)
          | (none, t) =>
              (.ok currentSymtab, { s.setTable t with
                altStacks := Function.update s.altStacks s.altStackCount {}
                altStackCount := s.altStackCount + 1 })

def popScopeStack (s : ScopeState) : Bool × ScopeState :=
  (!s.symtabScopes.isEmpty, { s with symtabScopes := s.symtabScopes.tail })

def replaceCurrentSymtab (s : ScopeState) (symbolTable : ScopeTable) : Thrown ScopeState :=
  s.onTable (·.assign symbolTable)

def captureControlFlowState (s : ScopeState) : Except String ControlFlowStateSnapshot :=
  match s.currentSymtab.copy with
  | .error error => .error error
  | .ok symbolTable =>
      .ok { symbolTable := symbolTable
            altStack := s.altStack.content
            altCombinedSize := s.altStack.combinedStackSize
            mainCombinedSize := s.currentSymtab.main.combinedStackSize
            lexicalDepth := s.depth }

def captureControlFlowStateAndExitScope (s : ScopeState) :
    Except String ControlFlowStateSnapshot × ScopeState :=
  match s.captureControlFlowState with
  | .error error => (.error error, s)
  | .ok snapshot =>
      match s.exitScope with
      | (.error error, s) => (.error error, s)
      | (.ok left, s) =>
          match snapshot.symbolTable.assign left with
          | (some error, _) => (.error error, s)
          | (none, symbolTable) =>
              (.ok { snapshot with symbolTable := symbolTable, lexicalDepth := s.depth }, s)

def restoreControlFlowState (s : ScopeState) (snapshot : ControlFlowStateSnapshot) :
    Thrown ScopeState :=
  if s.depth ≠ snapshot.lexicalDepth then
    (some ("Cannot restore control-flow state at lexical depth " ++ toString s.depth ++
      "; expected " ++ toString snapshot.lexicalDepth), s)
  else
    (s.onTable (·.assign snapshot.symbolTable)).andThen fun s =>
      let t := s.currentSymtab
      let s := s.setTable { t with main := t.main.setCombinedStackSize snapshot.mainCombinedSize }
      (s.onAltStack (·.replaceStackContent snapshot.altStack)).andThen fun s =>
        (none, s.setAltStack (s.altStack.setCombinedStackSize snapshot.altCombinedSize))

end ScopeState

/-! ### Operations on a scope -/

/-- The operations on a scope.  Those that take a snapshot name one of those captured so far, the latest
first. -/
inductive ScopeOp
  | table (op : TableOp)
  | setFixed (element : StackElement)
  | removeFixed (name : String)
  | setAlt (symbolName : String) (moveOnlyMatch : Bool)
  | setAltCount (moveElementNum : ℤ)
  | setMain (symbolName : String)
  | setMainCount (moveElementNum : ℤ)
  | pushAlt (element : StackElement)
  | popAlt
  | eraseAlt (index : ℤ)
  | moveTopToAlt
  | clearSharedAltStack
  | saveSharedAltStack
  | restoreSharedAltStack
  | renameEntriesByPrefix (oldPrefix newPrefix : String)
  | clean
  | enterScope
  | exitScope
  | popScopeStack
  | captureControlFlowState
  | captureControlFlowStateAndExitScope
  | restoreControlFlowState (index : ℕ)
  | replaceCurrentSymtab (index : ℕ)

/-- A scope and the snapshots that were captured of it. -/
structure Session where
  scope : ScopeState
  snapshots : List ControlFlowStateSnapshot

namespace Session

def fresh : Session := ⟨.fresh, []⟩

def onScope (s : Session) (result : Thrown ScopeState) : Thrown Session :=
  (result.1, { s with scope := result.2 })

/-- An operation with a snapshot; where there is none of that index nothing is done. -/
def withSnapshot (s : Session) (index : ℕ)
    (f : ControlFlowStateSnapshot → Thrown ScopeState) : Thrown Session :=
  match s.snapshots[index]? with
  | some snapshot => s.onScope (f snapshot)
  | none => (none, s)

def keep (s : Session) (result : Except String ControlFlowStateSnapshot × ScopeState) :
    Thrown Session :=
  match result with
  | (.error error, scope) => (some error, { s with scope := scope })
  | (.ok snapshot, scope) => (none, ⟨scope, snapshot :: s.snapshots⟩)

def step (s : Session) : ScopeOp → Thrown Session
  | .table op => s.onScope (s.scope.onTable op.apply)
  | .setFixed element => s.onScope (s.scope.onTable (·.setFixed element))
  | .removeFixed name => s.onScope (s.scope.onTable (·.removeFixed name))
  | .setAlt symbolName moveOnlyMatch =>
      let (error, _, scope) := s.scope.setAlt symbolName moveOnlyMatch
      s.onScope (error, scope)
  | .setAltCount moveElementNum => s.onScope (s.scope.setAltCount moveElementNum)
  | .setMain symbolName =>
      let (error, _, scope) := s.scope.setMain symbolName
      s.onScope (error, scope)
  | .setMainCount moveElementNum => s.onScope (s.scope.setMainCount moveElementNum)
  | .pushAlt element => s.onScope (s.scope.onAltStack (·.push element))
  | .popAlt => s.onScope (s.scope.onAltStack fun alt => (none, alt.pop))
  | .eraseAlt index => s.onScope (s.scope.onAltStack (·.erase index))
  | .moveTopToAlt => s.onScope s.scope.moveTopToAlt
  | .clearSharedAltStack => s.onScope s.scope.clearSharedAltStack
  | .saveSharedAltStack => s.onScope (none, s.scope.saveSharedAltStack)
  | .restoreSharedAltStack => s.onScope s.scope.restoreSharedAltStack
  | .renameEntriesByPrefix oldPrefix newPrefix =>
      s.onScope (none, s.scope.renameEntriesByPrefix oldPrefix newPrefix)
  | .clean => s.onScope s.scope.clean
  | .enterScope => s.onScope s.scope.enterScope
  | .exitScope =>
      match s.scope.exitScope with
      | (.error error, scope) => s.onScope (some error, scope)
      | (.ok _, scope) => s.onScope (none, scope)
  | .popScopeStack => s.onScope (none, s.scope.popScopeStack.2)
  | .captureControlFlowState => s.keep (s.scope.captureControlFlowState, s.scope)
  | .captureControlFlowStateAndExitScope => s.keep s.scope.captureControlFlowStateAndExitScope
  | .restoreControlFlowState index => s.withSnapshot index s.scope.restoreControlFlowState
  | .replaceCurrentSymtab index =>
      s.withSnapshot index fun snapshot => s.scope.replaceCurrentSymtab snapshot.symbolTable

/-- The session after an operation, whether or not it threw. -/
def next (s : Session) (op : ScopeOp) : Session := (s.step op).2

def run (s : Session) (ops : List ScopeOp) : Session := ops.foldl next s

end Session

end AtomicProof
