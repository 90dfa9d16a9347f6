/-
Moves of one slot between the main and the alt stack.

`SetAlt` and `SetMain` in `src/src/bytecode/bytecode_builtin_function.h` and their lowering in
`src/src/compiler/ast_to_bytecode_visitor.cpp`, `moveAltElementToMain` and `preserveReturnSymbol` in
the latter, move one slot.  A slot in the middle of the alt stack is reached by moving everything
above it to the main stack and back.  The picture of the stacks is moved along in separate code,
under the memory limit of `OpStack`.

Main definitions:

* `pushSlot` — `OpStack::push` with its limit;
* `moveSlot` — one slot put on top of a stack;
* `NamedStacks`, `Depicts` — two stacks of named values, and a picture of them;
* `lowerSetAlt`, `lowerSetMain`, `moveAltElementToMain`, `preserveReturnSymbol` — the four moves.

Main results:

* `takes_shuttle` — the instructions reach a slot of the alt stack and restore what is above it;
* `single_slot_moves` — **each of the four moves its slot, in the code and in the picture, and no
  other**.
-/

import AtomicProof.EmitText
import AtomicProof.SymbolTable
import Mathlib.Algebra.BigOperators.Group.List.Basic
import Mathlib.Data.List.Perm.Basic

set_option autoImplicit false

namespace AtomicProof

/-! ### The memory of a symbolic stack -/

/-- `DEFAULT_MAX_STACK_SIZE`. -/
def maxStackSize : ℕ := 1000000

/-- `getMemoryUsage`, with `ELEMENT_OVERHEAD`. -/
def StackElement.getMemoryUsage (element : StackElement) : ℕ := 32 + element.data.utf8ByteSize

/-- `m_combinedStackSize`. -/
def combinedStackSize (slots : List StackElement) : ℕ :=
  (slots.map StackElement.getMemoryUsage).sum

/-- What `checkStackLimit` throws. -/
def stackOverflow : String := "Stack operation would exceed maximum stack size"

/-- `OpStack::push`. -/
def pushSlot (slots : List StackElement) (element : StackElement) :
    Except String (List StackElement) :=
  if maxStackSize < combinedStackSize slots + element.getMemoryUsage then .error stackOverflow
  else .ok (element :: slots)

@[simp] theorem combinedStackSize_nil : combinedStackSize [] = 0 := rfl

@[simp] theorem combinedStackSize_cons (element : StackElement) (slots : List StackElement) :
    combinedStackSize (element :: slots) = element.getMemoryUsage + combinedStackSize slots := by
  simp [combinedStackSize]

@[simp] theorem combinedStackSize_append (slots slots' : List StackElement) :
    combinedStackSize (slots ++ slots') = combinedStackSize slots + combinedStackSize slots' := by
  simp [combinedStackSize]

@[simp] theorem combinedStackSize_reverse (slots : List StackElement) :
    combinedStackSize slots.reverse = combinedStackSize slots := by
  simp [combinedStackSize, List.sum_reverse]

theorem combinedStackSize_perm {slots slots' : List StackElement} (h : slots.Perm slots') :
    combinedStackSize slots = combinedStackSize slots' :=
  (h.map _).sum_eq

variable {pos : ℕ} {st' : SymbolTable} {turn : SymbolTable → Except String SymbolTable}
  {target : StackElement}

theorem combinedStackSize_eraseIdx {slots : List StackElement} (h : pos < slots.length) :
    slots[pos].getMemoryUsage + combinedStackSize (slots.eraseIdx pos) = combinedStackSize slots := by
  rw [← combinedStackSize_cons]
  exact combinedStackSize_perm (List.getElem_cons_eraseIdx_perm h)

theorem length_le_maxSlots {slots : List StackElement}
    (h : combinedStackSize slots ≤ maxStackSize) : slots.length ≤ maxSlots := by
  have hle : 32 * slots.length ≤ combinedStackSize slots := by
    clear h
    induction slots with
    | nil => simp
    | cons element slots ih =>
        simp only [List.length_cons, combinedStackSize_cons, StackElement.getMemoryUsage]
        omega
  simp only [maxStackSize, maxSlots] at *
  omega

theorem pushSlot_of_le {slots : List StackElement} {element : StackElement}
    (h : combinedStackSize (element :: slots) ≤ maxStackSize) :
    pushSlot slots element = .ok (element :: slots) := by
  rw [combinedStackSize_cons] at h
  rw [pushSlot, if_neg (by omega)]

/-! ### One slot of two stacks -/

inductive Side where
  | main
  | alt
  deriving DecidableEq, Repr

section Moves

variable {α β : Type}

def stackAt (pair : List α × List α) : Side → List α
  | .main => pair.1
  | .alt => pair.2

def setStack (pair : List α × List α) : Side → List α → List α × List α
  | .main, stack => (stack, pair.2)
  | .alt, stack => (pair.1, stack)

/-- **The slot at `pos` of the stack `source` is taken out and put on top of the stack `target`; all
others stay where they are.** -/
def moveSlot (source target : Side) (pos : ℕ) (pair : List α × List α) :
    Option (List α × List α) :=
  (stackAt pair source)[pos]?.map fun slot =>
    let taken := setStack pair source ((stackAt pair source).eraseIdx pos)
    setStack taken target (slot :: stackAt taken target)

theorem moveSlot_map (f : α → β) (source target : Side) (pos : ℕ) (pair : List α × List α) :
    moveSlot source target pos (pair.map (List.map f) (List.map f)) =
      (moveSlot source target pos pair).map (Prod.map (List.map f) (List.map f)) := by
  cases source <;> cases target <;>
    simp only [moveSlot, stackAt, setStack, Prod.map, List.getElem?_map, List.eraseIdx_map] <;>
    rw [Option.map_map, Option.map_map] <;> congr 1

end Moves

/-! ### Named values -/

/-- Two stacks of named values, from the top down. -/
abbrev NamedStacks := List (String × Bytes) × List (String × Bytes)

/-- The values: the two stacks of the machine. -/
def NamedStacks.values (slots : NamedStacks) : Stack × Stack :=
  slots.map (List.map Prod.snd) (List.map Prod.snd)

/-- The names of the slots of the picture. -/
def SymbolTable.names (st : SymbolTable) : List String × List String :=
  (st.main.map StackElement.name, st.alt.map StackElement.name)

/-- A picture of two stacks of named values: it has their names in their places, within the limit
of memory. -/
structure Depicts (st : SymbolTable) (slots : NamedStacks) : Prop where
  names : st.names = slots.map (List.map Prod.fst) (List.map Prod.fst)
  main_size : combinedStackSize st.main ≤ maxStackSize
  alt_size : combinedStackSize st.alt ≤ maxStackSize

namespace Depicts

variable {st : SymbolTable} {slots : NamedStacks}

theorem main_length (h : Depicts st slots) : st.main.length = slots.1.length := by
  simpa [SymbolTable.names] using congrArg (fun names => names.1.length) h.names

theorem alt_length (h : Depicts st slots) : st.alt.length = slots.2.length := by
  simpa [SymbolTable.names] using congrArg (fun names => names.2.length) h.names

theorem fits (h : Depicts st slots) : Matches st slots.values.1 slots.values.2 where
  main_length := by simp [NamedStacks.values, h.main_length]
  alt_length := by simp [NamedStacks.values, h.alt_length]
  main_bound := length_le_maxSlots h.main_size
  alt_bound := length_le_maxSlots h.alt_size

end Depicts

/-- Code and a new picture make one move, and no other. -/
def MovesOnly (env : ScriptEnv) (slots : NamedStacks) (source target : Side) (pos : ℕ)
    (code : List String) (st' : SymbolTable) : Prop :=
  ∃ slots' : NamedStacks, moveSlot source target pos slots = some slots' ∧
    Takes env code slots.values slots'.values ∧ Depicts st' slots'

/-- Names and values that make the same move make it together. -/
theorem movesOnly_of_moveSlot {env : ScriptEnv} {st : SymbolTable} {slots : NamedStacks}
    {source target : Side} {code : List String} (h : Depicts st slots)
    (hnames : moveSlot source target pos st.names = some st'.names)
    (hcode : ∀ pair pair' : Stack × Stack, pair.1.length ≤ maxSlots →
      moveSlot source target pos pair = some pair' → Takes env code pair pair')
    (hmain : combinedStackSize st'.main ≤ maxStackSize)
    (halt : combinedStackSize st'.alt ≤ maxStackSize) :
    MovesOnly env slots source target pos code st' := by
  rw [h.names, moveSlot_map] at hnames
  obtain ⟨slots', hslots', hnames'⟩ := Option.map_eq_some_iff.1 hnames
  refine ⟨slots', hslots', hcode _ _ ?_ ?_, ⟨hnames'.symm, hmain, halt⟩⟩
  · rw [h.fits.main_length]
    exact h.fits.main_bound
  · rw [NamedStacks.values, moveSlot_map, hslots']
    rfl

/-! ### The instructions of a shuttle -/

/-- `OP_FROMALTSTACK` for every slot down to `pos`, and `OP_SWAP` `OP_TOALTSTACK` for every slot
above it. -/
def shuttleCode (pos : ℕ) : List String :=
  List.replicate (pos + 1) (opcodeToHex .opFromaltstack) ++
    (List.replicate pos [opcodeToHex .opSwap, opcodeToHex .opToaltstack]).flatten

variable {env : ScriptEnv}

theorem takes_replicate_fromAlt (below : Stack) :
    ∀ moved main : Stack,
      Takes env (List.replicate moved.length (opcodeToHex .opFromaltstack)) (main, moved ++ below)
        (moved.reverse ++ main, below) := by
  intro moved
  induction moved with
  | nil => exact fun main => Takes.refl _
  | cons x moved ih =>
      intro main
      have hrest := (@takes_fromaltstack env x main (moved ++ below)).trans (ih (x :: main))
      rw [List.reverse_cons, List.append_assoc]
      exact hrest

theorem takes_replicate_putBack (x : Bytes) (main : Stack) :
    ∀ moved alt : Stack,
      Takes env (List.replicate moved.length
          [opcodeToHex .opSwap, opcodeToHex .opToaltstack]).flatten
        (x :: (moved ++ main), alt) (x :: main, moved.reverse ++ alt) := by
  intro moved
  induction moved with
  | nil => exact fun alt => Takes.refl _
  | cons y moved ih =>
      intro alt
      have hswap : Takes env (emitOp .opSwap) (x :: y :: (moved ++ main), alt)
          (y :: x :: (moved ++ main), alt) := takes_op alt (by decide) rfl rfl
      have hturn := (hswap.trans (takes_toaltstack y (x :: (moved ++ main)) alt)).trans
        (ih (y :: alt))
      rw [List.reverse_cons, List.append_assoc]
      exact hturn

theorem eq_take_append_cons {α : Type} {stack : List α} {x : α}
    (h : stack[pos]? = some x) : stack = stack.take pos ++ x :: stack.drop (pos + 1) := by
  obtain ⟨hlt, rfl⟩ := List.getElem?_eq_some_iff.1 h
  rw [List.getElem_cons_drop hlt, List.take_append_drop]

/-- **The instructions of a shuttle bring a slot of the alt stack to the top of the main stack, and
put back what was above it.** -/
theorem takes_shuttle {alt : Stack} {x : Bytes} (h : alt[pos]? = some x) (main : Stack) :
    Takes env (shuttleCode pos) (main, alt) (x :: main, alt.eraseIdx pos) := by
  have hlen : (alt.take pos).length = pos := by
    have hlt := (List.getElem?_eq_some_iff.1 h).1
    rw [List.length_take]
    omega
  have hfrom := @takes_replicate_fromAlt env (List.drop (pos + 1) alt) (alt.take pos ++ [x]) main
  have hback := @takes_replicate_putBack env x main (alt.take pos).reverse
    (List.drop (pos + 1) alt)
  rw [List.append_assoc, List.singleton_append, ← eq_take_append_cons h, List.length_append, hlen,
    List.reverse_append] at hfrom
  rw [List.length_reverse, hlen, List.reverse_reverse, ← List.eraseIdx_eq_take_drop_succ] at hback
  exact hfrom.trans hback

/-! ### The moves of the code generator -/

def rollToTopHex (pos : ℕ) : String :=
  if pos = 0 then ""
  else if pos = 1 then opcodeToHex .opSwap
  else if pos = 2 then opcodeToHex .opRot
  else numberToScriptHex pos ++ opcodeToHex .opRoll

namespace SymbolTable

/-- `getPhysicalPos` on the alt stack. -/
def getPhysicalAltPos (st : SymbolTable) (name : String) : Option ℕ := posOf name st.alt

/-- `m_altStackPtr->moveTopToStack(*m_stackPtr, true)`, with the limit of the alt stack. -/
def moveTopToStack (st : SymbolTable) : Except String SymbolTable :=
  match st.main with
  | [] => .ok st
  | element :: rest => (pushSlot st.alt element).map fun alt => { st with main := rest, alt }

/-- `setMain` with a number of slots. -/
def setMainCount : ℕ → SymbolTable → Except String SymbolTable
  | 0, st => .ok st
  | moveElementNum + 1, st =>
      match st.alt with
      | [] => .ok st
      | element :: rest =>
          (pushSlot st.main element).bind fun main =>
            setMainCount moveElementNum { st with main, alt := rest }

/-- `m_stackPtr->swap(0, 1)`. -/
def swapTop (st : SymbolTable) : Except String SymbolTable :=
  match st.main with
  | x :: y :: rest => .ok { st with main := y :: x :: rest }
  | _ => .error "Invalid argument - indices out of range."

end SymbolTable

/-- What the code generator leaves: the instructions it emitted and the new picture. -/
abbrev Emitted := Except String (List String × SymbolTable)

/-- The loop that puts the slots above the target back, with what one turn does to the picture
before its top is moved. -/
def putBack (turn : SymbolTable → Except String SymbolTable) : ℕ → SymbolTable → Emitted
  | 0, st => .ok ([], st)
  | count + 1, st =>
      ((turn st).bind SymbolTable.moveTopToStack).bind fun st' =>
        (putBack turn count st').map fun result =>
          (emitRoll 1 ++ emitOp .opToaltstack ++ result.1, result.2)

/-- Both loops that bring a slot of the alt stack to the top of the main stack. -/
def shuttle (turn : SymbolTable → Except String SymbolTable) (st : SymbolTable) (position : ℕ) :
    Emitted :=
  (st.setMainCount (position + 1)).bind fun st' =>
    (putBack turn position st').map fun result =>
      (List.replicate (position + 1) (opcodeToHex .opFromaltstack) ++ result.1, result.2)

/-- `moveAltElementToMain`; the result says whether there is such a slot. -/
def moveAltElementToMain (st : SymbolTable) (name : String) (resolveBinding : Bool) :
    Except String (Bool × List String × SymbolTable) :=
  match if resolveBinding then st.getAltPos name else st.getPhysicalAltPos name with
  | none => .ok (false, [], st)
  | some position => (shuttle (·.roll 1) st position).map fun result => (true, result)

/-- The text of `SetAlt`. -/
def setAltHex (st : SymbolTable) (stackArgs : List StackElement) : Except String String :=
  match stackArgs.head? with
  | none => .error "SetAlt function execution failed: no arguments provided, expected 1 argument"
  | some arg =>
      match st.getPos arg.name with
      | none =>
          .error ("SetAlt function execution failed: cannot find variable '" ++ arg.name ++
            "' in symbol table")
      | some position =>
          if position = 0 then .ok (opcodeToHex .opToaltstack)
          else if position = 1 then .ok (opcodeToHex .opSwap ++ opcodeToHex .opToaltstack)
          else .ok (rollToTopHex position ++ opcodeToHex .opToaltstack)

/-- The text of `SetMain`. -/
def setMainHex (st : SymbolTable) (stackArgs : List StackElement) : Except String String :=
  match stackArgs.head? with
  | none => .error "SetMain function execution failed: no arguments provided, expected 1 argument"
  | some arg =>
      match st.getAltPos arg.name with
      | none =>
          .error ("SetMain function execution failed: cannot find variable '" ++ arg.name ++
            "' in alternate stack symbol table")
      | some position =>
          .ok (String.join (List.replicate (position + 1) (opcodeToHex .opFromaltstack)) ++
            String.join (List.replicate position
              (opcodeToHex .opSwap ++ opcodeToHex .opToaltstack)))

/-- The lowering of a call of `SetAlt`: the picture is moved first, then the text is emitted. -/
def lowerSetAlt (st : SymbolTable) (processedArgs : List StackElement) : Emitted :=
  (setAltHex st processedArgs).bind fun opcodeHex =>
    match (processedArgs.head?).bind fun arg => st.getPos arg.name with
    | none => .ok (emitText opcodeHex, st)
    | some position =>
        ((if 0 < position then st.roll position else .ok st).bind SymbolTable.moveTopToStack).map
          fun st' => (emitText opcodeHex, st')

/-- The lowering of a call of `SetMain`. -/
def lowerSetMain (st : SymbolTable) (processedArgs : List StackElement) : Emitted :=
  (setMainHex st processedArgs).bind fun opcodeHex =>
    match (processedArgs.head?).bind fun arg => st.getAltPos arg.name with
    | none => .ok (emitText opcodeHex, st)
    | some position =>
        match st.alt[position]? with
        | none => .error "Invalid argument - index out of range."
        | some target =>
            (pushSlot st.main target).map fun main =>
              (emitText opcodeHex, { st with main, alt := st.alt.eraseIdx position })

/-! ### A returned symbol -/

def declaredSymbolType (state : SymbolTable) (name fallback : String) : String :=
  match state.scopeEntry name with
  | none => fallback
  | some info => if info.type = "" then fallback else info.type

/-- The symbols a `return` works on: the picture, the fixed area from the top down and the returned
values of the active struct returns, the innermost first. -/
structure ReturnState where
  table : SymbolTable
  fixed : List StackElement
  returnedValues : List (List String)
  deriving DecidableEq, Repr

def setTypeAt (slots : List StackElement) (pos : ℕ) (type : String) : List StackElement :=
  slots.modify pos fun element => { element with type }

/-- A name at the end of a list it is not yet in. -/
def appendNew (names : List String) (name : String) : List String :=
  if names.contains name then names else names ++ [name]

def appendKeep (state : ReturnState) (table : SymbolTable) (valueName : String) : ReturnState :=
  { state with
    table := { table with keepSymbol := appendNew table.keepSymbol valueName }
    returnedValues :=
      match state.returnedValues with
      | [] => []
      | frame :: frames => appendNew frame valueName :: frames }

def preserveReturnSymbol (state : ReturnState) (varName : String) :
    Except String (List String × ReturnState) :=
  let symbolTable := state.table
  match symbolTable.getPos varName with
  | some position =>
      let declared := declaredSymbolType symbolTable varName
        ((symbolTable.main[position]?.map StackElement.type).getD "")
      let typed := { symbolTable with main := setTypeAt symbolTable.main position declared }
      if position = 0 then .ok ([], appendKeep state typed varName)
      else
        (typed.roll position).map fun rolled =>
          (emitRoll position, appendKeep state rolled varName)
  | none =>
      match symbolTable.getAltPos varName with
      | some position =>
          let declared := declaredSymbolType symbolTable varName
            ((symbolTable.alt[position]?.map StackElement.type).getD "")
          let typed := { symbolTable with alt := setTypeAt symbolTable.alt position declared }
          (shuttle SymbolTable.swapTop typed position).map fun result =>
            (result.1, appendKeep state result.2 varName)
      | none =>
          match state.fixed.find? fun element => element.name == varName with
          | some element =>
              let materialized := { element with
                name := varName
                type := declaredSymbolType symbolTable varName element.type }
              if materialized.data = "" then
                .error ("cannot materialize empty fixed return value '" ++ varName ++ "'")
              else
                (pushSlot symbolTable.main materialized).map fun main =>
                  (emitText materialized.data,
                    appendKeep
                      { state with fixed := state.fixed.eraseP fun element => element.name == varName }
                      { symbolTable with main, newSymbol := symbolTable.newSymbol ++ [varName] }
                      varName)
          | none =>
              .error ("lowercase return references unavailable variable '" ++ varName ++ "'")

/-! ### The shuttle of the picture -/

/-- The slots down to a place are moved, as long as they fit the main stack. -/
theorem setMainCount_append (below : List StackElement) :
    ∀ (moved : List StackElement) (st : SymbolTable), st.alt = moved ++ below →
      combinedStackSize st.main ≤ maxStackSize →
      st.setMainCount moved.length =
        if maxStackSize < combinedStackSize st.main + combinedStackSize moved then
          .error stackOverflow
        else .ok { st with main := moved.reverse ++ st.main, alt := below } := by
  intro moved
  induction moved with
  | nil =>
      intro st halt hsize
      rw [if_neg (by simpa using hsize), List.length_nil, SymbolTable.setMainCount,
        List.reverse_nil, List.nil_append, ← List.nil_append below, ← halt]
  | cons element moved ih =>
      intro st halt hsize
      rw [List.length_cons, SymbolTable.setMainCount, halt, List.cons_append]
      simp only [combinedStackSize_cons]
      by_cases hpush : combinedStackSize (element :: st.main) ≤ maxStackSize
      · simp only [pushSlot_of_le hpush, Except.bind]
        rw [ih { st with main := element :: st.main, alt := moved ++ below } rfl hpush]
        simp only [combinedStackSize_cons, List.reverse_cons, List.append_assoc,
          List.singleton_append]
        congr 1
        rw [eq_iff_iff]
        omega
      · rw [combinedStackSize_cons] at hpush
        rw [pushSlot, if_pos (by omega), if_pos (by omega)]
        rfl

/-- A step that exchanges the two topmost slots of the picture. -/
def SwapsTop (turn : SymbolTable → Except String SymbolTable) : Prop :=
  ∀ (st : SymbolTable) (x y : StackElement) (rest : List StackElement), st.main = x :: y :: rest →
    turn st = .ok { st with main := y :: x :: rest }

theorem swapsTop_swapTop : SwapsTop SymbolTable.swapTop := by
  intro st x y rest h
  rw [SymbolTable.swapTop, h]

theorem swapsTop_roll : SwapsTop (·.roll 1) := by
  intro st x y rest h
  obtain ⟨main, alt⟩ := st
  subst h
  exact SymbolTable.roll_of_lt (by simp)

/-- The slots above the target are put back. -/
theorem putBack_append (hturn : SwapsTop turn) (target : StackElement) (below : List StackElement) :
    ∀ (moved : List StackElement) (st : SymbolTable), st.main = target :: (moved ++ below) →
      combinedStackSize moved + combinedStackSize st.alt ≤ maxStackSize →
      putBack turn moved.length st =
        .ok ((List.replicate moved.length [opcodeToHex .opSwap, opcodeToHex .opToaltstack]).flatten,
          { st with main := target :: below, alt := moved.reverse ++ st.alt }) := by
  intro moved
  induction moved with
  | nil =>
      intro st hmain _
      obtain ⟨main, alt⟩ := st
      subst hmain
      rfl
  | cons element moved ih =>
      intro st hmain hsize
      rw [combinedStackSize_cons] at hsize
      have hpush : pushSlot st.alt element = .ok (element :: st.alt) :=
        pushSlot_of_le (by rw [combinedStackSize_cons]; omega)
      have hfirst : (turn st).bind SymbolTable.moveTopToStack =
          .ok { st with main := target :: (moved ++ below), alt := element :: st.alt } := by
        rw [hturn st _ _ _ hmain]
        simp only [Except.bind, SymbolTable.moveTopToStack, hpush, Except.map]
        rfl
      have hrest := ih { st with main := target :: (moved ++ below), alt := element :: st.alt } rfl
        (by rw [combinedStackSize_cons]; omega)
      rw [List.length_cons, putBack, hfirst]
      simp only [Except.bind, hrest, Except.map, List.reverse_cons, List.append_assoc,
        List.singleton_append]
      rfl

/-- **The shuttle moves one slot of the picture, unless the slots on the way do not fit the main
stack.** -/
theorem shuttle_eq (hturn : SwapsTop turn) {st : SymbolTable} (htarget : st.alt[pos]? = some target)
    (hmain : combinedStackSize st.main ≤ maxStackSize)
    (halt : combinedStackSize st.alt ≤ maxStackSize) :
    shuttle turn st pos =
      if maxStackSize < combinedStackSize st.main + combinedStackSize (st.alt.take (pos + 1)) then
        .error stackOverflow
      else
        .ok (shuttleCode pos,
          { st with main := target :: st.main, alt := st.alt.eraseIdx pos }) := by
  have hlt := (List.getElem?_eq_some_iff.1 htarget).1
  have hlen : (st.alt.take pos).length = pos := by
    rw [List.length_take]
    omega
  have htake : st.alt.take (pos + 1) = st.alt.take pos ++ [target] := by
    rw [List.take_add_one, htarget]
    rfl
  have hlen' : (st.alt.take (pos + 1)).length = pos + 1 := by
    rw [htake, List.length_append, hlen, List.length_singleton]
  have hcount := setMainCount_append (st.alt.drop (pos + 1)) (st.alt.take (pos + 1)) st
    (List.take_append_drop _ _).symm hmain
  have hparts : combinedStackSize st.alt = combinedStackSize (st.alt.take pos) +
      (target.getMemoryUsage + combinedStackSize (st.alt.drop (pos + 1))) := by
    rw [← combinedStackSize_cons, ← combinedStackSize_append, ← eq_take_append_cons htarget]
  rw [hlen'] at hcount
  rw [shuttle, hcount]
  split_ifs with hover
  · rfl
  · have hback := putBack_append hturn target st.main (st.alt.take pos).reverse
      { st with
        main := (st.alt.take (pos + 1)).reverse ++ st.main
        alt := st.alt.drop (pos + 1) }
      (by rw [htake, List.reverse_append]; rfl)
      (by rw [combinedStackSize_reverse]; simp only; omega)
    rw [List.length_reverse, hlen] at hback
    simp only [Except.bind, hback, Except.map, List.reverse_reverse,
      ← List.eraseIdx_eq_take_drop_succ]
    rfl

/-! ### The texts of the built-in functions -/

theorem hexText_flatten (pieces : List Bytes) :
    hexText pieces.flatten = String.join (pieces.map hexText) := by
  induction pieces with
  | nil => rfl
  | cons piece pieces ih =>
      rw [List.flatten_cons, hexText_append, ih, List.map_cons, String.join_cons]

theorem emitText_ops {ops : List BytOpcode} (hne : ops ≠ [])
    (hops : ∀ op ∈ ops, op.toByte = 0x50 ∨ 0x60 < op.toByte) :
    emitText (String.join (ops.map opcodeToHex)) = ops.map opcodeToHex := by
  have hpieces : ∀ piece ∈ ops.map (fun op => [op.toByte]), IsOneInstruction piece := by
    intro piece hpiece
    obtain ⟨op, hop, rfl⟩ := List.mem_map.1 hpiece
    exact isOneInstruction_op (hops op hop)
  have htexts : (ops.map fun op => [op.toByte]).map hexText = ops.map opcodeToHex := by
    rw [List.map_map]
    exact List.map_congr_left fun op _ => hexText_op op
  rw [emitText_pieces hpieces (by simpa using hne) (.inl _), htexts]
  rw [hexText_flatten, htexts]

/-- The text that `SetMain` writes is emitted as the instructions of a shuttle. -/
theorem emitText_setMainHex (position : ℕ) :
    emitText (String.join (List.replicate (position + 1) (opcodeToHex .opFromaltstack)) ++
        String.join (List.replicate position (opcodeToHex .opSwap ++ opcodeToHex .opToaltstack))) =
      shuttleCode position := by
  have hback : ∀ n : ℕ,
      String.join (List.replicate n (opcodeToHex .opSwap ++ opcodeToHex .opToaltstack)) =
        String.join (((List.replicate n [BytOpcode.opSwap, .opToaltstack]).flatten).map
          opcodeToHex) ∧
      ((List.replicate n [BytOpcode.opSwap, .opToaltstack]).flatten).map opcodeToHex =
        (List.replicate n [opcodeToHex .opSwap, opcodeToHex .opToaltstack]).flatten := by
    intro n
    induction n with
    | zero => exact ⟨rfl, rfl⟩
    | succ n ih =>
        rw [List.replicate_succ, List.replicate_succ, List.replicate_succ]
        simp [ih, String.join_cons, String.append_assoc]
  have htext : String.join (List.replicate (position + 1) (opcodeToHex .opFromaltstack)) ++
      String.join (List.replicate position (opcodeToHex .opSwap ++ opcodeToHex .opToaltstack)) =
      String.join ((List.replicate (position + 1) BytOpcode.opFromaltstack ++
        (List.replicate position [BytOpcode.opSwap, .opToaltstack]).flatten).map opcodeToHex) := by
    rw [List.map_append, List.map_replicate, (hback position).1, String.join_append]
  rw [htext, emitText_ops (by simp), List.map_append, List.map_replicate, (hback position).2]
  · rfl
  · intro op hop
    rcases List.mem_append.1 hop with hop | hop
    · obtain rfl := List.eq_of_mem_replicate hop
      exact .inr (by decide)
    · obtain ⟨pair, hpair, hop⟩ := List.mem_flatten.1 hop
      obtain rfl := List.eq_of_mem_replicate hpair
      rcases List.mem_pair.1 hop with rfl | rfl
      · exact .inr (by decide)
      · exact .inr (by decide)

/-- The text of a roll to the top and one more opcode is emitted as the roll and the opcode. -/
theorem emitText_rollToTopHex {op : BytOpcode} (hop : op.toByte = 0x50 ∨ 0x60 < op.toByte)
    (position : ℕ) :
    emitText (rollToTopHex position ++ opcodeToHex op) = emitRoll position ++ emitOp op := by
  unfold rollToTopHex emitRoll
  split_ifs with h0 h1 h2
  · have := @emitText_ops [op] (by simp) (by simpa using hop)
    simpa [emitOp] using this
  · have := @emitText_ops [.opSwap, op] (by simp) (by simpa using ⟨by decide, hop⟩)
    simpa [emitOp] using this
  · have := @emitText_ops [.opRot, op] (by simp) (by simpa using ⟨by decide, hop⟩)
    simpa [emitOp] using this
  · obtain ⟨bytes, htext, hpush⟩ := exists_isPush_number position
    have hpieces : ∀ piece ∈ [bytes, [BytOpcode.opRoll.toByte], [op.toByte]], IsOneInstruction piece := by
      simp only [List.mem_cons, List.not_mem_nil, or_false]
      rintro piece (rfl | rfl | rfl)
      · exact isOneInstruction_push hpush
      · exact isOneInstruction_op (by decide)
      · exact isOneInstruction_op hop
    have hnumber : emitText (numberToScriptHex position) = [hexText bytes] := by
      have hpiece : ∀ piece ∈ [bytes], IsOneInstruction piece := by simpa using isOneInstruction_push hpush
      have := emitText_pieces hpiece (by simp) (.inr rfl)
      rw [htext]
      simpa [hexText] using this
    rw [hnumber, htext, emitText_pieces hpieces (by simp) (.inr _)]
    · simp [emitOp]
    · rw [hexText_flatten]
      simp [hexText, opcodeToHex, bytesToHex, String.join_cons, String.append_assoc]

/-! ### The four moves -/

variable {st : SymbolTable} {slots : NamedStacks}

theorem exists_of_posOf {name : String} {slots : List StackElement}
    (h : posOf name slots = some pos) : ∃ element, slots[pos]? = some element := by
  obtain ⟨hlt, -⟩ := List.findIdx?_eq_some_iff_findIdx_eq.1 h
  exact ⟨slots[pos], List.getElem?_eq_getElem hlt⟩

/-- The shuttle moves its slot only. -/
theorem movesOnly_shuttle (h : Depicts st slots) (htarget : st.alt[pos]? = some target)
    (hsize : combinedStackSize st.main + target.getMemoryUsage ≤ maxStackSize) :
    MovesOnly env slots .alt .main pos (shuttleCode pos)
      { st with main := target :: st.main, alt := st.alt.eraseIdx pos } := by
  refine movesOnly_of_moveSlot h ?_ ?_ ?_ ?_
  · simp [moveSlot, stackAt, setStack, SymbolTable.names, htarget, List.eraseIdx_map]
  · rintro ⟨main, alt⟩ pair' - hmove
    simp only [moveSlot, stackAt, setStack, Option.map_eq_some_iff] at hmove
    obtain ⟨x, hx, rfl⟩ := hmove
    exact takes_shuttle hx main
  · rw [combinedStackSize_cons]
    omega
  · obtain ⟨hlt, rfl⟩ := List.getElem?_eq_some_iff.1 htarget
    have hparts := combinedStackSize_eraseIdx hlt
    have halt := h.alt_size
    simp only
    omega

theorem getMemoryUsage_le_take {slots : List StackElement} (h : slots[pos]? = some target) :
    target.getMemoryUsage ≤ combinedStackSize (slots.take (pos + 1)) := by
  rw [List.take_add_one, h, combinedStackSize_append]
  simp

/-- What a call that moves a slot from the alt to the main stack does: it moves the slot, or the
slots it moves do not fit the main stack. -/
theorem shuttle_spec (hturn : SwapsTop turn)
     (h : Depicts st slots) (htarget : st.alt[pos]? = some target) :
    (∃ code st', shuttle turn st pos = .ok (code, st') ∧
        MovesOnly env slots .alt .main pos code st') ∨
      shuttle turn st pos = .error stackOverflow ∧
        maxStackSize < combinedStackSize st.main + combinedStackSize (st.alt.take (pos + 1)) := by
  rw [shuttle_eq hturn htarget h.main_size h.alt_size]
  split_ifs with hover
  · exact .inr ⟨rfl, hover⟩
  · have hle := getMemoryUsage_le_take htarget
    exact .inl ⟨_, _, rfl, movesOnly_shuttle h htarget (by omega)⟩

/-- **`moveAltElementToMain` moves the slot of its name.** -/
theorem moveAltElementToMain_spec {name : String} {resolveBinding : Bool} (h : Depicts st slots)
    (hpos : (if resolveBinding then st.getAltPos name else st.getPhysicalAltPos name) = some pos) :
    (∃ code st', moveAltElementToMain st name resolveBinding = .ok (true, code, st') ∧
        MovesOnly env slots .alt .main pos code st') ∨
      moveAltElementToMain st name resolveBinding = .error stackOverflow ∧
        maxStackSize < combinedStackSize st.main + combinedStackSize (st.alt.take (pos + 1)) := by
  obtain ⟨target, htarget⟩ : ∃ target, st.alt[pos]? = some target := by
    cases resolveBinding with
    | true => exact exists_of_posOf hpos
    | false => exact exists_of_posOf hpos
  rw [moveAltElementToMain, hpos]
  rcases shuttle_spec swapsTop_roll h htarget with ⟨code, st', hrun, hmoves⟩ | ⟨hrun, hover⟩
  · exact .inl ⟨code, st', by simp only [hrun, Except.map], hmoves⟩
  · exact .inr ⟨by simp only [hrun, Except.map], hover⟩

/-- **`SetMain` moves the slot of its argument.** -/
theorem lowerSetMain_spec {arg : StackElement} {args : List StackElement}
    (h : Depicts st slots) (hpos : st.getAltPos arg.name = some pos) :
    (∃ code st', lowerSetMain st (arg :: args) = .ok (code, st') ∧
        MovesOnly env slots .alt .main pos code st') ∨
      lowerSetMain st (arg :: args) = .error stackOverflow ∧
        ∃ target, st.alt[pos]? = some target ∧
          maxStackSize < combinedStackSize st.main + target.getMemoryUsage := by
  obtain ⟨target, htarget⟩ := exists_of_posOf hpos
  have hrun : lowerSetMain st (arg :: args) = (pushSlot st.main target).map fun main =>
      (shuttleCode pos, { st with main, alt := st.alt.eraseIdx pos }) := by
    simp only [lowerSetMain, setMainHex, List.head?_cons, hpos, Except.bind, Option.bind_some,
      htarget, emitText_setMainHex]
  rw [hrun, pushSlot]
  split_ifs with hover
  · exact .inr ⟨rfl, target, htarget, hover⟩
  · exact .inl ⟨_, _, rfl, movesOnly_shuttle h htarget (by omega)⟩

theorem takes_setAlt {main alt : Stack} {x : Bytes} (h : main[pos]? = some x)
    (hlen : main.length ≤ maxSlots) :
    Takes env (emitRoll pos ++ emitOp .opToaltstack) (main, alt) (main.eraseIdx pos, x :: alt) := by
  obtain ⟨hlt, rfl⟩ := List.getElem?_eq_some_iff.1 h
  have hsize : pos < 2 ^ 63 := by
    rw [maxSlots] at hlen
    omega
  exact (takes_roll_of_lt hlt hsize alt).trans (takes_toaltstack _ _ _)

/-- **`SetAlt` moves the slot of its argument.** -/
theorem lowerSetAlt_spec {arg : StackElement} {args : List StackElement}
    (h : Depicts st slots) (hpos : st.getPos arg.name = some pos) :
    (∃ code st', lowerSetAlt st (arg :: args) = .ok (code, st') ∧
        MovesOnly env slots .main .alt pos code st') ∨
      lowerSetAlt st (arg :: args) = .error stackOverflow ∧
        ∃ target, st.main[pos]? = some target ∧
          maxStackSize < combinedStackSize st.alt + target.getMemoryUsage := by
  obtain ⟨target, htarget⟩ := exists_of_posOf hpos
  obtain ⟨hlt, rfl⟩ := List.getElem?_eq_some_iff.1 htarget
  have htext : (setAltHex st (arg :: args)).map emitText =
      .ok (emitRoll pos ++ emitOp .opToaltstack) := by
    have hroll := @emitText_rollToTopHex .opToaltstack (.inr (by decide)) pos
    simp only [setAltHex, List.head?_cons, hpos]
    split_ifs with h0 h1
    · subst h0
      simpa [rollToTopHex, Except.map] using hroll
    · subst h1
      exact congrArg Except.ok hroll
    · exact congrArg Except.ok hroll
  have hmoved : (if 0 < pos then st.roll pos else .ok st) =
      .ok { st with main := st.main[pos] :: st.main.eraseIdx pos } := by
    split_ifs with h0
    · exact SymbolTable.roll_of_lt hlt
    · obtain rfl : pos = 0 := by omega
      rw [← SymbolTable.roll_of_lt hlt, SymbolTable.roll,
        SymbolTable.validateStackOperation_of_lt hlt]
      rfl
  have hrun : lowerSetAlt st (arg :: args) = (pushSlot st.alt st.main[pos]).map fun alt =>
      (emitRoll pos ++ emitOp .opToaltstack, { st with main := st.main.eraseIdx pos, alt }) := by
    cases hhex : setAltHex st (arg :: args) with
    | error error => simp [hhex, Except.map] at htext
    | ok opcodeHex =>
        rw [hhex] at htext
        have hcode : emitText opcodeHex = emitRoll pos ++ emitOp .opToaltstack :=
          Except.ok.inj htext
        rw [lowerSetAlt, hhex]
        simp only [List.head?_cons, hpos, Except.bind, Option.bind_some, hmoved,
          SymbolTable.moveTopToStack, hcode]
        cases pushSlot st.alt st.main[pos] <;> rfl
  rw [hrun, pushSlot]
  split_ifs with hover
  · exact .inr ⟨rfl, _, htarget, hover⟩
  · refine .inl ⟨_, _, rfl, movesOnly_of_moveSlot h ?_ ?_ ?_ ?_⟩
    · simp [moveSlot, stackAt, setStack, SymbolTable.names, htarget, List.eraseIdx_map]
    · rintro ⟨main, alt⟩ pair' hlen hmove
      simp only [moveSlot, stackAt, setStack, Option.map_eq_some_iff] at hmove
      obtain ⟨x, hx, rfl⟩ := hmove
      exact takes_setAlt hx hlen
    · have hparts := combinedStackSize_eraseIdx hlt
      have hmain := h.main_size
      simp only
      omega
    · rw [combinedStackSize_cons]
      omega

theorem setTypeAt_frame (slots : List StackElement) (pos : ℕ) (type : String) :
    (setTypeAt slots pos type).map StackElement.name = slots.map StackElement.name ∧
      (setTypeAt slots pos type).map StackElement.getMemoryUsage =
        slots.map StackElement.getMemoryUsage := by
  unfold setTypeAt
  induction slots generalizing pos with
  | nil => simp
  | cons element slots ih =>
      cases pos with
      | zero => exact ⟨rfl, rfl⟩
      | succ pos => simpa [List.modify_succ_cons] using ih pos

theorem Depicts.congr (h : Depicts st slots)
    (hmain : st'.main.map StackElement.name = st.main.map StackElement.name ∧
      st'.main.map StackElement.getMemoryUsage = st.main.map StackElement.getMemoryUsage)
    (halt : st'.alt.map StackElement.name = st.alt.map StackElement.name ∧
      st'.alt.map StackElement.getMemoryUsage = st.alt.map StackElement.getMemoryUsage) :
    Depicts st' slots where
  names := by rw [SymbolTable.names, hmain.1, halt.1]; exact h.names
  main_size := by rw [combinedStackSize, hmain.2]; exact h.main_size
  alt_size := by rw [combinedStackSize, halt.2]; exact h.alt_size

theorem MovesOnly.congr {source target : Side} {code : List String}
    {st'' : SymbolTable} (h : MovesOnly env slots source target pos code st')
    (hmain : st''.main = st'.main) (halt : st''.alt = st'.alt) :
    MovesOnly env slots source target pos code st'' := by
  obtain ⟨slots', hmove, htakes, hdepicts⟩ := h
  exact ⟨slots', hmove, htakes, hdepicts.congr (by simp [hmain]) (by simp [halt])⟩

/-- **A returned symbol of the main stack is moved to its top.** -/
theorem preserveReturnSymbol_main {state : ReturnState} {varName : String} {pos : ℕ}
    (h : Depicts state.table slots) (hpos : state.table.getPos varName = some pos) :
    ∃ code state', preserveReturnSymbol state varName = .ok (code, state') ∧
      MovesOnly env slots .main .main pos code state'.table := by
  obtain ⟨target, htarget⟩ := exists_of_posOf hpos
  obtain ⟨hlt, rfl⟩ := List.getElem?_eq_some_iff.1 htarget
  generalize hdeclared : declaredSymbolType state.table varName
    ((state.table.main[pos]?.map StackElement.type).getD "") = declared
  obtain ⟨typed, htyped⟩ : ∃ typed, typed =
      { state.table with main := setTypeAt state.table.main pos declared } := ⟨_, rfl⟩
  have hframe := setTypeAt_frame state.table.main pos declared
  have hdepicts : Depicts typed slots := by
    subst htyped
    exact h.congr hframe ⟨rfl, rfl⟩
  have hlt' : pos < typed.main.length := by
    rw [hdepicts.main_length, ← h.main_length]
    exact hlt
  have hrolled : MovesOnly env slots .main .main pos (emitRoll pos)
      { typed with main := typed.main[pos] :: typed.main.eraseIdx pos } := by
    refine movesOnly_of_moveSlot hdepicts ?_ ?_ ?_ hdepicts.alt_size
    · simp [moveSlot, stackAt, setStack, SymbolTable.names, hlt', List.eraseIdx_map]
    · rintro ⟨main, alt⟩ pair' hlen hmove
      simp only [moveSlot, stackAt, setStack, Option.map_eq_some_iff] at hmove
      obtain ⟨x, hx, rfl⟩ := hmove
      obtain ⟨hltx, rfl⟩ := List.getElem?_eq_some_iff.1 hx
      have hsize : pos < 2 ^ 63 := by
        simp only [maxSlots] at hlen
        omega
      exact takes_roll_of_lt hltx hsize alt
    · rw [combinedStackSize_cons, combinedStackSize_eraseIdx hlt']
      exact hdepicts.main_size
  have hrun : preserveReturnSymbol state varName =
      .ok (emitRoll pos, appendKeep state
        { typed with main := typed.main[pos] :: typed.main.eraseIdx pos } varName) := by
    simp only [preserveReturnSymbol, hpos, hdeclared, ← htyped]
    split_ifs with h0
    -- the slot is on top: rolling it would change nothing
    · have htop := SymbolTable.roll_of_lt hlt'
      subst h0
      rw [← Except.ok.inj ((show typed.roll 0 = .ok typed by
        rw [SymbolTable.roll, SymbolTable.validateStackOperation_of_lt hlt']; rfl).symm.trans htop)]
      rfl
    · rw [SymbolTable.roll_of_lt hlt']
      rfl
  exact ⟨_, _, hrun, hrolled.congr rfl rfl⟩

/-- **A returned symbol of the alt stack is moved to the top of the main stack.** -/
theorem preserveReturnSymbol_alt {state : ReturnState} {varName : String} {pos : ℕ}
    (h : Depicts state.table slots) (hmain : state.table.getPos varName = none)
    (hpos : state.table.getAltPos varName = some pos) :
    (∃ code state', preserveReturnSymbol state varName = .ok (code, state') ∧
        MovesOnly env slots .alt .main pos code state'.table) ∨
      preserveReturnSymbol state varName = .error stackOverflow ∧
        maxStackSize < combinedStackSize state.table.main +
          combinedStackSize (state.table.alt.take (pos + 1)) := by
  obtain ⟨target, htarget⟩ := exists_of_posOf hpos
  generalize hdeclared : declaredSymbolType state.table varName
    ((state.table.alt[pos]?.map StackElement.type).getD "") = declared
  obtain ⟨typed, htyped⟩ : ∃ typed, typed =
      { state.table with alt := setTypeAt state.table.alt pos declared } := ⟨_, rfl⟩
  have hframe := setTypeAt_frame state.table.alt pos declared
  have hdepicts : Depicts typed slots := by
    subst htyped
    exact h.congr ⟨rfl, rfl⟩ hframe
  have htake : combinedStackSize (typed.alt.take (pos + 1)) =
      combinedStackSize (state.table.alt.take (pos + 1)) := by
    rw [combinedStackSize, combinedStackSize, List.map_take, List.map_take, htyped, hframe.2]
  obtain ⟨target', htarget'⟩ : ∃ target', typed.alt[pos]? = some target' := by
    refine ⟨_, List.getElem?_eq_getElem ?_⟩
    rw [hdepicts.alt_length, ← h.alt_length]
    exact (List.getElem?_eq_some_iff.1 htarget).1
  rcases shuttle_spec swapsTop_swapTop hdepicts htarget' with ⟨code, st', hrun, hmoves⟩ | ⟨hrun, hover⟩
  · refine .inl ⟨code, appendKeep state st' varName, ?_, hmoves.congr rfl rfl⟩
    simp only [preserveReturnSymbol, hmain, hpos, hdeclared, ← htyped, hrun, Except.map]
  · refine .inr ⟨?_, ?_⟩
    · simp only [preserveReturnSymbol, hmain, hpos, hdeclared, ← htyped, hrun, Except.map]
    · rw [htake] at hover
      subst htyped
      exact hover

/-- **Moves of one slot between the stacks move their slot only.**  Wherever a picture shows the
named values of the two run-time stacks, each of the four call sites puts the value of its slot on
top of the target stack and leaves all others where they are, in the code it emits and in the
picture; it throws exactly where a symbolic stack would outgrow its limit on the way. -/
theorem single_slot_moves (env : ScriptEnv) {st : SymbolTable} {slots : NamedStacks}
    (h : Depicts st slots) :
    (∀ (arg : StackElement) (args : List StackElement) (pos : ℕ),
      st.getPos arg.name = some pos →
      (∃ code st', lowerSetAlt st (arg :: args) = .ok (code, st') ∧
          MovesOnly env slots .main .alt pos code st') ∨
        lowerSetAlt st (arg :: args) = .error stackOverflow ∧
          ∃ target, st.main[pos]? = some target ∧
            maxStackSize < combinedStackSize st.alt + target.getMemoryUsage) ∧
    (∀ (arg : StackElement) (args : List StackElement) (pos : ℕ),
      st.getAltPos arg.name = some pos →
      (∃ code st', lowerSetMain st (arg :: args) = .ok (code, st') ∧
          MovesOnly env slots .alt .main pos code st') ∨
        lowerSetMain st (arg :: args) = .error stackOverflow ∧
          ∃ target, st.alt[pos]? = some target ∧
            maxStackSize < combinedStackSize st.main + target.getMemoryUsage) ∧
    (∀ (name : String) (resolveBinding : Bool) (pos : ℕ),
      (if resolveBinding then st.getAltPos name else st.getPhysicalAltPos name) = some pos →
      (∃ code st', moveAltElementToMain st name resolveBinding = .ok (true, code, st') ∧
          MovesOnly env slots .alt .main pos code st') ∨
        moveAltElementToMain st name resolveBinding = .error stackOverflow ∧
          maxStackSize < combinedStackSize st.main + combinedStackSize (st.alt.take (pos + 1))) ∧
    (∀ (fixed : List StackElement) (returnedValues : List (List String)) (varName : String)
        (pos : ℕ),
      (st.getPos varName = some pos →
        ∃ code state', preserveReturnSymbol ⟨st, fixed, returnedValues⟩ varName =
            .ok (code, state') ∧
          MovesOnly env slots .main .main pos code state'.table) ∧
      (st.getPos varName = none → st.getAltPos varName = some pos →
        (∃ code state', preserveReturnSymbol ⟨st, fixed, returnedValues⟩ varName =
              .ok (code, state') ∧
            MovesOnly env slots .alt .main pos code state'.table) ∨
          preserveReturnSymbol ⟨st, fixed, returnedValues⟩ varName = .error stackOverflow ∧
            maxStackSize <
              combinedStackSize st.main + combinedStackSize (st.alt.take (pos + 1)))) := by
  refine ⟨?_, ?_, ?_, ?_⟩
  · intro arg args pos hpos
    exact lowerSetAlt_spec h hpos
  · intro arg args pos hpos
    exact lowerSetMain_spec h hpos
  · intro name resolveBinding pos hpos
    exact moveAltElementToMain_spec h hpos
  · intro fixed returnedValues varName pos
    refine ⟨?_, ?_⟩
    · intro hpos
      exact @preserveReturnSymbol_main _ _ ⟨st, fixed, returnedValues⟩ _ _ h hpos
    · intro hmain hpos
      exact @preserveReturnSymbol_alt _ _ ⟨st, fixed, returnedValues⟩ _ _ h hmain hpos

/-- A picture of three values on the alt stack: the lowest one comes to the main stack. -/
theorem single_slot_moves_three :
    ∃ code st', lowerSetMain ⟨[⟨"m", "", ""⟩], [⟨"a", "", ""⟩, ⟨"b", "", ""⟩, ⟨"c", "", ""⟩], [], [],
        [], [], [], 0, 0⟩ [⟨"c", "", ""⟩] = .ok (code, st') ∧
      MovesOnly ScriptEnv.plain ([("m", [1])], [("a", [2]), ("b", [3]), ("c", [4])]) .alt
        .main 2 code st' := by
  have hdepicts : Depicts ⟨[⟨"m", "", ""⟩], [⟨"a", "", ""⟩, ⟨"b", "", ""⟩, ⟨"c", "", ""⟩], [], [], [], [],
      [], 0, 0⟩ ([("m", [1])], [("a", [2]), ("b", [3]), ("c", [4])]) :=
    ⟨rfl, by decide, by decide⟩
  rcases (single_slot_moves ScriptEnv.plain hdepicts).2.1 ⟨"c", "", ""⟩ [] 2 (by decide) with
    hmoves | ⟨-, target, htarget, hover⟩
  · exact hmoves
  · obtain rfl := Option.some.inj htarget
    exact absurd hover (by decide)

end AtomicProof
