/-
The cleanup at the end of a block.

When the visitor leaves a block, `ASTToBytecodeVisitor::visit(BlockNode&)` removes the slots of the
block's own symbols, from the picture it keeps of the two stacks and, with the instructions it
emits, from the run-time stacks.  Slots of the main stack are taken from the top down, so that most
of them are dropped where they lie and consecutive drops are merged.  Slots of the alt stack are
reached by moving what lies above them to the main stack and back.

Main definitions:

* `BlockContext` — what the cleanup knows from the entry of the block;
* `isBlockLocal` — the symbols the block has to remove;
* `cleanup` — the emitted instructions and the symbolic state afterwards;
* `removeSlots` — the slots that are left when the topmost slot of every given name is taken out;
* `CleanupExact` — the cleanup removes exactly the slots of the block's symbols.

Main results:

* `takes_mainCleanup` — on the main stack it does;
* `cleanup_alt_length` — whatever it emits leaves the run-time alt stack as high as it was;
* `cleanupExact_iff` — so it does exactly when no symbol to remove lies on the alt stack.
-/

import AtomicProof.SymbolTable
import Mathlib.Data.List.InsertIdx
import Mathlib.Data.List.Sort

set_option autoImplicit false

namespace AtomicProof

namespace BlockCleanup

/-! ### The symbols of the block -/

/-- What is known when the block is entered. -/
structure BlockContext where
  /-- `blockEntryState`. -/
  entryState : SymbolTable
  /-- The arrays of `m_wholeArrayElements`. -/
  outerWholeArrays : List String
  /-- The block is the body of a public function or a private function is being inlined. -/
  preservesAltOutputs : Bool

/-- The name before the first bracket, for a name with a bracket. -/
def arrayName (name : String) : Option String :=
  if '[' ∈ name.toList then some (String.ofList (name.toList.takeWhile (· ≠ '['))) else none

/-- `belongedToOuterArray`: an element of an array from outside the block. -/
def belongedToOuterArray (ctx : BlockContext) (name : String) : Bool :=
  match arrayName name with
  | some array => ctx.entryState.isArraySymbol array || ctx.outerWholeArrays.contains array
  | none => false

/-- A new slot of this name goes with the block: the name is declared in the block, or is no symbol
at all, is not an element of an outer array and is not kept. -/
def isBlockLocal (ctx : BlockContext) (st : SymbolTable) (name : String) : Bool :=
  !(st.symbolExists name && !st.isDeclaredInCurrentScope name) &&
    !belongedToOuterArray ctx name && !st.keepSymbol.contains name

/-- The new symbols that are removed from the main stack. -/
def mainStackSymbols (ctx : BlockContext) (st : SymbolTable) : List String :=
  st.newSymbol.filter fun name => isBlockLocal ctx st name && (st.getPos name).isSome

/-- The new symbols that are only found on the alt stack and are not handed on. -/
def altStackSymbols (ctx : BlockContext) (st : SymbolTable) : List String :=
  st.newSymbol.filter fun name => isBlockLocal ctx st name && (st.getPos name).isNone &&
    (st.getAltPos name).isSome && !ctx.preservesAltOutputs

/-- `isAltStackMap.emplace`: a map ordered by its keys, in which the first value of a key stays. -/
def emplace (pos : ℕ) (name : String) : List (ℕ × String) → List (ℕ × String)
  | [] => [(pos, name)]
  | entry :: rest =>
      if pos < entry.1 then (pos, name) :: entry :: rest
      else if pos = entry.1 then entry :: rest
      else entry :: emplace pos name rest

def isAltStackMap (ctx : BlockContext) (st : SymbolTable) : List (ℕ × String) :=
  (altStackSymbols ctx st).foldl (fun map name => emplace ((st.getAltPos name).getD 0) name map) []

/-- The order of the main-stack symbols: the topmost slot first. -/
def sortedMainSymbols (ctx : BlockContext) (st : SymbolTable) : List String :=
  (mainStackSymbols ctx st).insertionSort fun a b =>
    (st.getPos a).getD 0 ≤ (st.getPos b).getD 0

/-! ### The emitted instructions -/

def flushPendingDrops : ℕ → List String
  | 0 => []
  | 1 => emitOp .opDrop
  | pendingDrops + 2 => emitOp .op2drop ++ flushPendingDrops pendingDrops

structure Pass where
  table : SymbolTable
  pendingDrops : ℕ
  code : List String

/-- The body of the loop over `mainStackSymbols`. -/
def mainStep (pass : Pass) (name : String) : Except String Pass :=
  match pass.table.getPos name with
  | none => .ok pass
  | some 0 =>
      .ok { pass with table := pass.table.popSlot, pendingDrops := pass.pendingDrops + 1 }
  | some 1 => do
      let table ← pass.table.dropAt 1
      pure ⟨table, 0, pass.code ++ flushPendingDrops pass.pendingDrops ++ emitOp .opNip⟩
  | some pos => do
      let table ← pass.table.roll pos
      pure ⟨table.popSlot, 0,
        pass.code ++ flushPendingDrops pass.pendingDrops ++ emitRoll pos ++ emitOp .opDrop⟩

/-- The loop over `mainStackSymbols` and the last flush. -/
def mainCleanup (st : SymbolTable) (names : List String) : Except String (SymbolTable × List String) := do
  let pass ← names.foldlM mainStep ⟨st, 0, []⟩
  pure (pass.table, pass.code ++ flushPendingDrops pass.pendingDrops)

/-- `count` repetitions of an opcode. -/
def repeatOp (op : BytOpcode) (count : ℕ) : List String :=
  (List.replicate count (emitOp op)).flatten

/-- The body of the loop over `isAltStackMap`.  `setMain` returns the number of slots above the
symbol's own, and as many slots are moved at run time. -/
def altStep (acc : SymbolTable × List String) (entry : ℕ × String) : SymbolTable × List String :=
  match acc.1.getAltPos entry.2 with
  | none => acc
  | some _ =>
      let (table, num) := acc.1.setMain entry.2
      ((SymbolTable.moveTopToAlt^[num] table.popSlot),
        acc.2 ++ repeatOp .opFromaltstack num ++ emitOp .opDrop ++ repeatOp .opToaltstack num)

/-- The cleanup at the end of `visit(BlockNode)`. -/
def cleanup (ctx : BlockContext) (st : SymbolTable) : Except String (SymbolTable × List String) :=
  if st.newSymbol.isEmpty then .ok (st, [])
  else do
    let (table, code) ← mainCleanup st (sortedMainSymbols ctx st)
    pure ((isAltStackMap ctx st).foldl altStep (table, code))

/-! ### What the cleanup is for -/

section RemoveSlots

variable {α β : Type}

/-- The slots that are left when, for every name of the list, the topmost slot of that name is taken
out. -/
def removeSlots (key : α → String) : List String → List α → List α
  | [], slots => slots
  | name :: names, slots => removeSlots key names (slots.eraseP fun slot => key slot == name)

@[simp] theorem removeSlots_nil (key : α → String) (slots : List α) :
    removeSlots key [] slots = slots := rfl

@[simp] theorem removeSlots_cons (key : α → String) (name : String) (names : List String)
    (slots : List α) : removeSlots key (name :: names) slots =
      removeSlots key names (slots.eraseP fun slot => key slot == name) := rfl

/-- The order in which the slots are taken out does not matter. -/
theorem removeSlots_perm (key : α → String) {names names' : List String} (h : names.Perm names')
    (slots : List α) : removeSlots key names slots = removeSlots key names' slots := by
  induction h generalizing slots with
  | nil => rfl
  | cons name _ ih => exact ih _
  | swap a b names =>
      by_cases hab : a = b
      · rw [hab]
      · have hcomm : (slots.eraseP fun slot => key slot == b).eraseP (fun slot => key slot == a) =
            (slots.eraseP fun slot => key slot == a).eraseP fun slot => key slot == b := by
          refine List.eraseP_comm fun slot _ => ?_
          by_cases hb : key slot = b
          · right
            rintro ha
            exact hab ((beq_iff_eq.1 ha).symm.trans hb)
          · left
            simpa using hb
        simp only [removeSlots_cons, hcomm]
  | trans _ _ ih₁ ih₂ => exact (ih₁ slots).trans (ih₂ slots)

theorem removeSlots_length_le (key : α → String) (names : List String) (slots : List α) :
    (removeSlots key names slots).length ≤ slots.length := by
  induction names generalizing slots with
  | nil => exact le_rfl
  | cons name names ih => exact (ih _).trans List.length_eraseP_le

theorem removeSlots_length_lt (key : α → String) {name : String} {names : List String}
    {slots : List α} (hmem : ∃ slot ∈ slots, key slot = name) :
    (removeSlots key (name :: names) slots).length < slots.length := by
  obtain ⟨slot, hslot, hkey⟩ := hmem
  have herase : (slots.eraseP fun slot => key slot == name).length = slots.length - 1 :=
    List.length_eraseP_of_mem hslot (by simp [hkey])
  have hpos := List.length_pos_of_mem hslot
  have := removeSlots_length_le key names (slots.eraseP fun slot => key slot == name)
  rw [removeSlots_cons]
  omega

end RemoveSlots

/-- The slots of a stack with their run-time values. -/
abbrev Slots := List (StackElement × Bytes)

/-- The slots of a stack that are left when those of the symbols in `names` are taken out. -/
def kept (st : SymbolTable) (names : List String) (slots : Slots) : Slots :=
  removeSlots (fun slot => slot.1.name) (names.map st.resolveBindSymbol) slots

/-- From the run-time stacks `main` and `alt` the cleanup removes exactly the slots of the block's
symbols: the values that are left, and the names of the picture, are those of the slots the block
does not have to remove, in their order. -/
def CleanupExact (env : ScriptEnv) (ctx : BlockContext) (st : SymbolTable) (main alt : Stack) :
    Prop :=
  let mainKept := kept st (mainStackSymbols ctx st) (st.main.zip main)
  let altKept := kept st (altStackSymbols ctx st) (st.alt.zip alt)
  ∃ st' code, cleanup ctx st = .ok (st', code) ∧
    outcome env code main alt = some (mainKept.map Prod.snd, altKept.map Prod.snd) ∧
    st'.main = mainKept.map Prod.fst ∧ st'.alt = altKept.map Prod.fst

instance (env : ScriptEnv) (ctx : BlockContext) (st : SymbolTable) (main alt : Stack) :
    Decidable (CleanupExact env ctx st main alt) :=
  let mainKept := kept st (mainStackSymbols ctx st) (st.main.zip main)
  let altKept := kept st (altStackSymbols ctx st) (st.alt.zip alt)
  match h : cleanup ctx st with
  | .ok (st', code) =>
      decidable_of_iff (outcome env code main alt = some (mainKept.map Prod.snd, altKept.map Prod.snd) ∧
          st'.main = mainKept.map Prod.fst ∧ st'.alt = altKept.map Prod.fst)
        ⟨fun hall => ⟨st', code, h, hall⟩, by
          rintro ⟨st'', code', h', hall⟩
          obtain ⟨rfl, rfl⟩ := Prod.mk.inj (Except.ok.inj (h.symm.trans h'))
          exact hall⟩
  | .error _ => isFalse (by
      rintro ⟨st'', code', h', -⟩
      exact absurd (h.symm.trans h') (by simp))

/-- No symbol the block has to remove lies on the alt stack. -/
def NoAltLocals (ctx : BlockContext) (st : SymbolTable) : Prop :=
  ∀ name ∈ st.newSymbol, isBlockLocal ctx st name = true → st.getPos name = none →
    st.getAltPos name ≠ none → ctx.preservesAltOutputs = true

instance (ctx : BlockContext) (st : SymbolTable) : Decidable (NoAltLocals ctx st) :=
  inferInstanceAs (Decidable (∀ name ∈ st.newSymbol, _))

/-! ### The main stack -/

variable {env : ScriptEnv} {ctx : BlockContext} {st : SymbolTable}
variable {name : String} {slots : Slots} {main alt : Stack} {pass : Pass}

/-- The pending drops take the tops they stand for. -/
theorem takes_flushPendingDrops (dropped main alt : Stack) :
    Takes env (flushPendingDrops dropped.length) (dropped ++ main, alt) (main, alt) := by
  induction hn : dropped.length using flushPendingDrops.induct generalizing dropped with
  | case1 =>
      obtain rfl := List.length_eq_zero_iff.1 hn
      exact Takes.refl _
  | case2 =>
      obtain ⟨x, rfl⟩ := List.length_eq_one_iff.1 hn
      exact takes_drop x main alt
  | case3 pendingDrops ih =>
      match dropped, hn with
      | x :: y :: dropped, hn =>
          rw [flushPendingDrops]
          exact (takes_2drop x y (dropped ++ main) alt).trans (ih dropped (by simpa using hn))

theorem eraseP_of_posOf {pos : ℕ} (h : posOf name (slots.map Prod.fst) = some pos) :
    pos < slots.length ∧ (slots.eraseP fun slot => slot.1.name == name) = slots.eraseIdx pos := by
  rw [posOf, List.findIdx?_map] at h
  refine ⟨(List.findIdx?_eq_some_iff_findIdx_eq.1 h).1, ?_⟩
  rw [List.eraseP_eq_eraseIdx, show slots.findIdx? (fun slot => slot.1.name == name) = some pos
    from h]

theorem eraseP_of_posOf_eq_none (h : posOf name (slots.map Prod.fst) = none) :
    (slots.eraseP fun slot => slot.1.name == name) = slots := by
  rw [posOf, List.findIdx?_map] at h
  rw [List.eraseP_eq_eraseIdx, show slots.findIdx? (fun slot => slot.1.name == name) = none
    from h]

/-- What the second pass keeps true: `slots` are the slots of the main stack that are left, with
their values, and at run time the tops whose drops are pending still lie above them. -/
structure PassInv (env : ScriptEnv) (st : SymbolTable) (main alt : Stack) (pass : Pass)
    (slots : Slots) : Prop where
  table_main : pass.table.main = slots.map Prod.fst
  table_alt : pass.table.alt = st.alt
  resolve : pass.table.resolveBindSymbol = st.resolveBindSymbol
  bound : slots.length ≤ maxSlots
  takes : ∃ dropped : Stack, dropped.length = pass.pendingDrops ∧
    Takes env pass.code (main, alt) (dropped ++ slots.map Prod.snd, alt)

theorem PassInv.takes_flush (h : PassInv env st main alt pass slots) :
    Takes env (pass.code ++ flushPendingDrops pass.pendingDrops) (main, alt)
      (slots.map Prod.snd, alt) := by
  obtain ⟨dropped, hlen, htakes⟩ := h.takes
  rw [← hlen]
  exact htakes.trans (takes_flushPendingDrops dropped _ alt)

theorem mainStep_top (h : pass.table.getPos name = some 0) : mainStep pass name =
      .ok { pass with table := pass.table.popSlot, pendingDrops := pass.pendingDrops + 1 } := by
  simp only [mainStep, h]

theorem mainStep_second (h : pass.table.getPos name = some 1) (hlt : 1 < pass.table.main.length) :
    mainStep pass name = .ok ⟨{ pass.table with
        main := pass.table.main.eraseIdx 1
        newSymbol := eraseLast pass.table.main[1].name pass.table.newSymbol }, 0,
      pass.code ++ flushPendingDrops pass.pendingDrops ++ emitOp .opNip⟩ := by
  rw [mainStep, h]
  simp only [SymbolTable.dropAt_of_lt hlt, bind, Except.bind, pure, Except.pure]

theorem mainStep_deep {pos : ℕ}
    (h : pass.table.getPos name = some (pos + 2)) (hlt : pos + 2 < pass.table.main.length) :
    mainStep pass name = .ok ⟨{ pass.table with main := pass.table.main.eraseIdx (pos + 2) }, 0,
      pass.code ++ flushPendingDrops pass.pendingDrops ++ emitRoll (pos + 2) ++ emitOp .opDrop⟩ := by
  rw [mainStep, h]
  simp only [SymbolTable.roll_of_lt hlt, bind, Except.bind, pure, Except.pure, SymbolTable.popSlot,
    List.tail_cons]

/-- One turn of the second pass takes out the topmost slot of its symbol. -/
theorem mainStep_spec (h : PassInv env st main alt pass slots) (name : String) :
    ∃ pass', mainStep pass name = .ok pass' ∧ PassInv env st main alt pass'
      (slots.eraseP fun slot => slot.1.name == st.resolveBindSymbol name) := by
  have hpos : pass.table.getPos name = posOf (st.resolveBindSymbol name) (slots.map Prod.fst) := by
    rw [SymbolTable.getPos, h.resolve, h.table_main]
  cases hp : posOf (st.resolveBindSymbol name) (slots.map Prod.fst) with
  | none =>
      rw [hp] at hpos
      refine ⟨pass, by rw [mainStep, hpos], ?_⟩
      rw [eraseP_of_posOf_eq_none hp]
      exact h
  | some pos =>
      rw [hp] at hpos
      obtain ⟨hlt, herase⟩ := eraseP_of_posOf hp
      have hlt' : pos < pass.table.main.length := by
        rw [h.table_main, List.length_map]
        exact hlt
      have hbound : (slots.eraseIdx pos).length ≤ maxSlots := by
        have := h.bound
        have := List.length_eraseIdx_le slots pos
        omega
      have hmain : pass.table.main.eraseIdx pos = (slots.eraseIdx pos).map Prod.fst := by
        rw [h.table_main, ← List.eraseIdx_map]
      have hresolve : ∀ main newSymbol, SymbolTable.resolveBindSymbol
          { pass.table with main := main, newSymbol := newSymbol } = st.resolveBindSymbol :=
        fun main newSymbol =>
          (pass.table.resolveBindSymbol_slots main pass.table.alt newSymbol).trans h.resolve
      rw [herase]
      match pos with
      | 0 =>
          refine ⟨_, mainStep_top hpos, ?_, h.table_alt, hresolve _ _, hbound, ?_⟩
          · rw [← hmain, List.eraseIdx_zero]
            rfl
          · obtain ⟨dropped, hlen, htakes⟩ := h.takes
            obtain ⟨slot, rest, hslots⟩ := List.exists_cons_of_length_pos hlt
            rw [hslots] at htakes ⊢
            exact ⟨dropped ++ [slot.2], by simp [hlen], by simpa using htakes⟩
      | 1 =>
          refine ⟨_, mainStep_second hpos hlt', hmain, h.table_alt, hresolve _ _, hbound, [], rfl, ?_⟩
          have hflush := h.takes_flush
          match slots, hlt with
          | x :: y :: rest, _ => exact hflush.trans (takes_nip _ _ _ alt)
      | pos + 2 =>
          refine ⟨_, mainStep_deep hpos hlt', hmain, h.table_alt, hresolve _ _, hbound, [], rfl, ?_⟩
          have hvalue : pos + 2 < (slots.map Prod.snd).length := by simpa using hlt
          have hsize : (slots.map Prod.snd).length < 2 ^ 63 := by
            have := h.bound
            rw [maxSlots] at this
            rw [List.length_map]
            omega
          have hroll : Takes env (emitRoll (pos + 2)) (slots.map Prod.snd, alt) _ :=
            takes_roll hvalue hsize alt
          rw [List.eraseIdx_map] at hroll
          exact (h.takes_flush.trans hroll).trans (takes_drop _ _ alt)

theorem foldlM_mainStep_spec (names : List String) (h : PassInv env st main alt pass slots) :
    ∃ pass', names.foldlM mainStep pass = .ok pass' ∧
      PassInv env st main alt pass' (kept st names slots) := by
  induction names generalizing pass slots with
  | nil => exact ⟨pass, rfl, h⟩
  | cons name names ih =>
      obtain ⟨next, hnext, hinv⟩ := mainStep_spec h name
      obtain ⟨pass', hpass', hinv'⟩ := ih hinv
      refine ⟨pass', ?_, hinv'⟩
      simp only [List.foldlM_cons, hnext, bind, Except.bind, hpass']

/-- **On the main stack the cleanup takes out exactly the slots of the block's symbols.** -/
theorem takes_mainCleanup (env : ScriptEnv) (ctx : BlockContext) (h : Matches st main alt) :
    ∃ table code, mainCleanup st (sortedMainSymbols ctx st) = .ok (table, code) ∧
      Takes env code (main, alt)
        ((kept st (mainStackSymbols ctx st) (st.main.zip main)).map Prod.snd, alt) ∧
      table.main = (kept st (mainStackSymbols ctx st) (st.main.zip main)).map Prod.fst ∧
      table.alt = st.alt := by
  have hfst : (st.main.zip main).map Prod.fst = st.main :=
    List.map_fst_zip (by rw [h.main_length])
  have hsnd : (st.main.zip main).map Prod.snd = main :=
    List.map_snd_zip (by rw [h.main_length])
  have hinv : PassInv env st main alt ⟨st, 0, []⟩ (st.main.zip main) := by
    refine ⟨hfst.symm, rfl, rfl, ?_, [], rfl, ?_⟩
    · rw [← List.length_map Prod.fst, hfst]
      exact h.main_bound
    · rw [hsnd]
      exact Takes.refl _
  obtain ⟨pass, hpass, hinv'⟩ := foldlM_mainStep_spec (sortedMainSymbols ctx st) hinv
  have hperm : kept st (sortedMainSymbols ctx st) (st.main.zip main) =
      kept st (mainStackSymbols ctx st) (st.main.zip main) :=
    removeSlots_perm _ ((List.perm_insertionSort _ _).map _) _
  rw [hperm] at hinv'
  refine ⟨pass.table, pass.code ++ flushPendingDrops pass.pendingDrops, ?_, hinv'.takes_flush,
    hinv'.table_main, hinv'.table_alt⟩
  simp only [mainCleanup, hpass, bind, Except.bind, pure, Except.pure]

/-! ### The alt stack -/

/-- Wherever the machine executes at the outermost level and the code runs through, the height of
the alt stack changes by `d`. -/
def AltShift (env : ScriptEnv) (code : List String) (d : ℤ) : Prop :=
  ∀ main alt vm, final env code ⟨main, alt, [], false⟩ = some vm →
    vm.conds = [] ∧ vm.finished = false ∧ (vm.alt.length : ℤ) = alt.length + d

theorem AltShift.nil : AltShift env [] 0 := by
  intro main alt vm h
  obtain rfl := Option.some_inj.1 h
  simp

theorem AltShift.append {code code' : List String} {d d' : ℤ} (h : AltShift env code d)
    (h' : AltShift env code' d') : AltShift env (code ++ code') (d + d') := by
  intro main alt vm hrun
  rw [final_append] at hrun
  obtain ⟨⟨main', alt', conds', finished'⟩, hmid, hrest⟩ := Option.bind_eq_some_iff.1 hrun
  obtain ⟨hconds, hfinished, hlen⟩ := h main alt _ hmid
  simp only at hconds hfinished hlen
  subst hconds hfinished
  obtain ⟨hconds', hfinished', hlen'⟩ := h' main' alt' vm hrest
  exact ⟨hconds', hfinished', by omega⟩

theorem AltShift.repeatOp {op : BytOpcode} {d : ℤ} (h : AltShift env (emitOp op) d) (count : ℕ) :
    AltShift env (repeatOp op count) (count * d) := by
  induction count with
  | zero =>
      have hnil : AltShift env [] 0 := AltShift.nil
      simpa [BlockCleanup.repeatOp] using hnil
  | succ count ih =>
      have happend : BlockCleanup.repeatOp op (count + 1) =
          emitOp op ++ BlockCleanup.repeatOp op count := by
        simp [BlockCleanup.repeatOp, List.replicate_succ]
      have hd : ((count + 1 : ℕ) : ℤ) * d = d + count * d := by push_cast; ring
      rw [happend, hd]
      exact h.append ih

theorem final_emitOp {op : BytOpcode} (hop : isOneByte op = true) (main alt : Stack) :
    final env (emitOp op) ⟨main, alt, [], false⟩ =
      (executeKnown env.toEnv [] op ⟨main, alt, [], false⟩).toOption := by
  rw [emitOp, final_singleton rfl, execAtom, completeInstruction_opcodeToHex hop]
  simp [executeOpcode, BytOpcode.ofByte?_toByte, VM.isCurrentlyExecuting_mk]

theorem altShift_drop : AltShift env (emitOp .opDrop) 0 := by
  intro main alt vm h
  rw [final_emitOp (by decide)] at h
  cases main with
  | nil => simp [executeKnown, mainOp, smallInteger, VM.onMain, Stack.drop, Except.toOption, bind,
      Except.bind] at h
  | cons x main =>
      obtain rfl := Option.some_inj.1 h
      simp

theorem altShift_fromaltstack : AltShift env (emitOp .opFromaltstack) (-1) := by
  intro main alt vm h
  rw [final_emitOp (by decide)] at h
  cases alt with
  | nil => simp [executeKnown, mainOp, smallInteger, VM.opFromaltstack, Except.toOption, bind,
      Except.bind] at h
  | cons x alt =>
      obtain rfl := Option.some_inj.1 h
      simp

theorem altShift_toaltstack : AltShift env (emitOp .opToaltstack) 1 := by
  intro main alt vm h
  rw [final_emitOp (by decide)] at h
  cases main with
  | nil => simp [executeKnown, mainOp, smallInteger, VM.opToaltstack, Except.toOption, bind,
      Except.bind] at h
  | cons x main =>
      obtain rfl := Option.some_inj.1 h
      simp

/-- One turn of the loop over the alt stack leaves its run-time height alone: as many slots go back
as have come. -/
theorem altStep_altShift (env : ScriptEnv) (acc : SymbolTable × List String) (entry : ℕ × String) :
    ∃ code, (altStep acc entry).2 = acc.2 ++ code ∧ AltShift env code 0 := by
  unfold altStep
  split
  · exact ⟨[], by simp, AltShift.nil⟩
  · have hfrom : AltShift env (emitOp .opFromaltstack) (-1) := altShift_fromaltstack
    have hshift := (hfrom.repeatOp (acc.1.setMain entry.2).2).append (altShift_drop.append
      (altShift_toaltstack.repeatOp (acc.1.setMain entry.2).2))
    have hzero : ((acc.1.setMain entry.2).2 : ℤ) * (-1) +
        (0 + ((acc.1.setMain entry.2).2 : ℤ) * 1) = 0 := by ring
    rw [hzero] at hshift
    exact ⟨_, by simp only [List.append_assoc], hshift⟩

theorem foldl_altStep_altShift (env : ScriptEnv) (entries : List (ℕ × String)) (acc : SymbolTable × List String) :
    ∃ code, (entries.foldl altStep acc).2 = acc.2 ++ code ∧ AltShift env code 0 := by
  induction entries generalizing acc with
  | nil => exact ⟨[], by simp, AltShift.nil⟩
  | cons entry entries ih =>
      obtain ⟨code, hcode, hshift⟩ := altStep_altShift env acc entry
      obtain ⟨rest, hrest, hshift'⟩ := ih (altStep acc entry)
      refine ⟨code ++ rest, ?_, by simpa using hshift.append hshift'⟩
      rw [List.foldl_cons, hrest, hcode, List.append_assoc]

/-! ### The whole cleanup -/

theorem altStackSymbols_eq_nil_iff : altStackSymbols ctx st = [] ↔ NoAltLocals ctx st := by
  simp only [altStackSymbols, NoAltLocals, List.filter_eq_nil_iff, Bool.and_eq_true,
    Bool.not_eq_true', Option.isNone_iff_eq_none, Option.isSome_iff_ne_none, not_and,
    Bool.not_eq_false, and_imp]

theorem cleanup_eq (ctx : BlockContext) (st : SymbolTable) :
    cleanup ctx st = (mainCleanup st (sortedMainSymbols ctx st)).map
      ((isAltStackMap ctx st).foldl altStep) := by
  unfold cleanup
  split_ifs with h
  · rw [List.isEmpty_iff] at h
    simp [sortedMainSymbols, mainStackSymbols, isAltStackMap, altStackSymbols, h, mainCleanup,
      Except.map, bind, Except.bind, pure, Except.pure, flushPendingDrops]
  · cases mainCleanup st (sortedMainSymbols ctx st) <;> rfl

/-- Whatever the cleanup emits leaves the run-time alt stack as high as it was. -/
theorem cleanup_alt_length {main' alt' : Stack} (h : Matches st main alt)
    {st' : SymbolTable} {code : List String} (hcleanup : cleanup ctx st = .ok (st', code))
    (hrun : outcome env code main alt = some (main', alt')) : alt'.length = alt.length := by
  obtain ⟨table, mainCode, hmain, htakes, -, -⟩ := takes_mainCleanup env ctx h
  obtain ⟨altCode, hcode, hshift⟩ := foldl_altStep_altShift env (isAltStackMap ctx st)
    (table, mainCode)
  rw [cleanup_eq, hmain] at hcleanup
  have hfold : (isAltStackMap ctx st).foldl altStep (table, mainCode) = (st', code) := by
    simpa [Except.map] using hcleanup
  rw [hfold] at hcode
  simp only at hcode
  rw [hcode, outcome, final_append, htakes [] rfl, Option.bind_some] at hrun
  obtain ⟨vm, hvm, hstacks⟩ := Option.map_eq_some_iff.1 hrun
  have hlen := (hshift _ _ vm hvm).2.2
  have halt : vm.alt = alt' := congrArg Prod.snd hstacks
  rw [halt] at hlen
  simpa using hlen

/-- **The cleanup removes exactly the slots of the block's symbols when, and only when, none of them
lies on the alt stack.** -/
theorem cleanupExact_iff {main alt : Stack} (h : Matches st main alt) :
    CleanupExact env ctx st main alt ↔ NoAltLocals ctx st := by
  rw [← altStackSymbols_eq_nil_iff]
  have hfst : (st.alt.zip alt).map Prod.fst = st.alt := List.map_fst_zip (by rw [h.alt_length])
  have hsnd : (st.alt.zip alt).map Prod.snd = alt := List.map_snd_zip (by rw [h.alt_length])
  constructor
  · rintro ⟨st', code, hcleanup, hrun, -, -⟩
    have hlen := cleanup_alt_length h hcleanup hrun
    cases hnames : altStackSymbols ctx st with
    | nil => rfl
    | cons name names =>
        -- the slot of the first of them should be gone, and nothing is
        have hmem : name ∈ altStackSymbols ctx st := by simp [hnames]
        simp only [altStackSymbols, List.mem_filter, Bool.and_eq_true] at hmem
        obtain ⟨pos, hpos⟩ := Option.isSome_iff_exists.1 hmem.2.1.2
        rw [SymbolTable.getAltPos, ← hfst] at hpos
        obtain ⟨slot, hslot, hkey⟩ : ∃ slot ∈ st.alt.zip alt,
            slot.1.name = st.resolveBindSymbol name := by
          rw [posOf, List.findIdx?_map] at hpos
          obtain ⟨slot, hslot, hkey⟩ := List.findIdx?_isSome.symm.trans (by rw [hpos]; rfl) |>
            List.any_eq_true.1
          exact ⟨slot, hslot, by simpa using hkey⟩
        have hlt : (removeSlots (fun slot : StackElement × Bytes => slot.1.name)
            (st.resolveBindSymbol name :: names.map st.resolveBindSymbol)
            (st.alt.zip alt)).length < (st.alt.zip alt).length :=
          removeSlots_length_lt _ ⟨slot, hslot, hkey⟩
        have hzip := congrArg List.length hsnd
        rw [hnames, kept, List.map_cons, List.length_map] at hlen
        rw [List.length_map] at hzip
        omega
  · intro hnil
    obtain ⟨table, code, hmain, htakes, htable, halt⟩ :=
      takes_mainCleanup env ctx h
    have hkept : kept st (altStackSymbols ctx st) (st.alt.zip alt) = st.alt.zip alt := by
      rw [hnil]
      rfl
    refine ⟨table, code, ?_, ?_, htable, ?_⟩
    · rw [cleanup_eq, hmain, isAltStackMap, hnil]
      rfl
    · rw [hkept, hsnd]
      exact htakes.outcome
    · rw [hkept, hfst, halt]

/-- A block of a public function that has put its own variable `x` on the alt stack, above the
caller's `b` on the main stack. -/
def altLocalState : SymbolTable where
  main := [{ name := "b" }]
  alt := [{ name := "x" }]
  newSymbol := ["x"]
  declaredSymbols := ["x"]
  currentScope := [("b", { name := "b" }), ("x", { name := "x" })]

/-- The block is entered with `b` alone and hands nothing on. -/
def altLocalContext : BlockContext where
  entryState := { main := [{ name := "b" }], alt := [], currentScope := [("b", { name := "b" })] }
  outerWholeArrays := []
  preservesAltOutputs := false

/-- The cleanup of that block emits a single `OP_DROP`, which takes the value of `b` and leaves the
value of `x`. -/
theorem cleanup_altLocal :
    Matches altLocalState [[0x01]] [[0x02]] ∧
      ¬ CleanupExact .plain altLocalContext altLocalState [[0x01]] [[0x02]] :=
  ⟨⟨rfl, rfl, by decide, by decide⟩, by decide +kernel⟩

/-- A block whose variables `x`, `y` and `z` lie at different depths of the main stack. -/
def mainLocalState : SymbolTable where
  main := [{ name := "x" }, { name := "b" }, { name := "y" }, { name := "a" }, { name := "z" }]
  alt := [{ name := "o" }]
  newSymbol := ["z", "y", "x"]
  declaredSymbols := ["x", "y", "z"]
  currentScope := [("a", { name := "a" }), ("b", { name := "b" }), ("x", { name := "x" }),
    ("y", { name := "y" }), ("z", { name := "z" })]

theorem cleanupExact_mainLocal :
    CleanupExact .plain altLocalContext mainLocalState [[1], [2], [3], [4], [5]] [[6]] :=
  (cleanupExact_iff ⟨rfl, rfl, by decide, by decide⟩).2 (by decide +kernel)

end BlockCleanup

end AtomicProof
