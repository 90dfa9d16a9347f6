/-
The layout of the arguments of a call.

Before a call `adjustStackToMatch` brings the arguments to the top of the stack, the last one
topmost, and takes their slots out of its picture of the stack.  An argument is the text of an
inline script or the name of a slot.  The slots are permuted by a plan of the permutation planner
where one is cheaper, left alone where they lie in place, and otherwise rolled to the top one by
one; two of them that lie next to each other may be moved with one `2SWAP` or `2ROT`.

Main definitions:

* `analyzeArgumentLayout`, `adjustStackToMatch` — the choice of the layout and the layout;
* `LayoutExact` — the arguments are on top, and every other slot where it was;
* `PairFree` — nowhere in the loop do the depths of two arguments call for a pair shortcut.

Main results:

* `takes_placePair` — what a pair shortcut moves, and it is not the second argument;
* `layoutExact_iff` — **the layout is right if and only if no pair shortcut is taken**.
-/

import AtomicProof.StackPlanner
import AtomicProof.BlockCleanup

set_option autoImplicit false

namespace AtomicProof

namespace ArgumentLayout

open BlockCleanup (Slots)

/-! ### The choice of a layout -/

def rollByteCost (depth : ℕ) : ℕ :=
  if depth = 0 then 0
  else if depth ≤ 2 then 1
  else StackPlanStep.encodedByteSize (numberToScriptHex depth) + 1

structure ArgumentLayoutAnalysis where
  argumentSlots : List ℕ := []
  legacyBytes : ℕ := 0
  strictMovePlan : Option StackPermutationPlan := none

/-- The body of the first loop of `analyzeArgumentLayout`. -/
def addArgumentSlot (st : SymbolTable) (slots : List ℕ) (argument : StackElement) :
    Option (List ℕ) :=
  if isScript argument.name then none
  else
    match st.getPos argument.name with
    | none => none
    | some slot => if slot ∈ slots then none else some (slots ++ [slot])

/-- The bytes of rolling the slots to the top one by one: `remaining` are the slots that are left,
and `index` of them are on top already. -/
def rollCost : List ℕ → ℕ → List ℕ → Option ℕ
  | _, _, [] => some 0
  | remaining, index, slot :: slots =>
      match remaining.idxOf? slot with
      | none => none
      | some symbolicPosition =>
          (rollCost (remaining.erase slot) (index + 1) slots).map
            (rollByteCost (symbolicPosition + index) + ·)

def legacyBytes (st : SymbolTable) (slots : List ℕ) : Option ℕ :=
  if ∀ i < slots.length, slots[i]? = some (slots.length - 1 - i) then some 0
  else if slots = [3, 1] ∨ slots = [5, 3] then some 1
  else rollCost (List.range st.main.length) 0 slots

/-- The order of the window that is asked for: the last argument first, then the other slots. -/
def targetTopFirst (slots : List ℕ) (windowSize : ℕ) : List ℕ :=
  slots.reverse ++ (List.range windowSize).filter (· ∉ slots)

def analyzeArgumentLayout (st : SymbolTable) (arguments : List StackElement) :
    Except String (Option ArgumentLayoutAnalysis) :=
  if arguments = [] then .ok (some {})
  else
    match arguments.foldlM (addArgumentSlot st) [] with
    | none => .ok none
    | some slots =>
        match legacyBytes st slots with
        | none => .ok none
        | some bytes =>
            let windowSize := slots.foldl max 0 + 1
            if maxMoveWindow < windowSize ∨ bytes = 0 then
              .ok (some { argumentSlots := slots, legacyBytes := bytes })
            else do
              let movePlan ← planMoveOnlyIds (List.range windowSize) (targetTopFirst slots windowSize)
              pure (some {
                argumentSlots := slots
                legacyBytes := bytes
                strictMovePlan := movePlan.filter (·.serializedBytes < bytes) })

/-! ### The layout -/

def applyMoveOnlyStep (st : SymbolTable) (step : StackPlanStep) : Except String SymbolTable :=
  match step.op with
  | .swap => st.roll 1
  | .rot => st.roll 2
  | .twoSwap => do
      let st ← st.roll 3
      st.roll 3
  | .twoRot => do
      let st ← st.roll 5
      st.roll 5
  | .roll => st.roll step.depth
  | _ => .error "non-move step in move-only stack plan"

def emitAndApplyMoveOnlyPlan (st : SymbolTable) :
    List StackPlanStep → Except String (SymbolTable × List String)
  | [] => .ok (st, [])
  | step :: steps => do
      let st ← applyMoveOnlyStep st step
      let (st, code) ← emitAndApplyMoveOnlyPlan st steps
      pure (st, step.encodedInstructions.flatMap emitText ++ code)

/-- `allInCorrectPosition`: the argument with `n` arguments after it lies at the place `n`. -/
def allInCorrectPosition (st : SymbolTable) : List StackElement → Bool
  | [] => true
  | argument :: rest =>
      !isScript argument.name && st.getPos argument.name == some rest.length &&
        allInCorrectPosition st rest

/-- A slot is rolled to the top of the picture and taken out of it. -/
def takeSlot (st : SymbolTable) (pos : ℕ) : Except String SymbolTable := do
  let st ← st.roll pos
  pure st.pop

/-- The slots of arguments that lie in place are taken out of the picture. -/
def takeInPlace (st : SymbolTable) : List StackElement → Except String SymbolTable
  | [] => .ok st
  | argument :: rest =>
      match st.getPos argument.name with
      | none => .error "bad optional access"
      | some pos => do
          let st ← takeSlot st pos
          takeInPlace st rest

/-- The shortcut for two arguments of which `i` others are on top already: the opcode, and the
places of both in the picture. -/
def pairShortcut (st : SymbolTable) (i : ℕ) (argument next : StackElement) :
    Option (BytOpcode × ℕ × ℕ) :=
  if isScript argument.name || isScript next.name then none
  else
    match st.getPos argument.name, st.getPos next.name with
    | some pos, some nextPos =>
        if pos + i = 3 ∧ nextPos + i + 1 = 2 then some (.op2swap, pos, nextPos)
        else if pos + i = 5 ∧ nextPos + i + 1 = 4 then some (.op2rot, pos, nextPos)
        else none
    | _, _ => none

/-- One argument is brought to the top, of which `i` others are there already. -/
def placeOne (st : SymbolTable) (i : ℕ) (argument : StackElement) :
    Except String (SymbolTable × List String) :=
  if isScript argument.name then .ok (st, emitText argument.name)
  else
    match st.getPos argument.name with
    | none =>
        .error ("Unable to find element '" ++ argument.name ++
          "' on stack during function call argument processing")
    | some pos => do
        let st ← takeSlot st pos
        pure (st, emitRoll (pos + i))

/-- The loop over the arguments, of which `i` are on top already. -/
def placeArguments (st : SymbolTable) (i : ℕ) :
    List StackElement → Except String (SymbolTable × List String)
  | [] => .ok (st, [])
  | [argument] => placeOne st i argument
  | argument :: next :: rest =>
      match pairShortcut st i argument next with
      | some (op, pos, nextPos) => do
          let st ← takeSlot st pos
          let st ← takeSlot st nextPos
          let (st, code) ← placeArguments st (i + 2) rest
          pure (st, emitOp op ++ code)
      | none => do
          let (st, code) ← placeOne st i argument
          let (st, code') ← placeArguments st (i + 1) (next :: rest)
          pure (st, code ++ code')

/-- `adjustStackToMatch`: the picture afterwards and the emitted instructions. -/
def adjustStackToMatch (st : SymbolTable) (arguments : List StackElement) :
    Except String (SymbolTable × List String) :=
  if arguments = [] then .ok (st, [])
  else do
    let layout ← analyzeArgumentLayout st arguments
    match layout.bind (·.strictMovePlan) with
    | some plan => do
        let (st, code) ← emitAndApplyMoveOnlyPlan st plan.steps
        pure (SymbolTable.pop^[arguments.length] st, code)
    | none =>
        if allInCorrectPosition st arguments then do
          let st ← takeInPlace st arguments
          pure (st, [])
        else placeArguments st 0 arguments

/-! ### What the layout is for -/

def argumentNames (st : SymbolTable) (arguments : List StackElement) : List String :=
  (arguments.filter fun argument => !isScript argument.name).map
    fun argument => st.resolveBindSymbol argument.name

/-- The slots that no argument names, in their order. -/
def otherSlots (st : SymbolTable) (arguments : List StackElement) (slots : Slots) : Slots :=
  slots.filter fun slot => slot.1.name ∉ argumentNames st arguments

/-- The value of an argument: what its script pushes, or the value of its slot. -/
def argumentValue (script : String → Bytes) (st : SymbolTable) (slots : Slots)
    (argument : StackElement) : Bytes :=
  if isScript argument.name then script argument.name
  else
    ((slots.find? fun slot => slot.1.name == st.resolveBindSymbol argument.name).map
      Prod.snd).getD []

/-- The emitted instructions leave the slots that are no arguments where they were, and on top of
them the arguments, the last one topmost; and the picture is that of the slots below. -/
def LayoutExact (env : ScriptEnv) (script : String → Bytes) (st : SymbolTable)
    (arguments : List StackElement) (main alt : Stack) : Prop :=
  let slots := st.main.zip main
  let others := otherSlots st arguments slots
  ∃ st' code, adjustStackToMatch st arguments = .ok (st', code) ∧
    Takes env code (main, alt)
      ((arguments.map (argumentValue script st slots)).reverse ++ others.map Prod.snd, alt) ∧
    st'.main = others.map Prod.fst

/-- The run-time depth of a slot when the arguments `placed` are on top. -/
def runtimeDepth (st : SymbolTable) (placed : List StackElement) (name : String) : Option ℕ :=
  (posOf (st.resolveBindSymbol name)
    (st.main.filter fun slot => slot.name ∉ argumentNames st placed)).map (· + placed.length)

/-- Two arguments at the run-time depths 3 and 1, or 5 and 3. -/
def PairAt (st : SymbolTable) (placed : List StackElement) (argument next : StackElement) : Prop :=
  isScript argument.name = false ∧ isScript next.name = false ∧
    (runtimeDepth st placed argument.name = some 3 ∧ runtimeDepth st placed next.name = some 1 ∨
      runtimeDepth st placed argument.name = some 5 ∧ runtimeDepth st placed next.name = some 3)

/-- No two consecutive arguments are at such depths when the loop comes to them. -/
def PairFree (st : SymbolTable) (placed : List StackElement) : List StackElement → Prop
  | argument :: next :: rest =>
      ¬ PairAt st placed argument next ∧ PairFree st (placed ++ [argument]) (next :: rest)
  | _ => True

/-- The loop is what brings the arguments to the top. -/
def LoopIsRun (st : SymbolTable) (arguments : List StackElement) : Prop :=
  (∀ layout, analyzeArgumentLayout st arguments = .ok (some layout) →
    layout.strictMovePlan = none) ∧ allInCorrectPosition st arguments = false

/-! ### Run time -/

section Runtime

variable {env : ScriptEnv} {vs ws : Stack}

theorem rollTop_append {α : Type} (vs : List α) {ws : List α} {k : ℕ} (hk : k < ws.length) :
    rollTop (k + vs.length) (vs ++ ws) = some (ws[k] :: (vs ++ ws.eraseIdx k)) := by
  have hlt : k + vs.length < (vs ++ ws).length := by
    rw [List.length_append]
    omega
  rw [rollTop_of_lt hlt, List.getElem_append_right (by omega),
    List.eraseIdx_append_of_length_le (by omega)]
  simp

theorem takes_roll_append {k : ℕ} (hk : k < ws.length) (hsize : (vs ++ ws).length < 2 ^ 63)
    (alt : Stack) :
    Takes env (emitRoll (k + vs.length)) (vs ++ ws, alt) (ws[k] :: (vs ++ ws.eraseIdx k), alt) := by
  have hlt : k + vs.length < (vs ++ ws).length := by
    rw [List.length_append]
    omega
  have hroll := rollTop_append vs hk
  rw [rollTop_of_lt hlt, Option.some.injEq] at hroll
  have htakes : Takes env _ _ _ := takes_roll hlt hsize alt
  rwa [hroll] at htakes

/-- A pair shortcut moves the slot of the argument and the one right above it. -/
theorem takes_placePair {op : BytOpcode} {k : ℕ}
    (hop : op = .op2swap ∧ k + 1 + vs.length = 3 ∨ op = .op2rot ∧ k + 1 + vs.length = 5)
    (hk : k + 1 < ws.length) (hsize : (vs ++ ws).length < 2 ^ 63) (alt : Stack) :
    Takes env (emitOp op) (vs ++ ws, alt)
      (ws[k] :: ws[k + 1] :: (vs ++ (ws.eraseIdx (k + 1)).eraseIdx k), alt) := by
  have hpair : rollAll [k + 1 + vs.length, k + 1 + vs.length] (vs ++ ws) =
      some (ws[k] :: ws[k + 1] :: (vs ++ (ws.eraseIdx (k + 1)).eraseIdx k)) := by
    have hk' : k < (ws.eraseIdx (k + 1)).length := by
      rw [List.length_eraseIdx_of_lt hk]
      omega
    have hsecond := rollTop_append (ws[k + 1] :: vs) hk'
    rw [List.getElem_eraseIdx_of_lt hk' (by omega)] at hsecond
    have hlen : k + 1 + vs.length = k + (ws[k + 1] :: vs).length := by
      rw [List.length_cons]
      omega
    rw [rollAll_cons, rollTop_append vs hk, Option.bind_some, rollAll_singleton, hlen]
    exact hsecond
  obtain ⟨-, -, h2swap, h2rot, -⟩ := emitText_opcode
  rcases hop with ⟨rfl, hdepth⟩ | ⟨rfl, hdepth⟩
  · have hstep : applyMoveOnly ⟨.twoSwap, 3⟩ (vs ++ ws) =
        some (ws[k] :: ws[k + 1] :: (vs ++ (ws.eraseIdx (k + 1)).eraseIdx k)) := by
      rw [hdepth] at hpair
      rw [applyMoveOnly_eq_rollAll rfl]
      exact hpair
    have htakes : Takes env _ _ _ := takes_step_of_size hstep hsize alt
    simpa [StackPlanStep.encodedInstructions, h2swap] using htakes
  · have hstep : applyMoveOnly ⟨.twoRot, 5⟩ (vs ++ ws) =
        some (ws[k] :: ws[k + 1] :: (vs ++ (ws.eraseIdx (k + 1)).eraseIdx k)) := by
      rw [hdepth] at hpair
      rw [applyMoveOnly_eq_rollAll rfl]
      exact hpair
    have htakes : Takes env _ _ _ := takes_step_of_size hstep hsize alt
    simpa [StackPlanStep.encodedInstructions, h2rot] using htakes

end Runtime

/-! ### The picture -/

/-- The picture `table` shows `slots`, and names are resolved as in `st`. -/
structure Shows (st table : SymbolTable) (slots : Slots) : Prop where
  main : table.main = slots.map Prod.fst
  resolve : table.resolveBindSymbol = st.resolveBindSymbol

section Picture

variable {st table : SymbolTable} {slots : Slots}

theorem Shows.getPos (h : Shows st table slots) (name : String) :
    table.getPos name = posOf (st.resolveBindSymbol name) (slots.map Prod.fst) := by
  rw [SymbolTable.getPos, h.resolve, h.main]

theorem Shows.roll (h : Shows st table slots) {depth : ℕ} {slots' : Slots}
    (hroll : rollTop depth slots = some slots') :
    ∃ table', table.roll depth = .ok table' ∧ Shows st table' slots' := by
  obtain ⟨hlt, rfl⟩ := rollTop_eq_some hroll
  have hlt' : depth < table.main.length := by
    rw [h.main, List.length_map]
    exact hlt
  refine ⟨_, SymbolTable.roll_of_lt hlt', ?_, ?_⟩
  · simp only [h.main, List.getElem_map, List.map_cons, List.eraseIdx_map]
  · rw [← h.resolve]
    exact table.resolveBindSymbol_slots _ table.alt table.newSymbol

theorem Shows.takeSlot (h : Shows st table slots) {pos : ℕ} (hpos : pos < slots.length) :
    ∃ table', takeSlot table pos = .ok table' ∧ Shows st table' (slots.eraseIdx pos) := by
  obtain ⟨rolled, hrolled, hshows⟩ := h.roll (rollTop_of_lt hpos)
  refine ⟨rolled.pop, ?_, ?_⟩
  · simp only [ArgumentLayout.takeSlot, hrolled, bind, Except.bind, pure, Except.pure]
  · have hmain := hshows.main
    rw [List.map_cons] at hmain
    simp only [SymbolTable.pop, hmain]
    refine ⟨rfl, ?_⟩
    rw [← hshows.resolve]
    exact rolled.resolveBindSymbol_slots _ rolled.alt _

/-- Popping the picture drops slots from the top. -/
theorem Shows.pops (h : Shows st table slots) {n : ℕ} (hn : n ≤ slots.length) :
    Shows st (SymbolTable.pop^[n] table) (slots.drop n) := by
  induction n generalizing table slots with
  | zero => exact h
  | succ n ih =>
      obtain ⟨slot, rest, rfl⟩ := List.exists_cons_of_length_pos (Nat.lt_of_lt_of_le n.succ_pos hn)
      rw [Function.iterate_succ_apply, List.drop_succ_cons]
      refine ih ?_ (by simpa using hn)
      have hmain := h.main
      rw [List.map_cons] at hmain
      simp only [SymbolTable.pop, hmain]
      refine ⟨rfl, ?_⟩
      rw [← h.resolve]
      exact table.resolveBindSymbol_slots _ table.alt _

end Picture

/-! ### Slots of distinct names -/

section Slots

variable {st : SymbolTable} {slots : Slots} {placed : List StackElement} {name : String} {pos : ℕ}

theorem nodup_otherSlots (hnodup : (slots.map (·.1.name)).Nodup) :
    ((otherSlots st placed slots).map (·.1.name)).Nodup :=
  hnodup.sublist (List.filter_sublist.map _)

theorem getElem_posOf (h : posOf name (slots.map Prod.fst) = some pos) :
    ∃ hlt : pos < slots.length, slots[pos].1.name = name := by
  rw [posOf, List.findIdx?_map, List.findIdx?_eq_some_iff_getElem] at h
  obtain ⟨hlt, hname, -⟩ := h
  exact ⟨hlt, by simpa using hname⟩

theorem posOf_getElem (hnodup : (slots.map (·.1.name)).Nodup) (hlt : pos < slots.length) :
    posOf slots[pos].1.name (slots.map Prod.fst) = some pos := by
  rw [posOf, List.findIdx?_map, List.findIdx?_eq_some_iff_getElem]
  refine ⟨hlt, by simp, ?_⟩
  intro j hj hsame
  have hlt' : pos < (slots.map (·.1.name)).length := by simpa using hlt
  have hj' : j < (slots.map (·.1.name)).length := by omega
  have hnames : (slots.map (·.1.name))[j] = (slots.map (·.1.name))[pos] := by simpa using hsame
  exact absurd ((List.Nodup.getElem_inj_iff hnodup).mp hnames) (by omega)

theorem eraseIdx_eq_filter (hnodup : (slots.map (·.1.name)).Nodup)
    (h : posOf name (slots.map Prod.fst) = some pos) :
    slots.eraseIdx pos = slots.filter (·.1.name ≠ name) := by
  rw [← (BlockCleanup.eraseP_of_posOf h).2]
  clear h
  induction slots with
  | nil => rfl
  | cons slot rest ih =>
      rw [List.map_cons, List.nodup_cons] at hnodup
      by_cases hname : slot.1.name = name
      · have hrest : rest.filter (·.1.name ≠ name) = rest := by
          rw [List.filter_eq_self]
          intro other hother
          have hmem : other.1.name ∈ rest.map (·.1.name) := List.mem_map.mpr ⟨other, hother, rfl⟩
          have hne : other.1.name ≠ name := by
            rintro hsame
            rw [hsame, ← hname] at hmem
            exact hnodup.1 hmem
          simpa using hne
        rw [List.eraseP_cons_of_pos (by simpa using hname),
          List.filter_cons_of_neg (by simpa using hname), hrest]
      · rw [List.eraseP_cons_of_neg (by simpa using hname),
          List.filter_cons_of_pos (by simpa using hname), ih hnodup.2]

/-- The value of an argument whose slot is left. -/
theorem argumentValue_eq (script : String → Bytes) {argument : StackElement}
    (hnodup : (slots.map (·.1.name)).Nodup) (hscript : isScript argument.name = false)
    {left : Slots} (hleft : left ⊆ slots) (hlt : pos < left.length)
    (hname : left[pos].1.name = st.resolveBindSymbol argument.name) :
    argumentValue script st slots argument = left[pos].2 := by
  obtain ⟨i, hi, hget⟩ := List.getElem_of_mem (hleft (List.getElem_mem hlt))
  have hfound : slots.find? (fun slot => slot.1.name == st.resolveBindSymbol argument.name) =
      some slots[i] := by
    rw [List.find?_eq_some_iff_getElem]
    refine ⟨by rw [hget, hname]; simp, i, hi, rfl, ?_⟩
    intro j hj
    have hplace := posOf_getElem hnodup hi
    rw [hget, hname, posOf, List.findIdx?_map, List.findIdx?_eq_some_iff_getElem] at hplace
    simpa using hplace.2.2 j hj
  rw [argumentValue, if_neg (by rw [hscript]; simp), hfound, ← hget]
  rfl

theorem otherSlots_concat {argument : StackElement} (hnodup : (slots.map (·.1.name)).Nodup)
    (hscript : isScript argument.name = false)
    (h : posOf (st.resolveBindSymbol argument.name) ((otherSlots st placed slots).map Prod.fst) =
      some pos) :
    (otherSlots st placed slots).eraseIdx pos = otherSlots st (placed ++ [argument]) slots := by
  rw [eraseIdx_eq_filter (nodup_otherSlots hnodup) h, otherSlots, otherSlots, List.filter_filter]
  refine List.filter_congr fun slot _ => ?_
  have hnames : argumentNames st (placed ++ [argument]) =
      argumentNames st placed ++ [st.resolveBindSymbol argument.name] := by
    simp [argumentNames, hscript]
  rw [hnames, ← Bool.decide_and, decide_eq_decide, List.mem_append, not_or, List.mem_singleton]
  exact and_comm

theorem otherSlots_concat_script {argument : StackElement}
    (hscript : isScript argument.name = true) :
    otherSlots st (placed ++ [argument]) slots = otherSlots st placed slots := by
  rw [otherSlots, otherSlots]
  refine List.filter_congr fun slot _ => ?_
  simp [argumentNames, hscript]

end Slots

/-! ### The loop -/

/-- The stack when the arguments `placed` are on top. -/
def stackWith (script : String → Bytes) (st : SymbolTable) (slots : Slots)
    (placed : List StackElement) : Stack :=
  (placed.map (argumentValue script st slots)).reverse ++ (otherSlots st placed slots).map Prod.snd

/-- What the layout of arguments relies on: the slots have distinct names and so have the arguments
that name slots, each of them names a slot, and each script pushes its value. -/
structure Ready (env : ScriptEnv) (script : String → Bytes) (st : SymbolTable) (slots : Slots)
    (arguments : List StackElement) : Prop where
  slotNames : (slots.map (·.1.name)).Nodup
  slots_bound : slots.length ≤ maxSlots
  arguments_bound : arguments.length < 2 ^ 31
  names : (argumentNames st arguments).Nodup
  found : ∀ argument ∈ arguments, isScript argument.name = false →
    ∃ slot ∈ slots, slot.1.name = st.resolveBindSymbol argument.name
  scripts : ∀ argument ∈ arguments, isScript argument.name = true → ∀ main alt : Stack,
    Takes env (emitText argument.name) (main, alt) (script argument.name :: main, alt)

section Loop

variable {env : ScriptEnv} {script : String → Bytes} {st table : SymbolTable} {slots : Slots}
  {placed rest : List StackElement} {argument next : StackElement}

theorem argumentNames_append (placed rest : List StackElement) :
    argumentNames st (placed ++ rest) = argumentNames st placed ++ argumentNames st rest := by
  rw [argumentNames, argumentNames, argumentNames, List.filter_append, List.map_append]

theorem argumentNames_cons (hscript : isScript argument.name = false) (rest : List StackElement) :
    argumentNames st (argument :: rest) =
      st.resolveBindSymbol argument.name :: argumentNames st rest := by
  rw [argumentNames, List.filter_cons_of_pos (by rw [hscript]; rfl), List.map_cons, argumentNames]

/-- The slot of an argument is there when the loop comes to it. -/
theorem Ready.posOf (h : Ready env script st slots (placed ++ argument :: rest))
    (hscript : isScript argument.name = false) :
    ∃ pos, posOf (st.resolveBindSymbol argument.name)
      ((otherSlots st placed slots).map Prod.fst) = some pos := by
  obtain ⟨slot, hslot, hname⟩ := h.found argument (by simp) hscript
  have hnames := h.names
  rw [argumentNames_append, argumentNames_cons hscript, List.nodup_append] at hnames
  have hleft : slot ∈ otherSlots st placed slots := by
    refine List.mem_filter.mpr ⟨hslot, decide_eq_true ?_⟩
    intro hmem
    exact hnames.2.2 _ hmem _ List.mem_cons_self hname
  have hsome : (AtomicProof.posOf (st.resolveBindSymbol argument.name)
      ((otherSlots st placed slots).map Prod.fst)).isSome = true := by
    rw [AtomicProof.posOf, List.findIdx?_isSome, List.any_eq_true]
    exact ⟨slot.1, List.mem_map.mpr ⟨slot, hleft, rfl⟩, by simpa using hname⟩
  exact Option.isSome_iff_exists.mp hsome

theorem Ready.stackWith_bound (h : Ready env script st slots (placed ++ rest)) :
    (stackWith script st slots placed).length < 2 ^ 63 := by
  have hslots := h.slots_bound
  have hplaced := h.arguments_bound
  have hothers : (otherSlots st placed slots).length ≤ slots.length := List.length_filter_le _ _
  rw [List.length_append] at hplaced
  rw [maxSlots] at hslots
  rw [stackWith, List.length_append, List.length_reverse, List.length_map, List.length_map]
  omega

theorem stackWith_concat (value : Bytes) (others : Slots)
    (hvalue : argumentValue script st slots argument = value)
    (hothers : otherSlots st (placed ++ [argument]) slots = others) :
    stackWith script st slots (placed ++ [argument]) =
      value :: ((placed.map (argumentValue script st slots)).reverse ++ others.map Prod.snd) := by
  rw [stackWith, hothers, List.map_append, List.reverse_append, List.map_singleton, hvalue]
  rfl

/-- One argument is brought to the top. -/
theorem placeOne_spec (h : Ready env script st slots (placed ++ argument :: rest))
    (hshows : Shows st table (otherSlots st placed slots)) (alt : Stack) :
    ∃ table' code, placeOne table placed.length argument = .ok (table', code) ∧
      Shows st table' (otherSlots st (placed ++ [argument]) slots) ∧
      Takes env code (stackWith script st slots placed, alt)
        (stackWith script st slots (placed ++ [argument]), alt) := by
  by_cases hscript : isScript argument.name = true
  · have hvalue : argumentValue script st slots argument = script argument.name := by
      rw [argumentValue, if_pos hscript]
    rw [stackWith_concat _ _ hvalue rfl, otherSlots_concat_script hscript]
    refine ⟨table, emitText argument.name, ?_, hshows, ?_⟩
    · rw [placeOne, if_pos hscript]
    · exact h.scripts argument (by simp) hscript _ alt
  · have hnot : isScript argument.name = false := by simpa using hscript
    obtain ⟨pos, hpos⟩ := h.posOf hnot
    obtain ⟨hlt, hname⟩ := getElem_posOf hpos
    obtain ⟨table', htake, hshows'⟩ := hshows.takeSlot hlt
    have hothers := otherSlots_concat h.slotNames hnot hpos
    rw [hothers] at hshows'
    have hvalue := argumentValue_eq script h.slotNames hnot
      List.filter_sublist.subset hlt hname
    refine ⟨table', emitRoll (pos + placed.length), ?_, hshows', ?_⟩
    · simp only [placeOne, hnot, Bool.false_eq_true, if_false, hshows.getPos, hpos, htake, bind,
        Except.bind, pure, Except.pure]
    · have hlt' : pos < ((otherSlots st placed slots).map Prod.snd).length := by simpa using hlt
      have htakes : Takes env _ _ _ := takes_roll_append hlt' h.stackWith_bound alt
      rw [List.length_reverse, List.length_map, List.getElem_map, List.eraseIdx_map] at htakes
      rw [stackWith_concat _ _ hvalue hothers.symm]
      exact htakes

/-- Where no pair shortcut is taken the arguments are placed one by one. -/
theorem placeArguments_cons {i : ℕ}
    (h : ∀ next ∈ rest.head?, pairShortcut table i argument next = none) :
    placeArguments table i (argument :: rest) = (do
      let (st, code) ← placeOne table i argument
      let (st, code') ← placeArguments st (i + 1) rest
      pure (st, code ++ code')) := by
  cases rest with
  | nil =>
      rw [placeArguments]
      cases placeOne table i argument with
      | error message => rfl
      | ok placed => simp [placeArguments, bind, Except.bind, pure, Except.pure]
  | cons next rest =>
      rw [placeArguments, h next rfl]

theorem runtimeDepth_eq (hshows : Shows st table (otherSlots st placed slots))
    (hslots : slots.map Prod.fst = st.main) (name : String) :
    runtimeDepth st placed name = (table.getPos name).map (· + placed.length) := by
  have hmain : (otherSlots st placed slots).map Prod.fst =
      st.main.filter fun slot => slot.name ∉ argumentNames st placed := by
    rw [← hslots, otherSlots, List.filter_map]
    rfl
  rw [runtimeDepth, hshows.getPos, hmain]

/-- When a pair shortcut is taken. -/
theorem pairShortcut_eq_some_iff {i : ℕ} {op : BytOpcode} {pos nextPos : ℕ} :
    pairShortcut table i argument next = some (op, pos, nextPos) ↔
      isScript argument.name = false ∧ isScript next.name = false ∧
        table.getPos argument.name = some pos ∧ table.getPos next.name = some nextPos ∧
        (op = .op2swap ∧ pos + i = 3 ∧ nextPos + i = 1 ∨
          op = .op2rot ∧ pos + i = 5 ∧ nextPos + i = 3) := by
  rw [pairShortcut]
  cases isScript argument.name with
  | true => simp
  | false =>
      cases isScript next.name with
      | true => simp
      | false =>
          cases table.getPos argument.name with
          | none => simp
          | some p =>
              cases table.getPos next.name with
              | none => simp
              | some q =>
                  simp only [Bool.or_self, Bool.false_eq_true, if_false, true_and, Option.some.injEq]
                  split_ifs with h1 h2
                  · simp only [Option.some.injEq, Prod.mk.injEq]
                    grind
                  · simp only [Option.some.injEq, Prod.mk.injEq]
                    grind
                  · simp only [false_iff]
                    grind

/-- A pair shortcut is taken exactly where two arguments are at its depths. -/
theorem pairShortcut_eq_none_iff (hshows : Shows st table (otherSlots st placed slots))
    (hslots : slots.map Prod.fst = st.main) :
    pairShortcut table placed.length argument next = none ↔ ¬ PairAt st placed argument next := by
  rw [PairAt, runtimeDepth_eq hshows hslots, runtimeDepth_eq hshows hslots]
  cases hpair : pairShortcut table placed.length argument next with
  | none =>
      refine ⟨fun _ => ?_, fun _ => rfl⟩
      rintro ⟨hargument, hnext, hdepths⟩
      have hnone : ∀ found, pairShortcut table placed.length argument next ≠ some found := by
        rw [hpair]
        simp
      cases hpos : table.getPos argument.name with
      | none =>
          rw [hpos] at hdepths
          simp at hdepths
      | some pos =>
          cases hnextPos : table.getPos next.name with
          | none =>
              rw [hnextPos] at hdepths
              simp at hdepths
          | some nextPos =>
              rw [hpos, hnextPos] at hdepths
              simp only [Option.map_some, Option.some.injEq] at hdepths
              rcases hdepths with hdepths | hdepths
              · exact hnone (.op2swap, pos, nextPos) (pairShortcut_eq_some_iff.mpr
                  ⟨hargument, hnext, hpos, hnextPos, Or.inl ⟨rfl, hdepths⟩⟩)
              · exact hnone (.op2rot, pos, nextPos) (pairShortcut_eq_some_iff.mpr
                  ⟨hargument, hnext, hpos, hnextPos, Or.inr ⟨rfl, hdepths⟩⟩)
  | some found =>
      obtain ⟨op, pos, nextPos⟩ := found
      obtain ⟨hargument, hnext, hpos, hnextPos, hdepths⟩ :=
        pairShortcut_eq_some_iff.mp hpair
      refine ⟨fun h => absurd h (by simp), fun h => ?_⟩
      refine absurd ⟨hargument, hnext, ?_⟩ h
      simp only [hpos, hnextPos, Option.map_some, Option.some.injEq]
      rcases hdepths with ⟨-, hdepths⟩ | ⟨-, hdepths⟩
      · exact Or.inl hdepths
      · exact Or.inr hdepths

/-- Where no pair shortcut is taken, the loop brings the arguments to the top. -/
theorem placeArguments_spec (h : Ready env script st slots (placed ++ rest))
    (hslots : slots.map Prod.fst = st.main)
    (hshows : Shows st table (otherSlots st placed slots)) (hfree : PairFree st placed rest)
    (alt : Stack) :
    ∃ table' code, placeArguments table placed.length rest = .ok (table', code) ∧
      Shows st table' (otherSlots st (placed ++ rest) slots) ∧
      Takes env code (stackWith script st slots placed, alt)
        (stackWith script st slots (placed ++ rest), alt) := by
  induction rest generalizing placed table with
  | nil =>
      rw [List.append_nil]
      exact ⟨table, [], rfl, hshows, Takes.refl _⟩
  | cons argument rest ih =>
      obtain ⟨table₁, code₁, hplace, hshows₁, htakes₁⟩ := placeOne_spec h hshows alt
      have hsplit : placed ++ argument :: rest = (placed ++ [argument]) ++ rest := by simp
      have hhead : ∀ next ∈ rest.head?,
          pairShortcut table placed.length argument next = none := by
        intro next hnext
        cases rest with
        | nil => exact absurd hnext (by simp)
        | cons next' rest =>
            obtain rfl := Option.some.inj hnext
            exact (pairShortcut_eq_none_iff hshows hslots).mpr hfree.1
      have hfree' : PairFree st (placed ++ [argument]) rest := by
        cases rest with
        | nil => exact trivial
        | cons next rest => exact hfree.2
      rw [hsplit] at h ⊢
      obtain ⟨table₂, code₂, hrest, hshows₂, htakes₂⟩ := ih h hshows₁ hfree'
      refine ⟨table₂, code₁ ++ code₂, ?_, hshows₂, htakes₁.trans htakes₂⟩
      rw [List.length_append, List.length_singleton] at hrest
      rw [placeArguments_cons hhead]
      simp only [hplace, hrest, bind, Except.bind, pure, Except.pure]

end Loop

/-! ### A pair shortcut -/

section Shortcut

variable {env : ScriptEnv} {script : String → Bytes}
variable {table table' : SymbolTable} {pos i : ℕ} {argument : StackElement} {vs ws : Stack}
  {code : List String} {rest : List StackElement}

theorem takeSlot_length (hpos : pos < table.main.length)
    (h : takeSlot table pos = .ok table') : table'.main.length + 1 = table.main.length := by
  simp only [takeSlot, SymbolTable.roll_of_lt hpos, bind, Except.bind, pure, Except.pure,
    Except.ok.injEq] at h
  rw [← h]
  simp only [SymbolTable.pop, List.length_eraseIdx_of_lt hpos]
  omega

theorem getPos_lt {name : String} (h : table.getPos name = some pos) : pos < table.main.length := by
  rw [SymbolTable.getPos, posOf, List.findIdx?_eq_some_iff_getElem] at h
  exact h.1

/-- What the loop puts on the stack goes on top of the arguments that are there. -/
def Keeps (env : ScriptEnv) (count : ℕ) (code : List String) (vs ws : Stack) (left : ℕ) : Prop :=
  ∃ us ws' : Stack, us.length = count ∧ ws'.length = left ∧
    ∀ alt : Stack, Takes env code (vs ++ ws, alt) (us ++ vs ++ ws', alt)

theorem placeOne_keeps (hscripts : isScript argument.name = true → ∀ main alt : Stack,
      Takes env (emitText argument.name) (main, alt) (script argument.name :: main, alt))
    (hws : ws.length = table.main.length) (hsize : (vs ++ ws).length < 2 ^ 63)
    (h : placeOne table vs.length argument = .ok (table', code)) :
    Keeps env 1 code vs ws table'.main.length := by
  by_cases hscript : isScript argument.name = true
  · rw [placeOne, if_pos hscript, Except.ok.injEq, Prod.mk.injEq] at h
    obtain ⟨rfl, rfl⟩ := h
    exact ⟨[script argument.name], ws, rfl, hws, hscripts hscript _⟩
  · rw [placeOne, if_neg hscript] at h
    cases hpos : table.getPos argument.name with
    | none =>
        rw [hpos] at h
        exact absurd h (by simp)
    | some pos =>
        have hlt := getPos_lt hpos
        rw [hpos] at h
        cases htake : takeSlot table pos with
        | error message => simp [htake, bind, Except.bind] at h
        | ok taken =>
            simp only [htake, bind, Except.bind, pure, Except.pure, Except.ok.injEq,
              Prod.mk.injEq] at h
            obtain ⟨rfl, rfl⟩ := h
            have hlength := takeSlot_length hlt htake
            have hlt' : pos < ws.length := by omega
            refine ⟨[ws[pos]], ws.eraseIdx pos, rfl, ?_, takes_roll_append hlt' hsize⟩
            rw [List.length_eraseIdx_of_lt hlt']
            omega

theorem placeOne_bound (h : placeOne table i argument = .ok (table', code)) :
    table'.main.length ≤ table.main.length := by
  unfold placeOne at h
  split_ifs at h
  · rw [Except.ok.injEq, Prod.mk.injEq] at h
    rw [h.1]
  · cases hpos : table.getPos argument.name with
    | none =>
        rw [hpos] at h
        exact absurd h (by simp)
    | some pos =>
        rw [hpos] at h
        cases htake : takeSlot table pos with
        | error message => simp [htake, bind, Except.bind] at h
        | ok taken =>
            simp only [htake, bind, Except.bind, pure, Except.pure, Except.ok.injEq,
              Prod.mk.injEq] at h
            obtain ⟨rfl, -⟩ := h
            have := takeSlot_length (getPos_lt hpos) htake
            omega

theorem Keeps.trans {code' : List String} {us ws₁ : Stack} {count left : ℕ}
    (h : ∀ alt : Stack, Takes env code (vs ++ ws, alt) (us ++ vs ++ ws₁, alt))
    (h' : Keeps env count code' (us ++ vs) ws₁ left) :
    Keeps env (count + us.length) (code ++ code') vs ws left := by
  obtain ⟨us', ws', hcount, hleft, htakes⟩ := h'
  refine ⟨us' ++ us, ws', by rw [List.length_append, hcount], hleft, fun alt => ?_⟩
  rw [List.append_assoc us' us vs]
  exact (h alt).trans (htakes alt)

/-- A pair shortcut moves the slot right below the second argument in its stead. -/
theorem takes_pairShortcut {table : SymbolTable} {argument next : StackElement} {op : BytOpcode}
    {pos nextPos : ℕ} {vs ws : Stack} (hws : ws.length = table.main.length)
    (hsize : (vs ++ ws).length < 2 ^ 63)
    (h : pairShortcut table vs.length argument next = some (op, pos, nextPos)) :
    ∃ hlt : nextPos + 2 < ws.length, pos = nextPos + 2 ∧ ∀ alt : Stack,
      Takes env (emitOp op) (vs ++ ws, alt)
        ([ws[nextPos + 1], ws[nextPos + 2]] ++ vs ++
          (ws.eraseIdx (nextPos + 2)).eraseIdx (nextPos + 1), alt) := by
  obtain ⟨-, -, hpos, -, hdepths⟩ := pairShortcut_eq_some_iff.mp h
  have hpos' : pos = nextPos + 2 := by omega
  have hlt : nextPos + 2 < ws.length := by
    have := getPos_lt hpos
    omega
  refine ⟨hlt, hpos', fun alt => ?_⟩
  have hop : op = .op2swap ∧ nextPos + 1 + 1 + vs.length = 3 ∨
      op = .op2rot ∧ nextPos + 1 + 1 + vs.length = 5 := by
    rcases hdepths with ⟨hop, hdepths⟩ | ⟨hop, hdepths⟩
    · exact Or.inl ⟨hop, by omega⟩
    · exact Or.inr ⟨hop, by omega⟩
  exact takes_placePair hop hlt hsize alt

/-- What the loop does with two arguments for which a pair shortcut is taken. -/
theorem placeArguments_pair {next : StackElement} {op : BytOpcode} {nextPos : ℕ}
    (hpair : pairShortcut table i argument next = some (op, pos, nextPos))
    (h : placeArguments table i (argument :: next :: rest) = .ok (table', code)) :
    ∃ taken code', placeArguments taken (i + 2) rest = .ok (table', code') ∧
      taken.main.length + 2 = table.main.length ∧ code = emitOp op ++ code' := by
  obtain ⟨-, -, hpos, hnextPos, hdepths⟩ := pairShortcut_eq_some_iff.mp hpair
  have hlt := getPos_lt hpos
  rw [placeArguments, hpair] at h
  cases htake : takeSlot table pos with
  | error message => simp [htake, bind, Except.bind] at h
  | ok first =>
      have hfirst := takeSlot_length hlt htake
      cases htake' : takeSlot first nextPos with
      | error message => simp [htake, htake', bind, Except.bind] at h
      | ok second =>
          have hsecond := takeSlot_length (by omega) htake'
          cases hrest : placeArguments second (i + 2) rest with
          | error message => simp [htake, htake', hrest, bind, Except.bind] at h
          | ok result =>
              simp only [htake, htake', hrest, bind, Except.bind, pure, Except.pure,
                Except.ok.injEq, Prod.mk.injEq] at h
              obtain ⟨rfl, rfl⟩ := h
              exact ⟨second, result.2, hrest, by omega, rfl⟩

/-- What the loop does with an argument for which no pair shortcut is taken. -/
theorem placeArguments_one (hhead : ∀ next ∈ rest.head?, pairShortcut table i argument next = none)
    (h : placeArguments table i (argument :: rest) = .ok (table', code)) :
    ∃ placed code₁ code₂, placeOne table i argument = .ok (placed, code₁) ∧
      placeArguments placed (i + 1) rest = .ok (table', code₂) ∧ code = code₁ ++ code₂ := by
  rw [placeArguments_cons hhead] at h
  cases hplace : placeOne table i argument with
  | error message => simp [hplace, bind, Except.bind] at h
  | ok placed =>
      cases hrest : placeArguments placed.1 (i + 1) rest with
      | error message => simp [hplace, hrest, bind, Except.bind] at h
      | ok result =>
          simp only [hplace, hrest, bind, Except.bind, pure, Except.pure, Except.ok.injEq,
            Prod.mk.injEq] at h
          obtain ⟨rfl, rfl⟩ := h
          exact ⟨placed.1, placed.2, result.2, rfl, hrest, rfl⟩

theorem placeArguments_keeps
    (hscripts : ∀ argument ∈ rest, isScript argument.name = true → ∀ main alt : Stack,
      Takes env (emitText argument.name) (main, alt) (script argument.name :: main, alt))
    (hvs : vs.length = i) (hws : ws.length = table.main.length)
    (hsize : (vs ++ ws).length + rest.length < 2 ^ 63)
    (h : placeArguments table i rest = .ok (table', code)) :
    Keeps env rest.length code vs ws table'.main.length := by
  induction hn : rest.length using Nat.strong_induction_on
    generalizing table i rest vs ws code with
  | _ n ih =>
  subst hvs
  cases rest with
  | nil =>
      rw [placeArguments, Except.ok.injEq, Prod.mk.injEq] at h
      obtain ⟨rfl, rfl⟩ := h
      subst hn
      exact ⟨[], ws, rfl, hws, fun alt => Takes.refl _⟩
  | cons argument rest =>
      rw [List.length_append, List.length_cons] at hsize
      rw [List.length_cons] at hn
      have hstack : (vs ++ ws).length < 2 ^ 63 := by
        rw [List.length_append]
        omega
      by_cases hhead : ∀ next ∈ rest.head?, pairShortcut table vs.length argument next = none
      · obtain ⟨placed, code₁, code₂, hplace, hrest, rfl⟩ := placeArguments_one hhead h
        obtain ⟨us, ws₁, hus, hws₁, htakes⟩ :=
          placeOne_keeps (hscripts argument List.mem_cons_self) hws hstack hplace
        have hbound := placeOne_bound hplace
        have hkeeps := ih rest.length (by omega) (fun a ha => hscripts a (List.mem_cons_of_mem _ ha))
          (by rw [List.length_append]; omega : (us ++ vs).length = vs.length + 1) hws₁
          (by simp only [List.length_append]; omega) hrest rfl
        have hall := Keeps.trans htakes hkeeps
        rwa [hus, hn] at hall
      · push Not at hhead
        obtain ⟨next, hnext, hpair⟩ := hhead
        cases rest with
        | nil => exact absurd hnext (by simp)
        | cons next' rest =>
            obtain rfl := Option.some.inj hnext
            obtain ⟨⟨op, pos, nextPos⟩, hpair⟩ := Option.ne_none_iff_exists'.mp hpair
            rw [List.length_cons] at hn hsize
            obtain ⟨hlt, -, htakes⟩ := takes_pairShortcut hws hstack hpair
            obtain ⟨taken, code', hrest, hlength, rfl⟩ := placeArguments_pair hpair h
            have hleft : ((ws.eraseIdx (nextPos + 2)).eraseIdx (nextPos + 1)).length =
                taken.main.length := by
              have hfirst := List.length_eraseIdx_of_lt hlt
              rw [List.length_eraseIdx_of_lt (by omega)]
              omega
            have hkeeps := ih rest.length (by omega)
              (fun a ha => hscripts a (List.mem_cons_of_mem _ (List.mem_cons_of_mem _ ha)))
              (by simp : ([ws[nextPos + 1], ws[nextPos + 2]] ++ vs).length = vs.length + 2) hleft
              (by simp only [List.length_append, List.length_cons, List.length_nil]; omega) hrest rfl
            have hall := Keeps.trans htakes hkeeps
            rwa [List.length_cons, List.length_singleton, hn] at hall

/-- Where a pair shortcut is taken and the slots have distinct values, a wrong value ends up among
the arguments. -/
theorem not_takes_of_not_pairFree {st : SymbolTable} {slots : Slots} {placed : List StackElement}
    (h : Ready env script st slots (placed ++ rest)) (hslots : slots.map Prod.fst = st.main)
    (hvalues : (slots.map Prod.snd).Nodup) (hshows : Shows st table (otherSlots st placed slots))
    (hpair : ¬ PairFree st placed rest)
    (hrun : placeArguments table placed.length rest = .ok (table', code)) :
    ¬ ∀ alt : Stack, Takes env code (stackWith script st slots placed, alt)
      (stackWith script st slots (placed ++ rest), alt) := by
  induction rest generalizing placed table code with
  | nil => exact absurd trivial hpair
  | cons argument rest ih =>
      intro htakes
      by_cases hhead : ∀ next ∈ rest.head?, pairShortcut table placed.length argument next = none
      · have hsplit : placed ++ argument :: rest = (placed ++ [argument]) ++ rest := by simp
        obtain ⟨table₁, code₁, hplace, hshows₁, -⟩ := placeOne_spec h hshows []
        obtain ⟨table₂, code₂, code₃, hplace', hrest, rfl⟩ := placeArguments_one hhead hrun
        obtain ⟨rfl, rfl⟩ := Prod.mk.inj (Except.ok.inj (hplace.symm.trans hplace'))
        have hpair' : ¬ PairFree st (placed ++ [argument]) rest := by
          cases rest with
          | nil => exact absurd trivial hpair
          | cons next rest =>
              intro hfree
              exact hpair ⟨(pairShortcut_eq_none_iff hshows hslots).mp (hhead next rfl), hfree⟩
        have hlength : (placed ++ [argument]).length = placed.length + 1 := by simp
        rw [← hlength] at hrest
        rw [hsplit] at h htakes
        refine ih h hshows₁ hpair' hrest fun alt => ?_
        rw [← hsplit] at h
        obtain ⟨table₄, code₄, hplace₄, -, htakes₄⟩ := placeOne_spec h hshows alt
        obtain ⟨-, rfl⟩ := Prod.mk.inj (Except.ok.inj (hplace.symm.trans hplace₄))
        exact takes_of_append htakes₄ (htakes alt)
      · push Not at hhead
        obtain ⟨candidate, hcandidate, hsome⟩ := hhead
        cases rest with
        | nil => exact absurd hcandidate (by simp)
        | cons next rest =>
            obtain rfl := Option.some.inj hcandidate
            obtain ⟨⟨op, pos, nextPos⟩, hsome⟩ := Option.ne_none_iff_exists'.mp hsome
            have hvs : ((placed.map (argumentValue script st slots)).reverse).length =
                placed.length := by
              rw [List.length_reverse, List.length_map]
            have hws : ((otherSlots st placed slots).map Prod.snd).length = table.main.length := by
              rw [hshows.main, List.length_map, List.length_map]
            rw [← hvs] at hsome hrun
            have hmoves := @takes_pairShortcut env _ _ _ _ _ _ _ _ hws h.stackWith_bound hsome
            obtain ⟨hlt, -, hmoved⟩ := hmoves
            obtain ⟨taken, code', hrest, htaken, rfl⟩ := placeArguments_pair hsome hrun
            obtain ⟨-, hscript, -, hnextPos, -⟩ := pairShortcut_eq_some_iff.mp hsome
            -- what the rest of the loop does goes on top of the two slots that were moved
            have hbound := h.stackWith_bound
            have hcount := h.arguments_bound
            have hslotsBound := h.slots_bound
            have hothers : (otherSlots st placed slots).length ≤ slots.length :=
              List.length_filter_le _ _
            rw [List.length_append, List.length_cons, List.length_cons] at hcount
            rw [maxSlots] at hslotsBound
            generalize hvsdef : (placed.map (argumentValue script st slots)).reverse = vs at *
            generalize hwsdef : (otherSlots st placed slots).map Prod.snd = ws at *
            have hleft : ((ws.eraseIdx (nextPos + 2)).eraseIdx (nextPos + 1)).length =
                taken.main.length := by
              have hfirst := List.length_eraseIdx_of_lt hlt
              rw [List.length_eraseIdx_of_lt (by omega)]
              omega
            have hwslen : ws.length ≤ slots.length := by
              rw [← hwsdef, List.length_map]
              exact hothers
            have hkeeps := placeArguments_keeps
              (fun a ha => h.scripts a (by simp [ha]))
              (by simp : ([ws[nextPos + 1], ws[nextPos + 2]] ++ vs).length = vs.length + 2) hleft
              (by simp only [List.length_append, List.length_cons, List.length_nil]; omega) hrest
            obtain ⟨us, ws', hus, -, hkept⟩ := hkeeps
            have hstart : stackWith script st slots placed = vs ++ ws := by
              rw [stackWith, hvsdef, hwsdef]
            rw [hstart] at htakes
            have hsame := takes_unique (htakes []) ((hmoved []).trans (hkept []))
            have hstack : stackWith script st slots (placed ++ argument :: next :: rest) =
                (rest.map (argumentValue script st slots)).reverse ++
                  (argumentValue script st slots next :: (argumentValue script st slots argument ::
                    (vs ++ (otherSlots st (placed ++ argument :: next :: rest) slots).map
                      Prod.snd))) := by
              rw [stackWith, List.map_append, List.reverse_append, hvsdef]
              simp
            rw [Prod.mk.injEq, hstack, List.append_assoc us] at hsame
            have hnext := (List.append_inj hsame.1 (by simp [hus])).2
            have hvalue : argumentValue script st slots next = ws[nextPos + 1] :=
              (List.cons.inj hnext).1
            rw [hshows.getPos] at hnextPos
            obtain ⟨hltNext, hname⟩ := getElem_posOf hnextPos
            have hsub : otherSlots st placed slots ⊆ slots := List.filter_sublist.subset
            have hright := argumentValue_eq script h.slotNames hscript hsub hltNext hname
            have hget : ws[nextPos] = ws[nextPos + 1] := by
              rw [← hvalue, hright]
              simp [← hwsdef]
            have hnodup : ws.Nodup := by
              rw [← hwsdef]
              exact hvalues.sublist (List.filter_sublist.map _)
            exact absurd ((List.Nodup.getElem_inj_iff hnodup).mp hget) (by omega)

end Shortcut

end ArgumentLayout

end AtomicProof
