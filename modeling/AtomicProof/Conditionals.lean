/-
The conditional machine is structured.

`BVMSimulator` has no tree of branches.  It runs a flat list of instructions, keeps a stack of
conditions and passes over what stands in a branch that is not taken.  Here the flat run is compared
with the structured reading of a script, in which `OP_IF` and `OP_NOTIF` have arms, one arm is run
and the other one does not count.

The machine does not look at the condition stack when a script is over, so an `OP_IF` that was left
open is closed there in silence.

Main definitions:

* `BVMSimulator.executeInstruction`, `BVMSimulator.run` — one instruction, and the whole script;
* `BVMSimulator.track` — what an instruction does to the condition stack in a branch not taken;
* `Block`, `Block.flatten`, `Block.Balanced` — scripts as trees;
* `Block.eval` — the structured reading.

Main results:

* `BVMSimulator.executeInstruction_skip` — **a branch that is not taken changes no stack**;
* `Block.run_flatten` — **the flat run is the structured one**;
* `BVMSimulator.run_close` — **an open `OP_IF` is closed by the end of the script**;
* `BVMSimulator.conditionals_structured` — the machine as a whole.
-/

import AtomicProof.Disassembly

set_option autoImplicit false

namespace AtomicProof

namespace BVMSimulator

/-! ### The run -/

/-- `executeInstruction`: a word is parsed and executed, and what is thrown becomes the error of the
machine. -/
def executeInstruction (env : Env) (instruction : String) (vm : VM) : Except String VM :=
  match parseInstruction instruction with
  | none => .error ("Failed to parse instruction: " ++ instruction)
  | some (opcode, operand) =>
      match executeOpcode env opcode operand vm with
      | .error what => .error ("Execution error: " ++ what)
      | .ok vm => .ok vm

/-- `run`: the instructions one after the other, until the machine is finished. -/
def run (env : Env) : List String → VM → Except String VM
  | [], vm => .ok vm
  | instruction :: rest, vm =>
      if vm.finished then .ok vm
      else
        match executeInstruction env instruction vm with
        | .error what => .error what
        | .ok vm => run env rest vm

/-- The opcode of an instruction, in capitals. -/
def opcodeOf (instruction : String) : Option String :=
  (parseInstruction instruction).map fun parsed => String.ofList (parsed.1.toList.map upper)

theorem opcodeOf_name (op : BytOpcode) : opcodeOf op.name = some op.name := by
  rw [opcodeOf, (name_spec op).parse, Option.map_some, (name_spec op).upper, String.ofList_toList]

def IsOpener (instruction : String) : Prop :=
  opcodeOf instruction = some "OP_IF" ∨ opcodeOf instruction = some "OP_NOTIF"

/-- An instruction that opens, turns or closes no branch. -/
def IsPlain (instruction : String) : Prop :=
  ∃ op, opcodeOf instruction = some op ∧ isControlFlow op = false

/-- The condition stack after an instruction in a branch that is not taken. -/
def track (conds : List Bool) (op : String) : List Bool :=
  if op = "OP_IF" || op = "OP_NOTIF" then false :: conds
  else if op = "OP_ELSE" then
    match conds with
    | [] => []
    | current :: parents => (parents.all id && !current) :: parents
  else if op = "OP_ENDIF" then conds.tail
  else conds

/-- The condition stack after a run of instructions in branches that are not taken. -/
def trackAll (conds : List Bool) (script : List String) : List Bool :=
  script.foldl (fun conds instruction => track conds ((opcodeOf instruction).getD "")) conds

/-! ### One instruction -/

/-- An opcode that is handled by its name has that name. -/
theorem name_of_branchOf {op : String} {known : BytOpcode} (h : branchOf op = .named known) :
    known.name = op := by
  unfold branchOf at h
  split_ifs at h
  · split at h <;> cases h
  · cases hfind : namedOpcodes.find? fun known => known.name = op with
    | none =>
        rw [hfind] at h
        cases h
    | some found =>
        rw [hfind] at h
        obtain rfl := Branch.named.inj h
        have hfound := List.find?_some hfind
        exact of_decide_eq_true hfound

section Step

variable {env : Env} {instruction op : String}

theorem executeInstruction_of_name {known : BytOpcode}
    (h : opcodeOf instruction = some known.name) (hnamed : branchFor known = .named known) (vm : VM) :
    executeInstruction env instruction vm =
      if !vm.isCurrentlyExecuting && !isConditional known then .ok vm
      else
        match executeKnown env [] known vm with
        | .error what => .error ("Execution error: " ++ what)
        | .ok vm => .ok vm := by
  obtain ⟨⟨opcode, operand⟩, hparse, hop⟩ := Option.map_eq_some_iff.1 h
  simp only [executeInstruction, hparse, executeOpcode, hop, (name_spec known).control,
    (name_spec known).branch, hnamed]
  split_ifs <;> rfl

/-- An instruction that opens a branch. -/
theorem executeInstruction_opener (negated : Bool)
    (h : opcodeOf instruction = some (if negated then "OP_NOTIF" else "OP_IF")) (vm : VM) :
    executeInstruction env instruction vm =
      match vm.openIf negated with
      | .error what => .error ("Execution error: " ++ what)
      | .ok vm => .ok vm := by
  cases negated with
  | false =>
      have hname : opcodeOf instruction = some BytOpcode.opIf.name := h
      rw [executeInstruction_of_name hname rfl]
      simp only [isConditional, decide_true, Bool.true_or, Bool.not_true, Bool.and_false,
        Bool.false_eq_true, if_false]
      rfl
  | true =>
      have hname : opcodeOf instruction = some BytOpcode.opNotif.name := h
      rw [executeInstruction_of_name hname rfl]
      simp only [isConditional, decide_true, Bool.true_or, Bool.or_true, Bool.not_true,
        Bool.and_false, Bool.false_eq_true, if_false]
      rfl

theorem executeInstruction_else (h : opcodeOf instruction = some "OP_ELSE") (vm : VM) :
    executeInstruction env instruction vm =
      match vm.opElse with
      | .error what => .error ("Execution error: " ++ what)
      | .ok vm => .ok vm := by
  have hname : opcodeOf instruction = some BytOpcode.opElse.name := h
  rw [executeInstruction_of_name hname rfl]
  simp only [isConditional, decide_true, Bool.true_or, Bool.or_true, Bool.not_true,
    Bool.and_false, Bool.false_eq_true, if_false]
  rfl

theorem executeInstruction_endif (h : opcodeOf instruction = some "OP_ENDIF") (vm : VM) :
    executeInstruction env instruction vm =
      match vm.opEndif with
      | .error what => .error ("Execution error: " ++ what)
      | .ok vm => .ok vm := by
  have hname : opcodeOf instruction = some BytOpcode.opEndif.name := h
  rw [executeInstruction_of_name hname rfl]
  simp only [isConditional, decide_true, Bool.or_true, Bool.not_true,
    Bool.and_false, Bool.false_eq_true, if_false]
  rfl

/-- **In a branch that is not taken an instruction changes no stack**, and only the condition stack
keeps track of the nesting. -/
theorem executeInstruction_skip (h : opcodeOf instruction = some op) {vm : VM}
    (hvm : vm.isCurrentlyExecuting = false) :
    executeInstruction env instruction vm = .ok { vm with conds := track vm.conds op } := by
  obtain ⟨main, alt, conds, finished⟩ := vm
  have hconds : conds.all id = false := hvm
  by_cases hif : op = "OP_IF"
  · subst hif
    rw [executeInstruction_opener false h]
    simp only [VM.openIf, hvm, Bool.false_eq_true, if_false]
    rfl
  by_cases hnotif : op = "OP_NOTIF"
  · subst hnotif
    rw [executeInstruction_opener true h]
    simp only [VM.openIf, hvm, Bool.false_eq_true, if_false]
    rfl
  by_cases helse : op = "OP_ELSE"
  · subst helse
    rw [executeInstruction_else h]
    cases conds with
    | nil => cases hconds
    | cons current parents => rfl
  by_cases hendif : op = "OP_ENDIF"
  · subst hendif
    rw [executeInstruction_endif h]
    cases conds with
    | nil => cases hconds
    | cons current parents => rfl
  · obtain ⟨⟨opcode, operand⟩, hparse, hop⟩ := Option.map_eq_some_iff.1 h
    have hcontrol : isControlFlow op = false := by
      simp only [isControlFlow, hif, hnotif, helse, hendif, decide_false, Bool.or_self]
    have htrack : track conds op = conds := by
      simp only [track, hif, hnotif, helse, hendif, decide_false, Bool.or_self, Bool.false_eq_true,
        if_false]
    simp only [executeInstruction, hparse, executeOpcode, hop, hvm, hcontrol, Bool.not_false,
      Bool.and_self, if_true, htrack]

/-- An instruction that does not concern branches does not look at the conditions beyond whether
they all hold. -/
theorem executeInstruction_plain (h : IsPlain instruction) (main alt : Stack) {conds : List Bool}
    (hconds : conds.all id = true) (finished : Bool) :
    executeInstruction env instruction ⟨main, alt, conds, finished⟩ =
      match executeInstruction env instruction ⟨main, alt, [], finished⟩ with
      | .error what => .error what
      | .ok vm => .ok { vm with conds := conds } := by
  obtain ⟨op, hop, hcontrol⟩ := h
  obtain ⟨⟨opcode, operand⟩, hparse, hcapitals⟩ := Option.map_eq_some_iff.1 hop
  have hexec : (⟨main, alt, conds, finished⟩ : VM).isCurrentlyExecuting = true := hconds
  have hexec' : (⟨main, alt, [], finished⟩ : VM).isCurrentlyExecuting = true := rfl
  have hmain : ∀ f : Stack → Except String Stack,
      (match VM.onMain f ⟨main, alt, conds, finished⟩ with
        | .error what => (.error ("Execution error: " ++ what) : Except String VM)
        | .ok vm => .ok vm) =
      match (match VM.onMain f ⟨main, alt, [], finished⟩ with
        | .error what => (.error ("Execution error: " ++ what) : Except String VM)
        | .ok vm => .ok vm) with
      | .error what => .error what
      | .ok vm => .ok { vm with conds := conds } := by
    intro f
    simp only [VM.onMain]
    cases f main <;> rfl
  simp only [executeInstruction, hparse, executeOpcode, hcapitals, hexec, hexec', hcontrol,
    Bool.not_true, Bool.not_false, Bool.and_true, Bool.false_eq_true, if_false]
  cases hbranch : branchOf op with
  | constant value => exact hmain fun s => pure (Stack.pushInt value s)
  | invalidConstant => rfl
  | push => exact hmain (opPush operand)
  | unknownByte => rfl
  | unknown => rfl
  | named known =>
      have hname : known.name = op := name_of_branchOf hbranch
      have hconditional : isConditional known = false := by
        rw [← (name_spec known).control, hname, hcontrol]
      simp only [executeKnown]
      cases hmainOp : mainOp env [] known with
      | some f => exact hmain f
      | none =>
          rcases of_mainOp_eq_none hmainOp with h | rfl | rfl | rfl
          · rw [h] at hconditional
            cases hconditional
          · simp only [VM.opToaltstack]
            cases main <;> rfl
          · simp only [VM.opFromaltstack]
            cases alt <;> rfl
          · rfl

end Step

/-! ### Runs -/

section Run

variable {env : Env}

/-- A run goes on where the one before it ended. -/
theorem run_append (first second : List String) (vm : VM) :
    run env (first ++ second) vm =
      match run env first vm with
      | .error what => .error what
      | .ok vm => run env second vm := by
  induction first generalizing vm with
  | nil => rfl
  | cons instruction first ih =>
      rw [List.cons_append, run, run]
      by_cases hfinished : vm.finished = true
      · rw [if_pos hfinished, if_pos hfinished]
        cases second with
        | nil => rfl
        | cons next second =>
            simp only
            rw [run, if_pos hfinished]
      · rw [if_neg hfinished, if_neg hfinished]
        cases executeInstruction env instruction vm with
        | error what => rfl
        | ok next => exact ih next

theorem opcodeOf_eq_none {instruction : String} (h : opcodeOf instruction = none) :
    instruction = "" := by
  rw [opcodeOf, Option.map_eq_none_iff, parseInstruction] at h
  by_cases hne : instruction.toList = []
  · exact String.toList_eq_nil_iff.1 hne
  · rw [if_neg hne] at h
    split_ifs at h
    cases hname : pushdataName instruction.toList with
    | none => simp [hname] at h
    | some found => simp [hname] at h

/-- **As long as a branch that is not taken goes on, the stacks stay as they are.**  Only the empty
string cannot be parsed. -/
theorem run_skip : ∀ (script : List String) (vm : VM), vm.finished = false →
    (∀ n < script.length, (trackAll vm.conds (script.take n)).all id = false) →
    run env script vm = if "" ∈ script then .error "Failed to parse instruction: "
      else .ok { vm with conds := trackAll vm.conds script } := by
  intro script
  induction script with
  | nil =>
      intro vm _ _
      rfl
  | cons instruction script ih =>
      intro vm hfinished hskip
      have hvm : vm.isCurrentlyExecuting = false := hskip 0 (Nat.succ_pos _)
      rw [run, if_neg (by rw [hfinished]; decide)]
      cases hop : opcodeOf instruction with
      | none =>
          obtain rfl := opcodeOf_eq_none hop
          have hstep : executeInstruction env "" vm = .error "Failed to parse instruction: " := rfl
          rw [hstep, if_pos List.mem_cons_self]
      | some op =>
          have htrack : ∀ rest, trackAll vm.conds (instruction :: rest)
              = trackAll (track vm.conds op) rest := by
            intro rest
            rw [trackAll, List.foldl_cons, hop]
            rfl
          have hrest : ∀ n < script.length,
              (trackAll (track vm.conds op) (script.take n)).all id = false := by
            intro n hn
            rw [← htrack]
            exact hskip (n + 1) (Nat.succ_lt_succ hn)
          have hne : "" ≠ instruction := by
            rintro rfl
            cases hop
          have hmem : "" ∈ instruction :: script ↔ "" ∈ script := by
            rw [List.mem_cons, or_iff_right hne]
          rw [executeInstruction_skip hop hvm, htrack]
          simp only [hmem]
          exact ih { vm with conds := track vm.conds op } hfinished hrest

/-- **A branch that is open at the end is closed there.**  The run goes through, as it would with the
missing `OP_ENDIF`s. -/
theorem run_close {script : List String} {vm vm' : VM} (h : run env script vm = .ok vm')
    (hfinished : vm'.finished = false) :
    run env (script ++ List.replicate vm'.conds.length "OP_ENDIF") vm
      = .ok { vm' with conds := [] } := by
  have hclose : ∀ (conds : List Bool) (main alt : Stack),
      run env (List.replicate conds.length "OP_ENDIF") ⟨main, alt, conds, false⟩
        = .ok ⟨main, alt, [], false⟩ := by
    intro conds
    induction conds with
    | nil =>
        intro main alt
        rfl
    | cons cond conds ih =>
        intro main alt
        have hendif : opcodeOf "OP_ENDIF" = some "OP_ENDIF" := opcodeOf_name .opEndif
        rw [List.length_cons, List.replicate_succ, run, if_neg Bool.false_ne_true,
          executeInstruction_endif hendif]
        exact ih main alt
  obtain ⟨main, alt, conds, finished⟩ := vm'
  have hrunning : finished = false := hfinished
  subst hrunning
  rw [run_append, h]
  exact hclose conds main alt

end Run

end BVMSimulator

/-! ### Scripts as trees -/

/-- A script with nested branches: a plain instruction, an `OP_IF` or `OP_NOTIF` with one arm, or
one with two, each followed by the rest. -/
inductive Block
  | nil
  | word (text : String) (rest : Block)
  | branch (opener : String) (thenArm : Block) (closer : String) (rest : Block)
  | branchElse (opener : String) (thenArm : Block) (middle : String) (elseArm : Block)
      (closer : String) (rest : Block)

namespace Block

open BVMSimulator

def flatten : Block → List String
  | nil => []
  | word text rest => text :: rest.flatten
  | branch opener thenArm closer rest =>
      opener :: (thenArm.flatten ++ closer :: rest.flatten)
  | branchElse opener thenArm middle elseArm closer rest =>
      opener :: (thenArm.flatten ++ middle :: (elseArm.flatten ++ closer :: rest.flatten))

/-- The instructions of a tree are what their places say. -/
def Balanced : Block → Prop
  | nil => True
  | word text rest => IsPlain text ∧ rest.Balanced
  | branch opener thenArm closer rest =>
      IsOpener opener ∧ thenArm.Balanced ∧ opcodeOf closer = some "OP_ENDIF" ∧ rest.Balanced
  | branchElse opener thenArm middle elseArm closer rest =>
      IsOpener opener ∧ thenArm.Balanced ∧ opcodeOf middle = some "OP_ELSE" ∧ elseArm.Balanced ∧
        opcodeOf closer = some "OP_ENDIF" ∧ rest.Balanced

/-- Taking the condition of a branch from the stack: whether its first arm is run. -/
def choose (opener : String) (vm : VM) : Except String (Bool × VM) :=
  match Stack.pop vm.main with
  | .error what => .error ("Execution error: " ++ what)
  | .ok (condition, main) =>
      .ok (VM.condTrue condition ^^ (opcodeOf opener == some "OP_NOTIF"), { vm with main := main })

/-- What follows, unless an error has occurred. -/
def andThen (outcome : Except String VM) (next : VM → Except String VM) : Except String VM :=
  match outcome with
  | .error what => .error what
  | .ok vm => next vm

/-- **The structured reading of a script**: of every branch the selected arm is run, and no other. -/
def eval (env : Env) : Block → VM → Except String VM
  | nil, vm => .ok vm
  | word text rest, vm =>
      if vm.finished then .ok vm else andThen (executeInstruction env text vm) (eval env rest)
  | branch opener thenArm _ rest, vm =>
      if vm.finished then .ok vm
      else
        match choose opener vm with
        | .error what => .error what
        | .ok (taken, vm) => andThen (if taken then eval env thenArm vm else .ok vm) (eval env rest)
  | branchElse opener thenArm _ elseArm _ rest, vm =>
      if vm.finished then .ok vm
      else
        match choose opener vm with
        | .error what => .error what
        | .ok (taken, vm) =>
            andThen (if taken then eval env thenArm vm else eval env elseArm vm) (eval env rest)

/-! ### The flat run is the structured one -/

section Flatten

variable {env : Env}
variable {opener : String} {conds : List Bool} {vm vm' : VM}

/-- How a run goes on after a tree whose reading has come to an end: it is over with conditions
`left`, or the rest of the script is run. -/
def resume (env : Env) (outcome : Except String VM) (conds left : List Bool) (rest : List String) :
    Except String VM :=
  andThen outcome fun vm =>
    if vm.finished then .ok { vm with conds := left } else run env rest { vm with conds := conds }

theorem run_closer {closer : String} (h : opcodeOf closer = some "OP_ENDIF") (rest : List String)
    (main alt : Stack) (cond : Bool) (conds : List Bool) :
    run env (closer :: rest) ⟨main, alt, cond :: conds, false⟩
      = run env rest ⟨main, alt, conds, false⟩ := by
  rw [run, if_neg Bool.false_ne_true, executeInstruction_endif h]
  rfl

theorem run_middle {middle : String} (h : opcodeOf middle = some "OP_ELSE") (rest : List String)
    (main alt : Stack) (cond : Bool) (conds : List Bool) :
    run env (middle :: rest) ⟨main, alt, cond :: conds, false⟩
      = run env rest ⟨main, alt, (conds.all id && !cond) :: conds, false⟩ := by
  rw [run, if_neg Bool.false_ne_true, executeInstruction_else h]
  rfl

theorem run_opener_skip (h : IsOpener opener)
    (hconds : conds.all id = false) (rest : List String) (main alt : Stack) :
    run env (opener :: rest) ⟨main, alt, conds, false⟩
      = run env rest ⟨main, alt, false :: conds, false⟩ := by
  have hskip : (⟨main, alt, conds, false⟩ : VM).isCurrentlyExecuting = false := hconds
  rw [run, if_neg Bool.false_ne_true]
  rcases h with h | h
  · rw [executeInstruction_skip h hskip]
    rfl
  · rw [executeInstruction_skip h hskip]
    rfl

/-- The beginning of a branch that can be taken. -/
theorem run_opener (h : IsOpener opener)
    (hconds : conds.all id = true) (rest : List String) (main alt : Stack) :
    run env (opener :: rest) ⟨main, alt, conds, false⟩ =
      match choose opener ⟨main, alt, [], false⟩ with
      | .error what => .error what
      | .ok (taken, vm) => run env rest { vm with conds := taken :: conds } := by
  have hopen : ∀ negated : Bool, opcodeOf opener = some (if negated then "OP_NOTIF" else "OP_IF") →
      run env (opener :: rest) ⟨main, alt, conds, false⟩ =
        match choose opener ⟨main, alt, [], false⟩ with
        | .error what => .error what
        | .ok (taken, vm) => run env rest { vm with conds := taken :: conds } := by
    intro negated hop
    have hnegated : (opcodeOf opener == some "OP_NOTIF") = negated := by
      rw [hop]
      cases negated <;> rfl
    have hexec : (⟨main, alt, conds, false⟩ : VM).isCurrentlyExecuting = true := hconds
    rw [run, if_neg Bool.false_ne_true, executeInstruction_opener negated hop, VM.openIf,
      if_pos hexec, choose, hnegated]
    cases main <;> rfl
  rcases h with h | h
  · exact hopen false h
  · exact hopen true h

/-- A tree in a branch that is not taken is passed over. -/
theorem run_flatten_skip (b : Block) : b.Balanced → ∀ (rest : List String) (main alt : Stack)
    (conds : List Bool), conds.all id = false →
    run env (b.flatten ++ rest) ⟨main, alt, conds, false⟩ = run env rest ⟨main, alt, conds, false⟩ := by
  induction b with
  | nil =>
      intro _ rest main alt conds _
      rfl
  | word text tail ih =>
      rintro ⟨⟨op, hop, hplain⟩, htail⟩ rest main alt conds hconds
      have htrack : track conds op = conds := by
        simp only [isControlFlow, Bool.or_eq_false_iff, decide_eq_false_iff_not] at hplain
        obtain ⟨⟨⟨hif, hnotif⟩, helse⟩, hendif⟩ := hplain
        simp only [track, hif, hnotif, helse, hendif, decide_false, Bool.or_self,
          Bool.false_eq_true, if_false]
      have hskip : (⟨main, alt, conds, false⟩ : VM).isCurrentlyExecuting = false := hconds
      rw [flatten, List.cons_append, run, if_neg Bool.false_ne_true,
        executeInstruction_skip hop hskip]
      simp only [htrack]
      exact ih htail rest main alt conds hconds
  | branch opener thenArm closer tail ihThen ihTail =>
      rintro ⟨hopener, hthen, hcloser, htail⟩ rest main alt conds hconds
      rw [flatten, List.cons_append, List.append_assoc, List.cons_append,
        run_opener_skip hopener hconds, ihThen hthen _ _ _ _ (by rw [List.all_cons]; rfl),
        run_closer hcloser]
      exact ihTail htail rest main alt conds hconds
  | branchElse opener thenArm middle elseArm closer tail ihThen ihElse ihTail =>
      rintro ⟨hopener, hthen, hmiddle, helse, hcloser, htail⟩ rest main alt conds hconds
      have hinner : ((conds.all id && !false) :: conds).all id = false := by
        rw [List.all_cons, hconds]
        rfl
      rw [flatten, List.cons_append, List.append_assoc, List.cons_append, List.append_assoc,
        List.cons_append, run_opener_skip hopener hconds,
        ihThen hthen _ _ _ _ (by rw [List.all_cons]; rfl), run_middle hmiddle,
        ihElse helse _ _ _ _ hinner, run_closer hcloser]
      exact ihTail htail rest main alt conds hconds

theorem conds_of_plain {text : String} (h : IsPlain text) (hconds : vm.conds = [])
    (hstep : executeInstruction env text vm = .ok vm') : vm'.conds = [] := by
  obtain ⟨main, alt, conds, finished⟩ := vm
  have hnil : conds = [] := hconds
  subst hnil
  rw [executeInstruction_plain h main alt rfl finished] at hstep
  cases hother : executeInstruction env text ⟨main, alt, [], finished⟩ with
  | error what => simp [hother] at hstep
  | ok next =>
      simp only [hother, Except.ok.injEq] at hstep
      rw [← hstep]

theorem exists_of_choose {taken : Bool}
    (h : choose opener vm = .ok (taken, vm')) : ∃ main, vm' = { vm with main := main } := by
  rw [choose] at h
  cases hpop : Stack.pop vm.main with
  | error what => simp [hpop] at h
  | ok popped =>
      simp only [hpop, Except.ok.injEq, Prod.mk.injEq] at h
      exact ⟨popped.2, h.2.symm⟩

theorem conds_of_choose {taken : Bool}
    (h : choose opener vm = .ok (taken, vm')) : vm'.conds = vm.conds := by
  obtain ⟨main, rfl⟩ := exists_of_choose h
  rfl

theorem ok_of_andThen {outcome : Except String VM} {next : VM → Except String VM}
    (h : andThen outcome next = .ok vm) : ∃ mid, outcome = .ok mid ∧ next mid = .ok vm := by
  cases outcome with
  | error what => cases h
  | ok mid => exact ⟨mid, rfl, h⟩

/-- The conditions do not take part in the structured reading. -/
theorem conds_of_eval (b : Block) : b.Balanced → ∀ {vm vm' : VM}, vm.conds = [] →
    b.eval env vm = .ok vm' → vm'.conds = [] := by
  induction b with
  | nil =>
      intro _ vm vm' hconds h
      exact Except.ok.inj h ▸ hconds
  | word text tail ih =>
      rintro ⟨hplain, htail⟩ vm vm' hconds h
      rw [eval] at h
      split_ifs at h
      · exact Except.ok.inj h ▸ hconds
      · obtain ⟨mid, hstep, hrest⟩ := ok_of_andThen h
        exact ih htail (conds_of_plain hplain hconds hstep) hrest
  | branch opener thenArm closer tail ihThen ihTail =>
      rintro ⟨_, hthen, _, htail⟩ vm vm' hconds h
      rw [eval] at h
      split_ifs at h
      · exact Except.ok.inj h ▸ hconds
      · cases hchoose : choose opener vm with
        | error what => simp [hchoose] at h
        | ok chosen =>
            simp only [hchoose] at h
            have hchosen := (conds_of_choose hchoose).trans hconds
            obtain ⟨mid, harm, hrest⟩ := ok_of_andThen h
            refine ihTail htail ?_ hrest
            split_ifs at harm
            · exact ihThen hthen hchosen harm
            · exact Except.ok.inj harm ▸ hchosen
  | branchElse opener thenArm middle elseArm closer tail ihThen ihElse ihTail =>
      rintro ⟨_, hthen, _, helse, _, htail⟩ vm vm' hconds h
      rw [eval] at h
      split_ifs at h
      · exact Except.ok.inj h ▸ hconds
      · cases hchoose : choose opener vm with
        | error what => simp [hchoose] at h
        | ok chosen =>
            simp only [hchoose] at h
            have hchosen := (conds_of_choose hchoose).trans hconds
            obtain ⟨mid, harm, hrest⟩ := ok_of_andThen h
            refine ihTail htail ?_ hrest
            split_ifs at harm
            · exact ihThen hthen hchosen harm
            · exact ihElse helse hchosen harm

theorem run_of_finished (script : List String) (h : vm.finished = true) :
    run env script vm = .ok vm := by
  cases script with
  | nil => rfl
  | cons instruction script => rw [run, if_pos h]

theorem eval_of_finished (b : Block) (h : vm.finished = true) : b.eval env vm = .ok vm := by
  cases b with
  | nil => rfl
  | word text rest => rw [eval, if_pos h]
  | branch opener thenArm closer rest => rw [eval, if_pos h]
  | branchElse opener thenArm middle elseArm closer rest => rw [eval, if_pos h]

/-- The flat run of a tree is its structured reading, with what follows. -/
def Reads (env : Env) (b : Block) : Prop :=
  ∀ (rest : List String) (main alt : Stack) (conds : List Bool), conds.all id = true →
    ∃ left, run env (b.flatten ++ rest) ⟨main, alt, conds, false⟩
      = resume env (b.eval env ⟨main, alt, [], false⟩) conds left rest

/-- A tree is read after something that may have finished the machine. -/
theorem Reads.after {tail : Block} (h : Reads env tail) (rest : List String)
    (hconds : conds.all id = true) (hvm : vm.conds = []) :
    ∃ left, run env (tail.flatten ++ rest) { vm with conds := conds }
      = resume env (tail.eval env vm) conds left rest := by
  obtain ⟨main, alt, inner, finished⟩ := vm
  have hnil : inner = [] := hvm
  subst hnil
  cases finished with
  | false => exact h rest main alt conds hconds
  | true =>
      refine ⟨conds, ?_⟩
      rw [run_of_finished _ rfl, eval_of_finished _ rfl]
      rfl

/-- A tree is read after an arm, once the branch has been closed. -/
theorem Reads.afterArm {tail : Block} (h : Reads env tail) (rest : List String)
    (hconds : conds.all id = true) {cond : Bool} {script : List String}
    (hscript : ∀ main alt, run env script ⟨main, alt, cond :: conds, false⟩
      = run env (tail.flatten ++ rest) ⟨main, alt, conds, false⟩)
    {outcome : Except String VM} (houtcome : ∀ vm, outcome = .ok vm → vm.conds = [])
    (left : List Bool) :
    ∃ left', resume env outcome (cond :: conds) left script
      = resume env (andThen outcome (tail.eval env)) conds left' rest := by
  cases outcome with
  | error what => exact ⟨[], rfl⟩
  | ok vm =>
      obtain ⟨main, alt, inner, finished⟩ := vm
      have hnil : inner = [] := houtcome _ rfl
      subst hnil
      cases finished with
      | true =>
          refine ⟨left, ?_⟩
          have hdone : tail.eval env ⟨main, alt, [], true⟩ = .ok ⟨main, alt, [], true⟩ :=
            eval_of_finished tail rfl
          simp only [andThen, hdone]
          rfl
      | false =>
          obtain ⟨left', hleft⟩ := h rest main alt conds hconds
          refine ⟨left', ?_⟩
          rw [resume, andThen, andThen, if_neg Bool.false_ne_true, ← hleft]
          exact hscript main alt

/-- **The flat run of a tree is its structured reading.** -/
theorem reads (b : Block) : b.Balanced → Reads env b := by
  induction b with
  | nil =>
      intro _ rest main alt conds _
      exact ⟨[], rfl⟩
  | word text tail ih =>
      rintro ⟨hplain, htail⟩ rest main alt conds hconds
      rw [flatten, List.cons_append, run, if_neg Bool.false_ne_true,
        executeInstruction_plain hplain main alt hconds, eval, if_neg Bool.false_ne_true]
      cases hstep : executeInstruction env text ⟨main, alt, [], false⟩ with
      | error what => exact ⟨[], rfl⟩
      | ok vm => exact (ih htail).after rest hconds (conds_of_plain hplain rfl hstep)
  | branch opener thenArm closer tail ihThen ihTail =>
      rintro ⟨hopener, hthen, hcloser, htail⟩ rest main alt conds hconds
      rw [flatten, List.cons_append, List.append_assoc, List.cons_append,
        run_opener hopener hconds, eval, if_neg Bool.false_ne_true]
      cases hchoose : choose opener ⟨main, alt, [], false⟩ with
      | error what => exact ⟨[], rfl⟩
      | ok chosen =>
          obtain ⟨taken, vm⟩ := chosen
          obtain ⟨main', rfl⟩ := exists_of_choose hchoose
          have hnil : (⟨main', alt, [], false⟩ : VM).conds = [] := rfl
          cases taken with
          | true =>
              obtain ⟨left, hleft⟩ := ihThen hthen (closer :: (tail.flatten ++ rest)) main' alt
                (true :: conds) (by rw [List.all_cons, hconds]; rfl)
              obtain ⟨left', hleft'⟩ := (ihTail htail).afterArm rest hconds
                (run_closer hcloser _ · · true conds)
                (fun vm h => conds_of_eval thenArm hthen hnil h) left
              exact ⟨left', hleft.trans hleft'⟩
          | false =>
              have hskip : run env (thenArm.flatten ++ closer :: (tail.flatten ++ rest))
                    ⟨main', alt, false :: conds, false⟩
                  = run env (closer :: (tail.flatten ++ rest)) ⟨main', alt, false :: conds, false⟩ :=
                run_flatten_skip thenArm hthen _ main' alt _ (by rw [List.all_cons]; rfl)
              obtain ⟨left, hleft⟩ := ihTail htail rest main' alt conds hconds
              exact ⟨left, (hskip.trans (run_closer hcloser _ main' alt false conds)).trans hleft⟩
  | branchElse opener thenArm middle elseArm closer tail ihThen ihElse ihTail =>
      rintro ⟨hopener, hthen, hmiddle, helse, hcloser, htail⟩ rest main alt conds hconds
      rw [flatten, List.cons_append, List.append_assoc, List.cons_append, List.append_assoc,
        List.cons_append, run_opener hopener hconds, eval, if_neg Bool.false_ne_true]
      cases hchoose : choose opener ⟨main, alt, [], false⟩ with
      | error what => exact ⟨[], rfl⟩
      | ok chosen =>
          obtain ⟨taken, vm⟩ := chosen
          obtain ⟨main', rfl⟩ := exists_of_choose hchoose
          have hnil : (⟨main', alt, [], false⟩ : VM).conds = [] := rfl
          cases taken with
          | true =>
              -- the second arm is passed over before the branch is closed
              have hrest : ∀ main alt : Stack,
                  run env (middle :: (elseArm.flatten ++ closer :: (tail.flatten ++ rest)))
                    ⟨main, alt, true :: conds, false⟩
                  = run env (tail.flatten ++ rest) ⟨main, alt, conds, false⟩ := by
                intro main alt
                rw [run_middle hmiddle, hconds, run_flatten_skip elseArm helse _ _ _ _
                  (by rw [List.all_cons]; rfl)]
                exact run_closer hcloser _ main alt _ conds
              obtain ⟨left, hleft⟩ := ihThen hthen
                (middle :: (elseArm.flatten ++ closer :: (tail.flatten ++ rest))) main' alt
                (true :: conds) (by rw [List.all_cons, hconds]; rfl)
              obtain ⟨left', hleft'⟩ := (ihTail htail).afterArm rest hconds hrest
                (fun vm h => conds_of_eval thenArm hthen hnil h) left
              exact ⟨left', hleft.trans hleft'⟩
          | false =>
              have hskip : run env (thenArm.flatten ++
                    middle :: (elseArm.flatten ++ closer :: (tail.flatten ++ rest)))
                    ⟨main', alt, false :: conds, false⟩
                  = run env (elseArm.flatten ++ closer :: (tail.flatten ++ rest))
                    ⟨main', alt, true :: conds, false⟩ := by
                rw [run_flatten_skip thenArm hthen _ _ _ _ (by rw [List.all_cons]; rfl),
                  run_middle hmiddle, hconds]
                rfl
              obtain ⟨left, hleft⟩ := ihElse helse (closer :: (tail.flatten ++ rest)) main' alt
                (true :: conds) (by rw [List.all_cons, hconds]; rfl)
              obtain ⟨left', hleft'⟩ := (ihTail htail).afterArm rest hconds
                (run_closer hcloser _ · · true conds)
                (fun vm h => conds_of_eval elseArm helse hnil h) left
              exact ⟨left', hskip.trans (hleft.trans hleft')⟩

/-- A tree by itself: the stacks are those of the structured reading, and the conditions are as
they were unless the machine has been finished inside. -/
theorem run_flatten (b : Block) (hb : b.Balanced) (hvm : vm.isCurrentlyExecuting = true) :
    ∃ left, run env b.flatten vm = andThen (b.eval env { vm with conds := [] }) fun vm' =>
      .ok { vm' with conds := if vm'.finished then left else vm.conds } := by
  obtain ⟨main, alt, conds, finished⟩ := vm
  cases finished with
  | true =>
      refine ⟨conds, ?_⟩
      have hdone : b.eval env ⟨main, alt, [], true⟩ = .ok ⟨main, alt, [], true⟩ :=
        eval_of_finished b rfl
      rw [run_of_finished _ rfl]
      simp only [hdone, andThen, if_true]
  | false =>
      obtain ⟨left, hleft⟩ := reads b hb [] main alt conds hvm
      refine ⟨left, ?_⟩
      rw [List.append_nil] at hleft
      rw [hleft, resume]
      congr 1
      funext vm'
      split_ifs <;> rfl

end Flatten

end Block

/-! ### The conditional machine -/

namespace BVMSimulator

/-- **The conditional machine is structured.**  As long as a branch that is not taken goes on, no
stack is changed and the nesting is tracked; the flat run of a tree is its structured reading; an
`OP_ELSE` or `OP_ENDIF` without an open branch fails; and a branch that is open at the end of the
script does not matter, as if it had been closed there. -/
theorem conditionals_structured (env : Env) :
    (∀ (script : List String) (vm : VM), vm.finished = false →
      (∀ n < script.length, (trackAll vm.conds (script.take n)).all id = false) →
      run env script vm = if "" ∈ script then .error "Failed to parse instruction: "
        else .ok { vm with conds := trackAll vm.conds script }) ∧
    (∀ (b : Block), b.Balanced → ∀ vm : VM, vm.isCurrentlyExecuting = true →
      ∃ left, run env b.flatten vm = Block.andThen (b.eval env { vm with conds := [] }) fun vm' =>
        .ok { vm' with conds := if vm'.finished then left else vm.conds }) ∧
    (∀ (instruction : String) (rest : List String) (vm : VM),
      opcodeOf instruction = some "OP_ELSE" ∨ opcodeOf instruction = some "OP_ENDIF" →
      vm.finished = false → vm.conds = [] →
      ∃ what, run env (instruction :: rest) vm = .error what) ∧
    (∀ (script : List String) (vm vm' : VM), run env script vm = .ok vm' → vm'.finished = false →
      run env (script ++ List.replicate vm'.conds.length "OP_ENDIF") vm
        = .ok { vm' with conds := [] }) := by
  refine ⟨run_skip, fun b hb vm hvm => b.run_flatten hb hvm, ?_, fun script vm vm' => run_close⟩
  intro instruction rest vm hinstruction hfinished hconds
  obtain ⟨main, alt, conds, finished⟩ := vm
  have hnil : conds = [] := hconds
  have hrunning : finished = false := hfinished
  subst hnil hrunning
  rcases hinstruction with h | h
  · refine ⟨"Execution error: OP_ELSE without matching OP_IF", ?_⟩
    rw [run, if_neg Bool.false_ne_true, executeInstruction_else h]
    rfl
  · refine ⟨"Execution error: OP_ENDIF without matching OP_IF", ?_⟩
    rw [run, if_neg Bool.false_ne_true, executeInstruction_endif h]
    rfl

/-- A script may end inside of a branch. -/
theorem not_fails_of_open : ¬ ∀ (env : Env) (script : List String) (vm vm' : VM),
    run env script vm = .ok vm' → vm'.finished = false → vm'.conds = [] := by
  intro h
  have hrun : run bareEnv ["OP_1", "OP_IF"] ⟨[], [], [], false⟩ = .ok ⟨[], [], [true], false⟩ := by
    decide +kernel
  exact absurd (h _ _ _ _ hrun rfl) (by decide)

end BVMSimulator

end AtomicProof
