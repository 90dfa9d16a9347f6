/-
The shortest way to copy a slot over another.

`planCopyAssignment` in `src/src/bytecode/stack_permutation_planner.cpp` looks for the cheapest row
of steps that replaces the slot at one depth by a copy of the slot at another.  A row copies once and
deletes once, and may park slots on the alt stack.  The search runs over states of the two stacks
whose slots are numbered, knows whether the copy and the deletion have been made, follows only copies
of the source and deletions of the target, and drops what costs more than the legacy sequence.

Main definitions:

* `applyStep`, `applyPlan` — what a step and a row of steps do to the two stacks;
* `CopyState`, `addCopyNeighbour`, `copyNeighbours` — the states of the search and their neighbours;
* `copyProblem`, `searchCopyAssignment`, `planCopyAssignment` — the search and the plan.

Main results:

* `applyPlan_map`, `applyPlan_append_right` — what the slots are does not matter, nor what lies
  below them;
* `final_step` — **the instructions of a step do to the machine what the step does to its stacks**,
  and fail where the step cannot be done;
* `perm_applyPlan` — a row of steps only adds what it copies and removes what it deletes;
* `path_of_applyPlan` — **a row that copies the source once and deletes the target once is a path of
  the search of the same cost**.
-/

import AtomicProof.GoalSearch
import AtomicProof.MovePlanner
import Mathlib.Data.List.Lex
import Mathlib.Data.Set.Finite.List

set_option autoImplicit false

namespace AtomicProof

/-! ### What a step does to the two stacks -/

def StackPlanStep.isCopy (step : StackPlanStep) : Bool :=
  step.op = .dup || step.op = .over || step.op = .pick || step.op = .tuck

def StackPlanStep.isDelete (step : StackPlanStep) : Bool := step.op = .drop || step.op = .nip

section Steps

variable {α β : Type}

/-- The slot at `depth` is copied to the top. -/
def copyTop (depth : ℕ) (main : List α) : Option (List α) :=
  (main[depth]?).map fun element => element :: main

/-- What a step does to the main and the alt stack: `none` where it cannot be done. -/
def applyStep (step : StackPlanStep) (s : List α × List α) : Option (List α × List α) :=
  match step.op with
  | .dup => (copyTop 0 s.1).map (·, s.2)
  | .over => (copyTop 1 s.1).map (·, s.2)
  | .pick => (copyTop step.depth s.1).map (·, s.2)
  | .drop =>
      match s.1 with
      | _ :: rest => some (rest, s.2)
      | [] => none
  | .nip =>
      match s.1 with
      | a :: _ :: rest => some (a :: rest, s.2)
      | _ => none
  | .tuck =>
      match s.1 with
      | a :: b :: rest => some (a :: b :: a :: rest, s.2)
      | _ => none
  | .toAltStack =>
      match s.1 with
      | a :: rest => some (rest, a :: s.2)
      | [] => none
  | .fromAltStack =>
      match s.2 with
      | a :: rest => some (a :: s.1, rest)
      | [] => none
  | .swap => (applyMoveOnly step s.1).map (·, s.2)
  | .rot => (applyMoveOnly step s.1).map (·, s.2)
  | .twoSwap => (applyMoveOnly step s.1).map (·, s.2)
  | .twoRot => (applyMoveOnly step s.1).map (·, s.2)
  | .roll => (applyMoveOnly step s.1).map (·, s.2)

def applyPlan : List StackPlanStep → List α × List α → Option (List α × List α)
  | [], s => some s
  | step :: steps, s => (applyStep step s).bind (applyPlan steps)

@[simp] theorem applyPlan_nil (s : List α × List α) : applyPlan [] s = some s := rfl

theorem applyPlan_cons (step : StackPlanStep) (steps : List StackPlanStep) (s : List α × List α) :
    applyPlan (step :: steps) s = (applyStep step s).bind (applyPlan steps) := rfl

@[simp] theorem applyPlan_singleton (step : StackPlanStep) (s : List α × List α) :
    applyPlan [step] s = applyStep step s := by
  rw [applyPlan_cons]
  cases applyStep step s <;> rfl

theorem applyPlan_append (steps steps' : List StackPlanStep) (s : List α × List α) :
    applyPlan (steps ++ steps') s = (applyPlan steps s).bind (applyPlan steps') := by
  induction steps generalizing s with
  | nil => rfl
  | cons step steps ih =>
      rw [List.cons_append, applyPlan_cons, applyPlan_cons, Option.bind_assoc]
      congr 1
      funext mid
      exact ih mid

theorem applyStep_of_isMove {step : StackPlanStep} (h : step.isMove = true) (s : List α × List α) :
    applyStep step s = (rollAll step.rolls s.1).map (·, s.2) := by
  rw [← applyMoveOnly_eq_rollAll h]
  obtain ⟨op, depth⟩ := step
  cases op <;> first | rfl | (simp [StackPlanStep.isMove] at h)

theorem op_of_not_isMove {step : StackPlanStep} (h : step.isMove = false) :
    step.op = .dup ∨ step.op = .over ∨ step.op = .pick ∨ step.op = .drop ∨ step.op = .nip ∨
      step.op = .tuck ∨ step.op = .toAltStack ∨ step.op = .fromAltStack := by
  obtain ⟨op, depth⟩ := step
  cases op <;> simp [StackPlanStep.isMove] at h ⊢

theorem rollAll_map_eq (depths : List ℕ) (stack : List α) (f : α → β) :
    rollAll depths (stack.map f) = (rollAll depths stack).map (List.map f) := by
  induction depths generalizing stack with
  | nil => rfl
  | cons depth depths ih =>
      have htop : rollTop depth (stack.map f) = (rollTop depth stack).map (List.map f) := by
        simp only [rollTop, List.getElem?_map, Option.map_map, List.eraseIdx_map]
        rfl
      rw [rollAll_cons, rollAll_cons, htop]
      cases rollTop depth stack with
      | none => rfl
      | some mid => exact ih mid

/-- What the slots are does not matter to a step. -/
theorem applyStep_map (step : StackPlanStep) (s : List α × List α) (f : α → β) :
    applyStep step (Prod.map (List.map f) (List.map f) s) =
      (applyStep step s).map (Prod.map (List.map f) (List.map f)) := by
  by_cases hmove : step.isMove = true
  · rw [applyStep_of_isMove hmove, applyStep_of_isMove hmove, Prod.map_fst, rollAll_map_eq,
      Option.map_map, Option.map_map]
    rfl
  · rw [Bool.not_eq_true] at hmove
    obtain ⟨main, alt⟩ := s
    have hcopy : ∀ depth, copyTop depth (main.map f) = (copyTop depth main).map (List.map f) := by
      intro depth
      simp only [copyTop, List.getElem?_map, Option.map_map]
      rfl
    rcases op_of_not_isMove hmove with h | h | h | h | h | h | h | h <;>
      simp only [applyStep, h, Prod.map_fst, Prod.map_snd]
    · rw [hcopy]
      cases copyTop 0 main <;> rfl
    · rw [hcopy]
      cases copyTop 1 main <;> rfl
    · rw [hcopy]
      cases copyTop step.depth main <;> rfl
    · cases main <;> rfl
    · match main with
      | [] => rfl
      | [_] => rfl
      | _ :: _ :: _ => rfl
    · match main with
      | [] => rfl
      | [_] => rfl
      | _ :: _ :: _ => rfl
    · cases main <;> rfl
    · cases alt <;> rfl

theorem applyPlan_map (steps : List StackPlanStep) (s : List α × List α) (f : α → β) :
    applyPlan steps (Prod.map (List.map f) (List.map f) s) =
      (applyPlan steps s).map (Prod.map (List.map f) (List.map f)) := by
  induction steps generalizing s with
  | nil => rfl
  | cons step steps ih =>
      rw [applyPlan_cons, applyPlan_cons, applyStep_map]
      cases applyStep step s with
      | none => rfl
      | some mid => exact ih mid

/-- What lies below does not take part in a step. -/
theorem applyStep_append_right {step : StackPlanStep} {main alt main' alt' : List α}
    (h : applyStep step (main, alt) = some (main', alt')) (below belowAlt : List α) :
    applyStep step (main ++ below, alt ++ belowAlt) = some (main' ++ below, alt' ++ belowAlt) := by
  by_cases hmove : step.isMove = true
  · rw [applyStep_of_isMove hmove] at h ⊢
    obtain ⟨moved, hmoved, heq⟩ := Option.map_eq_some_iff.1 h
    obtain ⟨rfl, rfl⟩ := Prod.mk.inj heq
    rw [rollAll_append_right hmoved]
    rfl
  · rw [Bool.not_eq_true] at hmove
    have hcopy : ∀ depth, (copyTop depth main).map (·, alt) = some (main', alt') →
        (copyTop depth (main ++ below)).map (·, alt ++ belowAlt) =
          some (main' ++ below, alt' ++ belowAlt) := by
      intro depth hdepth
      simp only [copyTop, Option.map_map, Option.map_eq_some_iff] at hdepth
      obtain ⟨element, helement, heq⟩ := hdepth
      obtain ⟨rfl, rfl⟩ := Prod.mk.inj heq
      obtain ⟨hlt, rfl⟩ := List.getElem?_eq_some_iff.1 helement
      rw [copyTop, List.getElem?_append_left hlt, helement]
      rfl
    rcases op_of_not_isMove hmove with hop | hop | hop | hop | hop | hop | hop | hop <;>
      simp only [applyStep, hop] at h ⊢
    · exact hcopy 0 h
    · exact hcopy 1 h
    · exact hcopy step.depth h
    · match main, h with
      | a :: rest, h =>
          obtain ⟨rfl, rfl⟩ := Prod.mk.inj (Option.some.inj h)
          rfl
    · match main, h with
      | a :: b :: rest, h =>
          obtain ⟨rfl, rfl⟩ := Prod.mk.inj (Option.some.inj h)
          rfl
    · match main, h with
      | a :: b :: rest, h =>
          obtain ⟨rfl, rfl⟩ := Prod.mk.inj (Option.some.inj h)
          rfl
    · match main, h with
      | a :: rest, h =>
          obtain ⟨rfl, rfl⟩ := Prod.mk.inj (Option.some.inj h)
          rfl
    · match alt, h with
      | a :: rest, h =>
          obtain ⟨rfl, rfl⟩ := Prod.mk.inj (Option.some.inj h)
          rfl

theorem applyPlan_append_right {steps : List StackPlanStep} {main alt main' alt' : List α}
    (h : applyPlan steps (main, alt) = some (main', alt')) (below belowAlt : List α) :
    applyPlan steps (main ++ below, alt ++ belowAlt) = some (main' ++ below, alt' ++ belowAlt) := by
  induction steps generalizing main alt with
  | nil =>
      obtain ⟨rfl, rfl⟩ := Prod.mk.inj (Option.some.inj h)
      rfl
  | cons step steps ih =>
      obtain ⟨⟨mid, midAlt⟩, hmid, hrest⟩ := Option.bind_eq_some_iff.1 h
      rw [applyPlan_cons, applyStep_append_right hmid below belowAlt, Option.bind_some]
      exact ih hrest

end Steps

/-! ### The instructions of a step -/

section Emission

variable {env : ScriptEnv}
variable {op : BytOpcode} {conds : List Bool}

theorem emitText_copyOpcode :
    emitText (opcodeToHex .opDup) = emitOp .opDup ∧ emitText (opcodeToHex .opOver) = emitOp .opOver ∧
      emitText (opcodeToHex .opPick) = emitOp .opPick ∧
      emitText (opcodeToHex .opDrop) = emitOp .opDrop ∧
      emitText (opcodeToHex .opNip) = emitOp .opNip ∧
      emitText (opcodeToHex .opTuck) = emitOp .opTuck ∧
      emitText (opcodeToHex .opToaltstack) = emitOp .opToaltstack ∧
      emitText (opcodeToHex .opFromaltstack) = emitOp .opFromaltstack := by
  decide +kernel

theorem final_emitOp {f : Stack → Except String Stack} (hop : isOneByte op = true)
    (hf : mainOp env.toEnv [] op = some f) (main alt : Stack)
    (hconds : conds.all id = true) :
    final env (emitOp op) ⟨main, alt, conds, false⟩ =
      (f main).toOption.map fun main' => ⟨main', alt, conds, false⟩ := by
  have hatom := mainAtom_of_mainOp (completeInstruction_opcodeToHex hop) hf
  have hexec : (⟨main, alt, conds, false⟩ : VM).isCurrentlyExecuting = true := hconds
  rw [emitOp, final_singleton rfl, hatom, if_pos hexec, VM.onMain_toOption]

theorem final_emitVmOp (hop : isOneByte op = true) (main alt : Stack)
    (hconds : conds.all id = true) :
    final env (emitOp op) ⟨main, alt, conds, false⟩ =
      (executeKnown env.toEnv [] op ⟨main, alt, conds, false⟩).toOption := by
  have hexec : (⟨main, alt, conds, false⟩ : VM).isCurrentlyExecuting = true := hconds
  rw [emitOp, final_singleton rfl, execAtom, completeInstruction_opcodeToHex hop]
  simp [executeOpcode, BytOpcode.ofByte?_toByte, hexec]

theorem final_number_emitOp {f : Stack → Except String Stack}
    (hop : isOneByte op = true) (hf : mainOp env.toEnv [] op = some f) (depth : ℕ)
    (main alt : Stack) (hconds : conds.all id = true) :
    final env (emitText (numberToScriptHex depth) ++ emitOp op) ⟨main, alt, conds, false⟩ =
      (f (serializeScriptNum depth :: main)).toOption.map fun main' =>
        ⟨main', alt, conds, false⟩ := by
  rw [final_append, takes_number (depth : ℤ) main alt conds hconds, Option.bind_some,
    final_emitOp hop hf _ _ hconds]

/-- **The instructions of a step do to the machine what the step does to its stacks**, and fail
where the step cannot be done.  The depth must be a number of the machine; rolling from the depth
zero, which has no instruction, does not notice that the stack is empty. -/
theorem final_step {step : StackPlanStep} {main alt : Stack} (hdepth : step.depth < 2 ^ 63)
    (hroll : step.op = .roll → main ≠ []) (hconds : conds.all id = true) :
    final env (step.encodedInstructions.flatMap emitText) ⟨main, alt, conds, false⟩ =
      (applyStep step (main, alt)).map fun s => ⟨s.1, s.2, conds, false⟩ := by
  obtain ⟨hswap, hrot, h2swap, h2rot, hrollText⟩ := emitText_opcode
  obtain ⟨hdup, hover, hpick, hdrop, hnip, htuck, htoalt, hfromalt⟩ := emitText_copyOpcode
  obtain ⟨op, depth⟩ := step
  have hnum : toInt (serializeScriptNum depth) = some (depth : ℤ) := by
    refine toInt_serializeScriptNum ?_
    simp only [Int.natAbs_natCast]
    exact hdepth
  have hnonneg : ¬ (depth : ℤ) < 0 := by omega
  -- the machine's own forms of a roll or a copy of a small depth come first
  have hswapStep : final env (emitOp .opSwap) ⟨main, alt, conds, false⟩ =
      (rollTop 1 main).map fun main' => ⟨main', alt, conds, false⟩ := by
    rw [final_emitOp (by decide) rfl _ _ hconds]
    rcases main with _ | ⟨_, _ | ⟨_, _⟩⟩
    all_goals rfl
  have hrotStep : final env (emitOp .opRot) ⟨main, alt, conds, false⟩ =
      (rollTop 2 main).map fun main' => ⟨main', alt, conds, false⟩ := by
    rw [final_emitOp (by decide) rfl _ _ hconds]
    rcases main with _ | ⟨_, _ | ⟨_, _ | ⟨_, _⟩⟩⟩
    all_goals rfl
  have hdupStep : final env (emitOp .opDup) ⟨main, alt, conds, false⟩ =
      (copyTop 0 main).map fun main' => ⟨main', alt, conds, false⟩ := by
    rw [final_emitOp (by decide) rfl _ _ hconds]
    cases main <;> rfl
  have hoverStep : final env (emitOp .opOver) ⟨main, alt, conds, false⟩ =
      (copyTop 1 main).map fun main' => ⟨main', alt, conds, false⟩ := by
    rw [final_emitOp (by decide) rfl _ _ hconds, Stack.pick_toOption]
    rfl
  cases op with
  | swap =>
      rw [applyStep_of_isMove rfl]
      simpa [StackPlanStep.encodedInstructions, hswap, StackPlanStep.rolls, Function.comp_def]
        using hswapStep
  | rot =>
      rw [applyStep_of_isMove rfl]
      simpa [StackPlanStep.encodedInstructions, hrot, StackPlanStep.rolls, Function.comp_def]
        using hrotStep
  | twoSwap =>
      simp only [StackPlanStep.encodedInstructions, List.flatMap_cons, h2swap, List.flatMap_nil,
        List.append_nil]
      rw [final_emitOp (by decide) rfl _ _ hconds]
      rcases main with _ | ⟨_, _ | ⟨_, _ | ⟨_, _ | ⟨_, _⟩⟩⟩⟩
      all_goals rfl
  | twoRot =>
      simp only [StackPlanStep.encodedInstructions, List.flatMap_cons, h2rot, List.flatMap_nil,
        List.append_nil]
      rw [final_emitOp (by decide) rfl _ _ hconds]
      rcases main with _ | ⟨_, _ | ⟨_, _ | ⟨_, _ | ⟨_, _ | ⟨_, _ | ⟨_, _⟩⟩⟩⟩⟩⟩
      all_goals rfl
  | roll =>
      rw [applyStep_of_isMove rfl]
      simp only [StackPlanStep.rolls, rollAll_singleton, Option.map_map, Function.comp_def,
        StackPlanStep.encodedInstructions]
      split_ifs with h0 h1 h2
      · subst h0
        obtain ⟨a, rest, rfl⟩ := List.exists_cons_of_ne_nil (hroll rfl)
        rfl
      · subst h1
        simpa [hswap] using hswapStep
      · subst h2
        simpa [hrot] using hrotStep
      -- the depth is pushed in front of the opcode
      · simp only [List.flatMap_cons, hrollText, List.flatMap_nil, List.append_nil]
        rw [final_number_emitOp (by decide) rfl depth _ _ hconds]
        simp only [opRoll, Stack.pop_cons, bind, Except.bind, hnum, hnonneg, if_false,
          Int.toNat_natCast, Stack.roll_toOption]
        rfl
  | dup => simpa [StackPlanStep.encodedInstructions, hdup, applyStep, Function.comp_def] using hdupStep
  | «over» =>
      simpa [StackPlanStep.encodedInstructions, hover, applyStep, Function.comp_def] using hoverStep
  | pick =>
      simp only [applyStep, Option.map_map, Function.comp_def, StackPlanStep.encodedInstructions]
      split_ifs with h0 h1
      · subst h0
        simpa [hdup] using hdupStep
      · subst h1
        simpa [hover] using hoverStep
      · simp only [List.flatMap_cons, hpick, List.flatMap_nil, List.append_nil]
        rw [final_number_emitOp (by decide) rfl depth _ _ hconds]
        simp only [opPick, Stack.pop_cons, bind, Except.bind, hnum, hnonneg, if_false,
          Int.toNat_natCast, Stack.pick_toOption]
        rfl
  | drop =>
      simp only [StackPlanStep.encodedInstructions, List.flatMap_cons, hdrop, List.flatMap_nil,
        List.append_nil]
      rw [final_emitOp (by decide) rfl _ _ hconds]
      cases main <;> rfl
  | nip =>
      simp only [StackPlanStep.encodedInstructions, List.flatMap_cons, hnip, List.flatMap_nil,
        List.append_nil]
      rw [final_emitOp (by decide) rfl _ _ hconds]
      rcases main with _ | ⟨_, _ | ⟨_, _⟩⟩
      all_goals rfl
  | tuck =>
      simp only [StackPlanStep.encodedInstructions, List.flatMap_cons, htuck, List.flatMap_nil,
        List.append_nil]
      rw [final_emitOp (by decide) rfl _ _ hconds]
      rcases main with _ | ⟨_, _ | ⟨_, _⟩⟩
      all_goals rfl
  | toAltStack =>
      simp only [StackPlanStep.encodedInstructions, List.flatMap_cons, htoalt, List.flatMap_nil,
        List.append_nil]
      rw [final_emitVmOp (by decide) _ _ hconds]
      cases main <;> rfl
  | fromAltStack =>
      simp only [StackPlanStep.encodedInstructions, List.flatMap_cons, hfromalt, List.flatMap_nil,
        List.append_nil]
      rw [final_emitVmOp (by decide) _ _ hconds]
      cases alt <;> rfl

/-- A row of steps that can be done is done by its instructions. -/
theorem takes_plan {steps : List StackPlanStep} {s s' : Stack × Stack}
    (h : applyPlan steps s = some s') (hdepth : ∀ step ∈ steps, step.depth < 2 ^ 63) :
    Takes env ((steps.flatMap (·.encodedInstructions)).flatMap emitText) s s' := by
  induction steps generalizing s with
  | nil =>
      obtain rfl := Option.some.inj h
      exact Takes.refl _
  | cons step steps ih =>
      obtain ⟨mid, hmid, hrest⟩ := Option.bind_eq_some_iff.1 h
      have hstep : Takes env (step.encodedInstructions.flatMap emitText) s mid := by
        intro conds hconds
        have hs : applyStep step (s.1, s.2) = some mid := hmid
        have hroll : step.op = .roll → s.1 ≠ [] := by
          intro hop hnil
          simp [applyStep, hop, hnil, applyMoveOnly, rollTop] at hs
        rw [final_step (hdepth step List.mem_cons_self) hroll hconds, hs]
        rfl
      rw [List.flatMap_cons, List.flatMap_append]
      exact hstep.trans (ih hrest fun other hother => hdepth other (List.mem_cons_of_mem _ hother))

end Emission

/-! ### What a row of steps copies and deletes -/

section Tokens

variable {α : Type}
variable {step : StackPlanStep} {s s' : List α × List α} {steps : List StackPlanStep}

def copiedBy (step : StackPlanStep) (main : List α) : List α :=
  match step.op with
  | .dup => main[0]?.toList
  | .tuck => main[0]?.toList
  | .over => main[1]?.toList
  | .pick => main[step.depth]?.toList
  | _ => []

def deletedBy (step : StackPlanStep) (main : List α) : List α :=
  match step.op with
  | .drop => main[0]?.toList
  | .nip => main[1]?.toList
  | _ => []

def copiedAlong : List StackPlanStep → List α × List α → List α
  | [], _ => []
  | step :: steps, s =>
      copiedBy step s.1 ++ ((applyStep step s).map (copiedAlong steps)).getD []

def deletedAlong : List StackPlanStep → List α × List α → List α
  | [], _ => []
  | step :: steps, s =>
      deletedBy step s.1 ++ ((applyStep step s).map (deletedAlong steps)).getD []

theorem length_copiedBy
    (h : applyStep step s = some s') : (copiedBy step s.1).length = step.isCopy.toNat := by
  obtain ⟨op, depth⟩ := step
  obtain ⟨main, alt⟩ := s
  have hcopy : ∀ {depth : ℕ}, (copyTop depth main).map (·, alt) = some s' →
      (main[depth]?.toList).length = 1 := by
    intro depth hdepth
    simp only [copyTop, Option.map_map, Option.map_eq_some_iff] at hdepth
    obtain ⟨element, helement, -⟩ := hdepth
    rw [helement]
    rfl
  cases op with
  | dup => exact hcopy h
  | «over» => exact hcopy h
  | pick => exact hcopy h
  | tuck =>
      match main, h with
      | a :: b :: rest, h => rfl
  | _ => rfl

theorem length_deletedBy
    (h : applyStep step s = some s') : (deletedBy step s.1).length = step.isDelete.toNat := by
  obtain ⟨op, depth⟩ := step
  obtain ⟨main, alt⟩ := s
  cases op with
  | drop =>
      match main, h with
      | a :: rest, h => rfl
  | nip =>
      match main, h with
      | a :: b :: rest, h => rfl
  | _ => rfl

/-- A step only adds the slot it copies and removes the slot it deletes. -/
theorem count_applyStep [DecidableEq α] (h : applyStep step s = some s') (x : α) :
    (copiedBy step s.1).count x + (s.1.count x + s.2.count x) =
      (deletedBy step s.1).count x + (s'.1.count x + s'.2.count x) := by
  obtain ⟨main, alt⟩ := s
  -- a move permutes the stack, the other operations are counted one by one
  by_cases hmove : step.isMove = true
  · rw [applyStep_of_isMove hmove] at h
    obtain ⟨moved, hmoved, rfl⟩ := Option.map_eq_some_iff.1 h
    have hcopied : copiedBy step main = [] := by
      obtain ⟨op, depth⟩ := step
      cases op <;> first | rfl | (simp [StackPlanStep.isMove] at hmove)
    have hdeleted : deletedBy step main = [] := by
      obtain ⟨op, depth⟩ := step
      cases op <;> first | rfl | (simp [StackPlanStep.isMove] at hmove)
    rw [hcopied, hdeleted, (rollAll_perm hmoved).count_eq]
  · rw [Bool.not_eq_true] at hmove
    have hcopy : ∀ {depth : ℕ}, (copyTop depth main).map (·, alt) = some s' →
        (main[depth]?.toList).count x + (main.count x + alt.count x) =
          s'.1.count x + s'.2.count x := by
      intro depth hdepth
      simp only [copyTop, Option.map_map, Option.map_eq_some_iff] at hdepth
      obtain ⟨element, helement, rfl⟩ := hdepth
      rw [helement]
      simp only [Option.toList_some, Function.comp_apply, List.count_cons, List.count_nil]
      omega
    rcases op_of_not_isMove hmove with hop | hop | hop | hop | hop | hop | hop | hop <;>
      simp only [applyStep, hop] at h <;> simp only [copiedBy, deletedBy, hop]
    · simpa using hcopy h
    · simpa using hcopy h
    · simpa using hcopy h
    · rcases main with _ | ⟨a, rest⟩
      · cases h
      · obtain rfl := Option.some.inj h
        simp [List.count_cons]
        omega
    · rcases main with _ | ⟨a, _ | ⟨b, rest⟩⟩
      · cases h
      · cases h
      · obtain rfl := Option.some.inj h
        simp [List.count_cons]
        omega
    · rcases main with _ | ⟨a, _ | ⟨b, rest⟩⟩
      · cases h
      · cases h
      · obtain rfl := Option.some.inj h
        simp [List.count_cons]
        omega
    · rcases main with _ | ⟨a, rest⟩
      · cases h
      · obtain rfl := Option.some.inj h
        simp [List.count_cons]
        omega
    · rcases alt with _ | ⟨a, rest⟩
      · cases h
      · obtain rfl := Option.some.inj h
        simp [List.count_cons]
        omega

/-- **A row of steps only adds what it copies and removes what it deletes.** -/
theorem count_applyPlan [DecidableEq α] (h : applyPlan steps s = some s') (x : α) :
    (copiedAlong steps s).count x + (s.1.count x + s.2.count x) =
      (deletedAlong steps s).count x + (s'.1.count x + s'.2.count x) := by
  induction steps generalizing s with
  | nil =>
      obtain rfl := Option.some.inj h
      rfl
  | cons step steps ih =>
      obtain ⟨mid, hmid, hrest⟩ := Option.bind_eq_some_iff.1 h
      have hstep := count_applyStep hmid x
      have hsteps := ih hrest
      simp only [copiedAlong, deletedAlong, hmid, Option.map_some, Option.getD_some,
        List.count_append]
      omega

theorem length_copiedAlong (h : applyPlan steps s = some s') :
    (copiedAlong steps s).length = steps.countP (·.isCopy) := by
  induction steps generalizing s with
  | nil => rfl
  | cons step steps ih =>
      obtain ⟨mid, hmid, hrest⟩ := Option.bind_eq_some_iff.1 h
      simp only [copiedAlong, hmid, Option.map_some, Option.getD_some, List.length_append,
        length_copiedBy hmid, ih hrest, List.countP_cons]
      cases step.isCopy <;> simp [Nat.add_comm]

theorem length_deletedAlong (h : applyPlan steps s = some s') :
    (deletedAlong steps s).length = steps.countP (·.isDelete) := by
  induction steps generalizing s with
  | nil => rfl
  | cons step steps ih =>
      obtain ⟨mid, hmid, hrest⟩ := Option.bind_eq_some_iff.1 h
      simp only [deletedAlong, hmid, Option.map_some, Option.getD_some, List.length_append,
        length_deletedBy hmid, ih hrest, List.countP_cons]
      cases step.isDelete <;> simp [Nat.add_comm]

end Tokens

/-! ### The search -/

/-- `CopyState`: the slots of the window on the two stacks, from the top down. -/
structure CopyState where
  main : List ℕ
  alt : List ℕ := []
  copied : Bool := false
  deleted : Bool := false
  deriving DecidableEq, Repr

namespace CopyState

def pair (state : CopyState) : List ℕ × List ℕ := (state.main, state.alt)

/-- `copyStateKey`: the characters of the key. -/
def copyStateKey (state : CopyState) : List ℕ :=
  state.copied.toNat :: state.deleted.toNat :: state.main.length ::
    (state.main.map (· + 1) ++ state.alt.length :: state.alt.map (· + 1))

theorem copyStateKey_injective : Function.Injective copyStateKey := by
  rintro ⟨main, alt, copied, deleted⟩ ⟨main', alt', copied', deleted'⟩ h
  have hmap : Function.Injective (List.map fun token : ℕ => token + 1) :=
    List.map_injective_iff.mpr (add_left_injective 1)
  simp only [copyStateKey, List.cons.injEq] at h
  obtain ⟨hcopied, hdeleted, hlen, hrest⟩ := h
  obtain ⟨hmain, halt⟩ := List.append_inj hrest (by simpa using hlen)
  obtain rfl := hmap hmain
  obtain rfl := hmap (List.cons.inj halt).2
  obtain rfl : copied = copied' := by
    cases copied <;> cases copied' <;> simp at hcopied ⊢
  obtain rfl : deleted = deleted' := by
    cases deleted <;> cases deleted' <;> simp at hdeleted ⊢
  rfl

def isCopyGoal (state : CopyState) (goal : List ℕ) : Bool :=
  state.copied && state.deleted && state.alt.isEmpty && state.main == goal

/-- `addCopyNeighbour`: a second copy and a second deletion are refused. -/
def addCopyNeighbour (state : CopyState) (operation : StackPlanStep) : Option CopyState :=
  if (operation.isCopy && state.copied) || (operation.isDelete && state.deleted) then none
  else (applyStep operation state.pair).map fun s =>
    ⟨s.1, s.2, state.copied || operation.isCopy, state.deleted || operation.isDelete⟩

/-- The operations `copyNeighbours` tries: copies of the source, deletions of the target, and moves
of any slot. -/
def copyOperations (state : CopyState) (sourceToken targetToken : ℕ) : List StackPlanStep :=
  (if state.copied then []
    else
      (if state.main[0]? = some sourceToken then
        ⟨.dup, 0⟩ :: (if 2 ≤ state.main.length then [⟨.tuck, 1⟩] else [])
      else []) ++
      (if state.main[1]? = some sourceToken then [⟨.over, 1⟩] else []) ++
      ((List.range state.main.length).filter fun depth =>
        2 ≤ depth ∧ state.main[depth]? = some sourceToken).map (StackPlanStep.mk .pick)) ++
  (if state.deleted then []
    else
      (if state.main[0]? = some targetToken then [⟨.drop, 0⟩] else []) ++
      (if state.main[1]? = some targetToken then [⟨.nip, 1⟩] else [])) ++
  moveOnlyOperations state.main.length ++
  (if state.main.isEmpty then [] else [⟨.toAltStack, 0⟩]) ++
  (if state.alt.isEmpty then [] else [⟨.fromAltStack, 0⟩])

def copyNeighbours (state : CopyState) (sourceToken targetToken : ℕ) :
    List (CopyState × StackPlanStep) :=
  (state.copyOperations sourceToken targetToken).filterMap fun operation =>
    (state.addCopyNeighbour operation).map (·, operation)

/-- The slots of a state of the search are numbers of the window, and there is at most one more. -/
def Valid (windowSize : ℕ) (state : CopyState) : Prop :=
  state.main.length + state.alt.length ≤ windowSize + state.copied.toNat ∧
    ∀ token ∈ state.main ++ state.alt, token < windowSize

instance (windowSize : ℕ) (state : CopyState) : Decidable (state.Valid windowSize) :=
  inferInstanceAs (Decidable (_ ∧ _))

end CopyState

def CopyNode (windowSize : ℕ) : Type := { state : CopyState // state.Valid windowSize }

namespace CopyNode

variable {windowSize : ℕ}

/-- The states are ordered by their keys. -/
instance : LinearOrder (CopyNode windowSize) :=
  LinearOrder.lift' (fun node => node.val.copyStateKey)
    (CopyState.copyStateKey_injective.comp Subtype.val_injective)

/-- There are finitely many states. -/
instance : Finite (CopyNode windowSize) := by
  have hrows : {tokens : List ℕ | tokens.length ≤ windowSize + 1 ∧
      ∀ token ∈ tokens, token < windowSize}.Finite := by
    refine ((List.finite_length_le (Fin windowSize) (windowSize + 1)).image
      (List.map Fin.val)).subset ?_
    rintro tokens ⟨hlen, htokens⟩
    refine ⟨tokens.pmap Fin.mk htokens, by simpa using hlen, ?_⟩
    rw [List.map_pmap]
    simp
  refine Set.Finite.to_subtype (Set.Finite.subset ((hrows.prod hrows).prod
    (Set.finite_univ : (Set.univ : Set (Bool × Bool)).Finite) |>.image fun x => ⟨x.1.1, x.1.2, x.2.1, x.2.2⟩) ?_)
  rintro ⟨main, alt, copied, deleted⟩ ⟨hlen, htokens⟩
  have hflag : copied.toNat ≤ 1 := Bool.toNat_le copied
  simp only at hlen
  have hmain : main.length ≤ windowSize + 1 := by omega
  have halt : alt.length ≤ windowSize + 1 := by omega
  refine ⟨((main, alt), (copied, deleted)), ⟨⟨⟨hmain, ?_⟩, ⟨halt, ?_⟩⟩, trivial⟩, rfl⟩
  · exact fun token htoken => htokens token (List.mem_append_left _ htoken)
  · exact fun token htoken => htokens token (List.mem_append_right _ htoken)

end CopyNode

namespace CopyState

variable {state next : CopyState} {operation : StackPlanStep}

theorem addCopyNeighbour_eq_some (h : state.addCopyNeighbour operation = some next) :
    (operation.isCopy = true → state.copied = false) ∧
      (operation.isDelete = true → state.deleted = false) ∧
      applyStep operation state.pair = some next.pair ∧
      next.copied = (state.copied || operation.isCopy) ∧
      next.deleted = (state.deleted || operation.isDelete) := by
  unfold addCopyNeighbour at h
  split_ifs at h with hrefused
  simp only [Bool.or_eq_true, Bool.and_eq_true, not_or, not_and, Bool.not_eq_true] at hrefused
  obtain ⟨s, hs, rfl⟩ := Option.map_eq_some_iff.1 h
  exact ⟨hrefused.1, hrefused.2, hs, rfl, rfl⟩

theorem mem_of_mem_copiedBy {α : Type} {step : StackPlanStep} {main : List α} {x : α}
    (h : x ∈ copiedBy step main) : x ∈ main := by
  obtain ⟨op, depth⟩ := step
  cases op <;> simp only [copiedBy, Option.mem_toList, List.not_mem_nil] at h <;>
    exact List.mem_of_getElem? h

/-- The neighbours of a state of the search are states of the search. -/
theorem Valid.addCopyNeighbour {windowSize : ℕ} (hvalid : state.Valid windowSize)
    (h : state.addCopyNeighbour operation = some next) : next.Valid windowSize := by
  obtain ⟨hcopied, -, hstep, hnext, -⟩ := addCopyNeighbour_eq_some h
  have hperm : (copiedBy operation state.main ++ (state.main ++ state.alt)).Perm
      (deletedBy operation state.main ++ (next.main ++ next.alt)) := by
    rw [List.perm_iff_count]
    intro x
    simp only [List.count_append]
    exact count_applyStep hstep x
  have hlen := hperm.length_eq
  have hone : (copiedBy operation state.main).length = operation.isCopy.toNat :=
    length_copiedBy hstep
  have hflag : next.copied.toNat = state.copied.toNat + operation.isCopy.toNat := by
    rw [hnext]
    cases hcopy : operation.isCopy with
    | false => simp
    | true => simp [hcopied hcopy]
  simp only [List.length_append] at hlen
  refine ⟨?_, fun token htoken => ?_⟩
  · have := hvalid.1
    omega
  · have hmem := hperm.mem_iff.mpr (List.mem_append_right _ htoken)
    rcases List.mem_append.mp hmem with hmem | hmem
    · exact hvalid.2 token (List.mem_append_left _ (mem_of_mem_copiedBy hmem))
    · exact hvalid.2 token hmem

end CopyState

open CopyState (copyStateKey)

section Search

variable (sourceDepth targetDepth : ℕ)

/-- The window of a copy: both slots and everything above them. -/
def windowSize : ℕ := max sourceDepth targetDepth + 1

/-- The graph `searchCopyAssignment` searches. -/
def copyProblem : Relaxation.Problem (CopyNode (windowSize sourceDepth targetDepth)) PlanCost
    StackPlanStep where
  edges node := (node.val.copyNeighbours sourceDepth targetDepth).filterMap fun neighbour =>
    if h : neighbour.1.Valid (windowSize sourceDepth targetDepth) then
      some (neighbour.2, ⟨neighbour.1, h⟩)
    else none
  extend := extendCost

def initialNode : CopyNode (windowSize sourceDepth targetDepth) :=
  ⟨{ main := List.range (windowSize sourceDepth targetDepth) }, by simp [CopyState.Valid]⟩

/-- The window with a copy of the source in the place of the target. -/
def copyGoal : List ℕ := (List.range (windowSize sourceDepth targetDepth)).set targetDepth sourceDepth

/-- What the search of `searchCopyAssignment` finds. -/
def copySearch (exclusiveByteLimit : ℕ) :
    Option (CopyNode (windowSize sourceDepth targetDepth)) ×
      (CopyNode (windowSize sourceDepth targetDepth) →
        Relaxation.Entry (CopyNode (windowSize sourceDepth targetDepth)) PlanCost StackPlanStep) :=
  (copyProblem sourceDepth targetDepth).find (fun cost => cost.bytes < exclusiveByteLimit)
    (fun node => node.val.isCopyGoal (copyGoal sourceDepth targetDepth))
    { entries := Function.update (fun _ => {}) (initialNode sourceDepth targetDepth)
        { cost := PlanCost.zero }
      queue := [(PlanCost.zero, initialNode sourceDepth targetDepth)] }

def searchCopyAssignment (exclusiveByteLimit : ℕ) : Except String (Option StackPermutationPlan) :=
  let found := copySearch sourceDepth targetDepth exclusiveByteLimit
  match found.1 with
  | none => .ok none
  | some node =>
      match (found.2 node).cost with
      | ⊤ => .error "broken copy-assignment predecessor chain"
      | (cost : PlanCost) =>
          match Relaxation.Problem.trace (initialNode sourceDepth targetDepth) found.2 cost.bytes
              node with
          | some steps => .ok (some (makePlan steps))
          | none => .error "broken copy-assignment predecessor chain"

def pickByteCost (depth : ℕ) : ℕ :=
  if depth ≤ 1 then 1 else StackPlanStep.encodedByteSize (numberToScriptHex depth) + 1

def legacyCopyAssignmentByteCost : ℕ :=
  if sourceDepth = targetDepth then 2 ^ 64 - 1
  else if targetDepth < sourceDepth then
    2 * targetDepth + 1 + pickByteCost (sourceDepth - targetDepth - 1)
  else if sourceDepth = 0 ∧ targetDepth = 1 then 2
  else pickByteCost sourceDepth + 3 * targetDepth + 3

def maxCopyDepth : ℕ := 6

def planCopyAssignment (strictByteLimit : ℕ) : Except String (Option StackPermutationPlan) :=
  if sourceDepth = targetDepth ∨ maxCopyDepth < sourceDepth ∨ maxCopyDepth < targetDepth ∨
      strictByteLimit = 0 then .ok none
  else
    match searchCopyAssignment sourceDepth targetDepth
        (legacyCopyAssignmentByteCost sourceDepth targetDepth + 1) with
    | .error error => .error error
    | .ok none => .ok none
    | .ok (some plan) => if strictByteLimit ≤ plan.serializedBytes then .ok none else .ok (some plan)

end Search

/-! ### Paths of the search -/

section Paths

variable {sourceDepth targetDepth : ℕ}
variable {node : CopyNode (windowSize sourceDepth targetDepth)} {step : StackPlanStep}
  {state : CopyState} {source target : ℕ}

/-- What an edge of the search is. -/
theorem mem_copyProblem_edges {node' : CopyNode (windowSize sourceDepth targetDepth)}
    : (step, node') ∈ (copyProblem sourceDepth targetDepth).edges node ↔
      step ∈ node.val.copyOperations sourceDepth targetDepth ∧
        node.val.addCopyNeighbour step = some node'.val := by
  simp only [copyProblem, List.mem_filterMap, CopyState.copyNeighbours, Option.map_eq_some_iff]
  constructor
  · rintro ⟨neighbour, ⟨operation, hop, next, hnext, rfl⟩, hedge⟩
    split_ifs at hedge with hvalid
    obtain ⟨rfl, rfl⟩ := Prod.mk.inj (Option.some.inj hedge)
    exact ⟨hop, hnext⟩
  · rintro ⟨hop, hnext⟩
    refine ⟨(node'.val, step), ⟨step, hop, node'.val, hnext, rfl⟩, ?_⟩
    rw [dif_pos node'.property]
    rfl

theorem encodedByteSize_opcode (op : BytOpcode) :
    StackPlanStep.encodedByteSize (opcodeToHex op) = 1 := by
  cases op <;> rfl

/-- Every step costs at least a byte, if it is not a roll that does nothing. -/
theorem serializedByteSize_pos_of_ne
    (h : step.op = .roll → step.depth ≠ 0) : 0 < step.serializedByteSize := by
  obtain ⟨op, depth⟩ := step
  cases op with
  | roll =>
      have h0 : depth ≠ 0 := h rfl
      simp only [StackPlanStep.serializedByteSize, StackPlanStep.encodedInstructions, h0, if_false]
      split_ifs <;> simp [encodedByteSize_opcode]
  | pick =>
      simp only [StackPlanStep.serializedByteSize, StackPlanStep.encodedInstructions]
      split_ifs <;> simp [encodedByteSize_opcode]
  | _ =>
      simp [StackPlanStep.serializedByteSize, StackPlanStep.encodedInstructions,
        encodedByteSize_opcode]

/-- The operations of the search, one by one. -/
theorem mem_copyOperations_iff : step ∈ state.copyOperations source target ↔
      (state.copied = false ∧
        ((state.main[0]? = some source ∧
            (step = ⟨.dup, 0⟩ ∨ 2 ≤ state.main.length ∧ step = ⟨.tuck, 1⟩)) ∨
          (state.main[1]? = some source ∧ step = ⟨.over, 1⟩) ∨
          ∃ depth, (2 ≤ depth ∧ state.main[depth]? = some source) ∧ step = ⟨.pick, depth⟩)) ∨
      (state.deleted = false ∧
        ((state.main[0]? = some target ∧ step = ⟨.drop, 0⟩) ∨
          (state.main[1]? = some target ∧ step = ⟨.nip, 1⟩))) ∨
      step ∈ moveOnlyOperations state.main.length ∨
      (state.main ≠ [] ∧ step = ⟨.toAltStack, 0⟩) ∨ (state.alt ≠ [] ∧ step = ⟨.fromAltStack, 0⟩) := by
  have hthen : ∀ (b : Prop) [Decidable b] (l : List StackPlanStep),
      step ∈ (if b then l else []) ↔ b ∧ step ∈ l := by
    intro b _ l
    split_ifs with hb <;> simp [hb]
  have helse : ∀ (b : Prop) [Decidable b] (l : List StackPlanStep),
      step ∈ (if b then [] else l) ↔ ¬ b ∧ step ∈ l := by
    intro b _ l
    split_ifs with hb <;> simp [hb]
  have hpick : step ∈ ((List.range state.main.length).filter fun depth =>
        2 ≤ depth ∧ state.main[depth]? = some source).map (StackPlanStep.mk .pick) ↔
      ∃ depth, (2 ≤ depth ∧ state.main[depth]? = some source) ∧ step = ⟨.pick, depth⟩ := by
    simp only [List.mem_map, List.mem_filter, List.mem_range, decide_eq_true_eq]
    constructor
    · rintro ⟨depth, ⟨-, hdepth⟩, rfl⟩
      exact ⟨depth, hdepth, rfl⟩
    · rintro ⟨depth, hdepth, rfl⟩
      exact ⟨depth, ⟨(List.getElem?_eq_some_iff.1 hdepth.2).1, hdepth⟩, rfl⟩
  simp only [CopyState.copyOperations, List.mem_append, hthen, helse, hpick, List.mem_cons,
    List.not_mem_nil, or_false, Bool.not_eq_true, List.isEmpty_iff, or_assoc, ne_eq]

/-- The operations of the search cost at least a byte. -/
theorem serializedByteSize_pos_of_mem
    (h : step ∈ state.copyOperations source target) : 0 < step.serializedByteSize := by
  refine serializedByteSize_pos_of_ne fun hop => ?_
  rcases mem_copyOperations_iff.1 h with ⟨-, hcopy⟩ | ⟨-, hdelete⟩ | hmove | ⟨-, rfl⟩ | ⟨-, rfl⟩
  · rcases hcopy with ⟨-, rfl | ⟨-, rfl⟩⟩ | ⟨-, rfl⟩ | ⟨depth, -, rfl⟩ <;> simp at hop
  · rcases hdelete with ⟨-, rfl⟩ | ⟨-, rfl⟩ <;> simp at hop
  · rcases mem_moveOnlyOperations hmove with rfl | rfl | rfl | rfl | ⟨depth, hdepth, rfl⟩
    · simp at hop
    · simp at hop
    · simp at hop
    · simp at hop
    · exact (show depth ≠ 0 by omega)
  · simp at hop
  · simp at hop

theorem applyPlan_of_path {steps : List StackPlanStep}
    (h : Relaxation.Problem.Path (copyProblem sourceDepth targetDepth)
      (initialNode sourceDepth targetDepth) steps node) :
    applyPlan steps (List.range (windowSize sourceDepth targetDepth), []) = some node.val.pair := by
  induction h with
  | nil => rfl
  | snoc _ hedge ih =>
      obtain ⟨-, hadd⟩ := mem_copyProblem_edges.1 hedge
      obtain ⟨-, -, hstep, -⟩ := CopyState.addCopyNeighbour_eq_some hadd
      rw [applyPlan_append, ih, Option.bind_some, applyPlan_singleton, hstep]

theorem isMove_of_mem_moveOnlyOperations {n : ℕ}
    (h : step ∈ moveOnlyOperations n) : step.isMove = true := by
  rcases mem_moveOnlyOperations h with rfl | rfl | rfl | rfl | ⟨depth, -, rfl⟩ <;> rfl

/-- A move neither copies nor deletes. -/
theorem addCopyNeighbour_of_isMove (h : step.isMove = true)
    (state : CopyState) : state.addCopyNeighbour step =
      (applyMoveOnly step state.main).map fun main => { state with main } := by
  have hcopy : step.isCopy = false := by
    obtain ⟨op, depth⟩ := step
    cases op <;> first | rfl | (simp [StackPlanStep.isMove] at h)
  have hdelete : step.isDelete = false := by
    obtain ⟨op, depth⟩ := step
    cases op <;> first | rfl | (simp [StackPlanStep.isMove] at h)
  rw [CopyState.addCopyNeighbour, hcopy, hdelete, applyStep_of_isMove h, applyMoveOnly_eq_rollAll h]
  simp only [Bool.false_and, Bool.or_self, Bool.false_eq_true, if_false, Option.map_map,
    Bool.or_false]
  rfl

theorem addCopyNeighbour_congr {step' : StackPlanStep}
    (hcopy : step.isCopy = step'.isCopy) (hdelete : step.isDelete = step'.isDelete)
    (h : applyStep step state.pair = applyStep step' state.pair) :
    state.addCopyNeighbour step = state.addCopyNeighbour step' := by
  rw [CopyState.addCopyNeighbour, CopyState.addCopyNeighbour, hcopy, hdelete, h]

theorem normalStep_eq (step : StackPlanStep) :
    normalStep step = [] ∨ ∃ operation, normalStep step = [operation] := by
  unfold normalStep
  split
  · exact Or.inr ⟨_, rfl⟩
  · exact Or.inr ⟨_, rfl⟩
  · exact Or.inr ⟨_, rfl⟩
  · exact Or.inr ⟨_, rfl⟩
  · split_ifs
    · exact Or.inl rfl
    · exact Or.inr ⟨_, rfl⟩
    · exact Or.inr ⟨_, rfl⟩
    · exact Or.inr ⟨_, rfl⟩
  · exact Or.inl rfl

/-- A step that copies the source, deletes the target or moves slots is an operation of the search
of the same cost, or does nothing. -/
theorem exists_operations {next : CopyState} (h : state.addCopyNeighbour step = some next)
    (hcopied : ∀ x ∈ copiedBy step state.main, x = source)
    (hdeleted : ∀ x ∈ deletedBy step state.main, x = target) :
    ∃ operations : List StackPlanStep,
      (operations = [] ∧ next = state ∨
        ∃ operation ∈ state.copyOperations source target,
          operations = [operation] ∧ state.addCopyNeighbour operation = some next) ∧
      ∀ cost, operations.foldl extendCost cost = extendCost cost step := by
  by_cases hmove : step.isMove = true
  · rw [addCopyNeighbour_of_isMove hmove] at h
    obtain ⟨main, hmain, rfl⟩ := Option.map_eq_some_iff.1 h
    obtain ⟨hnormal, hops, hcost⟩ := normalStep_spec hmain
    refine ⟨normalStep step, ?_, hcost⟩
    rcases normalStep_eq step with hnil | ⟨operation, hone⟩
    · rw [hnil] at hnormal
      obtain rfl := Option.some.inj hnormal
      exact Or.inl ⟨hnil, rfl⟩
    · rw [hone] at hnormal hops
      have hop := hops operation (List.mem_singleton.mpr rfl)
      obtain ⟨main', hmain', hnil⟩ := Option.bind_eq_some_iff.1 hnormal
      obtain rfl := Option.some.inj hnil
      refine Or.inr ⟨operation, ?_, hone, ?_⟩
      · exact mem_copyOperations_iff.2 (Or.inr (Or.inr (Or.inl hop)))
      · rw [addCopyNeighbour_of_isMove (isMove_of_mem_moveOnlyOperations hop), hmain']
        rfl
  · rw [Bool.not_eq_true] at hmove
    obtain ⟨hfresh, hkept, hstep, -⟩ := CopyState.addCopyNeighbour_eq_some h
    -- the step is an operation of the search but for its depth
    have hone : ∀ operation : StackPlanStep, operation.isCopy = step.isCopy →
        operation.isDelete = step.isDelete →
        applyStep operation state.pair = applyStep step state.pair →
        operation ∈ state.copyOperations source target →
        (∀ cost, extendCost cost operation = extendCost cost step) →
        ∃ operations : List StackPlanStep,
          (operations = [] ∧ next = state ∨
            ∃ operation ∈ state.copyOperations source target,
              operations = [operation] ∧ state.addCopyNeighbour operation = some next) ∧
          ∀ cost, operations.foldl extendCost cost = extendCost cost step := by
      intro operation hcopy hdelete happly hmem hcost
      refine ⟨[operation], Or.inr ⟨operation, hmem, rfl, ?_⟩, hcost⟩
      rw [addCopyNeighbour_congr hcopy hdelete happly, h]
    obtain ⟨main, alt, copied, deleted⟩ := state
    obtain ⟨op, depth⟩ := step
    have hsource : ∀ {depth : ℕ} {s : List ℕ × List ℕ}, (copyTop depth main).map (·, alt) = some s →
        (∀ x ∈ main[depth]?.toList, x = source) → main[depth]? = some source := by
      intro depth s hcopy hall
      simp only [copyTop, Option.map_map, Option.map_eq_some_iff] at hcopy
      obtain ⟨x, hx, -⟩ := hcopy
      rw [hx, hall x (by simp [hx])]
    rcases op_of_not_isMove hmove with hop | hop | hop | hop | hop | hop | hop | hop <;>
      obtain rfl : op = _ := hop
    · have hfirst := hsource hstep hcopied
      refine hone ⟨.dup, 0⟩ rfl rfl rfl ?_ fun cost => rfl
      exact mem_copyOperations_iff.2 (Or.inl ⟨hfresh rfl, Or.inl ⟨hfirst, Or.inl rfl⟩⟩)
    · have hsecond := hsource hstep hcopied
      refine hone ⟨.over, 1⟩ rfl rfl rfl ?_ fun cost => rfl
      exact mem_copyOperations_iff.2 (Or.inl ⟨hfresh rfl, Or.inr (Or.inl ⟨hsecond, rfl⟩)⟩)
    · have hpicked := hsource hstep hcopied
      match depth, hone, hstep, hpicked with
      | 0, hone, _, hpicked =>
          refine hone ⟨.dup, 0⟩ rfl rfl rfl ?_ fun cost => rfl
          exact mem_copyOperations_iff.2 (Or.inl ⟨hfresh rfl, Or.inl ⟨hpicked, Or.inl rfl⟩⟩)
      | 1, hone, _, hpicked =>
          refine hone ⟨.over, 1⟩ rfl rfl rfl ?_ fun cost => rfl
          exact mem_copyOperations_iff.2 (Or.inl ⟨hfresh rfl, Or.inr (Or.inl ⟨hpicked, rfl⟩)⟩)
      | depth + 2, hone, _, hpicked =>
          refine hone ⟨.pick, depth + 2⟩ rfl rfl rfl ?_ fun cost => rfl
          exact mem_copyOperations_iff.2 (Or.inl ⟨hfresh rfl,
            Or.inr (Or.inr ⟨depth + 2, ⟨by omega, hpicked⟩, rfl⟩)⟩)
    · match main, hstep, hdeleted, hone with
      | a :: rest, _, hdeleted, hone =>
          refine hone ⟨.drop, 0⟩ rfl rfl rfl ?_ fun cost => rfl
          have htop : a = target := hdeleted a (by simp [deletedBy])
          exact mem_copyOperations_iff.2 (Or.inr (Or.inl ⟨hkept rfl, Or.inl ⟨by simp [htop], rfl⟩⟩))
    · match main, hstep, hdeleted, hone with
      | a :: b :: rest, _, hdeleted, hone =>
          refine hone ⟨.nip, 1⟩ rfl rfl rfl ?_ fun cost => rfl
          have hsecond : b = target := hdeleted b (by simp [deletedBy])
          exact mem_copyOperations_iff.2
            (Or.inr (Or.inl ⟨hkept rfl, Or.inr ⟨by simp [hsecond], rfl⟩⟩))
    · match main, hstep, hcopied, hone with
      | a :: b :: rest, _, hcopied, hone =>
          refine hone ⟨.tuck, 1⟩ rfl rfl rfl ?_ fun cost => rfl
          have htop : a = source := hcopied a (by simp [copiedBy])
          exact mem_copyOperations_iff.2 (Or.inl ⟨hfresh rfl,
            Or.inl ⟨by simp [htop], Or.inr ⟨by simp, rfl⟩⟩⟩)
    · match main, hstep, hone with
      | a :: rest, _, hone =>
          refine hone ⟨.toAltStack, 0⟩ rfl rfl rfl ?_ fun cost => rfl
          exact mem_copyOperations_iff.2 (Or.inr (Or.inr (Or.inr (Or.inl ⟨by simp, rfl⟩))))
    · match alt, hstep, hone with
      | a :: rest, _, hone =>
          refine hone ⟨.fromAltStack, 0⟩ rfl rfl rfl ?_ fun cost => rfl
          exact mem_copyOperations_iff.2 (Or.inr (Or.inr (Or.inr (Or.inr ⟨by simp, rfl⟩))))

theorem flags_of_le {a b : Bool} (h : a.toNat + b.toNat ≤ 1) :
    (a && b) = false ∧ (b || a).toNat = b.toNat + a.toNat := by
  revert h
  cases a <;> cases b <;> decide

/-- **A row of steps that copies only the source, at most once, and deletes only the target, at most
once, is a path of the search of the same cost.** -/
theorem path_of_applyPlan {before steps : List StackPlanStep}
    (hpath : Relaxation.Problem.Path (copyProblem sourceDepth targetDepth)
      (initialNode sourceDepth targetDepth) before node)
    {s : List ℕ × List ℕ} (h : applyPlan steps node.val.pair = some s)
    (hcopied : ∀ x ∈ copiedAlong steps node.val.pair, x = sourceDepth)
    (hdeleted : ∀ x ∈ deletedAlong steps node.val.pair, x = targetDepth)
    (hcopies : steps.countP (·.isCopy) + node.val.copied.toNat ≤ 1)
    (hdeletes : steps.countP (·.isDelete) + node.val.deleted.toNat ≤ 1) :
    ∃ (operations : List StackPlanStep) (node' : CopyNode (windowSize sourceDepth targetDepth)),
      Relaxation.Problem.Path (copyProblem sourceDepth targetDepth)
        (initialNode sourceDepth targetDepth) operations node' ∧
      node'.val.pair = s ∧
      node'.val.copied.toNat = steps.countP (·.isCopy) + node.val.copied.toNat ∧
      node'.val.deleted.toNat = steps.countP (·.isDelete) + node.val.deleted.toNat ∧
      operations.foldl extendCost PlanCost.zero =
        steps.foldl extendCost (before.foldl extendCost PlanCost.zero) := by
  induction steps generalizing before node with
  | nil =>
      obtain rfl := Option.some.inj h
      exact ⟨before, node, hpath, rfl, by simp, by simp, rfl⟩
  | cons step steps ih =>
      obtain ⟨mid, hmid, hrest⟩ := Option.bind_eq_some_iff.1 h
      simp only [copiedAlong, deletedAlong, hmid, Option.map_some, Option.getD_some,
        List.mem_append] at hcopied hdeleted
      have hcount : ∀ b : Bool, (if b = true then 1 else 0) = b.toNat := by decide
      rw [List.countP_cons, hcount] at hcopies hdeletes
      obtain ⟨hfresh, hcopiedFlag⟩ := flags_of_le (a := step.isCopy) (b := node.val.copied) (by omega)
      obtain ⟨hkept, hdeletedFlag⟩ :=
        flags_of_le (a := step.isDelete) (b := node.val.deleted) (by omega)
      have hadd : node.val.addCopyNeighbour step = some ⟨mid.1, mid.2,
          node.val.copied || step.isCopy, node.val.deleted || step.isDelete⟩ := by
        rw [CopyState.addCopyNeighbour, hfresh, hkept, hmid]
        rfl
      obtain ⟨operations, hops, hcost⟩ := exists_operations hadd
        (fun x hx => hcopied x (Or.inl hx)) (fun x hx => hdeleted x (Or.inl hx))
      -- the search writes the step in its own way, or leaves it out when it does nothing
      set next : CopyNode (windowSize sourceDepth targetDepth) :=
        ⟨_, CopyState.Valid.addCopyNeighbour node.property hadd⟩ with hnext
      have hpath' : Relaxation.Problem.Path (copyProblem sourceDepth targetDepth)
          (initialNode sourceDepth targetDepth) (before ++ operations) next := by
        rcases hops with ⟨rfl, hsame⟩ | ⟨operation, hmem, rfl, hoperation⟩
        · have hnode : next = node := Subtype.ext hsame
          rw [hnode, List.append_nil]
          exact hpath
        · exact hpath.snoc (mem_copyProblem_edges.2 ⟨hmem, hoperation⟩)
      obtain ⟨operations', node', hpath'', hs, hcopied', hdeleted', hcost'⟩ :=
        ih hpath' hrest (fun x hx => hcopied x (Or.inr hx)) (fun x hx => hdeleted x (Or.inr hx))
          (by simp only [hnext]; omega) (by simp only [hnext]; omega)
      refine ⟨operations', node', hpath'', hs, ?_, ?_, ?_⟩
      · rw [hcopied', List.countP_cons, hcount]
        simp only [hnext]
        omega
      · rw [hdeleted', List.countP_cons, hcount]
        simp only [hnext]
        omega
      · rw [hcost', List.foldl_append, hcost, List.foldl_cons]

end Paths

end AtomicProof
