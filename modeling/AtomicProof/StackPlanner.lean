/-
The shortest way to permute the top of the stack.

`StackPermutationPlanner` in `src/src/bytecode/stack_permutation_planner.cpp` looks, for a window of
at most eight slots, for the cheapest row of `SWAP`, `ROT`, `2SWAP`, `2ROT` and `ROLL` that brings
the slots into a given order.  It runs one search over all permutations of the window from the
identity, whose nodes are the ranks of the permutations, and reads a plan back from the order that
is asked for.

Main definitions:

* `StackPlanStep` — a step of a plan, with its instructions and its costs;
* `applyMoveOnly`, `applySteps` — what a step and a plan do to a stack;
* `moveProblem`, `moveTable` — the search;
* `planMoveOnly`, `planMoveOnlyIds` — the plan for an order of the window.

Main results:

* `rollAll_append_right`, `rollAll_map` — a plan only moves slots, and only within its window;
* `planMoveOnly_spec` — **a plan there is brings the window into the order that is asked for**, and
  the predecessor chain is never broken.
-/

import AtomicProof.Generator
import AtomicProof.PermutationRank
import AtomicProof.Relaxation
import Mathlib.Data.List.InsertIdx
import Mathlib.Data.List.Perm.Subperm

set_option autoImplicit false

open scoped Nat

namespace AtomicProof

open ScriptCodec (stripHexPrefix)
open PermutationRank (rank unrank)

/-! ### Steps -/

inductive StackPlanOp
  | swap | rot | twoSwap | twoRot | roll
  | dup | over | pick | drop | nip | tuck | toAltStack | fromAltStack
  deriving DecidableEq, Repr

/-- `StackPlanStep`; the depth is used by `roll` and `pick` alone. -/
structure StackPlanStep where
  op : StackPlanOp
  depth : ℕ
  deriving DecidableEq, Repr

namespace StackPlanStep

def encodedInstructions (step : StackPlanStep) : List String :=
  match step.op with
  | .swap => [opcodeToHex .opSwap]
  | .rot => [opcodeToHex .opRot]
  | .twoSwap => [opcodeToHex .op2swap]
  | .twoRot => [opcodeToHex .op2rot]
  | .roll =>
      if step.depth = 0 then []
      else if step.depth = 1 then [opcodeToHex .opSwap]
      else if step.depth = 2 then [opcodeToHex .opRot]
      else [numberToScriptHex step.depth, opcodeToHex .opRoll]
  | .dup => [opcodeToHex .opDup]
  | .over => [opcodeToHex .opOver]
  | .pick =>
      if step.depth = 0 then [opcodeToHex .opDup]
      else if step.depth = 1 then [opcodeToHex .opOver]
      else [numberToScriptHex step.depth, opcodeToHex .opPick]
  | .drop => [opcodeToHex .opDrop]
  | .nip => [opcodeToHex .opNip]
  | .tuck => [opcodeToHex .opTuck]
  | .toAltStack => [opcodeToHex .opToaltstack]
  | .fromAltStack => [opcodeToHex .opFromaltstack]

/-- `encodedByteSize`: the number of bytes of script text. -/
def encodedByteSize (encoded : String) : ℕ := (stripHexPrefix encoded.toList).length / 2

def serializedByteSize (step : StackPlanStep) : ℕ :=
  (step.encodedInstructions.map encodedByteSize).sum

def emittedInstructionCount (step : StackPlanStep) : ℕ :=
  if step.op = .roll then (if step.depth = 0 then 0 else if step.depth ≤ 2 then 1 else 2)
  else if step.op = .pick then (if step.depth ≤ 1 then 1 else 2)
  else 1

def touchedDepth (step : StackPlanStep) : ℕ :=
  match step.op with
  | .swap => 1
  | .over => 1
  | .nip => 1
  | .tuck => 1
  | .rot => 2
  | .twoSwap => 3
  | .twoRot => 5
  | .roll => step.depth
  | .pick => step.depth
  | _ => 0

end StackPlanStep

/-- `PlanCost`, for a cost that is finite. -/
structure PlanCost where
  bytes : ℕ
  instructions : ℕ
  maximumDepth : ℕ
  deriving DecidableEq, Repr

namespace PlanCost

def zero : PlanCost := ⟨0, 0, 0⟩

/-- The triple `operator<` compares. -/
def key (cost : PlanCost) : ℕ ×ₗ ℕ ×ₗ ℕ :=
  toLex (cost.bytes, toLex (cost.instructions, cost.maximumDepth))

theorem key_injective : Function.Injective key := by
  rintro ⟨b, i, d⟩ ⟨b', i', d'⟩ h
  obtain ⟨hb, hrest⟩ := Prod.mk.inj (toLex.injective h)
  obtain ⟨hi, hd⟩ := Prod.mk.inj (toLex.injective hrest)
  simp only at hb hi hd
  rw [hb, hi, hd]

instance : LinearOrder PlanCost := LinearOrder.lift' key key_injective

instance : WellFoundedLT PlanCost := ⟨InvImage.wf key wellFounded_lt⟩

theorem bytes_mono : Monotone bytes := by
  intro a b h
  have hkey : key a ≤ key b := h
  rcases Prod.Lex.le_iff.1 hkey with hlt | ⟨heq, -⟩
  · exact le_of_lt hlt
  · exact le_of_eq heq

theorem le_iff {a b : PlanCost} : a ≤ b ↔ a.bytes < b.bytes ∨ a.bytes = b.bytes ∧
    (a.instructions < b.instructions ∨
      a.instructions = b.instructions ∧ a.maximumDepth ≤ b.maximumDepth) := by
  have hkey : a ≤ b ↔ key a ≤ key b := Iff.rfl
  rw [hkey, key, key, Prod.Lex.toLex_le_toLex, Prod.Lex.toLex_le_toLex]

theorem zero_le (cost : PlanCost) : zero ≤ cost := by
  rw [le_iff]
  simp only [zero]
  omega

end PlanCost

def extendCost (cost : PlanCost) (step : StackPlanStep) : PlanCost where
  bytes := cost.bytes + step.serializedByteSize
  instructions := cost.instructions + step.emittedInstructionCount
  maximumDepth := max cost.maximumDepth step.touchedDepth

theorem extendCost_mono {a b : PlanCost} (step : StackPlanStep) (h : a ≤ b) :
    extendCost a step ≤ extendCost b step := by
  rw [PlanCost.le_iff] at h ⊢
  simp only [extendCost]
  omega

theorem le_extendCost (cost : PlanCost) (step : StackPlanStep) : cost ≤ extendCost cost step := by
  rw [PlanCost.le_iff]
  simp only [extendCost]
  omega

structure StackPermutationPlan where
  steps : List StackPlanStep := []
  serializedBytes : ℕ := 0
  emittedInstructions : ℕ := 0
  maximumTouchedDepth : ℕ := 0
  deriving DecidableEq, Repr

def makePlan (steps : List StackPlanStep) : StackPermutationPlan where
  steps := steps
  serializedBytes := (steps.map (·.serializedByteSize)).sum
  emittedInstructions := (steps.map (·.emittedInstructionCount)).sum
  maximumTouchedDepth := (steps.map (·.touchedDepth)).foldl max 0

/-! ### Moves -/

section Moves

variable {α β : Type}
variable {stack stack' : List α} {depths : List ℕ} {step : StackPlanStep}

/-- The entry at `depth` is moved to the top. -/
def rollTop (depth : ℕ) (stack : List α) : Option (List α) :=
  (stack[depth]?).map fun element => element :: stack.eraseIdx depth

/-- `applyMoveOnly`: `none` where the stack is too small for the step. -/
def applyMoveOnly (step : StackPlanStep) (stack : List α) : Option (List α) :=
  match step.op, stack with
  | .swap, a :: b :: rest => some (b :: a :: rest)
  | .swap, _ => none
  | .rot, stack => rollTop 2 stack
  | .twoSwap, a :: b :: c :: d :: rest => some (c :: d :: a :: b :: rest)
  | .twoSwap, _ => none
  | .twoRot, a :: b :: c :: d :: e :: f :: rest => some (e :: f :: a :: b :: c :: d :: rest)
  | .twoRot, _ => none
  | .roll, stack => rollTop step.depth stack
  | _, _ => none

def applySteps : List StackPlanStep → List α → Option (List α)
  | [], stack => some stack
  | step :: steps, stack => (applyMoveOnly step stack).bind (applySteps steps)

/-- The depths a step rolls from, one after the other. -/
def StackPlanStep.rolls (step : StackPlanStep) : List ℕ :=
  match step.op with
  | .swap => [1]
  | .rot => [2]
  | .twoSwap => [3, 3]
  | .twoRot => [5, 5]
  | .roll => [step.depth]
  | _ => []

def StackPlanStep.isMove (step : StackPlanStep) : Bool :=
  step.op = .swap || step.op = .rot || step.op = .twoSwap || step.op = .twoRot || step.op = .roll

/-- The entries at the given depths are moved to the top, one after the other. -/
def rollAll (depths : List ℕ) (stack : List α) : Option (List α) :=
  depths.foldlM (fun stack depth => rollTop depth stack) stack

@[simp] theorem rollAll_nil (stack : List α) : rollAll [] stack = some stack := rfl

theorem rollAll_cons (depth : ℕ) (depths : List ℕ) (stack : List α) :
    rollAll (depth :: depths) stack = (rollTop depth stack).bind (rollAll depths) := rfl

@[simp] theorem rollAll_singleton (depth : ℕ) (stack : List α) :
    rollAll [depth] stack = rollTop depth stack := by
  rw [rollAll_cons]
  cases rollTop depth stack <;> rfl

theorem rollAll_append (depths depths' : List ℕ) (stack : List α) :
    rollAll (depths ++ depths') stack = (rollAll depths stack).bind (rollAll depths') :=
  List.foldlM_append

theorem rollTop_of_lt {depth : ℕ} (h : depth < stack.length) :
    rollTop depth stack = some (stack[depth] :: stack.eraseIdx depth) := by
  rw [rollTop, List.getElem?_eq_getElem h, Option.map_some]

theorem rollTop_eq_some {depth : ℕ} (h : rollTop depth stack = some stack') :
    ∃ hlt : depth < stack.length, stack' = stack[depth] :: stack.eraseIdx depth := by
  rw [rollTop, Option.map_eq_some_iff] at h
  obtain ⟨element, helement, rfl⟩ := h
  obtain ⟨hlt, rfl⟩ := List.getElem?_eq_some_iff.1 helement
  exact ⟨hlt, rfl⟩

theorem rollAll_perm (h : rollAll depths stack = some stack') : stack'.Perm stack := by
  induction depths generalizing stack with
  | nil =>
      obtain rfl := Option.some_inj.1 h
      exact List.Perm.refl _
  | cons depth depths ih =>
      obtain ⟨mid, hmid, hrest⟩ := Option.bind_eq_some_iff.1 h
      obtain ⟨hlt, rfl⟩ := rollTop_eq_some hmid
      exact (ih hrest).trans (List.getElem_cons_eraseIdx_perm hlt)

/-- What lies below does not take part. -/
theorem rollAll_append_right (h : rollAll depths stack = some stack') (below : List α) :
    rollAll depths (stack ++ below) = some (stack' ++ below) := by
  induction depths generalizing stack with
  | nil =>
      obtain rfl := Option.some_inj.1 h
      rfl
  | cons depth depths ih =>
      obtain ⟨mid, hmid, hrest⟩ := Option.bind_eq_some_iff.1 h
      obtain ⟨hlt, rfl⟩ := rollTop_eq_some hmid
      have hlt' : depth < (stack ++ below).length := by
        rw [List.length_append]
        omega
      rw [rollAll_cons, rollTop_of_lt hlt', Option.bind_some, List.getElem_append_left hlt,
        List.eraseIdx_append_of_lt_length hlt]
      exact ih hrest

theorem rollAll_map (h : rollAll depths stack = some stack')
    (f : α → β) : rollAll depths (stack.map f) = some (stack'.map f) := by
  induction depths generalizing stack with
  | nil =>
      obtain rfl := Option.some_inj.1 h
      rfl
  | cons depth depths ih =>
      obtain ⟨mid, hmid, hrest⟩ := Option.bind_eq_some_iff.1 h
      obtain ⟨hlt, rfl⟩ := rollTop_eq_some hmid
      rw [rollAll_cons, rollTop_of_lt (by rwa [List.length_map]), Option.bind_some,
        List.getElem_map, List.eraseIdx_map]
      exact ih hrest

theorem applyMoveOnly_of_not_isMove (h : step.isMove = false)
    (stack : List α) : applyMoveOnly step stack = none := by
  obtain ⟨op, depth⟩ := step
  cases op <;> first | rfl | (simp [StackPlanStep.isMove] at h)

/-- A step that moves entries moves them to the top. -/
theorem applyMoveOnly_eq_rollAll (h : step.isMove = true) (stack : List α) :
    applyMoveOnly step stack = rollAll step.rolls stack := by
  obtain ⟨op, depth⟩ := step
  cases op with
  | swap =>
      match stack with
      | [] => rfl
      | [_] => rfl
      | _ :: _ :: _ => rfl
  | rot => simp [applyMoveOnly, StackPlanStep.rolls]
  | twoSwap =>
      match stack with
      | [] => rfl
      | [_] => rfl
      | [_, _] => rfl
      | [_, _, _] => rfl
      | _ :: _ :: _ :: _ :: _ => rfl
  | twoRot =>
      match stack with
      | [] => rfl
      | [_] => rfl
      | [_, _] => rfl
      | [_, _, _] => rfl
      | [_, _, _, _] => rfl
      | [_, _, _, _, _] => rfl
      | _ :: _ :: _ :: _ :: _ :: _ :: _ => rfl
  | roll => simp [applyMoveOnly, StackPlanStep.rolls]
  | _ => simp [StackPlanStep.isMove] at h

theorem isMove_of_applyMoveOnly
    (h : applyMoveOnly step stack = some stack') : step.isMove = true := by
  by_contra hmove
  rw [applyMoveOnly_of_not_isMove (by simpa using hmove)] at h
  exact absurd h (by simp)

theorem rollAll_of_applyMoveOnly
    (h : applyMoveOnly step stack = some stack') : rollAll step.rolls stack = some stack' := by
  rw [← applyMoveOnly_eq_rollAll (isMove_of_applyMoveOnly h), h]

theorem applyMoveOnly_map_append
    (h : applyMoveOnly step stack = some stack') (f : α → β) (below : List β) :
    applyMoveOnly step (stack.map f ++ below) = some (stack'.map f ++ below) := by
  rw [applyMoveOnly_eq_rollAll (isMove_of_applyMoveOnly h)]
  exact rollAll_append_right (rollAll_map (rollAll_of_applyMoveOnly h) f) below

theorem applySteps_map_append {steps : List StackPlanStep}
    (h : applySteps steps stack = some stack') (f : α → β) (below : List β) :
    applySteps steps (stack.map f ++ below) = some (stack'.map f ++ below) := by
  induction steps generalizing stack with
  | nil =>
      obtain rfl := Option.some_inj.1 h
      rfl
  | cons step steps ih =>
      obtain ⟨mid, hmid, hrest⟩ := Option.bind_eq_some_iff.1 h
      rw [applySteps, applyMoveOnly_map_append hmid f below, Option.bind_some]
      exact ih hrest

theorem applySteps_append (steps steps' : List StackPlanStep) (stack : List α) :
    applySteps (steps ++ steps') stack = (applySteps steps stack).bind (applySteps steps') := by
  induction steps generalizing stack with
  | nil => rfl
  | cons step steps ih =>
      rw [List.cons_append, applySteps, applySteps, Option.bind_assoc]
      congr 1
      funext mid
      exact ih mid

end Moves

/-! ### The instructions of a step -/

section Emission

variable {env : ScriptEnv}

theorem emitText_opcode :
    emitText (opcodeToHex .opSwap) = emitOp .opSwap ∧ emitText (opcodeToHex .opRot) = emitOp .opRot ∧
      emitText (opcodeToHex .op2swap) = emitOp .op2swap ∧
      emitText (opcodeToHex .op2rot) = emitOp .op2rot ∧
      emitText (opcodeToHex .opRoll) = emitOp .opRoll := by
  decide +kernel

/-- **The instructions of a step do to the run-time stack what the step does.** -/
theorem takes_step {step : StackPlanStep} {main main' : Stack}
    (h : applyMoveOnly step main = some main') (hdepth : step.op = .roll → step.depth < 2 ^ 63)
    (alt : Stack) :
    Takes env (step.encodedInstructions.flatMap emitText) (main, alt) (main', alt) := by
  obtain ⟨hswap, hrot, h2swap, h2rot, hroll⟩ := emitText_opcode
  have hrolls := rollAll_of_applyMoveOnly h
  have hemit : ∀ depth, depth < 2 ^ 63 → rollTop depth main = some main' →
      Takes env (emitRoll depth) (main, alt) (main', alt) := by
    intro depth hsize hdepth
    obtain ⟨hlt, rfl⟩ := rollTop_eq_some hdepth
    exact takes_roll_of_lt hlt hsize alt
  obtain ⟨op, depth⟩ := step
  cases op with
  | swap =>
      have := hemit 1 (by decide) (by simpa [StackPlanStep.rolls] using hrolls)
      simpa [StackPlanStep.encodedInstructions, hswap, emitRoll] using this
  | rot =>
      have := hemit 2 (by decide) (by simpa [StackPlanStep.rolls] using hrolls)
      simpa [StackPlanStep.encodedInstructions, hrot, emitRoll] using this
  | twoSwap =>
      match main, h with
      | a :: b :: c :: d :: rest, h =>
          obtain rfl := Option.some_inj.1 h
          simp only [StackPlanStep.encodedInstructions, List.flatMap_cons, h2swap, List.flatMap_nil,
            List.append_nil]
          exact takes_op alt (by decide) rfl rfl
  | twoRot =>
      match main, h with
      | a :: b :: c :: d :: e :: f :: rest, h =>
          obtain rfl := Option.some_inj.1 h
          simp only [StackPlanStep.encodedInstructions, List.flatMap_cons, h2rot, List.flatMap_nil,
            List.append_nil]
          exact takes_op alt (by decide) rfl rfl
  | roll =>
      have := hemit depth (hdepth rfl) h
      simp only [StackPlanStep.encodedInstructions]
      unfold emitRoll at this
      split_ifs with h0 h1 h2
      · simpa [h0] using this
      · simpa [h1, hswap] using this
      · simpa [h2, hrot] using this
      · simpa [h0, h1, h2, hroll] using this
  | _ => exact absurd (isMove_of_applyMoveOnly h) (by simp [StackPlanStep.isMove])

theorem takes_step_of_size {step : StackPlanStep} {main main' : Stack}
    (h : applyMoveOnly step main = some main') (hsize : main.length < 2 ^ 63) (alt : Stack) :
    Takes env (step.encodedInstructions.flatMap emitText) (main, alt) (main', alt) := by
  refine takes_step h (fun hop => ?_) alt
  obtain ⟨op, depth⟩ := step
  obtain rfl : op = .roll := hop
  obtain ⟨hlt, -⟩ := rollTop_eq_some h
  exact hlt.trans hsize

end Emission

/-! ### The search -/

def moveOnlyOperations (stackSize : ℕ) : List StackPlanStep :=
  (if 2 ≤ stackSize then [⟨.swap, 1⟩] else []) ++ (if 3 ≤ stackSize then [⟨.rot, 2⟩] else []) ++
    (if 4 ≤ stackSize then [⟨.twoSwap, 3⟩] else []) ++
    (if 6 ≤ stackSize then [⟨.twoRot, 5⟩] else []) ++
    ((List.range stackSize).filter (3 ≤ ·)).map fun depth => ⟨.roll, depth⟩

/-- The graph `buildMoveTable` searches: its nodes are the ranks of the permutations of the window,
and the operations lead from one to another. -/
def moveProblem (n : ℕ) : Relaxation.Problem (Fin n !) PlanCost StackPlanStep where
  edges r := (moveOnlyOperations n).filterMap fun operation =>
    (applyMoveOnly operation (unrank n r)).bind fun next =>
      if h : rank next < n ! then some (operation, ⟨rank next, h⟩) else none
  extend := extendCost

def identityRank (n : ℕ) : Fin n ! := ⟨0, Nat.factorial_pos n⟩

/-- `buildMoveTable`. -/
def moveTable (n : ℕ) : Fin n ! → Relaxation.Entry (Fin n !) PlanCost StackPlanStep :=
  (moveProblem n).run
    { entries := Function.update (fun _ => {}) (identityRank n) { cost := PlanCost.zero }
      queue := [(PlanCost.zero, identityRank n)] }

def maxMoveWindow : ℕ := 8

/-- `planMoveOnly` for the order of the slots `0, 1, …` of the window. -/
def planMoveOnly (target : List ℕ) : Except String (Option StackPermutationPlan) :=
  let n := target.length
  if maxMoveWindow < n then .ok none
  else if n = 0 then .ok (some {})
  else if (∀ slot ∈ target, slot < n) ∧ target.Nodup then
    match (moveTable n ⟨rank target, PermutationRank.rank_lt target⟩).cost with
    | ⊤ => .ok none
    | (cost : PlanCost) =>
        match Relaxation.Problem.trace (identityRank n) (moveTable n) cost.bytes
            ⟨rank target, PermutationRank.rank_lt target⟩ with
        | some steps => .ok (some (makePlan steps))
        | none => .error "broken move-only predecessor chain"
  else .ok none

/-- `planMoveOnly` for slots with identifiers of their own. -/
def planMoveOnlyIds (currentTopFirst targetTopFirst : List ℕ) :
    Except String (Option StackPermutationPlan) :=
  if currentTopFirst.length ≠ targetTopFirst.length ∨ maxMoveWindow < currentTopFirst.length then
    .ok none
  else if currentTopFirst.Nodup ∧ (∀ slot ∈ targetTopFirst, slot ∈ currentTopFirst) ∧
      targetTopFirst.Nodup then
    planMoveOnly (targetTopFirst.map currentTopFirst.idxOf)
  else .ok none

variable {n : ℕ} {step : StackPlanStep}

theorem mem_moveOnlyOperations (h : step ∈ moveOnlyOperations n) :
    step = ⟨.swap, 1⟩ ∨ step = ⟨.rot, 2⟩ ∨ step = ⟨.twoSwap, 3⟩ ∨ step = ⟨.twoRot, 5⟩ ∨
      ∃ depth, 3 ≤ depth ∧ step = ⟨.roll, depth⟩ := by
  simp only [moveOnlyOperations, List.mem_append, List.mem_map, List.mem_filter, List.mem_range,
    decide_eq_true_eq] at h
  rcases h with (((h | h) | h) | h) | ⟨depth, ⟨-, hdepth⟩, rfl⟩
  · split_ifs at h <;> simp_all
  · split_ifs at h <;> simp_all
  · split_ifs at h <;> simp_all
  · split_ifs at h <;> simp_all
  · exact .inr (.inr (.inr (.inr ⟨depth, hdepth, rfl⟩)))

theorem serializedByteSize_pos (h : step ∈ moveOnlyOperations n) : 0 < step.serializedByteSize := by
  rcases mem_moveOnlyOperations h with rfl | rfl | rfl | rfl | ⟨depth, hdepth, rfl⟩
  · decide +kernel
  · decide +kernel
  · decide +kernel
  · decide +kernel
  · have hroll : StackPlanStep.encodedByteSize (opcodeToHex .opRoll) = 1 := by decide +kernel
    simp [StackPlanStep.serializedByteSize, StackPlanStep.encodedInstructions,
      show depth ≠ 0 by omega, show depth ≠ 1 by omega, show depth ≠ 2 by omega, hroll]

theorem mem_edges {r r' : Fin n !} (h : (step, r') ∈ (moveProblem n).edges r) :
    step ∈ moveOnlyOperations n ∧ applyMoveOnly step (unrank n r) = some (unrank n r') := by
  simp only [moveProblem, List.mem_filterMap] at h
  obtain ⟨operation, hop, hedge⟩ := h
  obtain ⟨next, hnext, hrank⟩ := Option.bind_eq_some_iff.1 hedge
  split_ifs at hrank with hlt
  obtain ⟨rfl, rfl⟩ := Prod.mk.inj (Option.some_inj.1 hrank)
  refine ⟨hop, ?_⟩
  have hperm : next.Perm (List.range n) := by
    exact (rollAll_perm (rollAll_of_applyMoveOnly hnext)).trans (PermutationRank.unrank_perm r.isLt)
  rw [hnext, PermutationRank.unrank_rank hperm]

theorem chained_moveTable (n : ℕ) : Relaxation.Problem.Chained (moveProblem n) (identityRank n)
    PlanCost.bytes (moveTable n) := by
  refine Relaxation.Problem.run_chained PlanCost.bytes_mono (fun _ _ step h => extendCost_mono step h)
    ?_ ?_
  · rintro c r ⟨step, r'⟩ hedge
    have := serializedByteSize_pos (mem_edges hedge).1
    simp only [moveProblem, extendCost]
    omega
  · intro r c hc hne
    simp [Function.update_of_ne hne] at hc

theorem applySteps_of_path {steps : List StackPlanStep} {r : Fin n !}
    (h : Relaxation.Problem.Path (moveProblem n) (identityRank n) steps r) :
    applySteps steps (List.range n) = some (unrank n r) := by
  induction h with
  | nil =>
      rw [identityRank, PermutationRank.unrank_zero]
      rfl
  | snoc _ hedge ih =>
      rw [applySteps_append, ih, Option.bind_some, applySteps, (mem_edges hedge).2]
      rfl

/-- **A plan there is brings the window into the order that is asked for**, and no error is
raised. -/
theorem planMoveOnly_spec (target : List ℕ) :
    ∃ plan, planMoveOnly target = .ok plan ∧
      ∀ p ∈ plan, target.Perm (List.range target.length) ∧
        applySteps p.steps (List.range target.length) = some target := by
  unfold planMoveOnly
  simp only
  split_ifs with hwindow hzero hvalid
  · exact ⟨none, rfl, by simp⟩
  · refine ⟨_, rfl, ?_⟩
    rintro p ⟨⟩
    obtain rfl := List.length_eq_zero_iff.1 hzero
    exact ⟨List.Perm.refl _, rfl⟩
  · have hperm : target.Perm (List.range target.length) := by
      refine (List.subperm_of_subset hvalid.2 fun slot hslot => ?_).perm_of_length_le (by simp)
      exact List.mem_range.2 (hvalid.1 slot hslot)
    cases hcost : (moveTable target.length ⟨rank target, PermutationRank.rank_lt target⟩).cost with
    | top => exact ⟨none, rfl, by simp⟩
    | coe cost =>
        obtain ⟨steps, hsteps, hpath, -⟩ := Relaxation.Problem.trace_spec
          (fun _ _ step h => extendCost_mono step h) PlanCost.zero_le
          (chained_moveTable target.length) hcost le_rfl
        refine ⟨some (makePlan steps), by simp only [hsteps], ?_⟩
        rintro p ⟨⟩
        refine ⟨hperm, ?_⟩
        have := applySteps_of_path hpath
        rwa [PermutationRank.unrank_rank hperm] at this
  · exact ⟨none, rfl, by simp⟩

/-- For slots that are numbered from the top the identifiers are the places. -/
theorem planMoveOnlyIds_spec (n : ℕ) (target : List ℕ) :
    ∃ plan, planMoveOnlyIds (List.range n) target = .ok plan ∧
      ∀ p ∈ plan, target.Perm (List.range n) ∧
        applySteps p.steps (List.range n) = some target := by
  unfold planMoveOnlyIds
  split_ifs with hlen hvalid
  · exact ⟨none, rfl, by simp⟩
  · have hmap : target.map (List.range n).idxOf = target := by
      refine (List.map_congr_left fun slot hslot => ?_).trans (List.map_id target)
      have hlt : slot < n := List.mem_range.1 (hvalid.2.1 slot hslot)
      have hidx := (List.nodup_range : (List.range n).Nodup).idxOf_getElem slot (by simpa using hlt)
      simpa using hidx
    have hn : target.length = n := by
      have heq := not_not.1 (not_or.1 hlen).1
      simpa using heq.symm
    rw [hmap]
    have := planMoveOnly_spec target
    rwa [hn] at this
  · exact ⟨none, rfl, by simp⟩

end AtomicProof
