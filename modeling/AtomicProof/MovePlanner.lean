/-
The move-only plans are exact and the cheapest.

`StackPlanner` models `planMoveOnly` and shows that a plan that is returned brings the window into
the order that is asked for.  Here it is shown that a plan is returned for every order, and that no
row of moves within the window does the same at a lower cost.  The cost of a plan is compared by
bytes, then by instructions, then by the depth it touches.  The depth is a maximum and not a sum,
and what the search needs of it is that a step keeps the order of costs.

Main definitions:

* `StackPermutationPlan.encodedInstructions`, `StackPermutationPlan.cost` — what a plan emits, and
  what it costs;
* `normalStep` — the operation of the search that does what a step does.

Main results:

* `exists_rolls` — every order of a stack is reached by moving slots to the top;
* `path_of_applySteps` — a row of steps within the window is a path of the search;
* `planMoveOnly_exact` — a plan is returned for every order of the window, and it is the cheapest;
* `planMoveOnlyIds_exact` — **the same for slots with identifiers, and what the plan does on the
  run-time stack**.
-/

import AtomicProof.StackPlanner

set_option autoImplicit false

open scoped Nat

namespace AtomicProof

open PermutationRank (rank unrank)

/-! ### What a plan costs -/

def StackPermutationPlan.encodedInstructions (plan : StackPermutationPlan) : List String :=
  plan.steps.flatMap (·.encodedInstructions)

/-- The cost of a plan, as plans are compared. -/
def StackPermutationPlan.cost (plan : StackPermutationPlan) : PlanCost :=
  ⟨plan.serializedBytes, plan.emittedInstructions, plan.maximumTouchedDepth⟩

theorem foldl_extendCost (steps : List StackPlanStep) (cost : PlanCost) :
    steps.foldl extendCost cost =
      ⟨cost.bytes + (steps.map (·.serializedByteSize)).sum,
        cost.instructions + (steps.map (·.emittedInstructionCount)).sum,
        (steps.map (·.touchedDepth)).foldl max cost.maximumDepth⟩ := by
  induction steps generalizing cost with
  | nil => rfl
  | cons step steps ih =>
      rw [List.foldl_cons, ih]
      simp [extendCost, Nat.add_assoc]

theorem cost_makePlan (steps : List StackPlanStep) :
    (makePlan steps).cost = steps.foldl extendCost PlanCost.zero := by
  rw [foldl_extendCost]
  simp [StackPermutationPlan.cost, makePlan, PlanCost.zero]

/-! ### Every order is reached -/

section Reach

variable {α : Type}

/-- The entries of a list are moved to the top, the last one first. -/
theorem exists_rolls_append (after before : List α) {stack : List α}
    (hperm : (before ++ after).Perm stack) :
    ∃ depths rest, rollAll depths stack = some (after ++ rest) ∧ rest.Perm before ∧
      ∀ depth ∈ depths, depth < stack.length := by
  induction after generalizing before with
  | nil => exact ⟨[], stack, rfl, by simpa using hperm.symm, by simp⟩
  | cons a after ih =>
      obtain ⟨depths, rest, hrun, hrest, hdepths⟩ :=
        ih (before ++ [a]) (by rwa [List.append_assoc, List.singleton_append])
      have hmem : a ∈ rest := hrest.mem_iff.mpr (by simp)
      obtain ⟨r₁, r₂, rfl⟩ := List.append_of_mem hmem
      have hlen : (after ++ (r₁ ++ a :: r₂)).length = stack.length := (rollAll_perm hrun).length_eq
      have hroll : rollTop (after ++ r₁).length (after ++ (r₁ ++ a :: r₂)) =
          some (a :: (after ++ (r₁ ++ r₂))) := by
        have hlt : (after ++ r₁).length < (after ++ r₁ ++ a :: r₂).length := by simp
        rw [← List.append_assoc, rollTop_of_lt hlt, List.getElem_append_right (le_refl _),
          List.eraseIdx_append_of_length_le (le_refl _)]
        simp
      refine ⟨depths ++ [(after ++ r₁).length], r₁ ++ r₂, ?_, ?_, ?_⟩
      · rw [rollAll_append, hrun, Option.bind_some, rollAll_singleton, hroll]
        rfl
      · have hcons : (a :: (r₁ ++ r₂)).Perm (a :: before) :=
          (List.perm_middle.symm.trans hrest).trans (List.perm_append_singleton a before)
        exact hcons.cons_inv
      · intro depth hdepth
        rcases List.mem_append.mp hdepth with hdepth | hdepth
        · exact hdepths depth hdepth
        · rw [List.mem_singleton.mp hdepth]
          simp only [List.length_append, List.length_cons] at hlen ⊢
          omega

/-- **Every order of a stack is reached by moving slots to the top.** -/
theorem exists_rolls {stack target : List α} (hperm : target.Perm stack) :
    ∃ depths, rollAll depths stack = some target := by
  obtain ⟨depths, rest, hrun, hrest, -⟩ := exists_rolls_append target [] (by simpa using hperm)
  obtain rfl := hrest.eq_nil
  exact ⟨depths, by simpa using hrun⟩

theorem applySteps_rolls (depths : List ℕ) (stack : List α) :
    applySteps (depths.map (StackPlanStep.mk .roll)) stack = rollAll depths stack := by
  induction depths generalizing stack with
  | nil => rfl
  | cons depth depths ih =>
      rw [List.map_cons, applySteps, rollAll_cons]
      congr 1
      funext mid
      exact ih mid

end Reach

/-! ### The operations of the search -/

/-- The operation of the search that does what a step does, if it does anything. -/
def normalStep (step : StackPlanStep) : List StackPlanStep :=
  match step.op with
  | .swap => [⟨.swap, 1⟩]
  | .rot => [⟨.rot, 2⟩]
  | .twoSwap => [⟨.twoSwap, 3⟩]
  | .twoRot => [⟨.twoRot, 5⟩]
  | .roll =>
      if step.depth = 0 then []
      else if step.depth = 1 then [⟨.swap, 1⟩]
      else if step.depth = 2 then [⟨.rot, 2⟩]
      else [step]
  | _ => []

variable {n : ℕ} {steps : List StackPlanStep}

theorem mem_moveOnlyOperations_iff {step : StackPlanStep} :
    step ∈ moveOnlyOperations n ↔ (2 ≤ n ∧ step = ⟨.swap, 1⟩) ∨ (3 ≤ n ∧ step = ⟨.rot, 2⟩) ∨
      (4 ≤ n ∧ step = ⟨.twoSwap, 3⟩) ∨ (6 ≤ n ∧ step = ⟨.twoRot, 5⟩) ∨
      ∃ depth, depth < n ∧ 3 ≤ depth ∧ step = ⟨.roll, depth⟩ := by
  have hif : ∀ (k : ℕ) (operation : StackPlanStep),
      step ∈ (if k ≤ n then [operation] else []) ↔ k ≤ n ∧ step = operation := by
    intro k operation
    split_ifs with hk <;> simp [hk]
  simp only [moveOnlyOperations, List.mem_append, hif, List.mem_map, List.mem_filter,
    List.mem_range, decide_eq_true_eq, or_assoc, and_assoc, eq_comm (b := step)]

/-- A step that moves entries is an operation of the search, or does nothing, and costs the same. -/
theorem normalStep_spec {α : Type} {step : StackPlanStep} {stack stack' : List α}
    (h : applyMoveOnly step stack = some stack') :
    applySteps (normalStep step) stack = some stack' ∧
      (∀ operation ∈ normalStep step, operation ∈ moveOnlyOperations stack.length) ∧
      ∀ cost, (normalStep step).foldl extendCost cost = extendCost cost step := by
  have hone : ∀ operation : StackPlanStep, applyMoveOnly operation stack = some stack' →
      applySteps [operation] stack = some stack' := by
    intro operation hoperation
    rw [applySteps, hoperation]
    rfl
  obtain ⟨op, depth⟩ := step
  cases op with
  | swap =>
      rcases stack with _ | ⟨a, _ | ⟨b, rest⟩⟩
      · cases h
      · cases h
      · exact ⟨hone ⟨.swap, 1⟩ h, by simp [normalStep, mem_moveOnlyOperations_iff], fun cost => rfl⟩
  | rot =>
      refine ⟨hone _ h, ?_, fun cost => rfl⟩
      obtain ⟨hlt, -⟩ := rollTop_eq_some h
      simpa [normalStep, mem_moveOnlyOperations_iff, Nat.succ_le_iff] using hlt
  | twoSwap =>
      rcases stack with _ | ⟨a, _ | ⟨b, _ | ⟨c, _ | ⟨d, rest⟩⟩⟩⟩
      · cases h
      · cases h
      · cases h
      · cases h
      · exact ⟨hone ⟨.twoSwap, 3⟩ h, by simp [normalStep, mem_moveOnlyOperations_iff],
          fun cost => rfl⟩
  | twoRot =>
      rcases stack with _ | ⟨a, _ | ⟨b, _ | ⟨c, _ | ⟨d, _ | ⟨e, _ | ⟨f, rest⟩⟩⟩⟩⟩⟩
      · cases h
      · cases h
      · cases h
      · cases h
      · cases h
      · cases h
      · exact ⟨hone ⟨.twoRot, 5⟩ h, by simp [normalStep, mem_moveOnlyOperations_iff],
          fun cost => rfl⟩
  | roll =>
      -- the rolls of the two slots below are spelled as a swap and a rotation
      have hroll : rollTop depth stack = some stack' := h
      obtain ⟨hlt, hstack'⟩ := rollTop_eq_some hroll
      rcases depth with _ | _ | _ | depth
      -- the slot on top is already there
      · refine ⟨?_, by simp [normalStep], fun cost => ?_⟩
        · obtain ⟨a, rest, rfl⟩ := List.exists_cons_of_length_pos hlt
          rw [hstack']
          rfl
        · simp [normalStep, extendCost, StackPlanStep.serializedByteSize,
            StackPlanStep.encodedInstructions, StackPlanStep.emittedInstructionCount,
            StackPlanStep.touchedDepth]
      · refine ⟨hone _ ?_, ?_, fun cost => rfl⟩
        · rw [applyMoveOnly_eq_rollAll rfl]
          simpa [StackPlanStep.rolls] using hroll
        · simpa [normalStep, mem_moveOnlyOperations_iff, Nat.succ_le_iff] using hlt
      · refine ⟨hone _ hroll, ?_, fun cost => rfl⟩
        simpa [normalStep, mem_moveOnlyOperations_iff, Nat.succ_le_iff] using hlt
      · refine ⟨hone _ h, ?_, fun cost => rfl⟩
        simpa [normalStep, mem_moveOnlyOperations_iff] using hlt
  | _ => exact absurd (isMove_of_applyMoveOnly h) (by simp [StackPlanStep.isMove])

/-! ### Rows of steps are paths -/

/-- An operation of the search is an edge. -/
theorem mem_edges_of_applyMoveOnly {r : Fin n !} {operation : StackPlanStep}
    (hop : operation ∈ moveOnlyOperations n) {next : List ℕ}
    (h : applyMoveOnly operation (unrank n r) = some next) :
    ∃ r' : Fin n !, (operation, r') ∈ (moveProblem n).edges r ∧ unrank n r' = next := by
  have hperm : next.Perm (List.range n) :=
    (rollAll_perm (rollAll_of_applyMoveOnly h)).trans (PermutationRank.unrank_perm r.isLt)
  have hlen : next.length = n := by rw [hperm.length_eq, List.length_range]
  have hlt : rank next < n ! := by
    have hrank := PermutationRank.rank_lt next
    rwa [hlen] at hrank
  refine ⟨⟨rank next, hlt⟩, ?_, PermutationRank.unrank_rank hperm⟩
  simp only [moveProblem, List.mem_filterMap]
  exact ⟨operation, hop, by simp [h, hlt]⟩

theorem path_append {before : List StackPlanStep} {r : Fin n !}
    (hpath : Relaxation.Problem.Path (moveProblem n) (identityRank n) before r)
    {operations : List StackPlanStep} (hops : ∀ operation ∈ operations, operation ∈ moveOnlyOperations n)
    {next : List ℕ} (h : applySteps operations (unrank n r) = some next) :
    ∃ r' : Fin n !, Relaxation.Problem.Path (moveProblem n) (identityRank n) (before ++ operations) r' ∧
      unrank n r' = next := by
  induction operations generalizing before r with
  | nil =>
      obtain rfl := Option.some_inj.1 h
      exact ⟨r, by simpa using hpath, rfl⟩
  | cons operation operations ih =>
      obtain ⟨mid, hmid, hrest⟩ := Option.bind_eq_some_iff.1 h
      obtain ⟨r₁, hedge, hr₁⟩ := mem_edges_of_applyMoveOnly (hops operation (by simp)) hmid
      rw [← hr₁] at hrest
      obtain ⟨r', hpath', hr'⟩ := ih (hpath.snoc hedge) (fun o ho => hops o (by simp [ho])) hrest
      exact ⟨r', by simpa using hpath', hr'⟩

/-- **A row of steps within the window is a path of the search of the same cost.** -/
theorem path_of_applySteps {target : List ℕ} (h : applySteps steps (List.range n) = some target) :
    ∃ (operations : List StackPlanStep) (r : Fin n !),
      Relaxation.Problem.Path (moveProblem n) (identityRank n) operations r ∧
        unrank n r = target ∧
        operations.foldl extendCost PlanCost.zero = steps.foldl extendCost PlanCost.zero := by
  induction steps using List.reverseRecOn generalizing target with
  | nil =>
      obtain rfl := Option.some_inj.1 h
      exact ⟨[], identityRank n, .nil, PermutationRank.unrank_zero n, rfl⟩
  | append_singleton steps step ih =>
      rw [applySteps_append] at h
      obtain ⟨mid, hmid, hlast⟩ := Option.bind_eq_some_iff.1 h
      obtain ⟨target', hstep, hnil⟩ := Option.bind_eq_some_iff.1 hlast
      obtain rfl := Option.some_inj.1 hnil
      obtain ⟨operations, r, hpath, hr, hcost⟩ := ih hmid
      obtain ⟨hnormal, hops, hnormalCost⟩ := normalStep_spec hstep
      have hlen : mid.length = n := by
        rw [← hr, (PermutationRank.unrank_perm r.isLt).length_eq, List.length_range]
      rw [hlen] at hops
      rw [← hr] at hnormal
      obtain ⟨r', hpath', hr'⟩ := path_append hpath hops hnormal
      refine ⟨_, r', hpath', hr', ?_⟩
      rw [List.foldl_append, hcost, hnormalCost, List.foldl_append]
      rfl

/-! ### The plan -/

theorem moveTable_root (n : ℕ) :
    (moveTable n (identityRank n)).cost ≤ (PlanCost.zero : WithTop PlanCost) := by
  refine (Relaxation.Problem.run_cost_le _ _).trans ?_
  simp

theorem moveTable_closed (n : ℕ) (r : Fin n !) (c : PlanCost)
    (hc : (moveTable n r).cost = (c : WithTop PlanCost)) :
    Relaxation.Problem.ExhaustedAt (moveProblem n) (moveTable n) r c := by
  refine Relaxation.Problem.run_closed (fun c _ edge _ => le_extendCost c edge.1) ?_ hc
  intro r c hc _
  by_cases hr : r = identityRank n
  · subst hr
    simp only [Function.update_self] at hc
    obtain rfl := WithTop.coe_injective hc
    exact Or.inl (List.mem_singleton.mpr rfl)
  · simp only [Function.update_of_ne hr] at hc
    exact absurd hc WithTop.top_ne_coe

theorem moveTable_cost_le {target : List ℕ}
    (h : applySteps steps (List.range n) = some target) (hlt : rank target < n !) :
    ∃ c : PlanCost, (moveTable n ⟨rank target, hlt⟩).cost = (c : WithTop PlanCost) ∧
      c ≤ steps.foldl extendCost PlanCost.zero := by
  obtain ⟨operations, r, hpath, hr, hcost⟩ := path_of_applySteps h
  have hrank : (⟨rank target, hlt⟩ : Fin n !) = r := by
    rw [Fin.ext_iff]
    exact (congrArg rank hr).symm.trans (PermutationRank.rank_unrank r.isLt)
  rw [hrank, ← hcost]
  exact Relaxation.Problem.exists_cost_le (fun _ _ step h => extendCost_mono step h)
    (moveTable_root n) (moveTable_closed n) hpath

/-- **A plan is returned for every order of the window, and it is the cheapest.** -/
theorem planMoveOnly_exact (target : List ℕ) :
    ∃ result, planMoveOnly target = .ok result ∧
      (result.isSome ↔ target.length ≤ maxMoveWindow ∧ target.Perm (List.range target.length)) ∧
      ∀ plan ∈ result, applySteps plan.steps (List.range target.length) = some target ∧
        ∀ steps, applySteps steps (List.range target.length) = some target →
          plan.cost ≤ (makePlan steps).cost := by
  unfold planMoveOnly
  simp only
  split_ifs with hwindow hzero hvalid
  · refine ⟨none, rfl, ?_, by simp⟩
    simp [not_le.mpr hwindow]
  · obtain rfl := List.length_eq_zero_iff.1 hzero
    refine ⟨_, rfl, by simp, ?_⟩
    rintro plan ⟨⟩
    exact ⟨rfl, fun steps _ => PlanCost.zero_le _⟩
  · have hperm : target.Perm (List.range target.length) := by
      refine (List.subperm_of_subset hvalid.2 fun slot hslot => ?_).perm_of_length_le (by simp)
      exact List.mem_range.2 (hvalid.1 slot hslot)
    obtain ⟨depths, hdepths⟩ := exists_rolls hperm
    obtain ⟨cost, hcost, -⟩ := moveTable_cost_le ((applySteps_rolls depths _).trans hdepths)
      (PermutationRank.rank_lt target)
    obtain ⟨steps, hsteps, hpath, hle⟩ := Relaxation.Problem.trace_spec
      (fun _ _ step h => extendCost_mono step h) PlanCost.zero_le
      (chained_moveTable target.length) hcost le_rfl
    refine ⟨some (makePlan steps), by simp only [hcost, hsteps], ?_, ?_⟩
    · simpa using ⟨not_lt.mp hwindow, hperm⟩
    · rintro plan ⟨⟩
      constructor
      · have hrun := applySteps_of_path hpath
        rwa [PermutationRank.unrank_rank hperm] at hrun
      · intro other hother
        obtain ⟨cost', hcost', hle'⟩ := moveTable_cost_le hother (PermutationRank.rank_lt target)
        obtain rfl := WithTop.coe_injective (hcost.symm.trans hcost')
        rw [cost_makePlan, cost_makePlan]
        exact hle.trans hle'
  · refine ⟨none, rfl, ?_, by simp⟩
    simp only [Option.isSome_none, Bool.false_eq_true, false_iff, not_and]
    intro _ hperm
    refine hvalid ⟨fun slot hslot => ?_, hperm.nodup_iff.mpr List.nodup_range⟩
    exact List.mem_range.1 (hperm.subset hslot)

section Identifiers

variable {current target : List ℕ}

theorem map_idxOf_self (h : current.Nodup) :
    current.map current.idxOf = List.range current.length := by
  refine List.ext_getElem (by simp) fun i hi _ => ?_
  rw [List.length_map] at hi
  rw [List.getElem_map, List.getElem_range, h.idxOf_getElem i hi]

theorem map_getD_idxOf (hmem : ∀ slot ∈ target, slot ∈ current) :
    (target.map current.idxOf).map (current.getD · 0) = target := by
  rw [List.map_map]
  refine (List.map_congr_left fun slot hslot => ?_).trans (List.map_id target)
  have hlt := List.idxOf_lt_length_of_mem (hmem slot hslot)
  rw [Function.comp_apply, List.getD_eq_getElem _ _ hlt, List.getElem_idxOf hlt]
  rfl

theorem map_getD_range_length : (List.range current.length).map (current.getD · 0) = current := by
  refine List.ext_getElem (by simp) fun i hi h => ?_
  simp [List.getD_eq_getElem?_getD, h]

theorem applySteps_idxOf_iff (hcurrent : current.Nodup) (hmem : ∀ slot ∈ target, slot ∈ current)
    (steps : List StackPlanStep) :
    applySteps steps (List.range current.length) = some (target.map current.idxOf) ↔
      applySteps steps current = some target := by
  constructor
  · intro h
    have hrun := applySteps_map_append h (current.getD · 0) []
    rwa [map_getD_range_length, map_getD_idxOf hmem, List.append_nil, List.append_nil] at hrun
  · intro h
    have hrun := applySteps_map_append h current.idxOf []
    rwa [map_idxOf_self hcurrent, List.append_nil, List.append_nil] at hrun

theorem perm_map_idxOf_iff (hcurrent : current.Nodup) (hlen : target.length = current.length)
    (hmem : ∀ slot ∈ target, slot ∈ current) (htarget : target.Nodup) :
    (target.map current.idxOf).Perm (List.range (target.map current.idxOf).length) := by
  have hperm : target.Perm current :=
    (List.subperm_of_subset htarget hmem).perm_of_length_le hlen.ge
  have hmap := hperm.map current.idxOf
  rwa [map_idxOf_self hcurrent, ← hlen, ← List.length_map current.idxOf] at hmap

end Identifiers

/-- The instructions of a row of steps do to the run-time stack what the steps do. -/
theorem takes_steps {env : ScriptEnv} {main main' : List ℕ}
    (h : applySteps steps main = some main') (hsize : main.length < 2 ^ 63) (value : ℕ → Bytes)
    (below alt : Stack) :
    Takes env ((steps.flatMap (·.encodedInstructions)).flatMap emitText)
      (main.map value ++ below, alt) (main'.map value ++ below, alt) := by
  induction steps generalizing main with
  | nil =>
      obtain rfl := Option.some_inj.1 h
      exact Takes.refl _
  | cons step steps ih =>
      obtain ⟨mid, hmid, hrest⟩ := Option.bind_eq_some_iff.1 h
      have hlen : mid.length = main.length := (rollAll_perm (rollAll_of_applyMoveOnly hmid)).length_eq
      have hroll : step.op = .roll → step.depth < 2 ^ 63 := by
        intro hop
        obtain ⟨op, depth⟩ := step
        obtain rfl : op = .roll := hop
        obtain ⟨hlt, -⟩ := rollTop_eq_some hmid
        exact hlt.trans hsize
      rw [List.flatMap_cons, List.flatMap_append]
      exact (takes_step (applyMoveOnly_map_append hmid value below) hroll alt).trans
        (ih hrest (by omega))

/-- **A plan is returned exactly for two duplicate-free lists of the same few identifiers.  It
brings every run-time stack from the one order into the other, and no row of steps within the window
does so at a lower cost.** -/
theorem planMoveOnlyIds_exact (env : ScriptEnv) (current target : List ℕ) :
    ∃ result, planMoveOnlyIds current target = .ok result ∧
      (result.isSome ↔ current.Nodup ∧ target.Nodup ∧ (∀ slot, slot ∈ current ↔ slot ∈ target) ∧
        current.length ≤ maxMoveWindow) ∧
      ∀ plan ∈ result,
        (∀ (value : ℕ → Bytes) (below alt : Stack),
          Takes env (plan.encodedInstructions.flatMap emitText)
            (current.map value ++ below, alt) (target.map value ++ below, alt)) ∧
        ∀ steps, applySteps steps current = some target → plan.cost ≤ (makePlan steps).cost := by
  unfold planMoveOnlyIds
  split_ifs with hlen hvalid
  · refine ⟨none, rfl, ?_, by simp⟩
    simp only [Option.isSome_none, Bool.false_eq_true, false_iff]
    rintro ⟨hcurrent, htarget, hsame, hwindow⟩
    rcases hlen with hlen | hlen
    · exact hlen ((List.perm_ext_iff_of_nodup hcurrent htarget).mpr hsame).length_eq
    · exact absurd hwindow (not_le.mpr hlen)
  · obtain ⟨hcurrent, hmem, htarget⟩ := hvalid
    obtain ⟨hlength, hwindow⟩ := not_or.mp hlen
    rw [not_not] at hlength
    rw [not_lt] at hwindow
    have hperm : target.Perm current :=
      (List.subperm_of_subset htarget hmem).perm_of_length_le hlength.le
    obtain ⟨result, hresult, hsome, hall⟩ := planMoveOnly_exact (target.map current.idxOf)
    have hmapLen : (target.map current.idxOf).length = current.length := by
      rw [List.length_map, hlength]
    refine ⟨result, hresult, ?_, ?_⟩
    · rw [hsome]
      refine iff_of_true ⟨by omega, perm_map_idxOf_iff hcurrent hlength.symm hmem htarget⟩ ?_
      exact ⟨hcurrent, htarget, fun slot => hperm.mem_iff.symm, hwindow⟩
    · intro plan hplan
      obtain ⟨hrun, hbest⟩ := hall plan hplan
      rw [hmapLen, applySteps_idxOf_iff hcurrent hmem] at hrun
      refine ⟨?_, ?_⟩
      · intro value below alt
        have hsize : current.length < 2 ^ 63 := lt_of_le_of_lt hwindow (by decide)
        exact takes_steps hrun hsize value below alt
      · intro steps hsteps
        refine hbest steps ?_
        rwa [hmapLen, applySteps_idxOf_iff hcurrent hmem]
  · refine ⟨none, rfl, ?_, by simp⟩
    simp only [Option.isSome_none, Bool.false_eq_true, false_iff]
    rintro ⟨hcurrent, htarget, hsame, -⟩
    exact hvalid ⟨hcurrent, fun slot hslot => (hsame slot).mpr hslot, htarget⟩

end AtomicProof
