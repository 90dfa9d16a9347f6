/-
Copying a slot over another.

An assignment `b = a` of one stack variable to another replaces the slot of `b` by a copy of the slot
of `a`.  `emitCopyAssignment` in `src/src/compiler/ast_to_bytecode_visitor.cpp` asks
`planCopyAssignment` for a row of steps that is cheaper than the legacy sequence, and writes the
legacy sequence where there is none; it checks that the cost formula it compared with is what the
legacy sequence costs.

Main definitions:

* `buildLegacyCopyAssignmentPlan` — the legacy sequence, for any two depths;
* `emitCopyAssignment` — the instructions, and the bytes they take.

Main results:

* `searchCopyAssignment_spec` — the search never breaks its predecessor chain; the plan it returns
  copies the source over the target, and no path to the goal below the limit is shorter;
* `serializedBytes_legacy` — the cost formula is what the legacy sequence costs;
* `emitCopyAssignment_exact` — **the instructions replace the target by a copy of the source and do
  nothing else; they are never longer than the legacy sequence, and up to the depth six no row of
  steps is shorter**.
-/

import AtomicProof.CopyPlanner

set_option autoImplicit false

namespace AtomicProof

/-! ### What the search returns -/

section Search

variable {sourceDepth targetDepth : ℕ}

theorem isCopyGoal_iff {state : CopyState} {goal : List ℕ} :
    state.isCopyGoal goal = true ↔
      state.copied = true ∧ state.deleted = true ∧ state.pair = (goal, []) := by
  simp only [CopyState.isCopyGoal, CopyState.pair, Bool.and_eq_true, List.isEmpty_iff, beq_iff_eq,
    Prod.mk.injEq]
  tauto

theorem copyProblem_weight (c : PlanCost) (node : CopyNode (windowSize sourceDepth targetDepth))
    (edge : StackPlanStep × CopyNode (windowSize sourceDepth targetDepth))
    (h : edge ∈ (copyProblem sourceDepth targetDepth).edges node) :
    c.bytes < ((copyProblem sourceDepth targetDepth).extend c edge.1).bytes := by
  obtain ⟨hmem, -⟩ := mem_copyProblem_edges.1 h
  have hpos := serializedByteSize_pos_of_mem hmem
  simp only [copyProblem, extendCost]
  omega

theorem chained_copySearch (limit : ℕ) :
    Relaxation.Problem.Chained (copyProblem sourceDepth targetDepth)
      (initialNode sourceDepth targetDepth) PlanCost.bytes
      (copySearch sourceDepth targetDepth limit).2 := by
  refine Relaxation.Problem.find_chained PlanCost.bytes_mono
    (fun _ _ step h => extendCost_mono step h) copyProblem_weight ?_
  intro node c hc hne
  simp [Function.update_of_ne hne] at hc

/-- The search finds the cheapest path to the goal, if there is one below the limit. -/
theorem copySearch_spec (limit : ℕ) :
    (∀ node, (copySearch sourceDepth targetDepth limit).1 = some node →
      node.val.isCopyGoal (copyGoal sourceDepth targetDepth) = true ∧
      ∃ c : PlanCost, ((copySearch sourceDepth targetDepth limit).2 node).cost = (c : WithTop PlanCost) ∧
        ∀ steps node', Relaxation.Problem.WithinPath (copyProblem sourceDepth targetDepth)
            (fun cost => decide (cost.bytes < limit)) (initialNode sourceDepth targetDepth)
            PlanCost.zero steps node' →
          node'.val.isCopyGoal (copyGoal sourceDepth targetDepth) = true →
          c ≤ steps.foldl extendCost PlanCost.zero) ∧
    ((copySearch sourceDepth targetDepth limit).1 = none →
      ∀ steps node', Relaxation.Problem.WithinPath (copyProblem sourceDepth targetDepth)
          (fun cost => decide (cost.bytes < limit)) (initialNode sourceDepth targetDepth)
          PlanCost.zero steps node' →
        node'.val.isCopyGoal (copyGoal sourceDepth targetDepth) = false) := by
  refine Relaxation.Problem.find_spec (fun _ _ step h => extendCost_mono step h)
    (fun c _ edge _ => le_extendCost c edge.1) ?_ ⟨?_, ?_, ?_⟩
  · intro a b hab hb
    have := PlanCost.bytes_mono hab
    simp only [decide_eq_true_eq] at hb ⊢
    omega
  · simp
  · exact List.pairwise_singleton _ _
  · intro node c hc _
    by_cases hnode : node = initialNode sourceDepth targetDepth
    · subst hnode
      simp only [Function.update_self] at hc
      obtain rfl := WithTop.coe_injective hc
      exact Or.inl (List.mem_singleton.mpr rfl)
    · simp only [Function.update_of_ne hnode] at hc
      exact absurd hc WithTop.top_ne_coe

/-- The operations of a path do not reach far. -/
theorem depth_lt_of_path {node : CopyNode (windowSize sourceDepth targetDepth)}
    {steps : List StackPlanStep}
    (h : Relaxation.Problem.Path (copyProblem sourceDepth targetDepth)
      (initialNode sourceDepth targetDepth) steps node) :
    ∀ step ∈ steps, step.depth < windowSize sourceDepth targetDepth + 6 := by
  induction h with
  | nil => simp
  | @snoc steps node node' step _ hedge ih =>
      obtain ⟨hmem, -⟩ := mem_copyProblem_edges.1 hedge
      have hlen : node.val.main.length ≤ windowSize sourceDepth targetDepth + 1 := by
        have := node.property.1
        have := Bool.toNat_le node.val.copied
        omega
      intro other hother
      rcases List.mem_append.mp hother with hother | hother
      · exact ih other hother
      · rw [List.mem_singleton.mp hother]
        rcases mem_copyOperations_iff.1 hmem with ⟨-, hcopy⟩ | ⟨-, hdelete⟩ | hmove | ⟨-, rfl⟩ |
          ⟨-, rfl⟩
        · rcases hcopy with ⟨-, rfl | ⟨-, rfl⟩⟩ | ⟨-, rfl⟩ | ⟨depth, ⟨-, hdepth⟩, rfl⟩
          · simp
          · simp
          · simp
          · have hlt := (List.getElem?_eq_some_iff.1 hdepth).1
            simp only
            omega
        · rcases hdelete with ⟨-, rfl⟩ | ⟨-, rfl⟩ <;> simp
        · rcases mem_moveOnlyOperations_iff.1 hmove with ⟨-, rfl⟩ | ⟨-, rfl⟩ | ⟨-, rfl⟩ | ⟨-, rfl⟩ |
            ⟨depth, hdepth, -, rfl⟩
          · simp
          · simp
          · simp
          · simp
          · simp only
            omega
        · simp
        · simp

/-- **The search never breaks its predecessor chain.  The plan it returns copies the source over the
target, and no path to the goal below the limit is shorter.** -/
theorem searchCopyAssignment_spec (limit : ℕ) :
    ∃ result, searchCopyAssignment sourceDepth targetDepth limit = .ok result ∧
      (∀ plan ∈ result, plan = makePlan plan.steps ∧
        applyPlan plan.steps (List.range (windowSize sourceDepth targetDepth), []) =
          some (copyGoal sourceDepth targetDepth, []) ∧
        ∀ step ∈ plan.steps, step.depth < windowSize sourceDepth targetDepth + 6) ∧
      ∀ steps node, Relaxation.Problem.Path (copyProblem sourceDepth targetDepth)
          (initialNode sourceDepth targetDepth) steps node →
        node.val.isCopyGoal (copyGoal sourceDepth targetDepth) = true →
        (steps.foldl extendCost PlanCost.zero).bytes < limit →
        ∃ plan ∈ result, plan.serializedBytes ≤ (steps.foldl extendCost PlanCost.zero).bytes := by
  obtain ⟨hfound, hnone⟩ := @copySearch_spec sourceDepth targetDepth limit
  have hwithin : ∀ {steps : List StackPlanStep}
      {node : CopyNode (windowSize sourceDepth targetDepth)},
      Relaxation.Problem.Path (copyProblem sourceDepth targetDepth)
        (initialNode sourceDepth targetDepth) steps node →
      (steps.foldl extendCost PlanCost.zero).bytes < limit →
      Relaxation.Problem.WithinPath (copyProblem sourceDepth targetDepth)
        (fun cost => decide (cost.bytes < limit)) (initialNode sourceDepth targetDepth)
        PlanCost.zero steps node := by
    intro steps node hpath hlt
    refine Relaxation.Problem.WithinPath.of_path (fun c _ edge _ => le_extendCost c edge.1) ?_ hpath ?_
    · intro a b hab hb
      have := PlanCost.bytes_mono hab
      simp only [decide_eq_true_eq] at hb ⊢
      omega
    · exact decide_eq_true hlt
  unfold searchCopyAssignment
  cases hsearch : (copySearch sourceDepth targetDepth limit).1 with
  | none =>
      refine ⟨none, by simp only [hsearch], by simp, ?_⟩
      intro steps node hpath hgoal hlt
      rw [hnone hsearch steps node (hwithin hpath hlt)] at hgoal
      exact absurd hgoal (by simp)
  | some node =>
      obtain ⟨hgoal, c, hc, hbest⟩ := hfound node hsearch
      obtain ⟨steps, hsteps, hpath, hle⟩ := Relaxation.Problem.trace_spec
        (fun _ _ step h => extendCost_mono step h) PlanCost.zero_le (chained_copySearch limit) hc le_rfl
      refine ⟨some (makePlan steps), by simp only [hsearch, hc, hsteps], ?_, ?_⟩
      · rintro plan ⟨⟩
        refine ⟨rfl, ?_, depth_lt_of_path hpath⟩
        obtain ⟨-, -, hpair⟩ := isCopyGoal_iff.1 hgoal
        rw [← hpair]
        exact applyPlan_of_path hpath
      · intro other node' hpath' hgoal' hlt
        refine ⟨_, rfl, ?_⟩
        have hcost := hle.trans (hbest other node' (hwithin hpath' hlt) hgoal')
        have hbytes : (makePlan steps).serializedBytes =
            (steps.foldl extendCost PlanCost.zero).bytes := by
          rw [← cost_makePlan]
          rfl
        rw [hbytes]
        exact PlanCost.bytes_mono hcost

end Search

/-! ### Rows of steps that copy the source over the target -/

section Rows

variable {sourceDepth targetDepth : ℕ}

/-- What a row that copies the source over the target copies is the source, and what it deletes is
the target. -/
theorem copied_and_deleted (hne : sourceDepth ≠ targetDepth) {steps : List StackPlanStep}
    (h : applyPlan steps (List.range (windowSize sourceDepth targetDepth), []) =
      some (copyGoal sourceDepth targetDepth, []))
    (hcopies : steps.countP (·.isCopy) = 1) (hdeletes : steps.countP (·.isDelete) = 1) :
    copiedAlong steps (List.range (windowSize sourceDepth targetDepth), []) = [sourceDepth] ∧
      deletedAlong steps (List.range (windowSize sourceDepth targetDepth), []) = [targetDepth] := by
  have htarget : targetDepth < (List.range (windowSize sourceDepth targetDepth)).length := by
    simp only [List.length_range, windowSize]
    omega
  obtain ⟨x, hx⟩ := List.length_eq_one_iff.1 ((length_copiedAlong h).trans hcopies)
  obtain ⟨y, hy⟩ := List.length_eq_one_iff.1 ((length_deletedAlong h).trans hdeletes)
  have hgoal := List.set_perm_cons_eraseIdx htarget sourceDepth
  have hwindow := List.getElem_cons_eraseIdx_perm htarget
  rw [List.getElem_range] at hwindow
  -- the slots that are added and removed, counted
  have hcount : ∀ z, (if x = z then 1 else 0) + (if targetDepth = z then 1 else 0) =
      (if y = z then 1 else 0) + (if sourceDepth = z then 1 else 0) := by
    intro z
    have hrun := count_applyPlan h z
    have hgoalCount := hgoal.count_eq z
    have hwindowCount := hwindow.count_eq z
    rw [hx, hy] at hrun
    simp only [copyGoal, List.count_cons, List.count_nil, beq_iff_eq] at hrun hgoalCount hwindowCount
    omega
  have hy' : y = targetDepth := by
    by_contra hyt
    have := hcount targetDepth
    rw [if_pos rfl, if_neg hyt, if_neg hne] at this
    omega
  subst hy'
  have hx' : x = sourceDepth := by
    by_contra hxs
    have := hcount sourceDepth
    rw [if_neg hxs, if_neg (Ne.symm hne), if_pos rfl] at this
    omega
  subst hx'
  exact ⟨hx, hy⟩

/-- A row that copies the source over the target on every stack that is deep enough does so on the
slots of the window. -/
theorem applyPlan_window {steps : List StackPlanStep}
    (h : ∀ (main alt : Stack) (value : Bytes), main[sourceDepth]? = some value →
      targetDepth < main.length →
      applyPlan steps (main, alt) = some (main.set targetDepth value, alt)) :
    applyPlan steps (List.range (windowSize sourceDepth targetDepth), []) =
      some (copyGoal sourceDepth targetDepth, []) := by
  -- the slots are told apart by their lengths
  have hvalue : Function.Injective fun slot : ℕ => List.replicate slot (0 : UInt8) := by
    intro a b hab
    simpa using congrArg List.length hab
  set value : ℕ → Bytes := fun slot => List.replicate slot (0 : UInt8) with hvalueDef
  have hmap : Function.Injective (List.map value) := List.map_injective_iff.mpr hvalue
  have hrun := h ((List.range (windowSize sourceDepth targetDepth)).map value) [] (value sourceDepth)
    (by
      rw [List.getElem?_map, List.getElem?_range (by simp only [windowSize]; omega)]
      rfl)
    (by
      simp only [List.length_map, List.length_range, windowSize]
      omega)
  have hnatural := applyPlan_map steps (List.range (windowSize sourceDepth targetDepth), []) value
  rw [Prod.map_apply, List.map_nil, hrun, ← List.map_set] at hnatural
  obtain ⟨s, hs, heq⟩ := Option.map_eq_some_iff.1 hnatural.symm
  obtain ⟨main, alt⟩ := s
  obtain ⟨hmain, halt⟩ := Prod.mk.inj heq
  obtain rfl := hmap hmain
  obtain rfl := List.map_eq_nil_iff.1 halt
  exact hs

/-- Such a row is a path of the search of the same cost. -/
theorem path_of_copyRow (hne : sourceDepth ≠ targetDepth) {steps : List StackPlanStep}
    (h : applyPlan steps (List.range (windowSize sourceDepth targetDepth), []) =
      some (copyGoal sourceDepth targetDepth, []))
    (hcopies : steps.countP (·.isCopy) = 1) (hdeletes : steps.countP (·.isDelete) = 1) :
    ∃ (operations : List StackPlanStep) (node : CopyNode (windowSize sourceDepth targetDepth)),
      Relaxation.Problem.Path (copyProblem sourceDepth targetDepth)
        (initialNode sourceDepth targetDepth) operations node ∧
      node.val.isCopyGoal (copyGoal sourceDepth targetDepth) = true ∧
      operations.foldl extendCost PlanCost.zero = steps.foldl extendCost PlanCost.zero := by
  obtain ⟨hcopied, hdeleted⟩ := copied_and_deleted hne h hcopies hdeletes
  obtain ⟨operations, node, hpath, hpair, hcopied', hdeleted', hcost⟩ :=
    path_of_applyPlan (.nil : Relaxation.Problem.Path (copyProblem sourceDepth targetDepth)
      (initialNode sourceDepth targetDepth) [] _) h
      (fun x hx => List.mem_singleton.mp (hcopied ▸ hx))
      (fun x hx => List.mem_singleton.mp (hdeleted ▸ hx))
      (by simp [initialNode, hcopies]) (by simp [initialNode, hdeletes])
  refine ⟨operations, node, hpath, isCopyGoal_iff.2 ⟨?_, ?_, hpair⟩, hcost⟩
  · rw [hcopies] at hcopied'
    simpa [initialNode] using hcopied'
  · rw [hdeletes] at hdeleted'
    simpa [initialNode] using hdeleted'

end Rows

/-! ### The legacy sequence -/

def buildLegacyCopyAssignmentPlan (sourceDepth targetDepth : ℕ) :
    Except String StackPermutationPlan :=
  if sourceDepth = targetDepth then .error "copy assignment requires distinct slots"
  else if targetDepth < sourceDepth then
    .ok (makePlan (List.replicate targetDepth ⟨.toAltStack, 0⟩ ++
      [⟨.drop, 0⟩, ⟨.pick, sourceDepth - targetDepth - 1⟩] ++
      List.replicate targetDepth ⟨.fromAltStack, 0⟩))
  else if sourceDepth = 0 ∧ targetDepth = 1 then .ok (makePlan [⟨.nip, 0⟩, ⟨.dup, 0⟩])
  else
    .ok (makePlan ([⟨.pick, sourceDepth⟩] ++
      (List.replicate targetDepth [⟨.swap, 1⟩, ⟨.toAltStack, 0⟩]).flatten ++
      [⟨.toAltStack, 0⟩, ⟨.drop, 0⟩] ++ List.replicate (targetDepth + 1) ⟨.fromAltStack, 0⟩))

section Legacy

variable {α : Type}

theorem applyPlan_toAltStack (parked main alt : List α) :
    applyPlan (List.replicate parked.length ⟨.toAltStack, 0⟩) (parked ++ main, alt) =
      some (main, parked.reverse ++ alt) := by
  induction parked generalizing alt with
  | nil => rfl
  | cons a parked ih =>
      rw [List.length_cons, List.replicate_succ, applyPlan_cons, List.reverse_cons, List.append_assoc]
      exact ih (a :: alt)

theorem applyPlan_fromAltStack (parked main alt : List α) :
    applyPlan (List.replicate parked.length ⟨.fromAltStack, 0⟩) (main, parked ++ alt) =
      some (parked.reverse ++ main, alt) := by
  induction parked generalizing main with
  | nil => rfl
  | cons a parked ih =>
      rw [List.length_cons, List.replicate_succ, applyPlan_cons, List.reverse_cons, List.append_assoc]
      exact ih (a :: main)

theorem applyPlan_swap_toAltStack (x : α) (parked main alt : List α) :
    applyPlan (List.replicate parked.length [⟨.swap, 1⟩, ⟨.toAltStack, 0⟩]).flatten
      (x :: (parked ++ main), alt) = some (x :: main, parked.reverse ++ alt) := by
  induction parked generalizing alt with
  | nil => rfl
  | cons a parked ih =>
      rw [List.length_cons, List.replicate_succ, List.flatten_cons, List.cons_append,
        List.cons_append, List.nil_append, applyPlan_cons, List.reverse_cons, List.append_assoc]
      exact ih (a :: alt)

theorem applyStep_pick {depth : ℕ} {main alt : List α} {value : α} (h : main[depth]? = some value) :
    applyStep ⟨.pick, depth⟩ (main, alt) = some (value :: main, alt) := by
  simp [applyStep, copyTop, h]

/-- **The legacy sequence copies the source over the target.** -/
theorem applyPlan_legacy {sourceDepth targetDepth : ℕ} {plan : StackPermutationPlan}
    (h : buildLegacyCopyAssignmentPlan sourceDepth targetDepth = .ok plan) {main alt : List α}
    {value : α} (hsource : main[sourceDepth]? = some value) (htarget : targetDepth < main.length) :
    applyPlan plan.steps (main, alt) = some (main.set targetDepth value, alt) := by
  unfold buildLegacyCopyAssignmentPlan at h
  -- the slots above the target, the target, and the slots below it
  obtain ⟨above, old, below, hmain, habove⟩ : ∃ above old below,
      main = above ++ old :: below ∧ above.length = targetDepth := by
    refine ⟨main.take targetDepth, main[targetDepth], main.drop (targetDepth + 1), ?_, ?_⟩
    · rw [List.getElem_cons_drop, List.take_append_drop]
    · rw [List.length_take]
      omega
  subst habove
  have hset : main.set above.length value = above ++ value :: below := by
    rw [hmain, List.set_append_right _ _ (le_refl _)]
    simp
  rw [hset]
  split_ifs at h with heq hlt hshort
  · obtain rfl := Except.ok.inj h
    have hpick : below[sourceDepth - above.length - 1]? = some value := by
      rw [hmain, List.getElem?_append_right (by omega)] at hsource
      obtain ⟨k, hk⟩ : ∃ k, sourceDepth - above.length = k + 1 := ⟨sourceDepth - above.length - 1, by omega⟩
      rw [hk, List.getElem?_cons_succ] at hsource
      rw [hk]
      exact hsource
    simp only [makePlan, hmain]
    have hdrop : applyPlan [⟨.drop, 0⟩, ⟨.pick, sourceDepth - above.length - 1⟩]
        (old :: below, above.reverse ++ alt) = some (value :: below, above.reverse ++ alt) := by
      rw [← applyStep_pick hpick, ← applyPlan_singleton]
      rfl
    rw [applyPlan_append, applyPlan_append, applyPlan_toAltStack, Option.bind_some, hdrop,
      Option.bind_some]
    have hback := applyPlan_fromAltStack above.reverse (value :: below) alt
    rw [List.length_reverse, List.reverse_reverse] at hback
    exact hback
  · obtain rfl := Except.ok.inj h
    obtain ⟨rfl, hone⟩ := hshort
    obtain ⟨a, rfl⟩ := List.length_eq_one_iff.1 hone
    rw [hmain] at hsource ⊢
    obtain rfl : a = value := by simpa using hsource
    rfl
  · obtain rfl := Except.ok.inj h
    simp only [makePlan]
    have hdrop : applyPlan [⟨.toAltStack, 0⟩, ⟨.drop, 0⟩]
        (value :: old :: below, above.reverse ++ alt) =
          some (below, value :: (above.reverse ++ alt)) := rfl
    rw [applyPlan_append, applyPlan_append, applyPlan_append, applyPlan_singleton,
      applyStep_pick hsource, Option.bind_some, hmain, applyPlan_swap_toAltStack, Option.bind_some,
      hdrop, Option.bind_some]
    have hback := applyPlan_fromAltStack (value :: above.reverse) below alt
    rw [List.length_cons, List.length_reverse, List.reverse_cons, List.reverse_reverse,
      List.append_assoc] at hback
    exact hback

/-- **The cost formula is what the legacy sequence costs.** -/
theorem serializedBytes_legacy {sourceDepth targetDepth : ℕ} {plan : StackPermutationPlan}
    (h : buildLegacyCopyAssignmentPlan sourceDepth targetDepth = .ok plan) :
    plan.serializedBytes = legacyCopyAssignmentByteCost sourceDepth targetDepth := by
  have hpick : ∀ depth, (StackPlanStep.mk .pick depth).serializedByteSize = pickByteCost depth := by
    intro depth
    simp only [StackPlanStep.serializedByteSize, StackPlanStep.encodedInstructions, pickByteCost]
    rcases depth with _ | _ | depth
    · simp [encodedByteSize_opcode]
    · simp [encodedByteSize_opcode]
    · simp [encodedByteSize_opcode]
  have hone : ∀ op, op ≠ .pick → op ≠ .roll → ∀ depth,
      (StackPlanStep.mk op depth).serializedByteSize = 1 := by
    intro op hpick hroll depth
    cases op <;> first | exact absurd rfl hpick | exact absurd rfl hroll | rfl
  unfold buildLegacyCopyAssignmentPlan at h
  unfold legacyCopyAssignmentByteCost
  split_ifs at h ⊢ with heq hlt hshort
  · obtain rfl := Except.ok.inj h
    simp only [makePlan, List.map_append, List.map_replicate, List.map_cons, List.map_nil, hpick,
      hone .toAltStack (by simp) (by simp), hone .fromAltStack (by simp) (by simp),
      hone .drop (by simp) (by simp), List.sum_append, List.sum_replicate, List.sum_cons,
      List.sum_nil, smul_eq_mul, mul_one]
    omega
  · obtain rfl := Except.ok.inj h
    simp [makePlan, hone]
  · obtain rfl := Except.ok.inj h
    simp only [makePlan, List.map_append, List.map_replicate, List.map_cons, List.map_nil, hpick,
      hone .toAltStack (by simp) (by simp), hone .fromAltStack (by simp) (by simp),
      hone .drop (by simp) (by simp), hone .swap (by simp) (by simp), List.sum_append,
      List.sum_replicate, List.sum_cons, List.sum_nil, List.map_flatten, List.sum_flatten,
      smul_eq_mul, mul_one]
    omega

end Legacy

/-! ### The emission -/

/-- `emitStackPlan`: the atoms of a plan. -/
def emitStackPlan (plan : StackPermutationPlan) : List String :=
  plan.encodedInstructions.flatMap emitText

structure CopyAssignmentEmission where
  legacyBytes : ℕ
  emittedBytes : ℕ
  usedPlanner : Bool
  deriving DecidableEq, Repr

/-- `emitCopyAssignment`: the atoms that are emitted, and the costs that are reported. -/
def emitCopyAssignment (sourceDepth targetDepth : ℕ) :
    Except String (List String × CopyAssignmentEmission) :=
  let legacyBytes := legacyCopyAssignmentByteCost sourceDepth targetDepth
  match planCopyAssignment sourceDepth targetDepth legacyBytes with
  | .error error => .error error
  | .ok (some plan) => .ok (emitStackPlan plan, ⟨legacyBytes, plan.serializedBytes, true⟩)
  | .ok none =>
      match buildLegacyCopyAssignmentPlan sourceDepth targetDepth with
      | .error error => .error error
      | .ok plan =>
          if plan.serializedBytes ≠ legacyBytes then
            .error "legacy copy plan size disagrees with planner cost model"
          else .ok (emitStackPlan plan, ⟨legacyBytes, plan.serializedBytes, false⟩)

def codeBytes (code : List String) : ℕ := (code.map StackPlanStep.encodedByteSize).sum

section Emission

variable {env : ScriptEnv} {sourceDepth targetDepth : ℕ}

/-- The instructions of a step take the bytes the step is counted with. -/
theorem codeBytes_step (step : StackPlanStep) :
    codeBytes (step.encodedInstructions.flatMap emitText) = step.serializedByteSize := by
  obtain ⟨hswap, hrot, h2swap, h2rot, hroll⟩ := emitText_opcode
  obtain ⟨hdup, hover, hpick, hdrop, hnip, htuck, htoalt, hfromalt⟩ := emitText_copyOpcode
  have hnumber : ∀ value : ℤ, codeBytes (emitText (numberToScriptHex value)) =
      StackPlanStep.encodedByteSize (numberToScriptHex value) := by
    intro value
    obtain ⟨bytes, htext, ⟨decoded, hpush, hsize⟩, -⟩ := exists_isPush_number value
    have hchars : ("0x" ++ String.ofList (bytesToHex bytes)).toList =
        '0' :: 'x' :: bytesToHex bytes := by simp
    have hstrip : ScriptCodec.stripHexPrefix ('0' :: 'x' :: bytesToHex bytes) = bytesToHex bytes := rfl
    have hpairs : hexPairs (String.ofList (bytesToHex bytes)).toList = some bytes := by
      rw [String.toList_ofList, hexPairs_bytesToHex]
    rw [htext, emitText_of_push hpush hsize, codeBytes, List.map_singleton, List.sum_singleton,
      StackPlanStep.encodedByteSize, StackPlanStep.encodedByteSize, hchars, hstrip,
      stripHexPrefix_of_hexPairs hpairs, String.toList_ofList]
  have happend : ∀ code code', codeBytes (code ++ code') = codeBytes code + codeBytes code' := by
    intro code code'
    simp [codeBytes]
  have hop : ∀ op, codeBytes (emitOp op) = 1 := by
    intro op
    simp [codeBytes, emitOp, encodedByteSize_opcode]
  have hinstruction : ∀ instruction ∈ step.encodedInstructions,
      codeBytes (emitText instruction) = StackPlanStep.encodedByteSize instruction := by
    obtain ⟨op, depth⟩ := step
    cases op <;> simp only [StackPlanStep.encodedInstructions] <;> try split_ifs
    all_goals
      simp only [List.mem_cons, List.not_mem_nil, or_false, forall_eq_or_imp, forall_eq, hnumber,
        hop, hswap, hrot, h2swap, h2rot, hroll, hdup, hover, hpick, hdrop, hnip, htuck, htoalt,
        hfromalt, encodedByteSize_opcode, and_self, false_imp_iff, implies_true]
  rw [StackPlanStep.serializedByteSize]
  generalize step.encodedInstructions = instructions at hinstruction
  induction instructions with
  | nil => rfl
  | cons instruction instructions ih =>
      rw [List.flatMap_cons, happend, hinstruction instruction List.mem_cons_self,
        ih fun other hother => hinstruction other (List.mem_cons_of_mem _ hother)]
      simp

/-- The instructions of a plan take the bytes the plan is counted with. -/
theorem codeBytes_makePlan (steps : List StackPlanStep) :
    codeBytes (emitStackPlan (makePlan steps)) = (makePlan steps).serializedBytes := by
  induction steps with
  | nil => rfl
  | cons step steps ih =>
      have hcode : emitStackPlan (makePlan (step :: steps)) =
          step.encodedInstructions.flatMap emitText ++ emitStackPlan (makePlan steps) := by
        simp [emitStackPlan, StackPermutationPlan.encodedInstructions, makePlan]
      have hbytes : (makePlan (step :: steps)).serializedBytes =
          step.serializedByteSize + (makePlan steps).serializedBytes := by
        simp [makePlan]
      rw [hcode, hbytes, ← ih, ← codeBytes_step]
      simp [codeBytes]

/-- The slots of the window are the top of every stack that is deep enough. -/
theorem applyPlan_of_window {steps : List StackPlanStep}
    (h : applyPlan steps (List.range (windowSize sourceDepth targetDepth), []) =
      some (copyGoal sourceDepth targetDepth, []))
    {main alt : Stack} {value : Bytes} (hsource : main[sourceDepth]? = some value)
    (htarget : targetDepth < main.length) :
    applyPlan steps (main, alt) = some (main.set targetDepth value, alt) := by
  have hwindow : windowSize sourceDepth targetDepth ≤ main.length := by
    have := (List.getElem?_eq_some_iff.1 hsource).1
    simp only [windowSize]
    omega
  set top : List ℕ := List.range (windowSize sourceDepth targetDepth) with htop
  have hmain : main = top.map (main.getD · []) ++ List.drop (windowSize sourceDepth targetDepth) main := by
    have htake : top.map (main.getD · []) = main.take (windowSize sourceDepth targetDepth) := by
      refine List.ext_getElem (by simpa [htop] using hwindow) fun i hi _ => ?_
      have hlt : i < main.length := by
        rw [List.length_map, htop, List.length_range] at hi
        omega
      simp [htop, List.getD_eq_getElem?_getD, hlt]
    rw [htake, List.take_append_drop]
  have hmap := applyPlan_map steps (top, []) (main.getD · [])
  rw [h, Option.map_some, Prod.map_apply, Prod.map_apply, List.map_nil] at hmap
  have hrun := applyPlan_append_right hmap (List.drop (windowSize sourceDepth targetDepth) main) alt
  rw [List.nil_append, ← hmain] at hrun
  rw [hrun]
  have hlt : targetDepth < (top.map (main.getD · [])).length := by
    simp only [htop, List.length_map, List.length_range, windowSize]
    omega
  have hvalue : main.getD sourceDepth [] = value := by
    rw [List.getD_eq_getElem?_getD, hsource, Option.getD_some]
  rw [copyGoal, List.map_set, hvalue, ← List.set_append_left _ _ hlt, ← hmain]

/-- What `planCopyAssignment` returns: a row that copies the source over the target, cheaper than the
limit. -/
theorem planCopyAssignment_spec (strictByteLimit : ℕ) :
    ∃ result, planCopyAssignment sourceDepth targetDepth strictByteLimit = .ok result ∧
      (∀ plan ∈ result, plan = makePlan plan.steps ∧ plan.serializedBytes < strictByteLimit ∧
        applyPlan plan.steps (List.range (windowSize sourceDepth targetDepth), []) =
          some (copyGoal sourceDepth targetDepth, []) ∧
        ∀ step ∈ plan.steps, step.depth < 2 ^ 63) ∧
      (sourceDepth ≠ targetDepth → sourceDepth ≤ maxCopyDepth → targetDepth ≤ maxCopyDepth →
        strictByteLimit = legacyCopyAssignmentByteCost sourceDepth targetDepth →
        ∀ steps : List StackPlanStep,
          applyPlan steps (List.range (windowSize sourceDepth targetDepth), []) =
            some (copyGoal sourceDepth targetDepth, []) →
          steps.countP (·.isCopy) = 1 → steps.countP (·.isDelete) = 1 →
          (makePlan steps).serializedBytes < strictByteLimit →
          ∃ plan ∈ result, plan.serializedBytes ≤ (makePlan steps).serializedBytes) := by
  unfold planCopyAssignment
  split_ifs with hrefused
  · refine ⟨none, rfl, by simp, ?_⟩
    intro hne hsource htarget hlimit steps _ _ _ hlt
    rcases hrefused with h | h | h | h
    · exact absurd h hne
    · exact absurd hsource (not_le.mpr h)
    · exact absurd htarget (not_le.mpr h)
    · exact absurd hlt (by simp [h])
  · simp only [not_or, not_lt] at hrefused
    obtain ⟨hne, hsource, htarget, -⟩ := hrefused
    obtain ⟨result, hresult, hplan, hbest⟩ := @searchCopyAssignment_spec sourceDepth
      targetDepth (legacyCopyAssignmentByteCost sourceDepth targetDepth + 1)
    -- a row of steps with one copy and one deletion is a path of the search
    have hrow : ∀ steps : List StackPlanStep,
        applyPlan steps (List.range (windowSize sourceDepth targetDepth), []) =
          some (copyGoal sourceDepth targetDepth, []) →
        steps.countP (·.isCopy) = 1 → steps.countP (·.isDelete) = 1 →
        (makePlan steps).serializedBytes < legacyCopyAssignmentByteCost sourceDepth targetDepth →
        ∃ plan ∈ result, plan.serializedBytes ≤ (makePlan steps).serializedBytes := by
      intro steps hrun hcopies hdeletes hlt
      obtain ⟨operations, node, hpath, hgoal, hcost⟩ := path_of_copyRow hne hrun hcopies hdeletes
      have hbytes : (operations.foldl extendCost PlanCost.zero).bytes =
          (makePlan steps).serializedBytes := by
        rw [hcost, ← cost_makePlan]
        rfl
      obtain ⟨plan, hmem, hle⟩ := hbest operations node hpath hgoal (by omega)
      exact ⟨plan, hmem, hbytes ▸ hle⟩
    rw [hresult]
    cases result with
    | none =>
        refine ⟨none, rfl, by simp, ?_⟩
        intro _ _ _ hlimit steps hrun hcopies hdeletes hlt
        exact hrow steps hrun hcopies hdeletes (hlimit ▸ hlt)
    | some plan =>
        by_cases hlimit : strictByteLimit ≤ plan.serializedBytes
        · refine ⟨none, by simp only [hlimit, if_true], by simp, ?_⟩
          intro _ _ _ heq steps hrun hcopies hdeletes hlt
          obtain ⟨other, hother, hle⟩ := hrow steps hrun hcopies hdeletes (heq ▸ hlt)
          obtain rfl := Option.some.inj hother
          omega
        · refine ⟨some plan, by simp only [hlimit, if_false], ?_, ?_⟩
          · rintro other ⟨⟩
            obtain ⟨hmake, hrun, hdepth⟩ := hplan plan rfl
            refine ⟨hmake, not_le.mp hlimit, hrun, fun step hstep => ?_⟩
            have hsmall := hdepth step hstep
            simp only [windowSize, maxCopyDepth] at hsmall hsource htarget
            omega
          · intro _ _ _ heq steps hrun hcopies hdeletes hlt
            exact hrow steps hrun hcopies hdeletes (heq ▸ hlt)

/-- **The instructions of a copy assignment replace the target by a copy of the source and do nothing
else.**  They are never longer than the legacy sequence, whose cost is computed correctly, and up to
the depth six no row of steps with one copy and one deletion that does the same is shorter. -/
theorem emitCopyAssignment_exact (env : ScriptEnv) {sourceDepth targetDepth : ℕ}
    (hne : sourceDepth ≠ targetDepth) :
    ∃ code emission, emitCopyAssignment sourceDepth targetDepth = .ok (code, emission) ∧
      (∀ (main alt : Stack) (value : Bytes), main[sourceDepth]? = some value →
        targetDepth < main.length → main.length < 2 ^ 63 →
        Takes env code (main, alt) (main.set targetDepth value, alt)) ∧
      codeBytes code = emission.emittedBytes ∧
      emission.emittedBytes ≤ legacyCopyAssignmentByteCost sourceDepth targetDepth ∧
      (sourceDepth ≤ maxCopyDepth → targetDepth ≤ maxCopyDepth → ∀ steps : List StackPlanStep,
        steps.countP (·.isCopy) = 1 → steps.countP (·.isDelete) = 1 →
        (∀ (main alt : Stack) (value : Bytes), main[sourceDepth]? = some value →
          targetDepth < main.length →
          applyPlan steps (main, alt) = some (main.set targetDepth value, alt)) →
        emission.emittedBytes ≤ (makePlan steps).serializedBytes) := by
  obtain ⟨result, hresult, hplan, hbest⟩ := @planCopyAssignment_spec sourceDepth
    targetDepth (legacyCopyAssignmentByteCost sourceDepth targetDepth)
  unfold emitCopyAssignment
  simp only [hresult]
  cases result with
  | some plan =>
      -- a plan cheaper than the old sequence was found
      obtain ⟨hmake, hlt, hrun, hdepth⟩ := hplan plan rfl
      refine ⟨_, _, rfl, ?_, ?_, hlt.le, ?_⟩
      · intro main alt value hsource htarget _
        exact takes_plan (applyPlan_of_window hrun hsource htarget) hdepth
      · rw [hmake]
        exact codeBytes_makePlan plan.steps
      · intro hsource htarget steps hcopies hdeletes hrow
        by_contra hshorter
        rw [not_le] at hshorter
        obtain ⟨other, hother, hle⟩ := hbest hne hsource htarget rfl steps (applyPlan_window hrow)
          hcopies hdeletes (hshorter.trans hlt)
        obtain rfl := Option.some.inj hother
        simp only at hshorter
        omega
  | none =>
      -- the search found none, and the old sequence is emitted
      cases hlegacy : buildLegacyCopyAssignmentPlan sourceDepth targetDepth with
      | error error =>
          unfold buildLegacyCopyAssignmentPlan at hlegacy
          rw [if_neg hne] at hlegacy
          split_ifs at hlegacy
      | ok plan =>
          have hbytes := serializedBytes_legacy hlegacy
          simp only [hbytes, ne_eq, not_true_eq_false, if_false]
          have hmake : plan = makePlan plan.steps := by
            unfold buildLegacyCopyAssignmentPlan at hlegacy
            split_ifs at hlegacy <;> obtain rfl := Except.ok.inj hlegacy <;> rfl
          refine ⟨_, _, rfl, ?_, ?_, le_refl _, ?_⟩
          · intro main alt value hsource htarget hsize
            refine takes_plan (applyPlan_legacy hlegacy hsource htarget) ?_
            have hlt := (List.getElem?_eq_some_iff.1 hsource).1
            intro step hstep
            unfold buildLegacyCopyAssignmentPlan at hlegacy
            split_ifs at hlegacy <;> obtain rfl := Except.ok.inj hlegacy
            · simp only [makePlan, List.mem_append, List.mem_replicate, List.mem_cons,
                List.not_mem_nil, or_false] at hstep
              rcases hstep with (⟨-, rfl⟩ | rfl | rfl) | ⟨-, rfl⟩ <;> simp only <;> omega
            · simp only [makePlan, List.mem_cons, List.not_mem_nil, or_false] at hstep
              rcases hstep with rfl | rfl <;> simp
            · simp only [makePlan, List.mem_append, List.mem_replicate, List.mem_cons,
                List.not_mem_nil, or_false, List.mem_flatten] at hstep
              rcases hstep with ((rfl | ⟨row, ⟨-, rfl⟩, hstep⟩) | rfl | rfl) | ⟨-, rfl⟩
              · simp only
                omega
              · simp only [List.mem_cons, List.not_mem_nil, or_false] at hstep
                rcases hstep with rfl | rfl <;> simp
              · simp
              · simp
              · simp
          · rw [hmake, codeBytes_makePlan, ← hmake, hbytes]
          · intro hsource htarget steps hcopies hdeletes hrow
            by_contra hshorter
            rw [not_le] at hshorter
            obtain ⟨other, hother, -⟩ := hbest hne hsource htarget rfl steps (applyPlan_window hrow)
              hcopies hdeletes hshorter
            exact absurd hother (by simp)

/-- The slot below the top is overwritten by the top. -/
theorem emitCopyAssignment_exact_top : ∃ code emission,
    emitCopyAssignment 0 1 = .ok (code, emission) ∧
      outcome .plain code [[7], [8], [9]] [[5]] = some ([[7], [7], [9]], [[5]]) ∧
      emission.emittedBytes ≤ 2 ∧
      emission.emittedBytes ≤ (makePlan [⟨.nip, 1⟩, ⟨.dup, 0⟩]).serializedBytes := by
  obtain ⟨code, emission, hemit, htakes, -, hbytes, hbest⟩ :=
    emitCopyAssignment_exact .plain (show (0 : ℕ) ≠ 1 by decide)
  refine ⟨code, emission, hemit, ?_, hbytes, ?_⟩
  · exact (htakes [[7], [8], [9]] [[5]] [7] rfl (by decide) (by decide)).outcome
  · refine hbest (by decide) (by decide) _ rfl rfl ?_
    intro main alt value hsource htarget
    match main, hsource, htarget with
    | a :: b :: rest, hsource, _ =>
        obtain rfl : a = value := by simpa using hsource
        rfl

end Emission

end AtomicProof
