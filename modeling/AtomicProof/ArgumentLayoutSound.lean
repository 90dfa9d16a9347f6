/-
When the layout of arguments is right.

A layout is a plan of the permutation planner, arguments that lie in place already, or a run of the
loop that rolls them to the top one by one.  The first two are always right; the loop is right
exactly when it takes no pair shortcut.

Main results:

* `planned_spec`, `inPlace_spec` — a plan is right, and so are arguments that lie in place;
* `layoutExact_iff` — **the layout is right if and only if no pair shortcut is taken**;
* `pair_shortcut_moves_wrong_slot` — **two arguments of which one is not moved**.
-/

import AtomicProof.ArgumentLayout

set_option autoImplicit false

namespace AtomicProof

namespace ArgumentLayout

open BlockCleanup (Slots)

variable {env : ScriptEnv} {script : String → Bytes} {st table : SymbolTable} {slots : Slots}
  {placed rest arguments : List StackElement}
variable {n : ℕ} {idxs : List ℕ} {steps : List StackPlanStep}

/-! ### Arguments in place -/

theorem takeInPlace_spec (h : Ready env script st slots (placed ++ rest))
    (hscripts : ∀ argument ∈ rest, isScript argument.name = false)
    (hshows : Shows st table (otherSlots st placed slots)) :
    ∃ table', takeInPlace table rest = .ok table' ∧
      Shows st table' (otherSlots st (placed ++ rest) slots) := by
  induction rest generalizing placed table with
  | nil =>
      rw [List.append_nil]
      exact ⟨table, rfl, hshows⟩
  | cons argument rest ih =>
      have hscript := hscripts argument List.mem_cons_self
      obtain ⟨pos, hpos⟩ := h.posOf hscript
      obtain ⟨hlt, -⟩ := getElem_posOf hpos
      obtain ⟨table₁, htake, hshows₁⟩ := hshows.takeSlot hlt
      rw [otherSlots_concat h.slotNames hscript hpos] at hshows₁
      have hsplit : placed ++ argument :: rest = (placed ++ [argument]) ++ rest := by simp
      rw [hsplit] at h ⊢
      obtain ⟨table₂, hrest, hshows₂⟩ :=
        ih h (fun a ha => hscripts a (List.mem_cons_of_mem _ ha)) hshows₁
      refine ⟨table₂, ?_, hshows₂⟩
      simp only [takeInPlace, hshows.getPos, hpos, htake, bind, Except.bind, hrest]

/-- Arguments that lie in place are the tops of the stack, the last one topmost. -/
theorem allInCorrectPosition_spec (hnodup : (slots.map (·.1.name)).Nodup)
    (hslots : slots.map Prod.fst = st.main) (h : allInCorrectPosition st arguments = true) :
    (∀ argument ∈ arguments, isScript argument.name = false) ∧ arguments.length ≤ slots.length ∧
      (arguments.map (argumentValue script st slots)).reverse =
        (slots.take arguments.length).map Prod.snd ∧
      argumentNames st arguments = ((slots.take arguments.length).map (·.1.name)).reverse := by
  induction arguments with
  | nil => simp [argumentNames]
  | cons argument rest ih =>
      simp only [allInCorrectPosition, Bool.and_eq_true, Bool.not_eq_true', beq_iff_eq] at h
      obtain ⟨⟨hscript, hpos⟩, hrest⟩ := h
      obtain ⟨hscripts, -, hvalues, hnames⟩ := ih hrest
      rw [SymbolTable.getPos, ← hslots] at hpos
      obtain ⟨hlt, hname⟩ := getElem_posOf hpos
      have hvalue := argumentValue_eq script hnodup hscript (List.Subset.refl slots) hlt hname
      have htake : slots.take (rest.length + 1) = slots.take rest.length ++ [slots[rest.length]] :=
        (List.take_append_getElem hlt).symm
      refine ⟨?_, hlt, ?_, ?_⟩
      · intro a ha
        rcases List.mem_cons.mp ha with rfl | ha
        · exact hscript
        · exact hscripts a ha
      · rw [List.map_cons, List.reverse_cons, hvalues, hvalue, List.length_cons, htake,
          List.map_append]
        rfl
      · rw [argumentNames_cons hscript, hnames, List.length_cons, htake, ← hname, List.map_append,
          List.reverse_append]
        rfl

/-- What is left of the slots when the tops are taken out by their names. -/
theorem otherSlots_eq_drop (hnodup : (slots.map (·.1.name)).Nodup)
    (hnames : argumentNames st arguments = ((slots.take n).map (·.1.name)).reverse) :
    otherSlots st arguments slots = slots.drop n := by
  have hsplit : otherSlots st arguments slots =
      otherSlots st arguments (slots.take n) ++ otherSlots st arguments (slots.drop n) := by
    rw [otherSlots, otherSlots, otherSlots, ← List.filter_append, List.take_append_drop]
  have htaken : otherSlots st arguments (slots.take n) = [] := by
    rw [otherSlots, List.filter_eq_nil_iff]
    intro slot hslot
    have hmem : slot.1.name ∈ argumentNames st arguments := by
      rw [hnames, List.mem_reverse]
      exact List.mem_map.mpr ⟨slot, hslot, rfl⟩
    simpa using hmem
  have hleft : otherSlots st arguments (slots.drop n) = slots.drop n := by
    rw [otherSlots, List.filter_eq_self]
    intro slot hslot
    have hdisjoint : ((slots.take n).map (·.1.name) ++ (slots.drop n).map (·.1.name)).Nodup := by
      rw [← List.map_append, List.take_append_drop]
      exact hnodup
    rw [List.nodup_append] at hdisjoint
    have hnot : slot.1.name ∉ argumentNames st arguments := by
      rw [hnames, List.mem_reverse]
      intro hmem
      exact hdisjoint.2.2 _ hmem _ (List.mem_map.mpr ⟨slot, hslot, rfl⟩) rfl
    simpa using hnot
  rw [hsplit, htaken, hleft, List.nil_append]

/-- **Arguments that lie in place are laid out already.** -/
theorem inPlace_spec (h : Ready env script st slots arguments)
    (hslots : slots.map Prod.fst = st.main) (hplace : allInCorrectPosition st arguments = true) :
    slots.map Prod.snd = stackWith script st slots arguments ∧
      ∃ table, takeInPlace st arguments = .ok table ∧
        Shows st table (otherSlots st arguments slots) := by
  obtain ⟨hscripts, -, hvalues, hnames⟩ := allInCorrectPosition_spec h.slotNames hslots hplace
  constructor
  · rw [stackWith, hvalues, otherSlots_eq_drop h.slotNames hnames, ← List.map_append,
      List.take_append_drop]
  · have hready : Ready env script st slots ([] ++ arguments) := h
    have hshows : Shows st st (otherSlots st [] slots) := by
      have hall : otherSlots st [] slots = slots := by simp [otherSlots, argumentNames]
      rw [hall]
      exact ⟨hslots.symm, rfl⟩
    exact takeInPlace_spec hready hscripts hshows

/-! ### Planned arguments -/

theorem argumentSlots_spec {acc : List ℕ}
    (h : arguments.foldlM (addArgumentSlot st) acc = some idxs) :
    ∃ new, idxs = acc ++ new ∧
      List.Forall₂ (fun argument slot => isScript argument.name = false ∧
        st.getPos argument.name = some slot) arguments new := by
  induction arguments generalizing acc with
  | nil =>
      obtain rfl := Option.some.inj h
      exact ⟨[], by simp, .nil⟩
  | cons argument rest ih =>
      rw [List.foldlM_cons] at h
      obtain ⟨acc', hstep, hrest⟩ := Option.bind_eq_some_iff.mp h
      rw [addArgumentSlot] at hstep
      split_ifs at hstep with hscript
      cases hpos : st.getPos argument.name with
      | none =>
          rw [hpos] at hstep
          exact absurd hstep (by simp)
      | some slot =>
          rw [hpos] at hstep
          simp only at hstep
          split_ifs at hstep with hmem
          obtain rfl := Option.some.inj hstep
          obtain ⟨new, rfl, hall⟩ := ih hrest
          exact ⟨slot :: new, by simp, .cons ⟨by simpa using hscript, hpos⟩ hall⟩

theorem le_foldl_max {start : ℕ} :
    start ≤ idxs.foldl max start ∧ ∀ i ∈ idxs, i ≤ idxs.foldl max start := by
  induction idxs generalizing start with
  | nil => simp
  | cons i idxs ih =>
      obtain ⟨hstart, hall⟩ := @ih (max start i)
      rw [List.foldl_cons]
      refine ⟨(le_max_left start i).trans hstart, ?_⟩
      intro j hj
      rcases List.mem_cons.mp hj with rfl | hj
      · exact (le_max_right start j).trans hstart
      · exact hall j hj

theorem foldl_max_lt {start bound : ℕ} (hstart : start < bound)
    (h : ∀ i ∈ idxs, i < bound) : idxs.foldl max start < bound := by
  induction idxs generalizing start with
  | nil => exact hstart
  | cons i idxs ih =>
      rw [List.foldl_cons]
      exact ih (max_lt hstart (h i List.mem_cons_self)) fun j hj => h j (List.mem_cons_of_mem _ hj)

/-- The analysis raises no error, and a plan it chooses brings the window into the order that is
asked for. -/
theorem analyzeArgumentLayout_spec (st : SymbolTable) (arguments : List StackElement) :
    ∃ layout, analyzeArgumentLayout st arguments = .ok layout ∧
      ∀ plan ∈ layout.bind (·.strictMovePlan), ∃ idxs,
        arguments.foldlM (addArgumentSlot st) [] = some idxs ∧
        applySteps plan.steps (List.range (idxs.foldl max 0 + 1)) =
          some (targetTopFirst idxs (idxs.foldl max 0 + 1)) := by
  rw [analyzeArgumentLayout]
  split_ifs with hempty
  · exact ⟨_, rfl, by simp⟩
  · cases hslots : arguments.foldlM (addArgumentSlot st) [] with
    | none => exact ⟨none, rfl, by simp⟩
    | some idxs =>
        simp only
        cases hbytes : legacyBytes st idxs with
        | none => exact ⟨none, rfl, by simp⟩
        | some bytes =>
            simp only
            split_ifs with hwindow
            · exact ⟨_, rfl, by simp⟩
            · obtain ⟨movePlan, hplan, hall⟩ := planMoveOnlyIds_spec (idxs.foldl max 0 + 1)
                (targetTopFirst idxs (idxs.foldl max 0 + 1))
              rw [hplan]
              refine ⟨_, rfl, ?_⟩
              intro plan hmem
              simp only [Option.bind_some, Option.mem_def, Option.filter_eq_some_iff] at hmem
              exact ⟨idxs, rfl, (hall plan hmem.1).2⟩

/-- A step of a plan moves the slots of the picture as it moves values. -/
theorem applyMoveOnlyStep_spec (hshows : Shows st table slots) {step : StackPlanStep}
    {slots' : Slots} (h : applyMoveOnly step slots = some slots') :
    ∃ table', applyMoveOnlyStep table step = .ok table' ∧ Shows st table' slots' := by
  have hmove := isMove_of_applyMoveOnly h
  rw [applyMoveOnly_eq_rollAll hmove] at h
  obtain ⟨op, depth⟩ := step
  cases op with
  | swap => exact hshows.roll (by simpa [StackPlanStep.rolls] using h)
  | rot => exact hshows.roll (by simpa [StackPlanStep.rolls] using h)
  | twoSwap | twoRot =>
      simp only [StackPlanStep.rolls, rollAll_cons, rollAll_nil] at h
      obtain ⟨mid, hmid, hrest⟩ := Option.bind_eq_some_iff.mp h
      obtain ⟨table₁, hroll₁, hshows₁⟩ := hshows.roll hmid
      obtain ⟨table₂, hroll₂, hshows₂⟩ := hshows₁.roll (by simpa using hrest)
      exact ⟨table₂, by simp only [applyMoveOnlyStep, hroll₁, bind, Except.bind, hroll₂], hshows₂⟩
  | roll => exact hshows.roll (by simpa [StackPlanStep.rolls] using h)
  | _ => exact absurd hmove (by simp [StackPlanStep.isMove])

/-- What is emitted for a plan does to the values what the plan does to the picture. -/
theorem emitAndApplyMoveOnlyPlan_spec (hshows : Shows st table slots)
    {slots' : Slots} (hsize : slots.length < 2 ^ 63) (h : applySteps steps slots = some slots') :
    ∃ table' code, emitAndApplyMoveOnlyPlan table steps = .ok (table', code) ∧
      Shows st table' slots' ∧
      ∀ alt : Stack, Takes env code (slots.map Prod.snd, alt) (slots'.map Prod.snd, alt) := by
  induction steps generalizing table slots with
  | nil =>
      obtain rfl := Option.some.inj h
      exact ⟨table, [], rfl, hshows, fun alt => Takes.refl _⟩
  | cons step steps ih =>
      obtain ⟨mid, hmid, hrest⟩ := Option.bind_eq_some_iff.mp h
      obtain ⟨table₁, hstep, hshows₁⟩ := applyMoveOnlyStep_spec hshows hmid
      have hperm : mid.length = slots.length := by
        exact (rollAll_perm (rollAll_of_applyMoveOnly hmid)).length_eq
      obtain ⟨table₂, code, hplan, hshows₂, htakes⟩ := ih hshows₁ (by omega) hrest
      have hvalues : applyMoveOnly step (slots.map Prod.snd) = some (mid.map Prod.snd) := by
        simpa using applyMoveOnly_map_append hmid Prod.snd []
      refine ⟨table₂, step.encodedInstructions.flatMap emitText ++ code, ?_, hshows₂, ?_⟩
      · simp only [emitAndApplyMoveOnlyPlan, hstep, hplan, bind, Except.bind, pure, Except.pure]
      · intro alt
        exact (takes_step_of_size hvalues (by rwa [List.length_map]) alt).trans (htakes alt)

theorem map_getD_range (hn : n ≤ slots.length) :
    (List.range n).map (slots.getD · ({ name := "" }, [])) = slots.take n := by
  refine List.ext_getElem (by simp [hn]) fun i hi _ => ?_
  have hlt : i < slots.length := by
    rw [List.length_map, List.length_range] at hi
    omega
  simp [List.getD_eq_getElem?_getD, hlt]

theorem applySteps_window {target : List ℕ}
    (hn : n ≤ slots.length) (h : applySteps steps (List.range n) = some target) :
    applySteps steps slots =
      some (target.map (slots.getD · ({ name := "" }, [])) ++ slots.drop n) := by
  have hall := applySteps_map_append h (slots.getD · ({ name := "" }, [])) (slots.drop n)
  rwa [map_getD_range hn, List.take_append_drop] at hall

/-- What the slots of the arguments are. -/
theorem argumentSlots_pick (script : String → Bytes) (hnodup : (slots.map (·.1.name)).Nodup)
    (hslots : slots.map Prod.fst = st.main)
    (h : List.Forall₂ (fun argument slot => isScript argument.name = false ∧
      st.getPos argument.name = some slot) arguments idxs) :
    (∀ i ∈ idxs, i < slots.length) ∧
      argumentNames st arguments =
        idxs.map (fun i => (slots.getD i ({ name := "" }, [])).1.name) ∧
      arguments.map (argumentValue script st slots) =
        idxs.map (fun i => (slots.getD i ({ name := "" }, [])).2) := by
  induction h with
  | nil => simp [argumentNames]
  | @cons argument i rest idxs hfirst _ ih =>
      obtain ⟨hscript, hpos⟩ := hfirst
      obtain ⟨hlts, hnames, hvalues⟩ := ih
      rw [SymbolTable.getPos, ← hslots] at hpos
      obtain ⟨hlt, hname⟩ := getElem_posOf hpos
      have hget : slots.getD i ({ name := "" }, []) = slots[i] := by
        simp [List.getD_eq_getElem?_getD, hlt]
      refine ⟨?_, ?_, ?_⟩
      · intro j hj
        rcases List.mem_cons.mp hj with rfl | hj
        · exact hlt
        · exact hlts j hj
      · rw [argumentNames_cons hscript, hnames, List.map_cons, hget, hname]
      · rw [List.map_cons, List.map_cons, hvalues, hget,
          argumentValue_eq script hnodup hscript (List.Subset.refl slots) hlt hname]

/-- The window without the slots of the arguments, and what is below, are the other slots. -/
theorem otherSlots_eq_window (hnodup : (slots.map (·.1.name)).Nodup)
    (hidxs : ∀ i ∈ idxs, i < n) (hn : n ≤ slots.length)
    (hnames : argumentNames st arguments =
      idxs.map (fun i => (slots.getD i ({ name := "" }, [])).1.name)) :
    otherSlots st arguments slots =
      ((List.range n).filter (· ∉ idxs)).map (slots.getD · ({ name := "" }, [])) ++
        slots.drop n := by
  have hmem : ∀ i (hi : i < slots.length),
      slots[i].1.name ∈ argumentNames st arguments ↔ i ∈ idxs := by
    intro i hi
    rw [hnames, List.mem_map]
    constructor
    · rintro ⟨j, hj, hsame⟩
      have hjlt : j < slots.length := lt_of_lt_of_le (hidxs j hj) hn
      rw [List.getD_eq_getElem?_getD, List.getElem?_eq_getElem hjlt, Option.getD_some] at hsame
      have hj' : j < (slots.map (·.1.name)).length := by simpa using hjlt
      have hi' : i < (slots.map (·.1.name)).length := by simpa using hi
      have hsame' : (slots.map (·.1.name))[j] = (slots.map (·.1.name))[i] := by simpa using hsame
      obtain rfl := (List.Nodup.getElem_inj_iff hnodup).mp hsame'
      exact hj
    · intro hi'
      exact ⟨i, hi', by simp [List.getD_eq_getElem?_getD, hi]⟩
  have hsplit : otherSlots st arguments slots =
      otherSlots st arguments (slots.take n) ++ otherSlots st arguments (slots.drop n) := by
    rw [otherSlots, otherSlots, otherSlots, ← List.filter_append, List.take_append_drop]
  have htaken : otherSlots st arguments (slots.take n) =
      ((List.range n).filter (· ∉ idxs)).map (slots.getD · ({ name := "" }, [])) := by
    rw [← map_getD_range hn, otherSlots, List.filter_map]
    congr 1
    refine List.filter_congr fun i hi => ?_
    have hlt : i < slots.length := by
      have := List.mem_range.mp hi
      omega
    have hget : slots.getD i ({ name := "" }, []) = slots[i] := by
      simp [List.getD_eq_getElem?_getD, hlt]
    rw [Function.comp_apply, hget, decide_eq_decide, hmem i hlt]
  have hbelow : otherSlots st arguments (slots.drop n) = slots.drop n := by
    rw [otherSlots, List.filter_eq_self]
    intro slot hslot
    obtain ⟨k, hk, rfl⟩ := List.getElem_of_mem hslot
    rw [List.length_drop] at hk
    rw [List.getElem_drop, decide_eq_true_eq, hmem _ (by omega)]
    intro hk'
    have := hidxs _ hk'
    omega
  rw [hsplit, htaken, hbelow]

/-- **A plan of the analysis lays the arguments out.** -/
theorem planned_spec (h : Ready env script st slots arguments)
    (hslots : slots.map Prod.fst = st.main)
    (hne : arguments ≠ []) (hidxs : arguments.foldlM (addArgumentSlot st) [] = some idxs)
    (hsteps : applySteps steps (List.range (idxs.foldl max 0 + 1)) =
      some (targetTopFirst idxs (idxs.foldl max 0 + 1))) :
    ∃ slots', applySteps steps slots = some slots' ∧
      slots'.map Prod.snd = stackWith script st slots arguments ∧
      arguments.length ≤ slots'.length ∧
      slots'.drop arguments.length = otherSlots st arguments slots := by
  obtain ⟨new, hnew, hall⟩ := argumentSlots_spec hidxs
  obtain rfl : idxs = new := hnew
  obtain ⟨hlts, hnames, hvalues⟩ := argumentSlots_pick script h.slotNames hslots hall
  have hlength := hall.length_eq
  have hpos : 0 < slots.length := by
    obtain ⟨argument, rest, rfl⟩ := List.exists_cons_of_ne_nil hne
    obtain ⟨i, rest', rfl⟩ := List.exists_cons_of_length_pos (by rw [← hlength]; simp)
    exact lt_of_le_of_lt (Nat.zero_le i) (hlts i List.mem_cons_self)
  have hwindow : idxs.foldl max 0 + 1 ≤ slots.length := foldl_max_lt hpos hlts
  have hothers := otherSlots_eq_window h.slotNames
    (fun i hi => Nat.lt_succ_of_le (le_foldl_max.2 i hi)) hwindow hnames
  have hrun := applySteps_window hwindow hsteps
  rw [targetTopFirst, List.map_append, List.append_assoc, ← hothers] at hrun
  refine ⟨_, hrun, ?_, ?_, ?_⟩
  · rw [stackWith, hvalues, List.map_append, List.map_map, List.map_reverse]
    rfl
  · rw [List.length_append, List.length_map, List.length_reverse]
    omega
  · rw [List.drop_left']
    rw [List.length_map, List.length_reverse, hlength]

/-! ### The layout -/

/-- The values of a stack whose slots all have different ones. -/
def distinctValues (n : ℕ) : Stack := (List.range n).map fun k => List.replicate k 0

theorem distinctValues_nodup (n : ℕ) : (distinctValues n).Nodup := by
  refine List.Nodup.map ?_ List.nodup_range
  intro j k hjk
  have hlength := congrArg List.length hjk
  simpa using hlength

section Layout

variable {main : Stack}

/-- **Where no pair shortcut is taken the layout is right.** -/
theorem layoutExact_of_pairFree (hlength : main.length = st.main.length)
    (h : Ready env script st (st.main.zip main) arguments)
    (hfree : LoopIsRun st arguments → PairFree st [] arguments) (alt : Stack) :
    LayoutExact env script st arguments main alt := by
  have hslots : (st.main.zip main).map Prod.fst = st.main := List.map_fst_zip (by rw [hlength])
  have hvalues : (st.main.zip main).map Prod.snd = main := List.map_snd_zip (by rw [hlength])
  have hall : otherSlots st [] (st.main.zip main) = st.main.zip main := by
    simp [otherSlots, argumentNames]
  have hshows : Shows st st (st.main.zip main) := ⟨hslots.symm, rfl⟩
  by_cases hne : arguments = []
  · subst hne
    refine ⟨st, [], rfl, ?_, ?_⟩
    · rw [hall, hvalues]
      exact Takes.refl _
    · rw [hall, hslots]
  · obtain ⟨layout, hlayout, hplan⟩ := analyzeArgumentLayout_spec st arguments
    -- a planned layout, arguments already in place, or the loop over the arguments
    cases hchoice : layout.bind (·.strictMovePlan) with
    | some plan =>
        obtain ⟨idxs, hidxs, hsteps⟩ := hplan plan hchoice
        obtain ⟨slots', hrun, hstack, hcount, hothers⟩ := planned_spec h hslots hne hidxs hsteps
        have hsize : (st.main.zip main).length < 2 ^ 63 := by
          have := h.slots_bound
          rw [maxSlots] at this
          omega
        obtain ⟨table, code, hemit, hshows', htakes⟩ :=
          emitAndApplyMoveOnlyPlan_spec hshows hsize hrun
        have hpops := hshows'.pops hcount
        rw [hothers] at hpops
        refine ⟨_, code, ?_, ?_, hpops.main⟩
        · simp only [adjustStackToMatch, if_neg hne, hlayout, bind, Except.bind, hchoice, hemit,
            pure, Except.pure]
        · have htakes' := htakes alt
          rwa [hvalues, hstack] at htakes'
    | none =>
        by_cases hplace : allInCorrectPosition st arguments = true
        · obtain ⟨hstack, table, htake, hshows'⟩ := inPlace_spec h hslots hplace
          refine ⟨table, [], ?_, ?_, hshows'.main⟩
          · simp only [adjustStackToMatch, if_neg hne, hlayout, bind, Except.bind, hchoice, hplace,
              if_true, htake, pure, Except.pure]
          · change Takes env [] (main, alt) (stackWith script st (st.main.zip main) arguments, alt)
            rw [← hstack, hvalues]
            exact Takes.refl _
        · have hloop : LoopIsRun st arguments := by
            refine ⟨?_, by simpa using hplace⟩
            intro layout' hlayout'
            obtain rfl := Except.ok.inj (hlayout.symm.trans hlayout')
            exact hchoice
          have hready : Ready env script st (st.main.zip main) ([] ++ arguments) := h
          have hstart : Shows st st (otherSlots st [] (st.main.zip main)) := by
            rw [hall]
            exact hshows
          obtain ⟨table, code, hrun, hshows', htakes⟩ :=
            placeArguments_spec hready hslots hstart (hfree hloop) alt
          refine ⟨table, code, ?_, ?_, hshows'.main⟩
          · rw [List.length_nil] at hrun
            simp only [adjustStackToMatch, if_neg hne, hlayout, bind, Except.bind, hchoice, hplace,
              if_false, Bool.false_eq_true, hrun]
          · rw [stackWith, hall, hvalues] at htakes
            exact htakes

/-- **Where a pair shortcut is taken the layout is wrong**, for values that are all different. -/
theorem not_layoutExact_of_not_pairFree (hlength : main.length = st.main.length)
    (hmain : main.Nodup) (h : Ready env script st (st.main.zip main) arguments)
    (hloop : LoopIsRun st arguments) (hpair : ¬ PairFree st [] arguments) :
    ¬ ∀ alt : Stack, LayoutExact env script st arguments main alt := by
  intro hexact
  have hslots : (st.main.zip main).map Prod.fst = st.main := List.map_fst_zip (by rw [hlength])
  have hvalues : (st.main.zip main).map Prod.snd = main := List.map_snd_zip (by rw [hlength])
  have hall : otherSlots st [] (st.main.zip main) = st.main.zip main := by
    simp [otherSlots, argumentNames]
  have hne : arguments ≠ [] := by
    rintro rfl
    exact hpair trivial
  obtain ⟨layout, hlayout, -⟩ := analyzeArgumentLayout_spec st arguments
  have hchoice : layout.bind (·.strictMovePlan) = none := by
    cases layout with
    | none => rfl
    | some layout => exact hloop.1 layout hlayout
  have hadjust : adjustStackToMatch st arguments = placeArguments st 0 arguments := by
    simp only [adjustStackToMatch, if_neg hne, hlayout, bind, Except.bind, hchoice, hloop.2,
      Bool.false_eq_true, if_false]
  obtain ⟨table, code, hrun, -, -⟩ := hexact []
  rw [hadjust] at hrun
  have hready : Ready env script st (st.main.zip main) ([] ++ arguments) := h
  have hstart : Shows st st (otherSlots st [] (st.main.zip main)) := by
    rw [hall]
    exact ⟨hslots.symm, rfl⟩
  refine not_takes_of_not_pairFree hready hslots (by rwa [hvalues]) hstart hpair hrun ?_
  intro alt
  obtain ⟨table', code', hrun', htakes, -⟩ := hexact alt
  rw [hadjust, hrun, Except.ok.injEq, Prod.mk.injEq] at hrun'
  obtain ⟨rfl, rfl⟩ := hrun'
  rw [stackWith, hall, hvalues]
  exact htakes

end Layout

/-- **The layout is right if and only if no pair shortcut is taken.** -/
theorem layoutExact_iff (env : ScriptEnv) (script : String → Bytes) (st : SymbolTable)
    (arguments : List StackElement) (hslotNames : (st.main.map (·.name)).Nodup)
    (hslots : st.main.length ≤ maxSlots) (harguments : arguments.length < 2 ^ 31)
    (hnames : (argumentNames st arguments).Nodup)
    (hfound : ∀ argument ∈ arguments, isScript argument.name = false →
      st.resolveBindSymbol argument.name ∈ st.main.map (·.name))
    (hscripts : ∀ argument ∈ arguments, isScript argument.name = true → ∀ main alt : Stack,
      Takes env (emitText argument.name) (main, alt) (script argument.name :: main, alt)) :
    (∀ main alt : Stack, main.length = st.main.length →
      LayoutExact env script st arguments main alt) ↔
        (LoopIsRun st arguments → PairFree st [] arguments) := by
  have hready : ∀ main : Stack, main.length = st.main.length →
      Ready env script st (st.main.zip main) arguments := by
    intro main hlength
    have hzip : (st.main.zip main).map Prod.fst = st.main := List.map_fst_zip (by rw [hlength])
    have hzipNames : (st.main.zip main).map (·.1.name) = st.main.map (·.name) := by
      have hmap : (st.main.zip main).map (·.1.name) =
          ((st.main.zip main).map Prod.fst).map (·.name) := by
        rw [List.map_map]
        rfl
      rw [hmap, hzip]
    refine ⟨by rwa [hzipNames], ?_, harguments, hnames, ?_, hscripts⟩
    · rw [List.length_zip]
      omega
    · intro argument hargument hscript
      have hmem := hfound argument hargument hscript
      rw [← hzipNames] at hmem
      obtain ⟨slot, hslot, hname⟩ := List.mem_map.mp hmem
      exact ⟨slot, hslot, hname⟩
  constructor
  · intro hexact hloop
    by_contra hpair
    have hlength : (distinctValues st.main.length).length = st.main.length := by
      simp [distinctValues]
    refine not_layoutExact_of_not_pairFree hlength (distinctValues_nodup _) (hready _ hlength) hloop
      hpair ?_
    intro alt
    exact hexact _ alt hlength
  · intro hfree main alt hlength
    exact layoutExact_of_pairFree hlength (hready main hlength) hfree alt

/-- A stack of the slots `y`, `p` and `x`, from the top down. -/
def threeSlots : SymbolTable where
  main := [{ name := "y" }, { name := "p" }, { name := "x" }]
  alt := []

/-- The arguments of a call `f(1, x, y)`. -/
def pairArguments : List StackElement := [{ name := "0x51" }, { name := "x" }, { name := "y" }]

theorem takes_one (main alt : Stack) :
    Takes ScriptEnv.plain (emitText "0x51") (main, alt) ([1] :: main, alt) := by
  have hone : numberToScriptHex 1 = "0x51" := by decide +kernel
  have htakes : Takes ScriptEnv.plain _ _ _ := takes_number 1 main alt
  rwa [hone] at htakes

theorem layoutExact_iff_threeSlots :
    (∀ main alt : Stack, main.length = threeSlots.main.length →
      LayoutExact ScriptEnv.plain (fun _ => [1]) threeSlots pairArguments main alt) ↔
        (LoopIsRun threeSlots pairArguments → PairFree threeSlots [] pairArguments) := by
  refine layoutExact_iff ScriptEnv.plain (fun _ => [1]) threeSlots pairArguments (by decide)
    (by decide) (by decide) (by decide) (by decide) ?_
  intro argument hargument hscript main alt
  have hname : argument.name = "0x51" := by
    revert hscript
    revert argument
    decide
  rw [hname]
  exact takes_one main alt

/-- **`2SWAP` moves the slot `p` in the stead of the argument `y`.** -/
theorem pair_shortcut_moves_wrong_slot :
    (threeSlots.main.map (·.name)).Nodup ∧ (argumentNames threeSlots pairArguments).Nodup ∧
      (∀ argument ∈ pairArguments, isScript argument.name = false →
        threeSlots.resolveBindSymbol argument.name ∈ threeSlots.main.map (·.name)) ∧
      (∀ main alt : Stack,
        Takes ScriptEnv.plain (emitText "0x51") (main, alt) ([1] :: main, alt)) ∧
      ¬ LayoutExact ScriptEnv.plain (fun _ => [1]) threeSlots pairArguments [[2], [3], [4]] [] := by
  refine ⟨by decide, by decide, by decide, takes_one, ?_⟩
  rintro ⟨table, code, hrun, htakes, -⟩
  have hcode : (adjustStackToMatch threeSlots pairArguments).toOption.map Prod.snd =
      some ["51", "72"] := by decide +kernel
  rw [hrun] at hcode
  obtain rfl : code = ["51", "72"] := Option.some.inj hcode
  have hactual : outcome ScriptEnv.plain ["51", "72"] [[2], [3], [4]] [] =
      some ([[3], [4], [1], [2]], []) := by decide +kernel
  rw [htakes.outcome] at hactual
  exact absurd hactual (by decide)

end ArgumentLayout

end AtomicProof
