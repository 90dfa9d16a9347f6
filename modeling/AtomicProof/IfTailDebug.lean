/-
Stepping through an optimised script shows the steps of the script.

A debugger that stops at an instruction of an optimised script looks up where it comes from: among
the origins that the instruction has it takes the one whose arms were taken.  The arms of an
instruction that is executed have all been taken, and two origins of one instruction lie in opposite
arms of a conditional, so this is the origin of the instruction that the script would have executed.

Main definitions:

* `IfTail.KeepsBranches` — surroundings in which only conditionals choose arms;
* `IfTail.Enclosed` — events whose arms are shown before them;
* `IfTail.Apart` — records in opposite arms of a conditional;
* `ApcDebug.DebugInfo.resolveOrigin` — the origin that the debugger takes;
* `IfTail.stepping` — what the debugger stops at, with the arms taken so far.

Main results:

* `IfTail.behaves_flatten` — **the arms of an instruction that is executed have been taken**;
* `IfTail.apart_optimizeSequence` — two records of an atom lie in opposite arms;
* `IfTail.stepping_optimize` — **stepping through the optimised script shows the old instructions in
  their order.**
-/

import AtomicProof.DebugRemap
import AtomicProof.IfTailTrace

set_option autoImplicit false

namespace AtomicProof.IfTail

variable {env : ScriptEnv} {options : StructuredIfTailOptions}
variable {vm next : VM} {events : List (Atom × Option BranchArm)} {p : BranchPredicate}
  {arms : List BranchPredicate}

/-! ### The arms of what is executed -/

/-- Text that is no instruction neither chooses an arm nor does anything in one that is not
taken. -/
def KeepsBranches (env : ScriptEnv) : Prop :=
  ∀ text vm next, env.barrier text vm = .ok next →
    next.conds = vm.conds ∧ (vm.isCurrentlyExecuting = false → next = vm)

theorem conds_of_onMain {f : Stack → Except String Stack}
    (h : vm.onMain f = .ok next) : next.conds = vm.conds := by
  unfold VM.onMain at h
  cases hf : f vm.main with
  | error e => simp [hf] at h
  | ok main =>
      simp only [hf] at h
      obtain rfl := Except.ok.inj h
      rfl

/-- An opcode that is no conditional leaves the conditions alone. -/
theorem conds_of_executeKnown {operand : Bytes} {op : BytOpcode} (hop : isConditional op = false)
    (h : executeKnown env.toEnv operand op vm = .ok next) :
    next.conds = vm.conds := by
  unfold executeKnown at h
  cases hmain : mainOp env.toEnv operand op with
  | some f =>
      rw [hmain] at h
      exact conds_of_onMain h
  | none =>
      rw [hmain] at h
      rcases of_mainOp_eq_none hmain with hcond | rfl | rfl | rfl
      · rw [hop] at hcond
        exact Bool.noConfusion hcond
      · obtain ⟨main, alt, conds, finished⟩ := vm
        cases main with
        | nil => cases h
        | cons x main =>
            obtain rfl := Except.ok.inj h
            rfl
      · obtain ⟨main, alt, conds, finished⟩ := vm
        cases alt with
        | nil => cases h
        | cons x alt =>
            obtain rfl := Except.ok.inj h
            rfl
      · obtain rfl := Except.ok.inj h
        rfl

/-- An atom outside of the conditionals leaves the conditions alone, and does nothing in a branch
that is not taken. -/
theorem execAtom_of_none (hbarrier : KeepsBranches env) {text : String}
    (htoken : controlToken text = .none) (h : execAtom env text vm = .ok next) :
    next.conds = vm.conds ∧ (vm.isCurrentlyExecuting = false → next = vm) := by
  unfold execAtom at h
  cases hinstr : completeInstruction text with
  | some instr =>
      rw [hinstr] at h
      obtain ⟨opcode, operand⟩ := instr
      unfold executeOpcode at h
      cases hbyte : BytOpcode.ofByte? opcode with
      | some op =>
          obtain rfl := BytOpcode.toByte_of_ofByte? hbyte
          have hcond := not_isConditional_of_controlToken htoken hinstr
          simp only [hbyte, hcond, Bool.not_false, Bool.and_true] at h
          cases hx : vm.isCurrentlyExecuting with
          | false =>
              rw [hx] at h
              obtain rfl := Except.ok.inj h
              exact ⟨rfl, fun _ => rfl⟩
          | true =>
              rw [hx] at h
              exact ⟨conds_of_executeKnown hcond h, fun hnot => Bool.noConfusion hnot⟩
      | none =>
          simp only [hbyte] at h
          cases hx : vm.isCurrentlyExecuting with
          | false =>
              rw [hx] at h
              obtain rfl := Except.ok.inj h
              exact ⟨rfl, fun _ => rfl⟩
          | true =>
              simp only [hx, Bool.not_true, Bool.false_eq_true, if_false] at h
              split_ifs at h
              exact ⟨conds_of_onMain h, fun hnot => Bool.noConfusion hnot⟩
  | none =>
      rw [hinstr] at h
      cases hdata : env.placeholderData text with
      | some payload =>
          simp only [hdata] at h
          cases hx : vm.isCurrentlyExecuting with
          | false =>
              simp only [hx, Bool.false_eq_true, if_false] at h
              obtain rfl := Except.ok.inj h
              exact ⟨rfl, fun _ => rfl⟩
          | true =>
              simp only [hx, if_true] at h
              obtain rfl := Except.ok.inj h
              exact ⟨rfl, fun hnot => Bool.noConfusion hnot⟩
      | none =>
          simp only [hdata] at h
          exact hbarrier text vm next h

/-- The arm `p` has been taken in some of the events. -/
def Recorded (events : List (Atom × Option BranchArm)) (p : BranchPredicate) : Prop :=
  ∃ e ∈ events, e.2 = some p.arm ∧ ∃ o ∈ e.1.origins, o.oldPC = p.ifPC

/-- The arms of every event, apart from `arms`, have been taken before it. -/
def Enclosed (arms : List BranchPredicate) (events : List (Atom × Option BranchArm)) : Prop :=
  ∀ before e after, events = before ++ e :: after →
    ∀ o ∈ e.1.origins, ∀ p ∈ o.path, p ∈ arms ∨ Recorded before p

theorem Recorded.mono {events' : List (Atom × Option BranchArm)}
    (h : Recorded events p) (hsub : events ⊆ events') : Recorded events' p := by
  obtain ⟨e, he, hp⟩ := h
  exact ⟨e, hsub he, hp⟩

theorem enclosed_nil (arms : List BranchPredicate) : Enclosed arms [] := by
  intro before e after h
  simp at h

/-- Events in arms that have been taken before them. -/
theorem Enclosed.append {arms' : List BranchPredicate}
    {first second : List (Atom × Option BranchArm)} (h : Enclosed arms first)
    (h' : Enclosed arms' second)
    (harms : second = [] ∨ ∀ p ∈ arms', p ∈ arms ∨ Recorded first p) :
    Enclosed arms (first ++ second) := by
  intro before e after heq o ho q hq
  rcases List.append_eq_append_iff.mp heq with ⟨mid, rfl, hsecond⟩ | ⟨mid, hfirst, hafter⟩
  · have htaken := harms.resolve_left (by simp [hsecond])
    rcases h' mid e after hsecond o ho q hq with harm | hrec
    · exact (htaken q harm).imp_right fun hrec => hrec.mono (List.subset_append_left _ _)
    · exact .inr (hrec.mono (List.subset_append_right _ _))
  · cases mid with
    | nil =>
        rw [List.nil_append] at hafter
        rw [List.append_nil] at hfirst
        have htaken := harms.resolve_left (by simp [← hafter])
        rcases h' [] e after hafter.symm o ho q hq with harm | hrec
        · exact hfirst ▸ htaken q harm
        · exact .inr (hrec.mono (List.nil_subset _))
    | cons e' mid =>
        obtain ⟨rfl, rfl⟩ := List.cons.inj hafter
        exact h before e mid hfirst o ho q hq

/-- What the run of a row in the given arms does: it leaves the conditions as they were, its events
lie in arms that have been taken, and in a branch that is not taken it does nothing. -/
def Behaves (env : ScriptEnv) (arms : List BranchPredicate) (xs : List Atom) : Prop :=
  ∀ vm next events, trail env (·.encoding) xs vm = some (next, events) →
    (next.finished = false → next.conds = vm.conds) ∧ Enclosed arms events ∧
      (vm.isCurrentlyExecuting = false → next = vm ∧ events = [])

theorem behaves_of_finished {xs : List Atom} (hf : vm.finished = true)
    (h : trail env (·.encoding) xs vm = some (next, events)) :
    (next.finished = false → next.conds = vm.conds) ∧ Enclosed arms events ∧
      (vm.isCurrentlyExecuting = false → next = vm ∧ events = []) := by
  rw [trail_of_finished hf] at h
  obtain ⟨rfl, rfl⟩ := Prod.mk.inj (Option.some.inj h)
  exact ⟨fun _ => rfl, enclosed_nil arms, fun _ => ⟨rfl, rfl⟩⟩

theorem behaves_nil (arms : List BranchPredicate) : Behaves env arms [] := by
  intro vm next events h
  obtain ⟨rfl, rfl⟩ := Prod.mk.inj (Option.some.inj h)
  exact ⟨fun _ => rfl, enclosed_nil arms, fun _ => ⟨rfl, rfl⟩⟩

theorem Behaves.append {xs ys : List Atom}
    (h : Behaves env arms xs) (h' : Behaves env arms ys) : Behaves env arms (xs ++ ys) := by
  intro vm next events hrun
  rw [trail_append] at hrun
  obtain ⟨⟨mid, first⟩, hfirst, hrun⟩ := Option.bind_eq_some_iff.mp hrun
  obtain ⟨⟨last, second⟩, hsecond, hrun⟩ := Option.map_eq_some_iff.mp hrun
  obtain ⟨rfl, rfl⟩ := Prod.mk.inj hrun
  obtain ⟨hconds, henclosed, hskip⟩ := h vm mid first hfirst
  obtain ⟨hconds', henclosed', hskip'⟩ := h' mid last second hsecond
  refine ⟨fun hf => ?_, henclosed.append henclosed' (.inr fun p hp => .inl hp), fun hx => ?_⟩
  · cases hmid : mid.finished with
    | true =>
        rw [trail_of_finished hmid] at hsecond
        obtain ⟨rfl, -⟩ := Prod.mk.inj (Option.some.inj hsecond)
        exact hconds hf
    | false => exact (hconds' hf).trans (hconds hmid)
  · obtain ⟨rfl, rfl⟩ := hskip hx
    obtain ⟨rfl, rfl⟩ := hskip' hx
    exact ⟨rfl, rfl⟩

theorem behaves_atom (hbarrier : KeepsBranches env) {a : Atom}
    (htoken : controlToken a.encoding = .none) (hlocated : LocatedAtom arms a) :
    Behaves env arms [a] := by
  intro vm next events h
  by_cases hf : vm.finished = true
  · exact behaves_of_finished hf h
  · rw [Bool.not_eq_true] at hf
    rw [trail_singleton hf] at h
    obtain ⟨vm', hexec, h⟩ := Option.map_eq_some_iff.mp h
    obtain ⟨rfl, rfl⟩ := Prod.mk.inj h
    have hok : execAtom env a.encoding vm = .ok vm' := by
      cases hres : execAtom env a.encoding vm with
      | error e => simp [hres, Except.toOption] at hexec
      | ok vm'' => simpa [hres, Except.toOption] using hexec
    obtain ⟨hconds, hskip⟩ := execAtom_of_none hbarrier htoken hok
    refine ⟨fun _ => hconds, ?_, fun hx => ⟨hskip hx, by simp [eventOf, hx]⟩⟩
    intro before e after heq o ho p hp
    have he : e.1 = a := by
      have hmem : e ∈ ((eventOf a.encoding vm).map (a, ·)).toList := by
        rw [heq]
        simp
      rw [Option.mem_toList, Option.map_eq_some_iff] at hmem
      obtain ⟨arm, -, rfl⟩ := hmem
      rfl
    obtain ⟨pc, hpc⟩ := hlocated
    rw [he, hpc, List.mem_singleton] at ho
    exact .inl (by simpa [ho] using hp)

/-- An arm and the rest of its conditional, from a machine that has opened it. -/
theorem behaves_thenArm {ts rest : List Atom} (ht : Behaves env (arms ++ [p]) ts)
    (h : trail env (·.encoding) (ts ++ rest) vm = some (next, events)) :
    ∃ mid first second, trail env (·.encoding) rest mid = some (next, second) ∧
      events = first ++ second ∧ Enclosed (arms ++ [p]) first ∧
      (mid.finished = true → next = mid ∧ second = []) ∧
      (mid.finished = false → mid.conds = vm.conds) ∧
      (vm.isCurrentlyExecuting = false → mid = vm ∧ first = []) := by
  rw [trail_append] at h
  obtain ⟨⟨mid, first⟩, hfirst, h⟩ := Option.bind_eq_some_iff.mp h
  obtain ⟨⟨last, second⟩, hsecond, h⟩ := Option.map_eq_some_iff.mp h
  obtain ⟨rfl, rfl⟩ := Prod.mk.inj h
  obtain ⟨hconds, henclosed, hskip⟩ := ht vm mid first hfirst
  refine ⟨mid, first, second, hsecond, rfl, henclosed, fun hf => ?_, hconds, hskip⟩
  rw [trail_of_finished hf] at hsecond
  obtain ⟨rfl, rfl⟩ := Prod.mk.inj (Option.some.inj hsecond)
  exact ⟨rfl, rfl⟩

/-- The last arm of a conditional with its end. -/
theorem behaves_lastArm {fs : List Atom}
    {e : Atom} (he : controlToken e.encoding = .endif) (hf : Behaves env (arms ++ [p]) fs)
    {main alt : Stack} {c : Bool} {conds : List Bool}
    (h : trail env (·.encoding) (fs ++ [e]) ⟨main, alt, c :: conds, false⟩ =
      some (next, events)) :
    (next.finished = false → next.conds = conds) ∧ Enclosed (arms ++ [p]) events ∧
      ((c :: conds).all id = false → next = ⟨main, alt, conds, false⟩ ∧ events = []) := by
  obtain ⟨mid, first, second, hend, rfl, henclosed, hfinished, hconds, hskip⟩ :=
    behaves_thenArm hf h
  cases hmid : mid.finished with
  | true =>
      obtain ⟨rfl, rfl⟩ := hfinished hmid
      refine ⟨fun hnot => ?_, by simpa using henclosed, fun hx => ?_⟩
      · rw [hmid] at hnot
        exact Bool.noConfusion hnot
      · obtain ⟨rfl, -⟩ := hskip hx
        exact Bool.noConfusion hmid
  | false =>
      obtain ⟨main', alt', conds', finished'⟩ := mid
      obtain rfl : finished' = false := hmid
      obtain rfl : conds' = c :: conds := hconds rfl
      rw [trail_endif he] at hend
      obtain ⟨rfl, rfl⟩ := Prod.mk.inj (Option.some.inj hend)
      refine ⟨fun _ => rfl, by simpa using henclosed, fun hx => ?_⟩
      obtain ⟨hvm, rfl⟩ := hskip hx
      injection hvm with hmain halt
      rw [hmain, halt]
      exact ⟨rfl, rfl⟩

section Conditional

variable {arms : List BranchPredicate} {pc : ℕ} {o m e : Atom} {ts fs : List Atom}

/-- What follows the opener of a conditional with two arms. -/
theorem behaves_arms (hm : controlToken m.encoding = .else) (he : controlToken e.encoding = .endif)
    (ht : Behaves env (arms ++ [⟨pc, .then⟩]) ts) (hf : Behaves env (arms ++ [⟨pc, .else⟩]) fs)
    {main alt : Stack} {c : Bool} {conds : List Bool} {next : VM}
    {events : List (Atom × Option BranchArm)}
    (h : trail env (·.encoding) (ts ++ ([m] ++ (fs ++ [e]))) ⟨main, alt, c :: conds, false⟩ =
      some (next, events)) :
    (next.finished = false → next.conds = conds) ∧
      Enclosed (arms ++ [⟨pc, if c then .then else .else⟩]) events ∧
      (conds.all id = false → next = ⟨main, alt, conds, false⟩ ∧ events = []) := by
  obtain ⟨mid, first, second, hrest, rfl, henclosed, hfinished, hconds, hskip⟩ :=
    behaves_thenArm ht h
  cases hmid : mid.finished with
  | true =>
      -- the run ends in the first arm, which was taken then
      obtain ⟨rfl, rfl⟩ := hfinished hmid
      have htaken : c = true := by
        cases c with
        | true => rfl
        | false =>
            obtain ⟨rfl, -⟩ := hskip rfl
            exact Bool.noConfusion hmid
      subst htaken
      refine ⟨fun hnot => ?_, by simpa using henclosed, fun hx => ?_⟩
      · rw [hmid] at hnot
        exact Bool.noConfusion hnot
      · obtain ⟨rfl, -⟩ := hskip (by simp [VM.isCurrentlyExecuting_mk, hx])
        exact Bool.noConfusion hmid
  | false =>
      obtain ⟨main', alt', conds', finished'⟩ := mid
      obtain rfl : finished' = false := hmid
      obtain rfl : conds' = c :: conds := hconds rfl
      rw [trail_append, trail_else hm, Option.bind_some] at hrest
      obtain ⟨⟨last, third⟩, hlast, hrest⟩ := Option.map_eq_some_iff.mp hrest
      obtain ⟨rfl, rfl⟩ := Prod.mk.inj hrest
      obtain ⟨hconds', henclosed', hskip'⟩ := behaves_lastArm he hf hlast
      refine ⟨hconds', ?_, fun hx => ?_⟩
      · cases c with
        | true =>
            obtain ⟨-, rfl⟩ := hskip' (by simp)
            simpa using henclosed
        | false =>
            obtain ⟨-, rfl⟩ := hskip rfl
            simpa using henclosed'
      · obtain ⟨hvm, rfl⟩ := hskip (by simp [VM.isCurrentlyExecuting_mk, hx])
        obtain ⟨rfl, rfl⟩ := hskip' (by simp [hx])
        injection hvm with hmain halt
        rw [hmain, halt]
        exact ⟨rfl, rfl⟩

/-- A conditional behaves when what follows its opener does. -/
theorem behaves_opener (ho : controlToken o.encoding = .if ∨ controlToken o.encoding = .notif)
    (hpc : o.origins = [⟨pc, arms⟩]) {rest : List Atom}
    (hrest : ∀ {main alt : Stack} {c : Bool} {conds : List Bool} {next : VM}
      {events : List (Atom × Option BranchArm)},
      trail env (·.encoding) rest ⟨main, alt, c :: conds, false⟩ = some (next, events) →
        (next.finished = false → next.conds = conds) ∧
          Enclosed (arms ++ [⟨pc, if c then .then else .else⟩]) events ∧
          (conds.all id = false → next = ⟨main, alt, conds, false⟩ ∧ events = [])) :
    Behaves env arms ([o] ++ rest) := by
  rintro ⟨main, alt, conds, finished⟩ next events h
  cases finished with
  | true => exact behaves_of_finished rfl h
  | false =>
      rw [trail_append, trail_opener ho] at h
      cases hx : conds.all id with
      | false =>
          simp only [hx, Bool.false_eq_true, if_false, Option.bind_some, List.nil_append] at h
          obtain ⟨⟨last, later⟩, hlast, h⟩ := Option.map_eq_some_iff.mp h
          obtain ⟨rfl, rfl⟩ := Prod.mk.inj h
          obtain ⟨-, -, hskip⟩ := hrest hlast
          obtain ⟨rfl, rfl⟩ := hskip hx
          exact ⟨fun _ => rfl, enclosed_nil arms, fun _ => ⟨rfl, rfl⟩⟩
      | true =>
          cases main with
          | nil => simp [hx] at h
          | cons condition main =>
              simp only [hx, if_true, Option.bind_some] at h
              obtain ⟨⟨last, later⟩, hlast, h⟩ := Option.map_eq_some_iff.mp h
              obtain ⟨rfl, rfl⟩ := Prod.mk.inj h
              obtain ⟨hconds, henclosed, -⟩ := hrest hlast
              refine ⟨hconds, ?_, fun hnot => ?_⟩
              · refine Enclosed.append ?_ henclosed (.inr fun p hp => ?_)
                · intro before e after heq origin horigin p hp
                  rcases before with _ | ⟨_, before⟩
                  · obtain ⟨rfl, -⟩ := List.cons.inj heq
                    rw [hpc, List.mem_singleton] at horigin
                    exact .inl (by simpa [horigin] using hp)
                  · simp at heq
                · rw [List.mem_append, List.mem_singleton] at hp
                  refine hp.imp_right fun hp => ⟨_, List.mem_singleton.mpr rfl, ?_,
                    ⟨pc, arms⟩, by rw [hpc]; exact List.mem_singleton.mpr rfl, by rw [hp]⟩
                  rw [hp]
                  rfl
              · rw [VM.isCurrentlyExecuting_mk, hx] at hnot
                exact Bool.noConfusion hnot

theorem behaves_ifElse (ho : controlToken o.encoding = .if ∨ controlToken o.encoding = .notif)
    (hm : controlToken m.encoding = .else) (he : controlToken e.encoding = .endif)
    (hpc : o.origins = [⟨pc, arms⟩]) (ht : Behaves env (arms ++ [⟨pc, .then⟩]) ts)
    (hf : Behaves env (arms ++ [⟨pc, .else⟩]) fs) :
    Behaves env arms (o :: ts ++ m :: fs ++ [e]) := by
  have hlist : o :: ts ++ m :: fs ++ [e] = [o] ++ (ts ++ ([m] ++ (fs ++ [e]))) := by simp
  rw [hlist]
  exact behaves_opener ho hpc fun h => behaves_arms hm he ht hf h

theorem behaves_if (ho : controlToken o.encoding = .if ∨ controlToken o.encoding = .notif)
    (he : controlToken e.encoding = .endif) (hpc : o.origins = [⟨pc, arms⟩])
    (ht : Behaves env (arms ++ [⟨pc, .then⟩]) ts) :
    Behaves env arms (o :: ts ++ [e]) := by
  have hlist : o :: ts ++ [e] = [o] ++ (ts ++ [e]) := by simp
  rw [hlist]
  refine behaves_opener ho hpc ?_
  intro main alt c conds next events h
  obtain ⟨hconds, henclosed, hskip⟩ := behaves_lastArm he ht h
  refine ⟨hconds, ?_, fun hx => hskip (by simp [hx])⟩
  cases c with
  | true => exact henclosed
  | false =>
      obtain ⟨-, rfl⟩ := hskip rfl
      exact enclosed_nil _

end Conditional

mutual

theorem behaves_flattenNode (hbarrier : KeepsBranches env) : ∀ (n : Node)
    (arms : List BranchPredicate), WellFormed options n → Located arms n →
      Behaves env arms (flattenNode n)
  | .atom a, arms, h, hlocated => by
      unfold WellFormed at h
      exact behaves_atom hbarrier h.2 hlocated
  | .ifRegion o t m f e, arms, h, hlocated => by
      unfold WellFormed at h
      obtain ⟨ho, he, ht, hf, hm⟩ := h
      obtain ⟨pc, hpc, hlt, -, hlf, -⟩ := hlocated
      have hthen := behaves_flatten hbarrier t _ ht hlt
      have helse := behaves_flatten hbarrier f _ hf hlf
      cases m with
      | none =>
          rw [flattenNode_if]
          exact behaves_if ho he hpc hthen
      | some m =>
          rw [flattenNode_ifElse]
          exact behaves_ifElse ho hm he hpc hthen helse

/-- **The arms of an instruction that is executed have been taken before it.** -/
theorem behaves_flatten (hbarrier : KeepsBranches env) : ∀ (ns : List Node)
    (arms : List BranchPredicate), WellFormedSequence options ns → LocatedSequence arms ns →
      Behaves env arms (flatten ns)
  | [], arms, _, _ => behaves_nil arms
  | n :: ns, arms, h, hlocated => by
      rw [flatten_cons]
      exact (behaves_flattenNode hbarrier n arms h.1 hlocated.1).append
        (behaves_flatten hbarrier ns arms h.2 hlocated.2)

end

/-! ### Records in opposite arms -/

/-- The two records lie in opposite arms of a conditional. -/
def Opposite (o o' : InstructionOriginRef) : Prop :=
  ∃ p ∈ o.path, ∃ q ∈ o'.path, p.ifPC = q.ifPC ∧ p.arm ≠ q.arm

/-- Every two records of an atom lie in opposite arms of a conditional. -/
def Apart (a : Atom) : Prop := ∀ o ∈ a.origins, ∀ o' ∈ a.origins, o ≠ o' → Opposite o o'

/-- Every record of an atom lies in the given arms. -/
def Inside (arms : List BranchPredicate) (a : Atom) : Prop := ∀ o ∈ a.origins, arms ⊆ o.path

theorem inside_mergeOriginsAtom {k d : Atom} (hk : Inside arms k)
    (hd : Inside arms d) : Inside arms (mergeOriginsAtom k d) := by
  intro o ho
  exact (mem_origins_mergeOriginsAtom.mp ho).elim (hk o) (hd o)

theorem LocatedAtom.inside {a : Atom} (h : LocatedAtom arms a) : Inside arms a := by
  obtain ⟨pc, hpc⟩ := h
  intro o ho
  rw [hpc, List.mem_singleton] at ho
  rw [ho]
  exact List.Subset.refl _

theorem LocatedAtom.apart {a : Atom} (h : LocatedAtom arms a) : Apart a := by
  obtain ⟨pc, hpc⟩ := h
  intro o ho o' ho' hne
  rw [hpc, List.mem_singleton] at ho ho'
  exact absurd (ho.trans ho'.symm) hne

theorem Inside.of_append {arms : List BranchPredicate} {p : BranchPredicate} {a : Atom}
    (h : Inside (arms ++ [p]) a) : Inside arms a :=
  fun o ho _ hq => h o ho (List.mem_append_left _ hq)

mutual

theorem inside_flattenNode : ∀ (n : Node) (arms : List BranchPredicate), Located arms n →
    ∀ a ∈ flattenNode n, Inside arms a
  | .atom a, arms, h => by
      intro b hb
      obtain rfl := List.mem_singleton.mp hb
      exact LocatedAtom.inside h
  | .ifRegion o t m f e, arms, h => by
      obtain ⟨pc, hpc, ht, hm, hf, he⟩ := h
      have hopener : LocatedAtom arms o := ⟨pc, hpc⟩
      intro a ha
      cases m with
      | none =>
          rw [flattenNode_if] at ha
          simp only [List.cons_append, List.mem_cons, List.mem_append, List.not_mem_nil,
            or_false] at ha
          rcases ha with rfl | ha | rfl
          · exact hopener.inside
          · exact (inside_flatten t _ ht a ha).of_append
          · exact he.inside
      | some m =>
          rw [flattenNode_ifElse] at ha
          simp only [List.cons_append, List.append_assoc, List.mem_cons, List.mem_append,
            List.not_mem_nil, or_false] at ha
          rcases ha with rfl | ha | rfl | ha | rfl
          · exact hopener.inside
          · exact (inside_flatten t _ ht a ha).of_append
          · exact (hm a rfl).inside
          · exact (inside_flatten f _ hf a ha).of_append
          · exact he.inside

theorem inside_flatten : ∀ (ns : List Node) (arms : List BranchPredicate),
    LocatedSequence arms ns → ∀ a ∈ flatten ns, Inside arms a
  | [], _, _ => by simp
  | n :: ns, arms, h => by
      intro a ha
      rw [flatten_cons, List.mem_append] at ha
      exact ha.elim (inside_flattenNode n arms h.1 a) (inside_flatten ns arms h.2 a)

end

/-- A tail that both arms end with merges records of opposite arms. -/
theorem apart_zipWith_mergeOriginsAtom {pc : ℕ} {ts fs : List Atom}
    (h : List.Forall₂ (fun a b => equivalentAtom a b = true) ts fs)
    (ht : ∀ a ∈ ts, Apart a ∧ Inside (arms ++ [⟨pc, .then⟩]) a)
    (hf : ∀ a ∈ fs, Apart a ∧ Inside (arms ++ [⟨pc, .else⟩]) a) :
    ∀ a ∈ List.zipWith mergeOriginsAtom ts fs, Apart a := by
  induction h with
  | nil => simp
  | @cons k d ts fs _ _ ih =>
      intro a ha
      rw [List.zipWith_cons_cons, List.mem_cons] at ha
      rcases ha with rfl | ha
      · obtain ⟨hapartk, hinsidek⟩ := ht k List.mem_cons_self
        obtain ⟨hapartd, hinsided⟩ := hf d List.mem_cons_self
        have hthen : ∀ o ∈ k.origins, (⟨pc, .then⟩ : BranchPredicate) ∈ o.path :=
          fun o ho => hinsidek o ho (by simp)
        have helse : ∀ o ∈ d.origins, (⟨pc, .else⟩ : BranchPredicate) ∈ o.path :=
          fun o ho => hinsided o ho (by simp)
        intro o ho o' ho' hne
        rcases mem_origins_mergeOriginsAtom.mp ho with ho | ho <;>
          rcases mem_origins_mergeOriginsAtom.mp ho' with ho' | ho'
        · exact hapartk o ho o' ho' hne
        · exact ⟨_, hthen o ho, _, helse o' ho', rfl, by simp⟩
        · exact ⟨_, helse o ho, _, hthen o' ho', rfl, by simp⟩
        · exact hapartd o ho o' ho' hne
      · exact ih (fun a ha => ht a (List.mem_cons_of_mem _ ha))
          (fun a ha => hf a (List.mem_cons_of_mem _ ha)) a ha

mutual

theorem apart_optimizeNode : ∀ (n : Node) (c : Counters) (arms : List BranchPredicate),
    Located arms n → ∀ a ∈ flatten (optimizeNode n c).1, Apart a
  | .atom a, c, arms, h => by
      intro b hb
      obtain rfl : b = a := by simpa [optimizeNode, flattenNode] using hb
      exact LocatedAtom.apart h
  | .ifRegion o t none f e, c, arms, h => by
      obtain ⟨pc, hpc, ht, -, -, he⟩ := h
      have hopener : LocatedAtom arms o := ⟨pc, hpc⟩
      intro a ha
      rw [flatten_optimizeNode_if] at ha
      simp only [List.cons_append, List.mem_cons, List.mem_append, List.not_mem_nil,
        or_false] at ha
      rcases ha with rfl | ha | rfl
      · exact hopener.apart
      · exact apart_optimizeSequence t c _ ht a ha
      · exact he.apart
  | .ifRegion o t (some m) f e, c, arms, h => by
      obtain ⟨pc, hpc, ht, hm, hf, he⟩ := h
      have hopener : LocatedAtom arms o := ⟨pc, hpc⟩
      have hapartt := apart_optimizeSequence t c _ ht
      have hapartf := apart_optimizeSequence f (optimizeSequence t c).2 _ hf
      have hinsidet := forall_optimizeSequence (fun _ _ hk hd _ => inside_mergeOriginsAtom hk hd)
        t c (inside_flatten t _ ht)
      have hinsidef := forall_optimizeSequence (fun _ _ hk hd _ => inside_mergeOriginsAtom hk hd)
        f (optimizeSequence t c).2 (inside_flatten f _ hf)
      obtain ⟨as, bs, ts, fs, hts, hfs, heq, hflat⟩ := flatten_optimizeNode_ifElse o m e t f c
      rw [hts] at hapartt hinsidet
      rw [hfs] at hapartf hinsidef
      have htail := apart_zipWith_mergeOriginsAtom heq
        (fun a ha => ⟨hapartt a (List.mem_append_right _ ha),
          hinsidet a (List.mem_append_right _ ha)⟩)
        (fun a ha => ⟨hapartf a (List.mem_append_right _ ha),
          hinsidef a (List.mem_append_right _ ha)⟩)
      intro a ha
      rw [hflat] at ha
      simp only [List.cons_append, List.append_assoc, List.mem_cons, List.mem_append,
        List.not_mem_nil, false_or] at ha
      rcases ha with rfl | ha | rfl | ha | rfl | ha
      · exact hopener.apart
      · exact hapartt a (List.mem_append_left _ ha)
      · exact (hm a rfl).apart
      · exact hapartf a (List.mem_append_left _ ha)
      · exact he.apart
      · exact htail a ha

/-- **Every two records of an atom of the optimised tree lie in opposite arms of a conditional.** -/
theorem apart_optimizeSequence : ∀ (ns : List Node) (c : Counters) (arms : List BranchPredicate),
    LocatedSequence arms ns → ∀ a ∈ flatten (optimizeSequence ns c).1, Apart a
  | [], _, _, _ => by simp [optimizeSequence]
  | n :: ns, c, arms, h => by
      intro a ha
      rw [flatten_optimizeSequence_cons, List.mem_append] at ha
      exact ha.elim (apart_optimizeNode n c arms h.1 a)
        (apart_optimizeSequence ns (optimizeNode n c).2 arms h.2 a)

end

end AtomicProof.IfTail

namespace AtomicProof.ApcDebug

/-! ### The origin that the debugger takes -/

/-- `BranchTrace`: the arm taken at the place of each conditional that was executed. -/
abbrev BranchTrace := PCMap BranchArm

/-- The test of the loop in `resolveOrigin`: an arm of the origin was not taken. -/
def conflicts (branchTrace : BranchTrace) (origin : SourceOrigin) : Bool :=
  origin.path.any fun predicate => branchTrace[predicate.region]? != some predicate.arm

/-- The step of the loop in `resolveOrigin`.  An origin without a conflict matches in all of its
path, so the number of matches is the length of it. -/
def betterOrigin (branchTrace : BranchTrace) (best : Option (SourceOrigin × ℕ × ℕ))
    (origin : SourceOrigin) : Option (SourceOrigin × ℕ × ℕ) :=
  if conflicts branchTrace origin then best
  else
    let found := (origin, origin.path.length, origin.path.length)
    match best with
    | none => some found
    | some (_, bestMatches, bestSpecificity) =>
        if bestMatches < origin.path.length ∨
            (origin.path.length = bestMatches ∧ bestSpecificity < origin.path.length) then
          some found
        else best

def DebugInfo.resolveOrigin (info : DebugInfo) (pc : ℕ) (branchTrace : BranchTrace) :
    Option SourceOrigin :=
  match info.instructions[pc]? with
  | none => none
  | some instruction =>
      if branchTrace.isEmpty then instruction.origins.head?
      else (instruction.origins.foldl (betterOrigin branchTrace) none).map (·.1)

theorem foldl_betterOrigin {branchTrace : BranchTrace} {origin : SourceOrigin}
    {origins : List SourceOrigin}
    (hunique : ∀ other ∈ origins, conflicts branchTrace other = false → other = origin)
    {best : Option (SourceOrigin × ℕ × ℕ)} (hbest : ∀ found ∈ best, found.1 = origin) :
    (∀ found ∈ origins.foldl (betterOrigin branchTrace) best, found.1 = origin) ∧
      (best.isSome = true ∨ (∃ other ∈ origins, conflicts branchTrace other = false) →
        (origins.foldl (betterOrigin branchTrace) best).isSome = true) := by
  induction origins generalizing best with
  | nil => exact ⟨hbest, fun h => h.resolve_right (by simp)⟩
  | cons first origins ih =>
      have hstep : ∀ found ∈ betterOrigin branchTrace best first, found.1 = origin := by
        intro found hfound
        unfold betterOrigin at hfound
        split_ifs at hfound with hconflict
        · exact hbest found hfound
        · rw [Bool.not_eq_true] at hconflict
          have hfirst := hunique first List.mem_cons_self hconflict
          cases best with
          | none =>
              obtain rfl := Option.some.inj hfound
              exact hfirst
          | some b =>
              dsimp only at hfound
              split_ifs at hfound
              · obtain rfl := Option.some.inj hfound
                exact hfirst
              · exact hbest found hfound
      obtain ⟨hall, hsome⟩ :=
        ih (fun other hother => hunique other (List.mem_cons_of_mem _ hother)) hstep
      refine ⟨hall, fun h => hsome ?_⟩
      have hkept : best.isSome = true ∨ conflicts branchTrace first = false →
          (betterOrigin branchTrace best first).isSome = true := by
        intro hor
        unfold betterOrigin
        split_ifs with hconflict
        · exact hor.resolve_right (by simp [hconflict])
        · cases best with
          | none => rfl
          | some b =>
              dsimp only
              split_ifs <;> rfl
      rcases h with h | ⟨other, hother, hfree⟩
      · exact .inl (hkept (.inl h))
      · rcases List.mem_cons.mp hother with rfl | hother
        · exact .inl (hkept (.inr hfree))
        · exact .inr ⟨other, hother, hfree⟩

/-- **The origin that the debugger takes** is the only one whose arms were taken, when there is one
and, before any conditional, no other origin at all. -/
theorem DebugInfo.resolveOrigin_eq {info : DebugInfo} {pc : ℕ} {branchTrace : BranchTrace}
    {origin : SourceOrigin} (horigin : origin ∈ originsAt info.instructions pc)
    (htaken : conflicts branchTrace origin = false)
    (hunique : ∀ other ∈ originsAt info.instructions pc,
      branchTrace.isEmpty = true ∨ conflicts branchTrace other = false → other = origin) :
    info.resolveOrigin pc branchTrace = some origin := by
  unfold originsAt at horigin hunique
  unfold DebugInfo.resolveOrigin
  cases hinstruction : info.instructions[pc]? with
  | none => simp [hinstruction] at horigin
  | some instruction =>
      simp only [hinstruction, Option.map_some, Option.getD_some] at horigin hunique
      cases hempty : branchTrace.isEmpty with
      | true =>
          simp only [if_true]
          cases horigins : instruction.origins with
          | nil => simp [horigins] at horigin
          | cons first rest =>
              rw [List.head?_cons, hunique first (by simp [horigins]) (.inl hempty)]
      | false =>
          simp only [Bool.false_eq_true, if_false]
          obtain ⟨hall, hsome⟩ := @foldl_betterOrigin branchTrace origin instruction.origins
            (fun other hother hfree => hunique other hother (.inr hfree)) none (by simp)
          obtain ⟨found, hfound⟩ := Option.isSome_iff_exists.mp
            (hsome (.inr ⟨origin, horigin, htaken⟩))
          rw [hfound, Option.map_some, hall found hfound]

/-- The origins of a place behind a remap with a table. -/
theorem DebugInfo.mem_origins_of_remapped {info result : DebugInfo} {oldToNew : List (Option ℕ)}
    {count : ℕ} {table : List (List OriginRewriteRef)}
    (h : info.remapped oldToNew count table = some result) {newPC : ℕ}
    {references : List OriginRewriteRef} (hget : table[newPC]? = some references)
    {origin : SourceOrigin} :
    origin ∈ originsAt result.instructions newPC ↔ ∃ reference ∈ references,
      ∃ original ∈ info.getOriginsForPC reference.oldPC,
        origin = referredOrigin oldToNew reference original := by
  unfold DebugInfo.remapped at h
  split_ifs at h
  obtain ⟨candidate, -, h⟩ := Option.bind_eq_some_iff.mp h
  obtain ⟨rewritten, hrewritten, h⟩ := Option.bind_eq_some_iff.mp h
  split_ifs at h
  obtain rfl := Option.some.inj h
  have horigins := (rewritten_of_foldlM hrewritten).origins newPC references hget origin
  rwa [Nat.zero_add] at horigins

theorem mergePath_subset {additional all destination : List BranchPredicate}
    (hall : (all.map (·.region)).Nodup) (hsub : additional ⊆ all) (hdest : destination ⊆ all) :
    mergePath destination additional ⊆ all ∧ destination ⊆ mergePath destination additional ∧
      additional ⊆ mergePath destination additional := by
  induction additional generalizing destination with
  | nil => exact ⟨hdest, List.Subset.refl _, List.nil_subset _⟩
  | cons predicate additional ih =>
      have hmem := hsub List.mem_cons_self
      have hrest : additional ⊆ all := fun p hp => hsub (List.mem_cons_of_mem _ hp)
      -- a region that is there already is there with the same arm
      have hsame : ∀ p ∈ destination, p.region = predicate.region → p = predicate := by
        intro p hp hregion
        exact List.inj_on_of_nodup_map hall (hdest hp) hmem hregion
      have hstep : ∃ next, mergePath destination (predicate :: additional) =
          mergePath next additional ∧ next ⊆ all ∧ destination ⊆ next ∧ predicate ∈ next := by
        by_cases hany : destination.any (·.region == predicate.region) = true
        · refine ⟨destination, ?_, hdest, List.Subset.refl _, ?_⟩
          · have hmap : (destination.map fun item =>
                if item.region = predicate.region then { item with arm := predicate.arm }
                else item) = destination := by
              refine (List.map_congr_left fun item hitem => ?_).trans (List.map_id _)
              split_ifs with hregion
              · rw [hsame item hitem hregion]
                rfl
              · rfl
            rw [mergePath, List.foldl_cons, if_pos hany, hmap]
            rfl
          · obtain ⟨p, hp, hregion⟩ := List.any_eq_true.mp hany
            rwa [← hsame p hp (beq_iff_eq.mp hregion)]
        · refine ⟨destination ++ [predicate], ?_, ?_, List.subset_append_left _ _, by simp⟩
          · rw [mergePath, List.foldl_cons, if_neg hany]
            rfl
          · intro p hp
            rw [List.mem_append, List.mem_singleton] at hp
            exact hp.elim (fun hp => hdest hp) fun hp => hp ▸ hmem
      obtain ⟨next, heq, hnext, hdestination, hpredicate⟩ := hstep
      obtain ⟨h1, h2, h3⟩ := ih hrest hnext
      rw [heq]
      refine ⟨h1, fun p hp => h2 (hdestination hp), fun p hp => ?_⟩
      rcases List.mem_cons.mp hp with rfl | hp
      · exact h2 hpredicate
      · exact h3 hp

end AtomicProof.ApcDebug

namespace AtomicProof.IfTail

variable {env : ScriptEnv} {options : StructuredIfTailOptions}

/-! ### Stepping through a script -/

open ApcDebug (BranchTrace)

/-- The arm of a conditional, as the debug information has it. -/
def toArm : BranchArm → ApcDebug.BranchArm
  | .then => .thenArm
  | .else => .elseArm

theorem toArm_injective {arm arm' : BranchArm} (h : toArm arm = toArm arm') : arm = arm' := by
  cases arm <;> cases arm' <;> first | rfl | exact ApcDebug.BranchArm.noConfusion h

/-- The opcode that the machine dispatches on, when it knows it. -/
def knownOpcode (text : String) : Option BytOpcode :=
  (completeInstruction text).bind fun instr => BytOpcode.ofByte? instr.opcode

/-- What `op_if` and `op_notif` record at the place `pc`, where the machine executes. -/
def recordArm (pc : ℕ) (text : String) (vm : VM) (branchTrace : BranchTrace) : BranchTrace :=
  if vm.isCurrentlyExecuting then
    match knownOpcode text, vm.main with
    | some .opIf, condition :: _ =>
        branchTrace.insert pc (if VM.condTrue condition then .thenArm else .elseArm)
    | some .opNotif, condition :: _ =>
        branchTrace.insert pc (if VM.condTrue condition then .elseArm else .thenArm)
    | _, _ => branchTrace
  else branchTrace

/-- The machine executes an instruction that is no conditional. -/
def executesPlain (text : String) (vm : VM) : Bool :=
  vm.isCurrentlyExecuting &&
    match knownOpcode text with
    | some op => !isConditional op
    | none => true

/-- The places of the instructions that are executed, apart from the conditionals, with the arms
taken before each of them; `none` when the run fails. -/
def stepping (env : ScriptEnv) :
    ℕ → List String → VM → BranchTrace → Option (List (ℕ × BranchTrace))
  | _, [], _, _ => some []
  | pc, text :: rest, vm, branchTrace =>
      if vm.finished then some []
      else (execAtom env text vm).toOption.bind fun next =>
        (stepping env (pc + 1) rest next (recordArm pc text vm branchTrace)).map fun steps =>
          if executesPlain text vm then (pc, branchTrace) :: steps else steps

/-- An arm that an event shows is recorded. -/
def addArm (branchTrace : BranchTrace) (e : ℕ × Option BranchArm) : BranchTrace :=
  match e.2 with
  | some arm => branchTrace.insert e.1 (toArm arm)
  | none => branchTrace

/-- What the events show to a debugger, as `stepping` has it. -/
def logOf : BranchTrace → List (ℕ × Option BranchArm) → List (ℕ × BranchTrace)
  | _, [] => []
  | branchTrace, (pc, none) :: events => (pc, branchTrace) :: logOf branchTrace events
  | branchTrace, (pc, some arm) :: events => logOf (branchTrace.insert pc (toArm arm)) events

theorem knownOpcode_of_controlToken {text : String} {op : BytOpcode}
    (h : (controlToken text).opcode = some op) : knownOpcode text = some op := by
  rw [knownOpcode, completeInstruction_of_controlToken h, Option.bind_some,
    BytOpcode.ofByte?_toByte]

theorem isConditional_of_knownOpcode {text : String} {op : BytOpcode}
    (h : controlToken text = .none) (hop : knownOpcode text = some op) :
    isConditional op = false := by
  obtain ⟨⟨opcode, operand⟩, hinstr, hbyte⟩ := Option.bind_eq_some_iff.mp hop
  obtain rfl := BytOpcode.toByte_of_ofByte? hbyte
  exact not_isConditional_of_controlToken h hinstr

/-- An event is what the machine records and executes. -/
theorem step_of_eventOf (pc : ℕ) (text : String) (vm : VM) (branchTrace : BranchTrace) :
    recordArm pc text vm branchTrace =
        ((eventOf text vm).map fun arm => addArm branchTrace (pc, arm)).getD branchTrace ∧
      executesPlain text vm = decide (eventOf text vm = some none) := by
  unfold recordArm executesPlain eventOf
  cases hx : vm.isCurrentlyExecuting with
  | false => simp
  | true =>
      simp only [if_true, Bool.true_and]
      cases htoken : controlToken text with
      | none =>
          cases hop : knownOpcode text with
          | none => simp [addArm]
          | some op =>
              have hcond := isConditional_of_knownOpcode htoken hop
              refine ⟨?_, by simp [hcond]⟩
              cases op <;> first | rfl | exact Bool.noConfusion hcond
      | «if» =>
          have hop : knownOpcode text = some .opIf :=
            knownOpcode_of_controlToken (by rw [htoken]; rfl)
          rw [hop]
          cases vm.main with
          | nil => simp [isConditional]
          | cons condition main =>
              refine ⟨?_, rfl⟩
              cases hc : VM.condTrue condition <;> simp [addArm, takenArm, toArm, hc]
      | notif =>
          have hop : knownOpcode text = some .opNotif :=
            knownOpcode_of_controlToken (by rw [htoken]; rfl)
          rw [hop]
          cases vm.main with
          | nil => simp [isConditional]
          | cons condition main =>
              refine ⟨?_, rfl⟩
              cases hc : VM.condTrue condition <;> simp [addArm, takenArm, toArm, hc]
      | «else» =>
          have hop : knownOpcode text = some .opElse :=
            knownOpcode_of_controlToken (by rw [htoken]; rfl)
          rw [hop]
          simp [isConditional]
      | endif =>
          have hop : knownOpcode text = some .opEndif :=
            knownOpcode_of_controlToken (by rw [htoken]; rfl)
          rw [hop]
          simp [isConditional]

/-- **Stepping shows the events of the atoms.** -/
theorem stepping_eq_logOf (atoms : List Atom) (pc : ℕ) (vm : VM) (branchTrace : BranchTrace) :
    stepping env pc (atoms.map (·.encoding)) vm branchTrace =
      (trail env (fun x : Atom × ℕ => x.1.encoding) (atoms.zipIdx pc) vm).map fun p =>
        logOf branchTrace (p.2.map fun e => (e.1.2, e.2)) := by
  induction atoms generalizing pc vm branchTrace with
  | nil => rfl
  | cons a atoms ih =>
      rw [List.map_cons, stepping, List.zipIdx_cons]
      by_cases hf : vm.finished = true
      · rw [if_pos hf, trail_of_finished hf]
        rfl
      · rw [if_neg hf]
        rw [Bool.not_eq_true] at hf
        rw [trail_cons hf]
        obtain ⟨hrecord, hplain⟩ := step_of_eventOf pc a.encoding vm branchTrace
        cases (execAtom env a.encoding vm).toOption with
        | none => rfl
        | some next =>
            rw [Option.bind_some, Option.bind_some, ih, Option.map_map, Option.map_map, hrecord,
              hplain]
            congr 1
            funext p
            cases hevent : eventOf a.encoding vm with
            | none => simp
            | some event => cases event <;> simp [logOf, addArm]

/-- The arms that events show, at their places. -/
def traceOf (events : List (ℕ × Option BranchArm)) : BranchTrace := events.foldl addArm ∅

/-- An arm that is shown once is found at its place. -/
theorem getElem?_traceOf {events : List (ℕ × Option BranchArm)}
    (hnodup : (events.map Prod.fst).Nodup) {pc : ℕ} {arm : BranchArm}
    (h : (pc, some arm) ∈ events) : (traceOf events)[pc]? = some (toArm arm) := by
  have hother : ∀ (events : List (ℕ × Option BranchArm)) (start : BranchTrace),
      pc ∉ events.map Prod.fst → (events.foldl addArm start)[pc]? = start[pc]? := by
    intro events
    induction events with
    | nil => exact fun _ _ => rfl
    | cons e events ih =>
        intro start hnot
        rw [List.map_cons, List.mem_cons, not_or] at hnot
        rw [List.foldl_cons, ih _ hnot.2]
        unfold addArm
        split
        · rw [Std.ExtTreeMap.getElem?_insert, if_neg]
          rw [Std.LawfulEqCmp.compare_eq_iff_eq]
          exact fun heq => hnot.1 heq.symm
        · rfl
  have hgeneral : ∀ (events : List (ℕ × Option BranchArm)) (start : BranchTrace),
      (events.map Prod.fst).Nodup → (pc, some arm) ∈ events →
        (events.foldl addArm start)[pc]? = some (toArm arm) := by
    intro events
    induction events with
    | nil => exact fun _ _ hmem => absurd hmem List.not_mem_nil
    | cons e events ih =>
        intro start hnodup hmem
        rw [List.map_cons, List.nodup_cons] at hnodup
        rw [List.foldl_cons]
        rcases List.mem_cons.mp hmem with rfl | hmem
        · rw [hother events _ hnodup.1, addArm, Std.ExtTreeMap.getElem?_insert_self]
        · exact ih _ hnodup.2 hmem
  exact hgeneral events ∅ hnodup h

/-- Two rows of related events show related steps, when every two related events do. -/
theorem forall₂_logOf {α β : Type} {S : α → β → Prop} {f : α → ℕ × Option BranchArm}
    {g : β → ℕ × Option BranchArm} {R : ℕ × BranchTrace → ℕ × BranchTrace → Prop}
    (hS : ∀ a b, S a b → (f a).2 = (g b).2) (done : List α) (done' : List β)
    (hdone : List.Forall₂ S done done') {es : List α} {es' : List β} (h : List.Forall₂ S es es')
    (hR : ∀ before e after before' e' after', done ++ es = before ++ e :: after →
      done' ++ es' = before' ++ e' :: after' → List.Forall₂ S before before' → S e e' →
        (f e).2 = none →
          R ((f e).1, traceOf (before.map f)) ((g e').1, traceOf (before'.map g))) :
    List.Forall₂ R (logOf (traceOf (done.map f)) (es.map f))
      (logOf (traceOf (done'.map g)) (es'.map g)) := by
  induction h generalizing done done' with
  | nil => exact .nil
  | @cons e e' es es' he _ ih =>
      have hsame := hS e e' he
      have hnext := ih (done ++ [e]) (done' ++ [e']) (List.rel_append hdone (.cons he .nil)) (by simpa using hR)
      rw [List.map_append, List.map_append] at hnext
      cases hf : f e with
      | mk pc arm =>
          cases hg : g e' with
          | mk pc' arm' =>
              rw [hf, hg] at hsame
              obtain rfl : arm = arm' := hsame
              rw [List.map_cons, List.map_cons, hf, hg]
              have hstep : ∀ (events : List (ℕ × Option BranchArm)) (x : ℕ × Option BranchArm),
                  traceOf (events ++ [x]) = addArm (traceOf events) x := by
                intro events x
                rw [traceOf, List.foldl_append]
                rfl
              rw [List.map_singleton, List.map_singleton, hstep, hstep, hf, hg] at hnext
              cases arm with
              | none =>
                  refine .cons ?_ hnext
                  have hrelated := hR done e es done' e' es' rfl rfl hdone he (by rw [hf])
                  rwa [hf, hg] at hrelated
              | some arm => exact hnext

/-! ### The steps of the optimised script -/

/-- An arm at its place, as the debug information has it. -/
def toPredicate (p : BranchPredicate) : ApcDebug.BranchPredicate := ⟨p.ifPC, toArm p.arm⟩

/-- A record of a plan, as the remap of the debug information takes it. -/
def toReference (o : InstructionOriginRef) : ApcDebug.OriginRewriteRef :=
  ⟨o.oldPC, o.path.map toPredicate⟩

/-- Every instruction of the script has its own origin, which names it and has no arms but those
that enclose it. -/
def OwnOrigins (info : ApcDebug.DebugInfo) (instructions : List String) : Prop :=
  ∀ pc arms, (enclosingArms 0 [] instructions)[pc]? = some arms →
    ∃ origin, info.getOriginsForPC pc = [origin] ∧
      (origin.originalPC = none ∨ origin.originalPC = some pc) ∧
      origin.path ⊆ arms.map toPredicate

theorem getElem?_locate {instructions : List String} {pc : ℕ} {arms : List BranchPredicate} {i : ℕ}
    {a : Atom} (h : (locate options pc arms instructions)[i]? = some a) :
    ∃ own, (enclosingArms pc arms instructions)[i]? = some own ∧ a.origins = [⟨pc + i, own⟩] := by
  induction instructions generalizing pc arms i with
  | nil => simp [locate] at h
  | cons s rest ih =>
      cases i with
      | zero =>
          obtain rfl := Option.some.inj h
          exact ⟨_, rfl, rfl⟩
      | succ i =>
          obtain ⟨own, hown, horigins⟩ := ih h
          rw [Nat.add_assoc, Nat.add_comm 1] at horigins
          exact ⟨own, hown, horigins⟩

namespace RewriteOf

variable {instructions : List String} {atoms : List Atom} (h : RewriteOf instructions atoms)
  {info result : ApcDebug.DebugInfo}

include h

/-- The origin of a record in the remapped debug information. -/
theorem referred (hown : OwnOrigins info instructions) {o : InstructionOriginRef}
    (ho : o ∈ originsOf atoms) :
    ∃ original, info.getOriginsForPC o.oldPC = [original] ∧
      (ApcDebug.referredOrigin (planOf instructions atoms).oldToNew
        (toReference (renumberOrigin (planOf instructions atoms).oldToNew o)) original).originalPC =
          some o.oldPC ∧
      ∀ p, p ∈ (ApcDebug.referredOrigin (planOf instructions atoms).oldToNew
          (toReference (renumberOrigin (planOf instructions atoms).oldToNew o)) original).path ↔
        ∃ q ∈ o.path, toPredicate (renumber (planOf instructions atoms).oldToNew q) = p := by
  obtain ⟨original, horiginal, hpc, hpath⟩ :=
    hown o.oldPC o.path (mem_recordedOrigins.mp (h.perm.mem_iff.mp ho))
  refine ⟨original, horiginal, ?_, fun p => ?_⟩
  · rcases hpc with hpc | hpc <;> simp [ApcDebug.referredOrigin, toReference, renumberOrigin, hpc]
  · have hregions : (((o.path.map (renumber (planOf instructions atoms).oldToNew)).map
        toPredicate).map (·.region)).Nodup := by
      rw [List.map_map]
      exact of_decide_eq_true (h.distinctRegions_eq ho)
    have hmoved : (original.path.map fun predicate => { predicate with
          region := (((planOf instructions atoms).oldToNew[predicate.region]?).join).getD
            predicate.region }) ⊆
        (o.path.map (renumber (planOf instructions atoms).oldToNew)).map toPredicate := by
      intro p' hp'
      obtain ⟨p, hp, rfl⟩ := List.mem_map.mp hp'
      obtain ⟨q, hq, rfl⟩ := List.mem_map.mp (hpath hp)
      obtain ⟨s, i, a, -, -, hi, -, -⟩ := h.opener ho hq
      refine List.mem_map.mpr ⟨_, List.mem_map_of_mem hq, ?_⟩
      simp [toPredicate, renumber, hi]
    obtain ⟨hsub, -, hall⟩ := ApcDebug.mergePath_subset hregions (List.Subset.refl _) hmoved
    have hiff : p ∈ (ApcDebug.referredOrigin (planOf instructions atoms).oldToNew
          (toReference (renumberOrigin (planOf instructions atoms).oldToNew o)) original).path ↔
        p ∈ (o.path.map (renumber (planOf instructions atoms).oldToNew)).map toPredicate :=
      ⟨fun hp => hsub hp, fun hp => hall hp⟩
    rw [hiff, List.map_map, List.mem_map]
    rfl

omit h in
/-- The origins of a new place are those of the records of its atom. -/
theorem mem_origins (hremap : info.remapped (planOf instructions atoms).oldToNew atoms.length
      ((renumberedPlan instructions atoms).newToOld.map (·.map toReference)) = some result)
    {i : ℕ} {a : Atom} (hi : atoms[i]? = some a) {origin : ApcDebug.SourceOrigin} :
    origin ∈ ApcDebug.originsAt result.instructions i ↔
      ∃ o ∈ a.origins, ∃ original ∈ info.getOriginsForPC o.oldPC,
        origin = ApcDebug.referredOrigin (planOf instructions atoms).oldToNew
          (toReference (renumberOrigin (planOf instructions atoms).oldToNew o)) original := by
  have hget : ((renumberedPlan instructions atoms).newToOld.map (·.map toReference))[i]? =
      some ((sortOrigins (a.origins.map
        (renumberOrigin (planOf instructions atoms).oldToNew))).map toReference) := by
    rw [List.getElem?_map, renumberedPlan, List.getElem?_map, hi]
    rfl
  rw [ApcDebug.DebugInfo.mem_origins_of_remapped hremap hget]
  simp only [List.mem_map, (perm_sortOrigins _).mem_iff, exists_exists_and_eq_and]
  rfl

/-- **The debugger takes the origin of the record whose arms were taken.** -/
theorem resolveOrigin (hown : OwnOrigins info instructions)
    (hremap : info.remapped (planOf instructions atoms).oldToNew atoms.length
      ((renumberedPlan instructions atoms).newToOld.map (·.map toReference)) = some result)
    {i : ℕ} {a : Atom} (hi : atoms[i]? = some a) (hapart : Apart a) {o : InstructionOriginRef}
    (ho : o ∈ a.origins) {branchTrace : BranchTrace}
    (htaken : ∀ p ∈ o.path, branchTrace[(renumber (planOf instructions atoms).oldToNew p).ifPC]? =
      some (toArm p.arm)) :
    ∃ original origin, info.getOriginsForPC o.oldPC = [original] ∧
      result.resolveOrigin i branchTrace = some origin ∧ origin.originalPC = some o.oldPC ∧
      origin.location = original.location ∧
      ∀ p ∈ origin.path, branchTrace[p.region]? = some p.arm := by
  have hmem : ∀ o ∈ a.origins, o ∈ originsOf atoms := fun o ho =>
    List.mem_flatMap.mpr ⟨a, List.mem_of_getElem? hi, ho⟩
  obtain ⟨original, horiginal, hpc, hpath⟩ := h.referred hown (hmem o ho)
  have hfree : ∀ p ∈ (ApcDebug.referredOrigin (planOf instructions atoms).oldToNew
      (toReference (renumberOrigin (planOf instructions atoms).oldToNew o)) original).path,
      branchTrace[p.region]? = some p.arm := by
    intro p hp
    obtain ⟨q, hq, rfl⟩ := (hpath p).mp hp
    exact htaken q hq
  refine ⟨original, _, horiginal, ApcDebug.DebugInfo.resolveOrigin_eq ?_ ?_ ?_, hpc, rfl, hfree⟩
  · exact (mem_origins hremap hi).mpr
      ⟨o, ho, original, by rw [horiginal]; exact List.mem_singleton.mpr rfl, rfl⟩
  · rw [ApcDebug.conflicts, List.any_eq_false]
    intro p hp
    simp [hfree p hp]
  · intro other hother hcompatible
    obtain ⟨o', ho', original', horiginal', rfl⟩ := (mem_origins hremap hi).mp hother
    by_cases heq : o' = o
    · subst heq
      rw [horiginal, List.mem_singleton] at horiginal'
      rw [horiginal']
    -- the other record lies in an arm that was not taken
    · exfalso
      obtain ⟨p, hp, q, hq, hregion, harm⟩ := hapart o ho o' ho' (Ne.symm heq)
      have hp' := htaken p hp
      obtain ⟨original'', horiginal'', -, hpath'⟩ := h.referred hown (hmem o' ho')
      rw [horiginal'', List.mem_singleton] at horiginal'
      subst horiginal'
      have hsame : (renumber (planOf instructions atoms).oldToNew q).ifPC =
          (renumber (planOf instructions atoms).oldToNew p).ifPC := by
        rw [renumber, renumber, hregion]
      rcases hcompatible with hempty | hcompatible
      · rw [Std.ExtTreeMap.isEmpty_iff.mp hempty] at hp'
        simp at hp'
      · rw [ApcDebug.conflicts, List.any_eq_false] at hcompatible
        have hq' := hcompatible _ ((hpath' _).mpr ⟨q, hq, rfl⟩)
        rw [bne_iff_ne, ne_eq, not_not] at hq'
        have hother : branchTrace[(renumber (planOf instructions atoms).oldToNew p).ifPC]? =
            some (toArm q.arm) := by
          rw [← hsame]
          exact hq'
        exact harm (toArm_injective (Option.some.inj (hp'.symm.trans hother)))

end RewriteOf

theorem getElem?_of_mem_zipIdx {atoms : List Atom} {x : Atom × ℕ} (h : x ∈ atoms.zipIdx) :
    atoms[x.2]? = some x.1 :=
  List.mem_zipIdx_iff_getElem?.mp h

theorem trail_zipIdx (env : ScriptEnv) (atoms : List Atom) (vm : VM) :
    trail env (·.encoding) atoms vm =
      (trail env (fun x : Atom × ℕ => x.1.encoding) atoms.zipIdx vm).map fun p =>
        (p.1, p.2.map fun e => (e.1.1, e.2)) := by
  have hmap := @trail_map env Atom (Atom × ℕ) (fun a => a.encoding) Prod.fst atoms.zipIdx vm
  rwa [List.zipIdx_map_fst] at hmap

/-- **Stepping through the optimised script shows the old instructions in their order**: when the
rewrite plan is applied to debug information in which every old instruction has its own origin, each
step resolves to the origin of the instruction that the script would have executed, and all arms of
that origin were taken. -/
theorem stepping_optimize {instructions : List String} (hatoms : ∀ s ∈ instructions, IsAtom s)
    (hbalanced : Balanced instructions) (hknown : KnownLabels env options)
    (hbarrier : KeepsBranches env) {info result : ApcDebug.DebugInfo}
    (hown : OwnOrigins info instructions)
    (hremap : info.remapped (optimize instructions options).rewritePlan.oldToNew
      (optimize instructions options).instructions.length
      ((optimize instructions options).rewritePlan.newToOld.map (·.map toReference)) = some result)
    {vm : VM} {steps : List (ℕ × BranchTrace)}
    (hrun : stepping env 0 instructions vm ∅ = some steps) :
    ∃ steps', stepping env 0 (optimize instructions options).instructions vm ∅ = some steps' ∧
      List.Forall₂ (fun step step' => ∃ original origin,
        info.getOriginsForPC step.1 = [original] ∧
        result.resolveOrigin step'.1 step'.2 = some origin ∧
        origin.originalPC = some step.1 ∧ origin.location = original.location ∧
        ∀ p ∈ origin.path, step'.2[p.region]? = some p.arm) steps steps' := by
  obtain ⟨nodes, hparse⟩ := parse_complete options hbalanced
  obtain ⟨hcode, hwf⟩ := parse_sound hatoms hparse
  obtain ⟨hnew, hplan, -⟩ := optimize_of_parse hparse
  have hrewrite := rewriteOf_optimizeSequence hparse {}
  have hlocated := parse_located hparse
  have hapart := apart_optimizeSequence nodes {} [] hlocated
  rw [hplan, hnew, code, List.length_map] at hremap
  rw [hnew]
  generalize hatoms' : flatten (optimizeSequence nodes {}).1 = atoms at *
  -- the two runs show related events
  rw [← hcode, code, stepping_eq_logOf] at hrun
  obtain ⟨⟨next, events⟩, hevents, rfl⟩ := Option.map_eq_some_iff.mp hrun
  have htrail := trail_zipIdx env (flatten nodes) vm
  rw [hevents, Option.map_some] at htrail
  obtain ⟨-, henclosed, -⟩ := behaves_flatten hbarrier nodes [] hwf hlocated vm _ _ htrail
  obtain ⟨shown, hshown, hmore⟩ := shows_optimizeSequence hknown nodes {} hwf vm _ _ htrail
  rw [hatoms', trail_zipIdx] at hshown
  obtain ⟨⟨next', events'⟩, hevents', heq⟩ := Option.map_eq_some_iff.mp hshown
  obtain ⟨rfl, rfl⟩ := Prod.mk.inj heq
  rw [List.forall₂_map_left_iff, List.forall₂_map_right_iff] at hmore
  have hsub := sublist_of_trail hevents
  have hsub' := sublist_of_trail hevents'
  refine ⟨logOf ∅ (events'.map fun e => (e.1.2, e.2)), ?_, ?_⟩
  · rw [code, hatoms', stepping_eq_logOf, hevents']
    rfl
  · refine forall₂_logOf (fun a b hab => hab.2) [] [] .nil hmore ?_
    intro before e after before' e' after' hsplit hsplit' hbefore he hnone
    replace hsplit : events = before ++ e :: after := hsplit
    replace hsplit' : events' = before' ++ e' :: after' := hsplit'
    obtain ⟨⟨a, i⟩, arm⟩ := e
    obtain ⟨⟨a', i'⟩, arm'⟩ := e'
    -- the record of the old instruction is one of the atom that is executed
    have hi : (flatten nodes)[i]? = some a :=
      getElem?_of_mem_zipIdx (hsub.subset (List.mem_map.mpr ⟨((a, i), arm), by simp [hsplit], rfl⟩))
    have hi' : atoms[i']? = some a' :=
      getElem?_of_mem_zipIdx
        (hsub'.subset (List.mem_map.mpr ⟨((a', i'), arm'), by simp [hsplit'], rfl⟩))
    rw [parse_locate hparse] at hi
    obtain ⟨own, hown', horigins⟩ := getElem?_locate hi
    rw [Nat.zero_add] at horigins
    have hrecord : (⟨i, own⟩ : InstructionOriginRef) ∈ a'.origins :=
      he.1 (by rw [horigins]; exact List.mem_singleton.mpr rfl)
    refine hrewrite.resolveOrigin hown hremap hi' (hapart a' (List.mem_of_getElem? hi')) hrecord ?_
    intro p hp
    -- its arms have been taken, at the places to which their conditionals have moved
    have hrecorded := henclosed (before.map fun e => (e.1.1, e.2)) (a, arm)
      (after.map fun e => (e.1.1, e.2)) (by rw [hsplit]; simp) ⟨i, own⟩
      (by rw [horigins]; exact List.mem_singleton.mpr rfl) p hp
    obtain ⟨x, hx, hxarm, o, ho, hopc⟩ := hrecorded.resolve_left List.not_mem_nil
    obtain ⟨y, hy, rfl⟩ := List.mem_map.mp hx
    obtain ⟨k, hk⟩ := List.mem_iff_getElem?.mp hy
    obtain ⟨y', hk', hrelated⟩ : ∃ y', before'[k]? = some y' ∧ MoreRecords (y.1.1, y.2)
        (y'.1.1, y'.2) := by
      have hlt := (List.getElem?_eq_some_iff.mp hk).1
      have hlt' : k < before'.length := hbefore.length_eq ▸ hlt
      have hget := List.Forall₂.get hbefore hlt hlt'
      refine ⟨_, List.getElem?_eq_getElem hlt', ?_⟩
      have hky : before[k] = y := (List.getElem?_eq_some_iff.mp hk).2
      rw [← hky]
      exact hget
    have hy' := List.mem_of_getElem? hk'
    have hplace : atoms[y'.1.2]? = some y'.1.1 :=
      getElem?_of_mem_zipIdx (hsub'.subset (List.mem_map.mpr ⟨y', by simp [hsplit', hy'], rfl⟩))
    have hmoved := hrewrite.place hplace (hrelated.1 ho)
    rw [hopc] at hmoved
    have hnodup : ((before'.map fun e => (e.1.2, e.2)).map Prod.fst).Nodup := by
      have hplaces : (atoms.zipIdx.map Prod.snd).Nodup := by
        rw [List.zipIdx_map_snd]
        exact List.nodup_range'
      refine hplaces.sublist ?_
      rw [List.map_map]
      have hstart : before'.Sublist events' := by
        rw [hsplit']
        exact List.sublist_append_left _ _
      have hcomp := (hstart.map Prod.fst).trans hsub'
      have hboth := hcomp.map Prod.snd
      rwa [List.map_map] at hboth
    have hnew' : (renumber (planOf instructions atoms).oldToNew p).ifPC = y'.1.2 := by
      simp [renumber, hmoved]
    rw [hnew']
    refine getElem?_traceOf hnodup (List.mem_map.mpr ⟨y', hy', ?_⟩)
    rw [← hrelated.2]
    exact Prod.ext rfl hxarm

/-- A conditional whose arms are the same instruction. -/
def sharedTail : List String := ["63", "51", "67", "51", "68"]

/-- The origin of an instruction of `sharedTail`, on a line of its own. -/
def sharedTailOrigin (pc : ℕ) : ApcDebug.SourceOrigin :=
  { location := { filename := "a.ct", line := pc + 1 }, originalPC := some pc }

/-- Debug information with these origins. -/
def sharedTailInfo : ApcDebug.DebugInfo :=
  { ApcDebug.DebugInfo.oneInstruction with
    instructions := sharedTail.zipIdx.foldl
      (fun map (p : String × ℕ) => map.insert p.2
        { pc := p.2, opcode := p.1, location := (sharedTailOrigin p.2).location
          origins := [sharedTailOrigin p.2] }) ∅ }

/-- On a true condition the one instruction that is left behind the conditional resolves to the
instruction of the first arm. -/
theorem stepping_optimize_sharedTail :
    ∃ result step origin, stepping .plain 0 ["63", "67", "68", "51"] ⟨[[1]], [], [], false⟩ ∅ =
        some [step] ∧
      sharedTailInfo.remapped (optimize sharedTail ⟨[]⟩).rewritePlan.oldToNew
        (optimize sharedTail ⟨[]⟩).instructions.length
        ((optimize sharedTail ⟨[]⟩).rewritePlan.newToOld.map (·.map toReference)) = some result ∧
      result.resolveOrigin step.1 step.2 = some origin ∧ origin.originalPC = some 1 := by
  have hbalanced : Balanced sharedTail :=
    .ifElse (t := ["51"]) (f := ["51"]) (.inl (by decide)) (by decide) (by decide)
      (.atom (by decide) .nil) (.atom (by decide) .nil) .nil
  have horigins : ∀ pc < 5, sharedTailInfo.getOriginsForPC pc = [sharedTailOrigin pc] := by
    decide +kernel
  have hown : OwnOrigins sharedTailInfo sharedTail := by
    intro pc arms harms
    have hlt : pc < 5 := by
      have hlength := (List.getElem?_eq_some_iff.mp harms).1
      rwa [length_enclosingArms] at hlength
    exact ⟨_, horigins pc hlt, .inr rfl, List.nil_subset _⟩
  have hsome : (sharedTailInfo.remapped (optimize sharedTail ⟨[]⟩).rewritePlan.oldToNew
      (optimize sharedTail ⟨[]⟩).instructions.length
      ((optimize sharedTail ⟨[]⟩).rewritePlan.newToOld.map (·.map toReference))).isSome = true := by
    decide +kernel
  obtain ⟨result, hremap⟩ := Option.isSome_iff_exists.mp hsome
  have hknown : KnownLabels .plain ⟨[]⟩ := fun label hlabel => absurd hlabel List.not_mem_nil
  have hbarrier : KeepsBranches .plain := by
    intro text vm next hnext
    obtain rfl := Except.ok.inj hnext
    exact ⟨rfl, fun _ => rfl⟩
  have hrun : stepping .plain 0 sharedTail ⟨[[1]], [], [], false⟩ ∅ =
      some [(1, (∅ : BranchTrace).insert 0 .thenArm)] := rfl
  obtain ⟨steps', hsteps, hrelated⟩ := stepping_optimize (by decide) hbalanced hknown hbarrier hown
    hremap hrun
  have hcode : (optimize sharedTail ⟨[]⟩).instructions = ["63", "67", "68", "51"] := by decide
  rw [hcode] at hsteps
  cases hrelated with
  | cons hstep hnil =>
      cases hnil
      obtain ⟨-, origin, -, hresolve, hpc, -⟩ := hstep
      exact ⟨result, _, origin, hsteps, hremap, hresolve, hpc⟩

end AtomicProof.IfTail
