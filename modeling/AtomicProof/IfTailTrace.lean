/-
What a debugger sees of a script and of the optimised one.

A debugger that steps through a script sees the atoms that are executed, and at each conditional the
arm that is taken.  Moving the common tail of two arms behind the conditional changes neither the
atoms that are seen nor their order: the tail that is seen behind the conditional is the one that
the arm taken would have shown.

Main definitions:

* `IfTail.eventOf`, `IfTail.trail` — what an atom and a row of atoms show;
* `IfTail.TrailEffect` — rows that do and show one function of the two stacks;
* `IfTail.Shows` — a row that shows what another one shows, with more records.

Main results:

* `IfTail.trailEffect_flatten` — sequences that are safe to move are such rows;
* `IfTail.shows_optimizeSequence` — **the optimised tree shows what the tree shows**.
-/

import AtomicProof.IfTailNormal

set_option autoImplicit false

namespace AtomicProof.IfTail

variable {env : ScriptEnv} {options : StructuredIfTailOptions}

/-! ### What an atom shows -/

/-- The arm that a conditional takes on an element. -/
def takenArm (negated : Bool) (condition : Bytes) : BranchArm :=
  if VM.condTrue condition ^^ negated then .then else .else

/-- What an atom shows before it runs: nothing in a branch that is not taken and at the markers of a
conditional, the arm at an opener, and itself elsewhere. -/
def eventOf (text : String) (vm : VM) : Option (Option BranchArm) :=
  if vm.isCurrentlyExecuting then
    match controlToken text with
    | .none => some none
    | .if => vm.main.head?.map fun condition => some (takenArm false condition)
    | .notif => vm.main.head?.map fun condition => some (takenArm true condition)
    | .else | .endif => none
  else none

section Trail

variable {α β : Type}

/-- What the atoms of a row show, and the machine behind them; `none` when the run fails. -/
def trail (env : ScriptEnv) (text : α → String) :
    List α → VM → Option (VM × List (α × Option BranchArm))
  | [], vm => some (vm, [])
  | a :: rest, vm =>
      if vm.finished then some (vm, [])
      else (execAtom env (text a) vm).toOption.bind fun next =>
        (trail env text rest next).map fun p =>
          (p.1, ((eventOf (text a) vm).map (a, ·)).toList ++ p.2)

variable {text : α → String}

@[simp] theorem trail_nil (vm : VM) : trail env text [] vm = some (vm, []) := rfl

theorem trail_of_finished {vm : VM} (h : vm.finished = true) (xs : List α) :
    trail env text xs vm = some (vm, []) := by
  cases xs with
  | nil => rfl
  | cons a rest => rw [trail, if_pos h]

theorem trail_cons {vm : VM} (h : vm.finished = false) (a : α) (rest : List α) :
    trail env text (a :: rest) vm = (execAtom env (text a) vm).toOption.bind fun next =>
      (trail env text rest next).map fun p =>
        (p.1, ((eventOf (text a) vm).map (a, ·)).toList ++ p.2) := by
  rw [trail, if_neg (by simp [h])]

theorem trail_singleton {vm : VM} (h : vm.finished = false) (a : α) :
    trail env text [a] vm = (execAtom env (text a) vm).toOption.map fun next =>
      (next, ((eventOf (text a) vm).map (a, ·)).toList) := by
  rw [trail_cons h]
  cases (execAtom env (text a) vm).toOption with
  | none => rfl
  | some next => simp

/-- **What a row shows in two parts.** -/
theorem trail_append (xs ys : List α) (vm : VM) :
    trail env text (xs ++ ys) vm = (trail env text xs vm).bind fun p =>
      (trail env text ys p.1).map fun q => (q.1, p.2 ++ q.2) := by
  induction xs generalizing vm with
  | nil => simp
  | cons a rest ih =>
      by_cases h : vm.finished = true
      · rw [trail_of_finished h, trail_of_finished h, Option.bind_some, trail_of_finished h]
        rfl
      · rw [Bool.not_eq_true] at h
        rw [List.cons_append, trail_cons h, trail_cons h]
        cases (execAtom env (text a) vm).toOption with
        | none => rfl
        | some next =>
            rw [Option.bind_some, Option.bind_some, ih]
            cases trail env text rest next with
            | none => rfl
            | some p =>
                rw [Option.bind_some, Option.map_map, Option.map_some, Option.bind_some]
                simp [Function.comp_def]

/-- A row of relabelled atoms shows the same, relabelled. -/
theorem trail_map (f : β → α) (xs : List β) (vm : VM) :
    trail env text (xs.map f) vm =
      (trail env (fun b => text (f b)) xs vm).map fun p => (p.1, p.2.map fun e => (f e.1, e.2)) := by
  induction xs generalizing vm with
  | nil => rfl
  | cons b rest ih =>
      by_cases h : vm.finished = true
      · rw [trail_of_finished h, trail_of_finished h]
        rfl
      · rw [Bool.not_eq_true] at h
        rw [List.map_cons, trail_cons h, trail_cons h]
        cases (execAtom env (text (f b)) vm).toOption with
        | none => rfl
        | some next =>
            rw [Option.bind_some, Option.bind_some, ih, Option.map_map, Option.map_map]
            congr 1
            funext p
            cases eventOf (text (f b)) vm <;> rfl

/-- What a row shows, shows its atoms in their order. -/
theorem sublist_of_trail {xs : List α} {vm next : VM} {events : List (α × Option BranchArm)}
    (h : trail env text xs vm = some (next, events)) : (events.map Prod.fst).Sublist xs := by
  induction xs generalizing vm events with
  | nil =>
      obtain ⟨-, rfl⟩ := Prod.mk.inj (Option.some.inj h)
      exact List.Sublist.refl _
  | cons a rest ih =>
      by_cases hf : vm.finished = true
      · rw [trail_of_finished hf] at h
        obtain ⟨-, rfl⟩ := Prod.mk.inj (Option.some.inj h)
        exact List.nil_sublist _
      · rw [Bool.not_eq_true] at hf
        rw [trail_cons hf] at h
        obtain ⟨mid, -, h⟩ := Option.bind_eq_some_iff.mp h
        obtain ⟨⟨last, later⟩, hp, h⟩ := Option.map_eq_some_iff.mp h
        obtain ⟨rfl, rfl⟩ := Prod.mk.inj h
        have hrest := ih hp
        cases eventOf (text a) vm with
        | none => exact hrest.cons a
        | some arm => exact hrest.cons_cons a

end Trail

/-- What an event of one row shows is shown by an event of another, with more records. -/
def MoreRecords (e e' : Atom × Option BranchArm) : Prop :=
  e.1.origins ⊆ e'.1.origins ∧ e.2 = e'.2

/-- The trails of two rows, when the second one does what the first one does and shows what it
shows. -/
def ShownBy (p q : Option (VM × List (Atom × Option BranchArm))) : Prop :=
  ∀ vm events, p = some (vm, events) →
    ∃ events', q = some (vm, events') ∧ List.Forall₂ MoreRecords events events'

/-- The second row does what the first one does and shows what it shows, from every machine. -/
def Shows (env : ScriptEnv) (xs ys : List Atom) : Prop :=
  ∀ vm, ShownBy (trail env (·.encoding) xs vm) (trail env (·.encoding) ys vm)

theorem MoreRecords.refl (e : Atom × Option BranchArm) : MoreRecords e e :=
  ⟨List.Subset.refl _, rfl⟩

theorem shows_refl (xs : List Atom) : Shows env xs xs := by
  intro vm next events h
  exact ⟨events, h, List.forall₂_same.mpr fun e _ => MoreRecords.refl e⟩

theorem Shows.trans {xs ys zs : List Atom} (h : Shows env xs ys) (h' : Shows env ys zs) :
    Shows env xs zs := by
  intro vm next events hx
  obtain ⟨events', hy, hmore⟩ := h vm next events hx
  obtain ⟨events'', hz, hmore'⟩ := h' vm next events' hy
  refine ⟨events'', hz, ?_⟩
  clear hx hy hz
  induction hmore generalizing events'' with
  | nil => cases hmore'; exact .nil
  | cons he _ ih =>
      cases hmore' with
      | cons he' hrest =>
          exact .cons ⟨fun o ho => he'.1 (he.1 ho), he.2.trans he'.2⟩ (ih _ hrest)

theorem Shows.append {xs ys xs' ys' : List Atom} (h : Shows env xs ys) (h' : Shows env xs' ys') :
    Shows env (xs ++ xs') (ys ++ ys') := by
  intro vm next events hx
  rw [trail_append] at hx
  obtain ⟨⟨mid, first⟩, hfirst, hx⟩ := Option.bind_eq_some_iff.mp hx
  obtain ⟨⟨last, second⟩, hsecond, hx⟩ := Option.map_eq_some_iff.mp hx
  obtain ⟨rfl, rfl⟩ := Prod.mk.inj hx
  obtain ⟨first', hfirst', hmore⟩ := h vm mid first hfirst
  obtain ⟨second', hsecond', hmore'⟩ := h' mid last second hsecond
  refine ⟨first' ++ second', ?_, List.rel_append hmore hmore'⟩
  rw [trail_append, hfirst', Option.bind_some, hsecond']
  rfl

/-! ### Rows with equivalent atoms -/

theorem eventOf_congr {s s' : String} (h : controlToken s = controlToken s') (vm : VM) :
    eventOf s vm = eventOf s' vm := by
  rw [eventOf, eventOf, h]

/-- Rows of atoms that run alike, the second one with more records. -/
def Alike (env : ScriptEnv) : List Atom → List Atom → Prop :=
  List.Forall₂ fun a b => SameAtom env a.encoding b.encoding ∧
    controlToken a.encoding = controlToken b.encoding ∧ a.origins ⊆ b.origins

theorem Alike.shows {xs ys : List Atom} (h : Alike env xs ys) : Shows env xs ys := by
  intro vm
  induction h generalizing vm with
  | nil => exact shows_refl [] vm
  | @cons a b xs ys hab _ ih =>
      obtain ⟨hsame, htoken, horigins⟩ := hab
      by_cases hf : vm.finished = true
      · rw [trail_of_finished hf, trail_of_finished hf]
        exact fun next events h => ⟨events, h, List.forall₂_same.mpr fun e _ => MoreRecords.refl e⟩
      · rw [Bool.not_eq_true] at hf
        intro last events hx
        rw [trail_cons hf] at hx
        obtain ⟨next, hnext, hx⟩ := Option.bind_eq_some_iff.mp hx
        obtain ⟨⟨last', later⟩, hlater, hx⟩ := Option.map_eq_some_iff.mp hx
        obtain ⟨rfl, rfl⟩ := Prod.mk.inj hx
        obtain ⟨later', hlater', hmore⟩ := ih next last' later hlater
        refine ⟨((eventOf b.encoding vm).map (b, ·)).toList ++ later', ?_, ?_⟩
        · rw [trail_cons hf, ← hsame vm, hnext, Option.bind_some, hlater']
          rfl
        · refine List.rel_append ?_ hmore
          rw [eventOf_congr htoken]
          cases eventOf b.encoding vm with
          | none => exact .nil
          | some arm => exact .cons ⟨horigins, rfl⟩ .nil

/-- The atoms of a merged tail run like those of the two tails. -/
theorem alike_zipWith_mergeOriginsAtom (env : ScriptEnv) {ts fs : List Atom}
    (h : List.Forall₂ (fun a b => equivalentAtom a b = true) ts fs)
    (hatoms : ∀ a ∈ ts, IsAtom a.encoding) :
    Alike env ts (List.zipWith mergeOriginsAtom ts fs) ∧
      Alike env fs (List.zipWith mergeOriginsAtom ts fs) := by
  induction h with
  | nil => exact ⟨.nil, .nil⟩
  | @cons k d ts fs hkd _ ih =>
      obtain ⟨hts, hfs⟩ := ih fun a ha => hatoms a (List.mem_cons_of_mem _ ha)
      have hsame := sameAtom_of_equivalentAtom env (hatoms k List.mem_cons_self) hkd
      refine ⟨.cons ⟨fun vm => rfl, rfl, fun o ho => ?_⟩ hts,
        .cons ⟨fun vm => (hsame vm).symm, (controlToken_of_equivalentAtom hkd).symm,
          fun o ho => ?_⟩ hfs⟩
      · exact mem_origins_mergeOriginsAtom.mpr (.inl ho)
      · exact mem_origins_mergeOriginsAtom.mpr (.inr ho)

/-! ### Rows that show one function of the two stacks -/

/-- What a row that may move does to the two stacks and shows. -/
abbrev StackTrail := Stack → Stack → Option ((Stack × Stack) × List (Atom × Option BranchArm))

/-- A row that is skipped in a branch that is not taken, and that elsewhere does and shows one
function of the two stacks. -/
def TrailEffect (env : ScriptEnv) (xs : List Atom) (g : StackTrail) : Prop :=
  ∀ main alt conds, trail env (·.encoding) xs ⟨main, alt, conds, false⟩ =
    if conds.all id then (g main alt).map fun r => (⟨r.1.1, r.1.2, conds, false⟩, r.2)
    else some (⟨main, alt, conds, false⟩, [])

def StackTrail.andThen (g h : StackTrail) : StackTrail :=
  fun main alt => (g main alt).bind fun r =>
    (h r.1.1 r.1.2).map fun r' => (r'.1, r.2 ++ r'.2)

/-- A conditional over two such functions. -/
def StackTrail.branch (opener : Atom) (negated : Bool) (ga gb : StackTrail) : StackTrail
  | [], _ => none
  | condition :: main, alt =>
      ((if VM.condTrue condition ^^ negated then ga main alt else gb main alt)).map fun r =>
        (r.1, (opener, some (takenArm negated condition)) :: r.2)

theorem trailEffect_nil : TrailEffect env [] fun main alt => some ((main, alt), []) := by
  intro main alt conds
  cases conds.all id <;> rfl

theorem TrailEffect.append {xs ys : List Atom} {g h : StackTrail} (hg : TrailEffect env xs g)
    (hh : TrailEffect env ys h) : TrailEffect env (xs ++ ys) (g.andThen h) := by
  intro main alt conds
  rw [trail_append, hg, StackTrail.andThen]
  by_cases hx : conds.all id = true
  · rw [if_pos hx, if_pos hx]
    cases hres : g main alt with
    | none => rfl
    | some r =>
        rw [Option.map_some, Option.bind_some, Option.bind_some, hh, if_pos hx, Option.map_map,
          Option.map_map]
        rfl
  · rw [if_neg hx, if_neg hx, Option.bind_some, hh, if_neg hx]
    rfl

theorem trailEffect_atom {a : Atom} {g : Stack → Stack → Option (Stack × Stack)}
    (htoken : controlToken a.encoding = .none) (hg : StackEffect env [a.encoding] g) :
    TrailEffect env [a] fun main alt => (g main alt).map (·, [(a, none)]) := by
  intro main alt conds
  have heffect := hg main alt conds
  rw [final_singleton rfl] at heffect
  rw [trail_singleton rfl, heffect, eventOf, VM.isCurrentlyExecuting_mk, htoken]
  by_cases hx : conds.all id = true
  · rw [if_pos hx, if_pos hx, if_pos hx, Option.map_map, Option.map_map]
    rfl
  · rw [if_neg hx, if_neg hx, if_neg hx]
    rfl

section Branches

variable {o m e : Atom} {as bs : List Atom} {ga gb : StackTrail}

theorem trail_else {main alt : Stack} {c : Bool} {conds : List Bool}
    (hm : controlToken m.encoding = .else) :
    trail env (·.encoding) [m] ⟨main, alt, c :: conds, false⟩ =
      some (⟨main, alt, (conds.all id && !c) :: conds, false⟩, []) := by
  have hfinal := @final_else env m.encoding main alt c conds hm
  rw [final_singleton rfl] at hfinal
  rw [trail_singleton rfl, hfinal, eventOf, hm]
  split <;> rfl

theorem trail_endif {main alt : Stack} {c : Bool} {conds : List Bool}
    (he : controlToken e.encoding = .endif) :
    trail env (·.encoding) [e] ⟨main, alt, c :: conds, false⟩ =
      some (⟨main, alt, conds, false⟩, []) := by
  have hfinal := @final_endif env e.encoding main alt c conds he
  rw [final_singleton rfl] at hfinal
  rw [trail_singleton rfl, hfinal, eventOf, he]
  split <;> rfl

theorem trail_opener {main alt : Stack} {conds : List Bool}
    (ho : controlToken o.encoding = .if ∨ controlToken o.encoding = .notif) :
    trail env (·.encoding) [o] ⟨main, alt, conds, false⟩ =
      if conds.all id then
        match main with
        | [] => none
        | condition :: main =>
            some (⟨main, alt,
                (VM.condTrue condition ^^ (controlToken o.encoding = .notif)) :: conds, false⟩,
              [(o, some (takenArm (controlToken o.encoding = .notif) condition))])
      else some (⟨main, alt, false :: conds, false⟩, []) := by
  have hfinal := @final_opener env o.encoding main alt conds ho
  rw [final_singleton rfl] at hfinal
  rw [trail_singleton rfl, hfinal, eventOf, VM.isCurrentlyExecuting_mk]
  by_cases hx : conds.all id = true
  · rw [if_pos hx, if_pos hx, if_pos hx]
    cases main with
    | nil => rfl
    | cons condition main => rcases ho with ho | ho <;> rw [ho] <;> rfl
  · rw [if_neg hx, if_neg hx, if_neg hx]
    rfl

/-- What the rest of a conditional after its opener shows. -/
theorem trail_arms (hm : controlToken m.encoding = .else) (he : controlToken e.encoding = .endif)
    (ha : TrailEffect env as ga) (hb : TrailEffect env bs gb) (main alt : Stack) (c : Bool)
    (conds : List Bool) :
    trail env (·.encoding) (as ++ ([m] ++ (bs ++ [e]))) ⟨main, alt, c :: conds, false⟩ =
      if conds.all id then
        ((if c then ga else gb) main alt).map fun r => (⟨r.1.1, r.1.2, conds, false⟩, r.2)
      else some (⟨main, alt, conds, false⟩, []) := by
  cases hx : conds.all id with
  | false =>
      -- neither arm is taken
      have hskip : ∀ d : Bool, ¬ ((d :: conds).all id = true) := fun d => by simp [hx]
      rw [trail_append, ha, if_neg (hskip c), Option.bind_some, trail_append, trail_else hm,
        Option.bind_some, trail_append, hb, if_neg (hskip _), Option.bind_some, trail_endif he]
      rfl
  | true =>
      cases c with
      | true =>
          have htaken : (true :: conds).all id = true := by simp [hx]
          rw [trail_append, ha, if_pos htaken]
          cases hres : ga main alt with
          | none => simp [hres]
          | some p =>
              have hskip : ¬ (((conds.all id && !true) :: conds).all id = true) := by simp
              rw [Option.map_some, Option.bind_some, trail_append, trail_else hm,
                Option.bind_some, trail_append, hb, if_neg hskip, Option.bind_some,
                trail_endif he]
              simp [hres]
      | false =>
          have hskip : ¬ ((false :: conds).all id = true) := by simp
          have htaken : ((conds.all id && !false) :: conds).all id = true := by simp [hx]
          rw [trail_append, ha, if_neg hskip, Option.bind_some, trail_append, trail_else hm,
            Option.bind_some, trail_append, hb, if_pos htaken]
          cases hres : gb main alt with
          | none => simp [hres]
          | some p =>
              rw [Option.map_some, Option.bind_some, trail_endif he]
              simp [hres]

/-- A conditional with two such arms is such a row. -/
theorem trailEffect_ifElse (ho : controlToken o.encoding = .if ∨ controlToken o.encoding = .notif)
    (hm : controlToken m.encoding = .else) (he : controlToken e.encoding = .endif)
    (ha : TrailEffect env as ga) (hb : TrailEffect env bs gb) :
    TrailEffect env (o :: as ++ m :: bs ++ [e])
      (StackTrail.branch o (controlToken o.encoding = .notif) ga gb) := by
  intro main alt conds
  have hlist : o :: as ++ m :: bs ++ [e] = [o] ++ (as ++ ([m] ++ (bs ++ [e]))) := by simp
  rw [hlist, trail_append, trail_opener ho]
  cases hx : conds.all id with
  | false =>
      have harms := trail_arms hm he ha hb main alt false conds
      simp only [hx, Bool.false_eq_true, if_false] at harms ⊢
      rw [Option.bind_some, harms]
      rfl
  | true =>
      cases main with
      | nil => rfl
      | cons condition main =>
          have harms := trail_arms hm he ha hb main alt
            (VM.condTrue condition ^^ (controlToken o.encoding = .notif)) conds
          simp only [hx, if_true] at harms ⊢
          rw [Option.bind_some, harms, Option.map_map, StackTrail.branch, Option.map_map]
          split <;> rfl

/-- So is a conditional without a second arm. -/
theorem trailEffect_if (ho : controlToken o.encoding = .if ∨ controlToken o.encoding = .notif)
    (he : controlToken e.encoding = .endif) (ha : TrailEffect env as ga) :
    TrailEffect env (o :: as ++ [e])
      (StackTrail.branch o (controlToken o.encoding = .notif) ga
        fun main alt => some ((main, alt), [])) := by
  intro main alt conds
  have harm : ∀ (main : Stack) (c : Bool),
      trail env (·.encoding) (as ++ [e]) ⟨main, alt, c :: conds, false⟩ =
        if conds.all id then
          ((if c then ga else fun main alt => some ((main, alt), [])) main alt).map fun r =>
            (⟨r.1.1, r.1.2, conds, false⟩, r.2)
        else some (⟨main, alt, conds, false⟩, []) := by
    intro main c
    rw [trail_append, ha]
    cases hx : conds.all id <;> cases c <;>
      simp only [List.all_cons, id_eq, hx, Bool.and_true, Bool.and_false, Bool.false_eq_true,
        if_true, if_false, Option.bind_some, trail_endif he, Option.map_some, List.append_nil]
    cases ga main alt with
    | none => rfl
    | some r => simp [trail_endif he]
  have hlist : o :: as ++ [e] = [o] ++ (as ++ [e]) := by simp
  rw [hlist, trail_append, trail_opener ho]
  cases hx : conds.all id with
  | false =>
      have hskip := harm main false
      simp only [hx, Bool.false_eq_true, if_false] at hskip ⊢
      rw [Option.bind_some, hskip]
      rfl
  | true =>
      cases main with
      | nil => rfl
      | cons condition main =>
          have hrun := harm main (VM.condTrue condition ^^ (controlToken o.encoding = .notif))
          simp only [hx, if_true] at hrun ⊢
          rw [Option.bind_some, hrun, Option.map_map, StackTrail.branch, Option.map_map]
          split <;> rfl

end Branches

theorem flattenNode_ifElse (o m e : Atom) (t f : List Node) :
    flattenNode (.ifRegion o t (some m) f e) = o :: flatten t ++ m :: flatten f ++ [e] := by
  simp [flattenNode]

theorem flattenNode_if (o e : Atom) (t f : List Node) :
    flattenNode (.ifRegion o t none f e) = o :: flatten t ++ [e] := by
  simp [flattenNode]

mutual

/-- A node that is safe to move does and shows one function of the two stacks. -/
theorem trailEffect_flattenNode (hknown : KnownLabels env options) : ∀ n : Node,
    WellFormed options n → extractionSafe n = true → ∃ g, TrailEffect env (flattenNode n) g
  | .atom a, h, hsafe => by
      unfold WellFormed at h
      obtain ⟨g, hg⟩ := stackEffect_atom h.1 h.2 (by simpa [extractionSafe] using hsafe) hknown
      exact ⟨_, trailEffect_atom h.2 hg⟩
  | .ifRegion o t m f e, h, hsafe => by
      unfold WellFormed at h
      obtain ⟨ho, he, ht, hf, hm⟩ := h
      unfold extractionSafe at hsafe
      simp only [Bool.and_eq_true] at hsafe
      obtain ⟨ga, ha⟩ := trailEffect_flatten hknown t ht hsafe.1.2
      obtain ⟨gb, hb⟩ := trailEffect_flatten hknown f hf hsafe.2
      cases m with
      | none => exact ⟨_, flattenNode_if o e t f ▸ trailEffect_if ho he ha⟩
      | some m => exact ⟨_, flattenNode_ifElse o m e t f ▸ trailEffect_ifElse ho hm he ha hb⟩

/-- **A sequence that is safe to move does and shows one function of the two stacks.** -/
theorem trailEffect_flatten (hknown : KnownLabels env options) : ∀ nodes : List Node,
    WellFormedSequence options nodes → extractionSafeSequence nodes = true →
      ∃ g, TrailEffect env (flatten nodes) g
  | [], _, _ => ⟨_, trailEffect_nil⟩
  | node :: rest, h, hsafe => by
      unfold WellFormedSequence at h
      unfold extractionSafeSequence at hsafe
      rw [Bool.and_eq_true] at hsafe
      obtain ⟨g, hg⟩ := trailEffect_flattenNode hknown node h.1 hsafe.1
      obtain ⟨g', hg'⟩ := trailEffect_flatten hknown rest h.2 hsafe.2
      exact ⟨_, flatten_cons node rest ▸ hg.append hg'⟩

end

/-! ### Moving a tail -/

/-- The second function does what the first one does and shows what it shows. -/
def StackTrail.ShownIn (g h : StackTrail) : Prop :=
  ∀ main alt r, g main alt = some r →
    ∃ events, h main alt = some (r.1, events) ∧ List.Forall₂ MoreRecords r.2 events

theorem forall₂_moreRecords_refl (events : List (Atom × Option BranchArm)) :
    List.Forall₂ MoreRecords events events :=
  List.forall₂_same.mpr fun e _ => MoreRecords.refl e

theorem shows_of_shownIn {xs ys : List Atom} {g h : StackTrail} (hg : TrailEffect env xs g)
    (hh : TrailEffect env ys h) (hshown : g.ShownIn h) : Shows env xs ys := by
  rintro ⟨main, alt, conds, finished⟩ next events hx
  cases finished with
  | true =>
      rw [trail_of_finished rfl] at hx ⊢
      exact ⟨events, hx, forall₂_moreRecords_refl events⟩
  | false =>
      rw [hg] at hx
      rw [hh]
      by_cases hc : conds.all id = true
      · rw [if_pos hc] at hx ⊢
        obtain ⟨r, hr, heq⟩ := Option.map_eq_some_iff.mp hx
        obtain ⟨rfl, rfl⟩ := Prod.mk.inj heq
        obtain ⟨events', hev, hmore⟩ := hshown main alt r hr
        exact ⟨events', by rw [hev]; rfl, hmore⟩
      · rw [if_neg hc] at hx ⊢
        exact ⟨events, hx, forall₂_moreRecords_refl events⟩

theorem Alike.shownIn {xs ys : List Atom} {g h : StackTrail} (hxy : Alike env xs ys)
    (hg : TrailEffect env xs g) (hh : TrailEffect env ys h) : g.ShownIn h := by
  intro main alt r hr
  have hx := hg main alt []
  have hy := hh main alt []
  rw [List.all_nil, if_pos rfl] at hx hy
  rw [hr] at hx
  obtain ⟨events, hev, hmore⟩ := hxy.shows _ _ _ hx
  rw [hy] at hev
  obtain ⟨r', hr', heq⟩ := Option.map_eq_some_iff.mp hev
  obtain ⟨hvm, rfl⟩ := Prod.mk.inj heq
  have hstacks : r'.1 = r.1 := by
    injection hvm with hmain halt
    exact Prod.ext hmain halt
  exact ⟨r'.2, by rw [hr', ← hstacks], hmore⟩

/-- What both arms end with may follow the conditional instead. -/
theorem shownIn_branch {ga gb gt gf gc : StackTrail} (ht : gt.ShownIn gc) (hf : gf.ShownIn gc)
    (opener : Atom) (negated : Bool) :
    (StackTrail.branch opener negated (ga.andThen gt) (gb.andThen gf)).ShownIn
      ((StackTrail.branch opener negated ga gb).andThen gc) := by
  intro main alt r hr
  cases main with
  | nil => exact absurd hr (by simp [StackTrail.branch])
  | cons condition main =>
      rw [StackTrail.branch] at hr
      obtain ⟨r', hr', rfl⟩ := Option.map_eq_some_iff.mp hr
      -- one arm is taken, and its tail is shown behind the conditional
      have harm : ∀ {g gx : StackTrail}, gx.ShownIn gc → (g.andThen gx) main alt = some r' →
          ∃ first events, g main alt = some first ∧
            gc first.1.1 first.1.2 = some (r'.1, events) ∧
            List.Forall₂ MoreRecords r'.2 (first.2 ++ events) := by
        intro g gx hx hg
        obtain ⟨first, hfirst, hg⟩ := Option.bind_eq_some_iff.mp hg
        obtain ⟨second, hsecond, rfl⟩ := Option.map_eq_some_iff.mp hg
        obtain ⟨events, hev, hmore⟩ := hx _ _ _ hsecond
        exact ⟨first, events, hfirst, hev,
          List.rel_append (forall₂_moreRecords_refl first.2) hmore⟩
      rw [StackTrail.andThen, StackTrail.branch]
      cases hc : VM.condTrue condition ^^ negated with
      | true =>
          rw [hc, if_pos rfl] at hr'
          obtain ⟨first, events, hfirst, hev, hmore⟩ := harm ht hr'
          rw [if_pos rfl, hfirst, Option.map_some, Option.bind_some, hev]
          exact ⟨_, rfl, .cons (MoreRecords.refl _) hmore⟩
      | false =>
          rw [hc, if_neg Bool.false_ne_true] at hr'
          obtain ⟨first, events, hfirst, hev, hmore⟩ := harm hf hr'
          rw [if_neg Bool.false_ne_true, hfirst, Option.map_some, Option.bind_some, hev]
          exact ⟨_, rfl, .cons (MoreRecords.refl _) hmore⟩

theorem extractionSafe_zipWith_mergeOrigins {ts fs : List Node} (hlen : ts.length = fs.length)
    (h : extractionSafeSequence ts = true) :
    extractionSafeSequence (List.zipWith mergeOrigins ts fs) = true := by
  rwa [← extractionSafeSequence_bareSequence, bareSequence_zipWith_mergeOrigins hlen,
    extractionSafeSequence_bareSequence]

mutual

theorem isAtom_flattenNode : ∀ n : Node, WellFormed options n →
    ∀ a ∈ flattenNode n, IsAtom a.encoding
  | .atom a, h => by
      unfold WellFormed at h
      intro b hb
      obtain rfl := List.mem_singleton.mp hb
      exact h.1.complete
  | .ifRegion o t m f e, h => by
      unfold WellFormed at h
      obtain ⟨ho, he, ht, hf, hm⟩ := h
      have hthen := isAtom_flatten t ht
      have helse := isAtom_flatten f hf
      have hopener := isAtom_of_completeInstruction (complete_opener ho)
      have hend := isAtom_of_completeInstruction
        (complete_of_controlToken .opEndif (by rw [he]; rfl))
      intro b hb
      cases m with
      | none =>
          rw [flattenNode_if] at hb
          simp only [List.cons_append, List.mem_cons, List.mem_append, List.not_mem_nil,
            or_false] at hb
          rcases hb with rfl | hb | rfl
          · exact hopener
          · exact hthen b hb
          · exact hend
      | some m =>
          rw [flattenNode_ifElse] at hb
          simp only [List.cons_append, List.append_assoc, List.mem_cons, List.mem_append,
            List.not_mem_nil, or_false] at hb
          rcases hb with rfl | hb | rfl | hb | rfl
          · exact hopener
          · exact hthen b hb
          · exact isAtom_of_completeInstruction
              (complete_of_controlToken .opElse (by rw [hm]; rfl))
          · exact helse b hb
          · exact hend

theorem isAtom_flatten : ∀ ns : List Node, WellFormedSequence options ns →
    ∀ a ∈ flatten ns, IsAtom a.encoding
  | [], _ => by simp
  | n :: ns, h => by
      intro a ha
      rw [flatten_cons, List.mem_append] at ha
      exact ha.elim (isAtom_flattenNode n h.1 a) (isAtom_flatten ns h.2 a)

end

section Extraction

variable {o m e : Atom} {t f : List Node}

/-- **Moving the common tail behind the conditional changes nothing that is shown.** -/
theorem shows_extract (hknown : KnownLabels env options)
    (ho : controlToken o.encoding = .if ∨ controlToken o.encoding = .notif)
    (hm : controlToken m.encoding = .else) (he : controlToken e.encoding = .endif)
    (ht : WellFormedSequence options t) (hf : WellFormedSequence options f) (c : Counters) :
    Shows env (flattenNode (.ifRegion o t (some m) f e))
      (flatten (.ifRegion o (extractCommonTail t f c).thenBody (some m)
        (extractCommonTail t f c).elseBody e :: (extractCommonTail t f c).commonTail)) := by
  rcases extractCommonTail_cases t f c with ⟨h1, h2, h3⟩ | ⟨hst, hsf, i, j, htail, h1, h2, h3⟩
  · rw [h1, h2, h3, flatten_cons, flatten_nil, List.append_nil]
    exact shows_refl _
  -- what stays in the arms, the two tails and the merged one are rows with a trail effect
  · obtain ⟨ga, ha⟩ := trailEffect_flatten hknown (t.take i) (ht.take i)
      (extractionSafeSequence_sublist (List.take_sublist i t) hst)
    obtain ⟨gb, hb⟩ := trailEffect_flatten hknown (f.take j) (hf.take j)
      (extractionSafeSequence_sublist (List.take_sublist j f) hsf)
    obtain ⟨gt, hgt⟩ := trailEffect_flatten hknown (t.drop i) (ht.drop i)
      (extractionSafeSequence_sublist (List.drop_sublist i t) hst)
    obtain ⟨gf, hgf⟩ := trailEffect_flatten hknown (f.drop j) (hf.drop j)
      (extractionSafeSequence_sublist (List.drop_sublist j f) hsf)
    have hmerged := wellFormedSequence_zipWith_mergeOrigins (ht.drop i) (f.drop j)
    obtain ⟨gc, hgc⟩ := trailEffect_flatten hknown _ hmerged
      (extractionSafe_zipWith_mergeOrigins htail.length_eq
        (extractionSafeSequence_sublist (List.drop_sublist i t) hst))
    obtain ⟨hequivalent, hflat⟩ := flatten_zipWith_mergeOrigins htail
    obtain ⟨halike, halike'⟩ := alike_zipWith_mergeOriginsAtom env hequivalent
      (isAtom_flatten _ (ht.drop i))
    rw [← hflat] at halike halike'
    have hsplit : flatten t = flatten (t.take i) ++ flatten (t.drop i) := by
      rw [← flatten_append, List.take_append_drop]
    have hsplit' : flatten f = flatten (f.take j) ++ flatten (f.drop j) := by
      rw [← flatten_append, List.take_append_drop]
    rw [h1, h2, h3, flatten_cons, flattenNode_ifElse, flattenNode_ifElse, hsplit, hsplit']
    refine shows_of_shownIn (trailEffect_ifElse ho hm he (ha.append hgt) (hb.append hgf))
      ((trailEffect_ifElse ho hm he ha hb).append hgc) ?_
    exact shownIn_branch (halike.shownIn hgt hgc) (halike'.shownIn hgf hgc) o _

end Extraction

mutual

/-- The optimised node shows what the node shows. -/
theorem shows_optimizeNode (hknown : KnownLabels env options) : ∀ (n : Node) (c : Counters),
    WellFormed options n → Shows env (flattenNode n) (flatten (optimizeNode n c).1)
  | .atom a, c, _ => by
      simpa [optimizeNode] using shows_refl _
  | .ifRegion o t none f e, c, h => by
      unfold WellFormed at h
      obtain ⟨ho, he, ht, -, -⟩ := h
      have hthen := shows_optimizeSequence hknown t c ht
      rw [flattenNode_if, flatten_optimizeNode_if]
      exact ((shows_refl [o]).append hthen).append (shows_refl [e])
  | .ifRegion o t (some m) f e, c, h => by
      unfold WellFormed at h
      obtain ⟨ho, he, ht, hf, hm⟩ := h
      have hthen := shows_optimizeSequence hknown t c ht
      have helse := shows_optimizeSequence hknown f (optimizeSequence t c).2 hf
      have ht' := (optimizeSequence_sound hknown t c ht).1
      have hf' := (optimizeSequence_sound hknown f (optimizeSequence t c).2 hf).1
      -- first the arms, then the tail
      refine Shows.trans ?_ (shows_extract hknown ho hm he ht' hf' _)
      rw [flattenNode_ifElse, flattenNode_ifElse]
      exact (((shows_refl [o]).append hthen).append ((shows_refl [m]).append helse)).append
        (shows_refl [e])

/-- **The optimised tree shows what the tree shows**, in the same order. -/
theorem shows_optimizeSequence (hknown : KnownLabels env options) : ∀ (ns : List Node)
    (c : Counters), WellFormedSequence options ns →
      Shows env (flatten ns) (flatten (optimizeSequence ns c).1)
  | [], _, _ => shows_refl []
  | n :: ns, c, h => by
      rw [flatten_cons, flatten_optimizeSequence_cons]
      exact (shows_optimizeNode hknown n c h.1).append (shows_optimizeSequence hknown ns _ h.2)

end

end AtomicProof.IfTail
