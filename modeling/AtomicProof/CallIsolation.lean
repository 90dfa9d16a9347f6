/-
What a call does to its caller.

`ASTInterpreter::callFunction` runs a function in a scope inside those of the caller, so that a name that
the function does not bind itself is looked up in the scopes of the caller.  A variable of the caller is
therefore as it was unless the function, or one that it calls, writes to its name where no parameter and
no earlier declaration hides it.

Main definitions:

* `Writes.statement`, `callWrites` — the code that writes to a name which it does not hide;
* `SameSlot` — a scope has the variable as it was;
* `At` — the scopes of a call above those of its caller.

Main results:

* `isolates_evalExpr`, `isolates_execStmt` — what expressions and statements leave alone;
* `callFunction_isolated` — **a call changes no other variable of its caller**, and the depth is the same
  however it ends.
-/

import AtomicProof.HashDigest
import AtomicProof.Interpreter

set_option autoImplicit false

namespace AtomicProof

namespace ASTInterpreter

open AtomicProof.Computation

/-! ### Writes -/

namespace Writes

variable (ctx : RuntimeContext) (calls : FunctionNode → Bool) (x : String)

def isName (args : List AstExpr) : Bool :=
  match args.head? with
  | some (.identifier name) => name = x
  | _ => false

mutual

/-- An expression writes to a name: it moves or deletes the variable, or calls a function that writes. -/
def expr : AstExpr → Bool
  | .literal _ _ => false
  | .identifier _ => false
  | .unary _ rhs => expr rhs
  | .binary _ lhs rhs => expr lhs || expr rhs
  | .arrayDef _ elements => exprs elements
  | .brace elements => exprs elements
  | .call funcName args _ =>
      exprs args || (["Delete", "Move"].contains funcName && isName x args) ||
        (ctx.findFunction funcName).any calls
  | .methodCall object _ args => expr object || exprs args
  | .fieldAccess base _ => expr base
  | .indexAccess base index => expr base || expr index

def exprs : List AstExpr → Bool
  | [] => false
  | e :: rest => expr e || exprs rest

end

/-- The target of an assignment has the variable at its root. -/
def target : AstExpr → Bool
  | .identifier name => name = x
  | .fieldAccess base _ => target base
  | .indexAccess base index => target base || expr ctx calls x index
  | _ => false

/-- A statement binds the name in the current scope. -/
def declares : AstStmt → Bool
  | .varDecl _ name _ _ _ => name = x
  | .arrayDecl name _ _ _ => name = x
  | _ => false

mutual

def statement : AstStmt → Bool
  | .block statements => block statements
  | .ifElse condition thenBranch elseBranch =>
      condition.any (expr ctx calls x) || branch thenBranch || branch elseBranch
  | .forLoop loopTarget _ iterable body =>
      iterable.any (expr ctx calls x) || loopTarget = x || loopBody body
  | .assign name value => value.any (expr ctx calls x) || name.any (target ctx calls x)
  | .varDecl _ _ _ initValue _ => initValue.any (expr ctx calls x)
  | .arrayDecl _ _ sizeExpr initArray =>
      sizeExpr.any (expr ctx calls x) || initArray.any fun array => exprs ctx calls x array.2
  | .exprStmt e => e.any (expr ctx calls x)
  | .returnStmt e _ => e.any (expr ctx calls x)
  | .destructureAssign targets value => value.any (expr ctx calls x) || targets.contains x

def branch : Option AstStmt → Bool
  | some stmt => statement stmt
  | none => false

def loopBody : Option (List AstStmt) → Bool
  | some statements => block statements
  | none => false

/-- What stands after a declaration of the name does not write to that of the caller. -/
def block : List AstStmt → Bool
  | [] => false
  | stmt :: rest => statement stmt || (!declares x stmt && block rest)

end

/-- A function writes to a name that is not one of its parameters. -/
def function (f : FunctionNode) : Bool :=
  !(f.parameters.any fun parameter => parameter.1 = x) && f.block.any (block ctx calls x)

end Writes

/-- A function writes to a name, over calls to a depth. -/
def callWrites (ctx : RuntimeContext) (x : String) : ℕ → FunctionNode → Bool
  | 0, _ => false
  | depth + 1, f => Writes.function ctx (callWrites ctx x depth) x f

/-- A function, or one that it calls, writes to a name where no parameter and no earlier declaration hides
it. -/
def WritesCaller (ctx : RuntimeContext) (f : FunctionNode) (x : String) : Prop :=
  ∃ depth, callWrites ctx x depth f = true

/-! ### Scopes of the caller -/

/-- A scope has the variable as it was: its value, its ownership and its declared type. -/
def SameSlot (x : String) (scope scope' : Scope) : Prop :=
  (scope'.lookup x).map (fun slot => (slot.value, slot.ownership, slot.declaredType)) =
    (scope.lookup x).map fun slot => (slot.value, slot.ownership, slot.declaredType)

def Marked (x : String) (mark : Bool) (scope : Scope) : Prop :=
  mark = true → (scope.lookup x).isSome = true

/-- The scopes of a call, those that are marked with the name, above those of the caller with the variable
as it was. -/
def At (x : String) (outer : List Scope) (marks : List Bool) (s : State) : Prop :=
  ∃ top mid, s.scopes = top ++ mid ∧ List.Forall₂ (Marked x) marks top ∧
    List.Forall₂ (SameSlot x) outer mid

/-- Nothing reaches the variable of the caller: there is none, or the call has the name. -/
def Shielded (outer : List Scope) (marks : List Bool) : Prop := outer = [] ∨ true ∈ marks

/-! ### Changes of scopes -/

theorem lookup_updateScope (name other : String) (f : RuntimeSlot → RuntimeSlot) (scope : Scope) :
    (Environment.updateScope name f scope).lookup other =
      if other = name then (scope.lookup other).map f else scope.lookup other := by
  induction scope with
  | nil =>
      split_ifs
      · rfl
      · rfl
  | cons entry scope ih =>
      obtain ⟨n, slot⟩ := entry
      have hcons : Environment.updateScope name f ((n, slot) :: scope) =
          (if n = name then (n, f slot) else (n, slot)) :: Environment.updateScope name f scope := rfl
      rw [hcons]
      by_cases hn : n = name
      · subst hn
        rw [if_pos rfl, List.lookup_cons, List.lookup_cons]
        by_cases hother : other = n
        · subst hother
          simp
        · rw [show (other == n) = false by simpa using hother]
          simpa [hother] using ih
      · rw [if_neg hn, List.lookup_cons, List.lookup_cons]
        by_cases hother : other = n
        · subst hother
          simp [hn]
        · rw [show (other == n) = false by simpa using hother]
          exact ih

section Changes

variable {x name : String} {f : RuntimeSlot → RuntimeSlot} {scope scope' : Scope} {mark : Bool}

/-- A change that the variable does not show. -/
def Hides (f : RuntimeSlot → RuntimeSlot) : Prop :=
  ∀ slot, ((f slot).value, (f slot).ownership, (f slot).declaredType) =
    (slot.value, slot.ownership, slot.declaredType)

theorem Marked.updateScope (h : Marked x mark scope) :
    Marked x mark (Environment.updateScope name f scope) := by
  intro hmark
  rw [lookup_updateScope]
  split_ifs
  · rw [Option.isSome_map]
    exact h hmark
  · exact h hmark

theorem SameSlot.updateScope (h : SameSlot x scope scope') (hf : name = x → Hides f) :
    SameSlot x scope (Environment.updateScope name f scope') := by
  unfold SameSlot at *
  rw [lookup_updateScope]
  split_ifs with hx
  · rw [Option.map_map, ← h]
    exact congrArg (fun g => (scope'.lookup x).map g) (funext (hf hx.symm))
  · exact h

variable {α : Type} {R : α → Scope → Prop} {l : List α} {env top mid : Environment}

theorem forall₂_update (h : List.Forall₂ R l env)
    (hR : ∀ a scope, R a scope → R a (Environment.updateScope name f scope)) :
    List.Forall₂ R l (Environment.update f env name) := by
  induction h with
  | nil => exact .nil
  | @cons a scope l env ha hrest ih =>
      unfold Environment.update
      split
      · exact .cons (hR a scope ha) hrest
      · exact .cons ha ih

theorem forall₂_modify (h : List.Forall₂ R l env)
    (hR : ∀ a scope, R a scope → R a (Environment.updateScope name f scope)) (position : ℕ) :
    List.Forall₂ R l (env.modify position (Environment.updateScope name f)) := by
  induction h generalizing position with
  | nil =>
      rw [List.modify_nil]
      exact .nil
  | @cons a scope l env ha hrest ih =>
      cases position with
      | zero =>
          rw [List.modify_zero_cons]
          exact .cons (hR a scope ha) hrest
      | succ position =>
          rw [List.modify_succ_cons]
          exact .cons ha (ih position)

theorem update_append : Environment.update f (top ++ mid) name =
    if (top.tryResolve name).isSome then Environment.update f top name ++ mid
    else top ++ Environment.update f mid name := by
  induction top with
  | nil => rfl
  | cons scope top ih =>
      rw [List.cons_append, Environment.update, Environment.tryResolve, Environment.update]
      cases scope.lookup name with
      | some slot => rfl
      | none =>
          simp only [ih]
          split_ifs <;> rfl

theorem modify_append (position : ℕ) (g : Scope → Scope) : (top ++ mid).modify position g =
    if position < top.length then top.modify position g ++ mid
    else top ++ mid.modify (position - top.length) g := by
  induction top generalizing position with
  | nil => rfl
  | cons scope top ih =>
      cases position with
      | zero => rfl
      | succ position =>
          rw [List.cons_append, List.modify_succ_cons, List.modify_succ_cons, ih, List.length_cons,
            Nat.add_sub_add_right]
          simp only [Nat.add_lt_add_iff_right]
          split_ifs <;> rfl

theorem le_levelOf (h : (top.tryResolve name).isSome = true) :
    mid.length ≤ levelOf (top ++ mid) name := by
  induction top with
  | nil => cases h
  | cons scope top ih =>
      rw [Environment.tryResolve] at h
      rw [List.cons_append, levelOf]
      cases hscope : scope.lookup name with
      | some slot =>
          rw [Option.isSome_some, if_pos rfl, List.length_append]
          exact Nat.le_add_left _ _
      | none =>
          rw [hscope] at h
          exact ih h

/-- A name with a mark is found among the scopes of the call. -/
theorem tryResolve_of_marked {marks : List Bool} (h : List.Forall₂ (Marked x) marks top)
    (hmark : true ∈ marks) : (top.tryResolve x).isSome = true := by
  induction h with
  | nil => cases hmark
  | @cons mark scope marks top hscope hrest ih =>
      rw [Environment.tryResolve]
      cases hlookup : scope.lookup x with
      | some slot => rfl
      | none =>
          rcases List.mem_cons.1 hmark with rfl | hmark
          · have hsome := hscope rfl
            rw [hlookup] at hsome
            cases hsome
          · exact ih hmark

end Changes

/-! ### The scopes of a call -/

section Positions

variable {x name : String} {outer : List Scope} {mark : Bool} {marks rest : List Bool} {s s' : State}
  {f : RuntimeSlot → RuntimeSlot}

theorem At.length (h : At x outer marks s) : s.scopes.length = marks.length + outer.length := by
  obtain ⟨top, mid, hscopes, htop, hmid⟩ := h
  rw [hscopes, List.length_append, htop.length_eq, hmid.length_eq]

theorem At.of_scopes (h : At x outer marks s) (hs : s'.scopes = s.scopes) : At x outer marks s' := by
  obtain ⟨top, mid, hscopes, htop, hmid⟩ := h
  exact ⟨top, mid, hs.trans hscopes, htop, hmid⟩

theorem At.forget {fewer : List Bool} (h : At x outer marks s)
    (hfewer : List.Forall₂ (fun few mark : Bool => few = true → mark = true) fewer marks) :
    At x outer fewer s := by
  obtain ⟨top, mid, hscopes, htop, hmid⟩ := h
  refine ⟨top, mid, hscopes, ?_, hmid⟩
  clear hscopes
  induction hfewer generalizing top with
  | nil => exact htop
  | @cons few mark fewer marks hmark hrest ih =>
      cases htop with
      | cons hscope htop => exact .cons (fun hfew => hscope (hmark hfew)) (ih _ htop)

theorem forall₂_or (mark declared : Bool) (rest : List Bool) :
    List.Forall₂ (fun few mark : Bool => few = true → mark = true) (mark :: rest)
      ((mark || declared) :: rest) :=
  .cons (fun h => Bool.or_inl h) (List.forall₂_same.2 fun _ _ h => h)

theorem At.enter (h : At x outer marks s) :
    At x outer (false :: marks) { s with scopes := [] :: s.scopes } := by
  obtain ⟨top, mid, hscopes, htop, hmid⟩ := h
  refine ⟨[] :: top, mid, congrArg _ hscopes, .cons nofun htop, hmid⟩

/-- Inner scopes are left. -/
theorem At.leave {deeper : List Bool} (h : At x outer (deeper ++ marks) s) :
    At x outer marks
      { s with scopes := s.scopes.drop (s.scopes.length - (marks.length + outer.length)) } := by
  have hlength := h.length
  obtain ⟨top, mid, hscopes, htop, hmid⟩ := h
  have hdrop : s.scopes.length - (marks.length + outer.length) = deeper.length := by
    rw [hlength, List.length_append]
    omega
  have hle : deeper.length ≤ top.length := by
    rw [← htop.length_eq, List.length_append]
    exact Nat.le_add_right _ _
  refine ⟨top.drop deeper.length, mid, ?_, ?_, hmid⟩
  · rw [hdrop, hscopes, List.drop_append_of_le_length hle]
  · have hrest := List.forall₂_drop deeper.length htop
    rwa [List.drop_left] at hrest

/-- A change of a slot of the call, or one that the variable does not show. -/
theorem At.update (h : At x outer marks s) (hname : name = x → Hides f ∨ Shielded outer marks) :
    At x outer marks (s.update f name) := by
  unfold State.update
  split_ifs
  · obtain ⟨top, mid, hscopes, htop, hmid⟩ := h
    have hmarked : List.Forall₂ (Marked x) marks (Environment.update f top name) :=
      forall₂_update htop fun mark scope hmark => hmark.updateScope
    rw [hscopes, update_append]
    split_ifs with hfound
    · exact ⟨_, mid, rfl, hmarked, hmid⟩
    · refine ⟨top, _, rfl, htop, ?_⟩
      by_cases hx : name = x → Hides f
      · exact forall₂_update hmid fun scope scope' hsame => hsame.updateScope hx
      · obtain ⟨hx, hshown⟩ := Classical.not_imp.1 hx
        rcases (hname hx).resolve_left hshown with houter | hmark
        · subst houter
          cases hmid
          exact .nil
        · subst hx
          exact absurd (tryResolve_of_marked htop hmark) hfound
  · exact h.of_scopes rfl

/-- A change of a slot in the current scope. -/
theorem At.updateLocal (h : At x outer (mark :: rest) s) (hlocal : s.env.containsLocal name = true) :
    At x outer (mark :: rest) (s.update f name) := by
  obtain ⟨top, mid, hscopes, htop, hmid⟩ := h
  cases htop with
  | @cons _ scope _ top hscope htop =>
      unfold State.env at hlocal
      rw [hscopes] at hlocal
      replace hlocal : (scope.lookup name).isSome = true := hlocal
      obtain ⟨slot, hslot⟩ := Option.isSome_iff_exists.1 hlocal
      have hupdate : (s.update f name).scopes = Environment.updateScope name f scope :: top ++ mid := by
        unfold State.update
        rw [hscopes, List.cons_append, Environment.tryResolve, Environment.update, hslot]
        rfl
      exact ⟨_, mid, hupdate, .cons hscope.updateScope htop, hmid⟩

theorem exists_ok_of_map {ε α β : Type} {result : Except ε α} {g : α → β} {b : β}
    (h : result.map g = .ok b) : ∃ a, result = .ok a ∧ g a = b := by
  cases result with
  | error e => cases h
  | ok a => exact ⟨a, rfl, Except.ok.inj h⟩

theorem define_scope {scope : Scope} {slot : RuntimeSlot} {env : Environment}
    (h : Environment.define [scope] name slot = .ok env) :
    ∃ slot, env.headD [] = (name, slot) :: scope := by
  unfold Environment.define at h
  split_ifs at h
  all_goals exact ⟨_, congrArg (·.headD []) (Except.ok.inj h).symm⟩

theorem Marked.define {scope : Scope} (h : Marked x mark scope) (slot : RuntimeSlot) :
    Marked x (mark || decide (name = x)) ((name, slot) :: scope) := by
  intro hmark
  rw [List.lookup_cons]
  by_cases hx : x = name
  · rw [show (x == name) = true by simpa using hx]
    rfl
  · rw [show (x == name) = false by simpa using hx]
    refine h ?_
    rwa [decide_eq_false (fun heq : name = x => hx heq.symm), Bool.or_false] at hmark

/-- A definition hides its name. -/
theorem At.define {slot : RuntimeSlot} (h : At x outer (mark :: rest) s)
    (hdefine : s.define name slot = .ok s') :
    At x outer ((mark || decide (name = x)) :: rest) s' := by
  obtain ⟨top, mid, hscopes, htop, hmid⟩ := h
  cases htop with
  | @cons _ scope _ top hscope htop =>
      unfold State.define at hdefine
      rw [hscopes, List.cons_append] at hdefine
      obtain ⟨env, henv, rfl⟩ := exists_ok_of_map hdefine
      obtain ⟨slot, hhead⟩ := define_scope henv
      refine ⟨((name, slot) :: scope) :: top, mid, ?_, .cons (hscope.define slot) htop, hmid⟩
      show env.headD [] :: (top ++ mid) = _
      rw [hhead]
      rfl

theorem At.defineOutside {slot : RuntimeSlot} {inner : Bool} (h : At x outer (inner :: mark :: rest) s)
    (hdefine : s.defineOutside name slot = .ok s') : At x outer (inner :: mark :: rest) s' := by
  obtain ⟨top, mid, hscopes, htop, hmid⟩ := h
  cases htop with
  | @cons _ scope _ top hscope htop =>
      unfold State.defineOutside at hdefine
      rw [hscopes, List.cons_append] at hdefine
      obtain ⟨around, haround, rfl⟩ := exists_ok_of_map hdefine
      have hinner : At x outer (mark :: rest) { s with scopes := top ++ mid } :=
        ⟨top, mid, rfl, htop, hmid⟩
      obtain ⟨top', mid', hscopes', htop', hmid'⟩ := (hinner.define haround).forget (forall₂_or _ _ _)
      exact ⟨scope :: top', mid', congrArg (scope :: ·) hscopes', .cons hscope htop', hmid'⟩

end Positions

/-! ### Places of a call -/

/-- A place that is not in the variable of the caller. -/
def Apart (x : String) (outer : List Scope) (place : Place) : Prop :=
  place.name = x → outer = [] ∨ outer.length < place.level

section Places

variable {x name : String} {outer : List Scope} {mark : Bool} {marks rest : List Bool} {s : State}
  {place : Place}

/-- A name is found in the call where that of the caller is hidden. -/
theorem At.apart (h : At x outer marks s) (hname : name = x → Shielded outer marks)
    (path : List Step) : Apart x outer ⟨levelOf s.env name, name, path⟩ := by
  intro hx
  refine (hname hx).imp id fun hmark => ?_
  obtain ⟨top, mid, hscopes, htop, hmid⟩ := h
  have hfound : (top.tryResolve name).isSome = true := by
    rw [show name = x from hx]
    exact tryResolve_of_marked htop hmark
  have hle : (mid ++ [s.globals]).length ≤ levelOf (top ++ (mid ++ [s.globals])) name :=
    le_levelOf hfound
  rw [List.length_append, ← hmid.length_eq] at hle
  unfold State.env
  rw [hscopes, List.append_assoc]
  exact hle

/-- What is written at a place of the call stays in the call. -/
theorem At.write (h : At x outer (mark :: rest) s) (hplace : Apart x outer place)
    (g : RuntimeValue → RuntimeValue) : At x outer (mark :: rest) (s.write g place) := by
  unfold State.write State.updateAt
  split_ifs
  · exact h.of_scopes rfl
  · have hlength := h.length
    obtain ⟨top, mid, hscopes, htop, hmid⟩ := h
    have hposition : s.scopes.length - place.level < top.length ∨ place.level ≤ outer.length := by
      rw [hlength, ← htop.length_eq, List.length_cons]
      omega
    generalize s.scopes.length - place.level = position at hposition
    rw [hscopes, modify_append]
    split_ifs with hinside
    · exact ⟨_, mid, rfl, forall₂_modify htop (fun mark scope hmark => hmark.updateScope) _, hmid⟩
    · refine ⟨top, _, rfl, htop, ?_⟩
      by_cases hx : place.name = x
      · rcases hplace hx with houter | hlevel
        · subst houter
          cases hmid
          rw [List.modify_nil]
          exact .nil
        · exact absurd hlevel (Nat.not_lt.2 (hposition.resolve_left hinside))
      · exact forall₂_modify hmid (fun scope scope' hsame => hsame.updateScope fun h => absurd h hx) _

end Places

/-! ### Computations in a call -/

/-- The scopes of a call, or of one that it makes. -/
def Within (x : String) (outer : List Scope) (marks : List Bool) (s : State) : Prop :=
  ∃ deeper, At x outer (deeper ++ marks) s

/-- A computation that leaves the variable of the caller alone, also where it throws. -/
def Leaves {α : Type} (x : String) (outer : List Scope) (marks : List Bool) (m : Interpretation α)
    (Q : α → State → Prop) : Prop :=
  Triple (At x outer marks) m Q fun _ => Within x outer marks

/-- A computation that leaves the variable of the caller alone, and the scopes as they are. -/
def Isolates {α : Type} (x : String) (outer : List Scope) (marks : List Bool) (m : Interpretation α) :
    Prop :=
  Leaves x outer marks m fun _ => At x outer marks

variable {f : State → Except RuntimeError State}

theorem attempt_ok {s s' : State} (h : f s = .ok s') : attempt f s = some (.ok (), s') := by
  have hattempt : attempt f s =
      (MonadExcept.ofExcept (f s) >>= fun s' => set s' : Interpretation Unit) s := rfl
  rw [hattempt, h]
  rfl

theorem attempt_error {s : State} {e : RuntimeError}
    (h : f s = .error e) : attempt f s = some (.error e, s) := by
  have hattempt : attempt f s =
      (MonadExcept.ofExcept (f s) >>= fun s' => set s' : Interpretation Unit) s := rfl
  rw [hattempt, h]
  rfl

theorem triple_attempt {P : State → Prop}
    {Q : Unit → State → Prop} {E : RuntimeError → State → Prop}
    (hok : ∀ s s', P s → f s = .ok s' → Q () s') (herror : ∀ e s, P s → E e s) :
    Triple P (attempt f) Q E := by
  intro s hs r s' hrun
  cases hf : f s with
  | ok next =>
      rw [attempt_ok hf] at hrun
      obtain ⟨rfl, rfl⟩ := Prod.mk.inj (Option.some.inj hrun)
      exact hok s next hs hf
  | error e =>
      rw [attempt_error hf] at hrun
      obtain ⟨rfl, rfl⟩ := Prod.mk.inj (Option.some.inj hrun)
      exact herror e s hs

section Rules

variable {x name : String} {outer : List Scope} {mark : Bool} {marks rest : List Bool} {α β : Type}
  {m : Interpretation α} {Q Q' : α → State → Prop} {R : β → State → Prop}

theorem At.within {s : State} (h : At x outer marks s) : Within x outer marks s := ⟨[], h⟩

theorem Within.outwards (extra : List Bool) {s : State} (h : Within x outer (extra ++ marks) s) :
    Within x outer marks s := by
  obtain ⟨deeper, h⟩ := h
  rw [← List.append_assoc] at h
  exact ⟨deeper ++ extra, h⟩

theorem Within.forget {fewer : List Bool} {s : State} (h : Within x outer marks s)
    (hfewer : List.Forall₂ (fun few mark : Bool => few = true → mark = true) fewer marks) :
    Within x outer fewer s := by
  obtain ⟨deeper, h⟩ := h
  exact ⟨deeper, h.forget (List.rel_append (List.forall₂_same.2 fun _ _ h => h) hfewer)⟩

namespace Leaves

theorem bind {f : α → Interpretation β} (hm : Leaves x outer marks m Q)
    (hf : ∀ a, Triple (Q a) (f a) R fun _ => Within x outer marks) :
    Leaves x outer marks (m >>= f) R :=
  Triple.bind hm hf

theorem imp (h : Leaves x outer marks m Q) (hQ : ∀ a s, Q a s → Q' a s) :
    Leaves x outer marks m Q' :=
  h.weaken (fun _ => id) hQ fun _ _ => id

theorem get_bind {f : State → Interpretation β} (h : ∀ s, Leaves x outer marks (f s) R) :
    Leaves x outer marks (get >>= f) R :=
  Triple.get_bind fun s hs =>
    (h s).weaken (fun _ heq => heq ▸ hs) (fun _ _ => id) fun _ _ => id

theorem throw {e : RuntimeError} :
    Leaves x outer marks (MonadExcept.throw e : Interpretation α) Q :=
  Triple.throw fun _ h => h.within

theorem changed {f : State → State} {Q : Unit → State → Prop}
    (h : ∀ s, At x outer marks s → Q () (f s)) : Leaves x outer marks (modify f) Q :=
  Triple.changed h

theorem attempt {f : State → Except RuntimeError State} {Q : Unit → State → Prop}
    (h : ∀ s s', At x outer marks s → f s = .ok s' → Q () s') :
    Leaves x outer marks (ASTInterpreter.attempt f) Q :=
  triple_attempt h fun _ _ hs => hs.within

end Leaves

theorem currentDepth_bind {f : ℕ → Interpretation β} {E : RuntimeError → State → Prop}
    (h : Triple (At x outer marks) (f (marks.length + outer.length)) R E) :
    Triple (At x outer marks) (currentDepth >>= f) R E := by
  refine Triple.get_bind fun s hs => ?_
  rw [hs.length]
  exact h.weaken (fun _ heq => heq ▸ hs) (fun _ _ => id) fun _ _ => id

theorem at_leaveTo {E : RuntimeError → State → Prop} :
    Triple (Within x outer marks) (leaveTo (marks.length + outer.length))
      (fun _ => At x outer marks) E := by
  refine Triple.changed fun s hs => ?_
  obtain ⟨deeper, hs⟩ := hs
  exact hs.leave

namespace Isolates

theorem pure {a : α} : Isolates x outer marks (Pure.pure a : Interpretation α) :=
  Triple.pure fun _ h => h

theorem ofExcept (result : Except RuntimeError α) :
    Isolates x outer marks (MonadExcept.ofExcept result : Interpretation α) :=
  Triple.ofExcept (fun _ _ _ h => h) fun _ _ _ h => h.within

theorem ofOption (value : Option α) :
    Isolates x outer marks (Computation.ofOption value : Interpretation α) :=
  Triple.ofOption fun _ _ _ h => h

theorem bind {f : α → Interpretation β} (hm : Isolates x outer marks m)
    (hf : ∀ a, Leaves x outer marks (f a) R) : Leaves x outer marks (m >>= f) R :=
  Leaves.bind hm hf

theorem inspect (f : State → Except RuntimeError α) :
    Isolates x outer marks (ASTInterpreter.inspect f) :=
  Leaves.get_bind fun s => ofExcept (f s)

theorem changed {f : State → State} (h : ∀ s, (f s).scopes = s.scopes) :
    Isolates x outer marks (modify f) :=
  Leaves.changed fun s hs => hs.of_scopes (h s)

theorem update {f : RuntimeSlot → RuntimeSlot} (hname : name = x → Hides f ∨ Shielded outer marks) :
    Isolates x outer marks (updateSlot name f) :=
  Leaves.changed fun _ hs => hs.update hname

theorem returning (hm : Leaves x outer marks m fun _ => Within x outer marks) :
    Triple (At x outer marks) (ASTInterpreter.returning m) (fun _ => At x outer marks)
      fun _ => At x outer marks := by
  refine currentDepth_bind (Triple.bind (Triple.tryCatch hm fun error => ?_) fun a => ?_)
  · exact Triple.bind at_leaveTo fun _ => Triple.throw fun _ h => h
  · exact Triple.bind at_leaveTo fun _ => Triple.pure fun _ h => h

theorem enterBlock (createScope : Bool) : Leaves x outer marks (ASTInterpreter.enterBlock createScope)
    fun _ => At x outer (if createScope then false :: marks else marks) := by
  cases createScope with
  | false => exact pure
  | true => exact Leaves.changed fun _ hs => hs.enter

theorem inBlock {createScope : Bool} {statements : Interpretation Flow}
    (hstatements : Isolates x outer (if createScope then false :: marks else marks) statements) :
    Isolates x outer marks (ASTInterpreter.inBlock createScope statements) := by
  have hinner : ∀ s, Within x outer (if createScope then false :: marks else marks) s →
      Within x outer marks s := by
    intro s hs
    cases createScope with
    | false => exact hs
    | true => exact Within.outwards [false] hs
  refine currentDepth_bind (Triple.bind (enterBlock createScope) fun _ => ?_)
  refine Triple.bind (hstatements.weaken (fun _ => id) (fun _ _ h => hinner _ h.within)
    fun _ _ => hinner _) fun flow => ?_
  exact Triple.bind at_leaveTo fun _ => Triple.pure fun _ h => h

end Isolates

end Rules

/-! ### Transfers -/

section Transfers

variable {x name : String} {outer : List Scope} {mark : Bool} {marks rest : List Bool}

theorem hides_storage (storage : StorageClass) :
    Hides fun slot => { slot with storage := storage } := fun _ => rfl

theorem hides_keep : Hides fun slot => { slot with keepOnScopeExit := true } := fun _ => rfl

theorem isolates_assign (hname : name = x → Shielded outer marks) (value : RuntimeValue) :
    Isolates x outer marks (attempt fun s => s.assign name value) := by
  refine Leaves.attempt fun s s' hs hassign => ?_
  obtain ⟨_, _, rfl⟩ := exists_ok_of_map hassign
  exact hs.update fun hx => .inr (hname hx)

theorem isolates_define (slot : RuntimeSlot) :
    Isolates x outer (mark :: rest) (attempt fun s => s.define name slot) :=
  Leaves.attempt fun _ _ hs hdefine => (hs.define hdefine).forget (forall₂_or _ _ _)

theorem isolates_takeGlobal (slot : RuntimeSlot) :
    Isolates x outer (mark :: rest) (takeGlobal name slot) := by
  refine Triple.get_bind fun s hs => ?_
  split_ifs with hlocal
  · refine Triple.bind (Q := fun _ => At x outer (mark :: rest)) (triple_attempt ?_ ?_) fun _ => ?_
    · rintro _ s' rfl hassign
      obtain ⟨_, _, rfl⟩ := exists_ok_of_map hassign
      exact hs.updateLocal hlocal
    · rintro _ _ rfl
      exact hs.within
    · exact Isolates.update fun _ => .inl (hides_storage .mainStack)
  · exact (isolates_define _).weaken (fun _ heq => heq ▸ hs) (fun _ _ => id) fun _ _ => id

theorem isolates_putGlobal (slot : RuntimeSlot) : Isolates x outer marks (putGlobal name slot) := by
  refine Leaves.get_bind fun s => ?_
  split_ifs
  · refine Isolates.bind (Leaves.attempt fun s s' hs hassign => ?_) fun _ =>
      Isolates.changed fun _ => rfl
    obtain ⟨_, _, rfl⟩ := exists_ok_of_map hassign
    exact hs.of_scopes rfl
  · refine Leaves.attempt fun s s' hs hdefine => ?_
    obtain ⟨_, _, rfl⟩ := exists_ok_of_map hdefine
    exact hs.of_scopes rfl

theorem isolates_passSlot {f : RuntimeSlot → RuntimeSlot}
    (hname : name = x → Hides f ∨ Shielded outer marks) :
    Isolates x outer marks (passSlot name f) :=
  (Isolates.inspect _).bind fun _ => (Isolates.update hname).bind fun _ => Isolates.pure

theorem isolates_deleteSlot (hname : name = x → Shielded outer marks) :
    Isolates x outer marks (deleteSlot name) := by
  refine Leaves.get_bind fun s => ?_
  split_ifs
  · exact (Isolates.update fun hx => .inr (hname hx)).bind fun _ => Isolates.pure
  · exact .throw

theorem isolates_setMainSlot : Isolates x outer (mark :: rest) (setMainSlot name) := by
  refine Leaves.get_bind fun s => ?_
  split_ifs
  · exact (Isolates.inspect _).bind fun slot => (isolates_takeGlobal slot).bind fun _ =>
      @Isolates.bind _ _ _ _ _ _ _ _ (Isolates.changed fun _ => rfl) fun _ => Isolates.pure
  · exact (Isolates.inspect _).bind fun _ =>
      (Isolates.update fun _ => .inl (hides_storage .mainStack)).bind fun _ => Isolates.pure

/-- A transfer that neither moves nor deletes the variable only concerns where it is stored. -/
theorem isolates_transferSlot {funcName : String}
    (hname : ["Delete", "Move"].contains funcName = true → name = x →
      Shielded outer (mark :: rest)) :
    Isolates x outer (mark :: rest) (transferSlot funcName name) := by
  unfold transferSlot
  split_ifs with hdelete hkeep hmove hmain
  · refine isolates_deleteSlot fun hx => hname ?_ hx
    simp [hdelete]
  · exact (isolates_passSlot fun _ => .inl hides_keep).bind fun _ => Isolates.pure
  · refine (isolates_passSlot fun hx => .inr (hname ?_ hx)).bind fun _ => Isolates.pure
    simp [hmove]
  · exact isolates_setMainSlot
  · exact (isolates_passSlot fun _ => .inl (hides_storage .altStack)).bind fun slot =>
      (isolates_putGlobal slot).bind fun _ => Isolates.pure

end Transfers

/-! ### Expressions -/

section Running

variable (ctx : RuntimeContext)
  {callFunction : FunctionNode → List RuntimeValue → Interpretation (List RuntimeValue)}
  {calls : FunctionNode → Bool} {x : String} {outer : List Scope} {mark : Bool} {rest : List Bool}
variable {marks : List Bool}

/-- Calls leave the variable alone where it is hidden or they do not write to it. -/
def CallsIsolate (callFunction : FunctionNode → List RuntimeValue → Interpretation (List RuntimeValue))
    (calls : FunctionNode → Bool) (x : String) (outer : List Scope) : Prop :=
  ∀ marks f args, (calls f = true → Shielded outer marks) → Isolates x outer marks (callFunction f args)

/-- What is written to is written in the call, as far as there is a variable of the caller. -/
def Covers (outer : List Scope) (marks : List Bool) (writes : Bool) : Prop :=
  writes = true → Shielded outer marks

theorem Covers.left {first second : Bool}
    (h : Covers outer marks (first || second)) : Covers outer marks first :=
  fun hfirst => h (Bool.or_inl hfirst)

theorem Covers.right {first second : Bool}
    (h : Covers outer marks (first || second)) : Covers outer marks second :=
  fun hsecond => h (Bool.or_inr hsecond)

mutual

/-- **An expression leaves the variable of the caller alone** unless it writes to it. -/
theorem isolates_evalExpr (hcalls : CallsIsolate callFunction calls x outer) (e : AstExpr)
    (hwrites : Covers outer (mark :: rest) (Writes.expr ctx calls x e)) :
    Isolates x outer (mark :: rest) (evalExpr ctx callFunction e) := by
  cases e with
  | literal type value =>
      rw [evalExpr]
      exact .ofExcept _
  | identifier name =>
      rw [evalExpr]
      exact .inspect _
  | unary op rhs =>
      rw [evalExpr]
      exact (isolates_evalExpr hcalls rhs hwrites).bind fun _ => Isolates.ofExcept _
  | binary op lhs rhs =>
      rw [evalExpr]
      exact (isolates_evalExpr hcalls lhs hwrites.left).bind fun _ =>
        (isolates_evalExpr hcalls rhs hwrites.right).bind fun _ => Isolates.ofExcept _
  | arrayDef elementType elements =>
      rw [evalExpr]
      exact (isolates_evalExprs hcalls elements hwrites).bind fun _ => Isolates.pure
  | brace elements =>
      rw [evalExpr]
      exact (isolates_evalExprs hcalls elements hwrites).bind fun _ => Isolates.pure
  | call funcName args isRangeCall =>
      rw [Writes.expr] at hwrites
      have hargs := isolates_evalExprs hcalls args hwrites.left.left
      rw [evalExpr]
      split_ifs
      · exact .throw
      · exact (isolates_evalNumbers hcalls args hwrites.left.left).bind fun _ =>
          (Isolates.ofExcept _).bind fun _ => Isolates.pure
      · exact .throw
      · split
        · rename_i name hhead
          -- moving a variable writes to its slot
          refine isolates_transferSlot fun hmoves hname => hwrites.left.right ?_
          rw [hmoves, Writes.isName, hhead]
          exact decide_eq_true hname
        · exact hargs.bind fun _ => Isolates.ofExcept _
      · exact hargs.bind fun _ => Isolates.ofExcept _
      · exact hargs.bind fun _ => Isolates.ofExcept _
      · refine hargs.bind fun values => ?_
        -- the one case that runs other statements
        cases hfunction : ctx.findFunction funcName with
        | none => exact .throw
        | some function =>
            refine (hcalls _ function values fun hcall => hwrites.right ?_).bind fun _ =>
              Isolates.pure
            rw [hfunction]
            exact hcall
  | methodCall object methodName args =>
      rw [evalExpr]
      refine (isolates_evalExpr hcalls object hwrites.left).bind fun _ => ?_
      split_ifs
      · exact .throw
      · exact Isolates.pure
      · exact (isolates_evalExprs hcalls args hwrites.right).bind fun _ => Isolates.ofExcept _
      · exact .throw
  | fieldAccess base field =>
      rw [evalExpr]
      exact (isolates_evalExpr hcalls base hwrites).bind fun _ => Isolates.ofExcept _
  | indexAccess base index =>
      rw [evalExpr]
      exact (isolates_evalExpr hcalls base hwrites.left).bind fun _ =>
        (isolates_evalExpr hcalls index hwrites.right).bind fun _ =>
          (Isolates.ofExcept _).bind fun _ => Isolates.ofExcept _

theorem isolates_evalExprs (hcalls : CallsIsolate callFunction calls x outer) (es : List AstExpr)
    (hwrites : Covers outer (mark :: rest) (Writes.exprs ctx calls x es)) :
    Isolates x outer (mark :: rest) (evalExprs ctx callFunction es) := by
  cases es with
  | nil =>
      rw [evalExprs]
      exact Isolates.pure
  | cons e es =>
      rw [evalExprs]
      exact (isolates_evalExpr hcalls e hwrites.left).bind fun _ =>
        (isolates_evalExprs hcalls es hwrites.right).bind fun _ => Isolates.pure

theorem isolates_evalNumbers (hcalls : CallsIsolate callFunction calls x outer) (es : List AstExpr)
    (hwrites : Covers outer (mark :: rest) (Writes.exprs ctx calls x es)) :
    Isolates x outer (mark :: rest) (evalNumbers ctx callFunction es) := by
  cases es with
  | nil =>
      rw [evalNumbers]
      exact Isolates.pure
  | cons e es =>
      rw [evalNumbers]
      exact (isolates_evalExpr hcalls e hwrites.left).bind fun _ =>
        (Isolates.ofExcept _).bind fun _ =>
          (isolates_evalNumbers hcalls es hwrites.right).bind fun _ => Isolates.pure

end

/-! ### Assignments -/

theorem isolates_readPlace (place : Place) : Isolates x outer marks (readPlace place) :=
  Leaves.get_bind fun _ => Isolates.ofOption _

theorem Leaves.of_and {α : Type} {m : Interpretation α} {p : Prop} {Q : α → State → Prop}
    (h : p → Leaves x outer marks m Q) :
    Triple (fun s => p ∧ At x outer marks s) m Q fun _ => Within x outer marks := by
  intro s hs
  exact h hs.1 s hs.2

/-- A place behind a name that is not written to is not in the variable of the caller. -/
theorem leaves_resolveAssignable (hcalls : CallsIsolate callFunction calls x outer) (e : AstExpr)
    (hwrites : Covers outer (mark :: rest) (Writes.target ctx calls x e)) :
    Leaves x outer (mark :: rest) (resolveAssignable ctx callFunction e) fun place s =>
      Apart x outer place ∧ At x outer (mark :: rest) s := by
  cases e with
  | identifier name =>
      rw [resolveAssignable]
      split_ifs
      · exact .throw
      · refine (Isolates.inspect _).bind fun _ => Triple.get_bind fun s hs => ?_
        refine Triple.pure fun s' heq => ⟨hs.apart (fun hx => hwrites (decide_eq_true hx)) _, ?_⟩
        rwa [heq]
  | fieldAccess base field =>
      rw [resolveAssignable]
      refine (leaves_resolveAssignable hcalls base hwrites).bind fun place => Leaves.of_and fun hplace => ?_
      refine (isolates_readPlace place).bind fun value => ?_
      split
      · split_ifs
        · exact Triple.pure fun s hs => ⟨hplace, hs⟩
        · split
          · refine Isolates.bind (Isolates.ofOption _) fun value => ?_
            refine Leaves.bind (Q := fun _ => At x outer (mark :: rest)) ?_ fun _ => ?_
            · exact Leaves.changed fun s hs => hs.write hplace _
            · exact Triple.pure fun s hs => ⟨hplace, hs⟩
          · exact .throw
      · exact .throw
  | indexAccess base index =>
      rw [resolveAssignable]
      refine (leaves_resolveAssignable hcalls base hwrites.left).bind fun place => Leaves.of_and fun hplace => ?_
      refine (isolates_evalExpr ctx hcalls index hwrites.right).bind fun index => ?_
      refine (Isolates.ofExcept _).bind fun rawIndex => ?_
      split_ifs
      · exact .throw
      · refine (isolates_readPlace place).bind fun value => ?_
        split
        · split_ifs
          · exact Triple.pure fun s hs => ⟨hplace, hs⟩
          · exact .throw
        · exact .throw
  | _ =>
      rw [resolveAssignable]
      · exact .throw
      all_goals nofun

theorem isolates_coerceDeclaredValue (value : RuntimeValue)
    (declaredType : String) (compoundFields : Option (List CompoundFieldInfo)) :
    Isolates x outer marks (coerceDeclaredValue ctx value declaredType compoundFields) := by
  unfold coerceDeclaredValue
  cases compoundFields with
  | some fields =>
      dsimp only
      by_cases hstruct : value.type = .struct
      · rw [if_pos hstruct]
        exact Isolates.pure
      · rw [if_neg hstruct]
        exact Isolates.ofExcept _
  | none =>
      dsimp only
      split
      · exact Isolates.pure
      · split
        · exact Isolates.ofOption _
        · exact Isolates.ofOption _
        · exact Isolates.pure
        · exact Isolates.ofExcept _

theorem isolates_assignIdentifier {name : String} (hname : name = x → Shielded outer (mark :: rest))
    (value : RuntimeValue) :
    Isolates x outer (mark :: rest) (assignIdentifier ctx name value) := by
  unfold assignIdentifier
  split_ifs
  · exact .throw
  · refine Leaves.get_bind fun s => ?_
    split_ifs
    · exact (Isolates.inspect _).bind fun _ =>
        (isolates_coerceDeclaredValue ctx _ _ _).bind fun _ => isolates_assign hname _
    · exact isolates_define _

theorem isolates_assignedValue (hcalls : CallsIsolate callFunction calls x outer)
    (value : Option AstExpr)
    (hwrites : Covers outer (mark :: rest) (value.any (Writes.expr ctx calls x))) :
    Isolates x outer (mark :: rest) (assignedValue ctx callFunction value) := by
  cases value with
  | none => exact Isolates.pure
  | some value => exact isolates_evalExpr ctx hcalls value hwrites

theorem isolates_coerceTo (old value : RuntimeValue) :
    Isolates x outer marks (coerceTo ctx old value) := by
  unfold coerceTo
  split_ifs
  · exact Isolates.pure
  · exact (isolates_coerceDeclaredValue ctx _ _ _).bind fun _ => Isolates.pure

theorem isolates_execAssign (hcalls : CallsIsolate callFunction calls x outer)
    (name value : Option AstExpr)
    (hwrites : Covers outer (mark :: rest) (Writes.statement ctx calls x (.assign name value))) :
    Isolates x outer (mark :: rest) (execAssign ctx callFunction name value) := by
  rw [Writes.statement] at hwrites
  refine (isolates_assignedValue ctx hcalls value hwrites.left).bind fun value => ?_
  split
  · rename_i name
    exact (isolates_assignIdentifier ctx (fun hx => hwrites.right (decide_eq_true hx)) value).bind
      fun _ => Isolates.pure
  · exact .throw
  · rename_i target _
    refine (leaves_resolveAssignable ctx hcalls target hwrites.right).bind fun place =>
      Leaves.of_and fun hplace => ?_
    exact (isolates_readPlace place).bind fun old => (isolates_coerceTo ctx old value).bind
      fun _ => (Leaves.changed fun s hs => hs.write hplace _).bind fun _ => Isolates.pure

/-! ### Declarations -/

theorem isolates_initialValue (hcalls : CallsIsolate callFunction calls x outer) (node : ℕ)
    (type : String) (initValue : Option AstExpr) (compoundFields : Option (List CompoundFieldInfo))
    (hwrites : Covers outer (mark :: rest) (initValue.any (Writes.expr ctx calls x))) :
    Isolates x outer (mark :: rest)
      (initialValue ctx callFunction node type initValue compoundFields) := by
  cases initValue with
  | some value => exact isolates_evalExpr ctx hcalls value hwrites
  | none =>
      cases compoundFields with
      | some fields => exact Isolates.pure
      | none => exact Leaves.get_bind fun s => Isolates.ofOption _

theorem isolates_settleType (node : ℕ) (type : String) (value : RuntimeValue) :
    Isolates x outer marks (settleType node type value) := by
  refine Leaves.get_bind fun s => ?_
  split_ifs
  · exact Isolates.bind (Leaves.changed fun s' hs => hs.of_scopes rfl) fun _ => Isolates.pure
  · exact Isolates.pure

/-- A declaration hides its name. -/
theorem leaves_execVarDecl (hcalls : CallsIsolate callFunction calls x outer) (node : ℕ)
    (name type : String) (initValue : Option AstExpr)
    (compoundFields : Option (List CompoundFieldInfo))
    (hwrites : Covers outer (mark :: rest) (initValue.any (Writes.expr ctx calls x))) :
    Leaves x outer (mark :: rest)
      (execVarDecl ctx callFunction node name type initValue compoundFields)
      fun _ => At x outer ((mark || decide (name = x)) :: rest) := by
  have hdeclare : Isolates x outer (mark :: rest) (declareCompound name compoundFields) := by
    cases compoundFields with
    | some fields => exact Leaves.changed fun s hs => hs.of_scopes rfl
    | none => exact Isolates.pure
  refine hdeclare.bind fun _ => ?_
  refine (isolates_initialValue ctx hcalls node type initValue compoundFields hwrites).bind
    fun value => ?_
  refine (isolates_settleType node type value).bind fun type => Leaves.get_bind fun s => ?_
  refine (isolates_coerceDeclaredValue ctx value type _).bind fun value => ?_
  exact (Leaves.attempt fun s s' hs hdefine => hs.define hdefine).bind fun _ =>
    Triple.pure fun s hs => hs

theorem isolates_initialArray (hcalls : CallsIsolate callFunction calls x outer)
    (elementType : String) (sizeExpr : Option AstExpr) (initArray : Option (String × List AstExpr))
    (hwrites : Covers outer (mark :: rest) (sizeExpr.any (Writes.expr ctx calls x) ||
      initArray.any fun array => Writes.exprs ctx calls x array.2)) :
    Isolates x outer (mark :: rest)
      (initialArray ctx callFunction elementType sizeExpr initArray) := by
  cases initArray with
  | some array =>
      obtain ⟨arrayType, elements⟩ := array
      exact (isolates_evalExprs ctx hcalls elements hwrites.right).bind fun _ => Isolates.pure
  | none =>
      have hsize : Isolates x outer (mark :: rest) (arraySize ctx callFunction sizeExpr) := by
        cases sizeExpr with
        | none => exact Isolates.pure
        | some sizeExpr =>
            refine (isolates_evalExpr ctx hcalls sizeExpr hwrites.left).bind fun value => ?_
            refine (Isolates.ofExcept _).bind fun size => ?_
            split_ifs
            · exact .throw
            · exact Isolates.pure
      exact hsize.bind fun size => (Isolates.ofOption _).bind fun _ => Isolates.pure

theorem leaves_execArrayDecl (hcalls : CallsIsolate callFunction calls x outer)
    (name elementType : String) (sizeExpr : Option AstExpr)
    (initArray : Option (String × List AstExpr))
    (hwrites : Covers outer (mark :: rest) (sizeExpr.any (Writes.expr ctx calls x) ||
      initArray.any fun array => Writes.exprs ctx calls x array.2)) :
    Leaves x outer (mark :: rest) (execArrayDecl ctx callFunction name elementType sizeExpr initArray)
      fun _ => At x outer ((mark || decide (name = x)) :: rest) := by
  refine (isolates_initialArray ctx hcalls elementType sizeExpr initArray hwrites).bind
    fun value => ?_
  exact (Leaves.attempt fun s s' hs hdefine => hs.define hdefine).bind fun _ =>
    Triple.pure fun s hs => hs

/-! ### Returns and destructuring -/

theorem isolates_returnedNames (elements : List AstExpr) :
    Isolates x outer marks (returnedNames ctx elements) := by
  induction elements with
  | nil => exact Isolates.pure
  | cons e elements ih =>
      cases e with
      | identifier name =>
          rw [returnedNames]
          exact (Isolates.inspect _).bind fun _ => ih.bind fun _ => Isolates.pure
      | _ =>
          rw [returnedNames]
          · exact .throw
          all_goals nofun

theorem isolates_returnedValues (hcalls : CallsIsolate callFunction calls x outer)
    (expr : Option AstExpr) (isValueReturn : Bool)
    (hwrites : Covers outer (mark :: rest) (expr.any (Writes.expr ctx calls x))) :
    Isolates x outer (mark :: rest) (returnedValues ctx callFunction expr isValueReturn) := by
  unfold returnedValues
  split
  · exact Isolates.pure
  · exact (Isolates.inspect _).bind fun _ => Isolates.pure
  · exact isolates_returnedNames ctx _
  · exact .throw
  · exact isolates_evalExprs ctx hcalls _ hwrites
  · exact (isolates_evalExpr ctx hcalls _ hwrites).bind fun _ => Isolates.pure

theorem isolates_assignTargets (values : List (String × RuntimeValue))
    (hwrites : ∀ value ∈ values, value.1 = x → Shielded outer (mark :: rest)) :
    Isolates x outer (mark :: rest) (assignTargets ctx values) := by
  induction values with
  | nil => exact Isolates.pure
  | cons value values ih =>
      obtain ⟨target, value⟩ := value
      rw [assignTargets]
      split_ifs
      · exact .throw
      · obtain ⟨htarget, hvalues⟩ := List.forall_mem_cons.1 hwrites
        exact (isolates_assignIdentifier ctx htarget value).bind fun _ => ih hvalues

theorem isolates_execDestructureAssign (hcalls : CallsIsolate callFunction calls x outer)
    (targets : List String) (value : Option AstExpr)
    (hwrites : Covers outer (mark :: rest)
      (value.any (Writes.expr ctx calls x) || targets.contains x)) :
    Isolates x outer (mark :: rest) (execDestructureAssign ctx callFunction targets value) := by
  unfold execDestructureAssign
  cases value with
  | none => exact .throw
  | some value =>
      refine (isolates_evalExpr ctx hcalls value hwrites.left).bind fun value => ?_
      refine (Isolates.ofExcept _).bind fun values => ?_
      refine (isolates_assignTargets ctx _ fun pair hpair hx => hwrites.right ?_).bind
        fun _ => Isolates.pure
      rw [List.contains_iff_mem, ← hx]
      exact (List.of_mem_zip hpair).1

/-! ### Loops -/

theorem isolates_bindTarget {target inferredType : String} {inner : Bool}
    (htarget : target = x → Shielded outer (mark :: rest)) (isStaticRangeLoop : Bool)
    (value : RuntimeValue) :
    Isolates x outer (inner :: mark :: rest)
      (bindTarget target inferredType isStaticRangeLoop value) := by
  refine Leaves.get_bind fun s => ?_
  split_ifs
  · exact isolates_assign (fun hx => (htarget hx).imp id (List.mem_cons_of_mem _)) value
  · exact Leaves.attempt fun s s' hs hdefine => hs.defineOutside hdefine
  · exact isolates_define _

theorem isolates_iterationValues (hcalls : CallsIsolate callFunction calls x outer)
    (iterable : AstExpr) (hwrites : Covers outer (mark :: rest) (Writes.expr ctx calls x iterable)) :
    Isolates x outer (mark :: rest) (iterationValues ctx callFunction iterable) := by
  refine (isolates_evalExpr ctx hcalls iterable hwrites).bind fun value => ?_
  cases value with
  | array values declaredType => exact Isolates.pure
  | _ => exact .throw

theorem isolates_execRounds {bind : RuntimeValue → Interpretation Unit}
    {body : Interpretation Flow} (hbind : ∀ value, Isolates x outer marks (bind value))
    (hbody : Isolates x outer marks body) (values : List RuntimeValue) :
    Isolates x outer marks (execRounds bind body values) := by
  induction values with
  | nil => exact Isolates.pure
  | cons value values ih =>
      refine (hbind value).bind fun _ => hbody.bind fun flow => ?_
      split_ifs
      · exact ih
      · exact Isolates.pure

/-! ### Statements -/

theorem isolates_block {statements : Interpretation Flow}
    (hstatements : Isolates x outer (false :: marks) statements) :
    Isolates x outer marks (inBlock true statements) :=
  Isolates.inBlock hstatements

theorem Covers.enter {writes : Bool} (h : Covers outer marks writes)
    (inner : Bool) : Covers outer (inner :: marks) writes :=
  fun hwrites => (h hwrites).imp id (List.mem_cons_of_mem inner)

mutual

/-- **A statement leaves the variable of the caller alone** unless it writes to it; a declaration hides
it from what follows. -/
theorem leaves_execStmt (hcalls : CallsIsolate callFunction calls x outer) (mark : Bool)
    (rest : List Bool) (stmt : AstStmt)
    (hwrites : Covers outer (mark :: rest) (Writes.statement ctx calls x stmt)) :
    Leaves x outer (mark :: rest) (execStmt ctx callFunction stmt)
      fun _ => At x outer ((mark || Writes.declares x stmt) :: rest) := by
  -- a statement that declares no name leaves the marks as they were
  have hother : ∀ {m : Interpretation Flow}, Isolates x outer (mark :: rest) m →
      Writes.declares x stmt = false →
      Leaves x outer (mark :: rest) m
        fun _ => At x outer ((mark || Writes.declares x stmt) :: rest) := by
    intro m hm hdeclares
    rw [hdeclares, Bool.or_false]
    exact hm
  cases stmt with
  | block statements =>
      rw [Writes.statement] at hwrites
      rw [execStmt]
      refine hother (isolates_block ?_) rfl
      exact isolates_execStatements hcalls false (mark :: rest) statements (hwrites.enter false)
  | ifElse condition thenBranch elseBranch =>
      cases condition with
      | none =>
          rw [execStmt]
          exact .throw
      | some condition =>
          rw [Writes.statement] at hwrites
          rw [execStmt]
          refine hother ((isolates_evalExpr ctx hcalls condition hwrites.left.left).bind
            fun value => ?_) rfl
          split_ifs
          · exact isolates_execBranch hcalls mark rest thenBranch hwrites.left.right
          · exact isolates_execBranch hcalls mark rest elseBranch hwrites.right
  | forLoop target inferredType iterable body =>
      cases iterable with
      | none =>
          rw [execStmt]
          exact .throw
      | some iterable =>
          cases body with
          | none =>
              rw [execStmt]
              exact hother Isolates.pure rfl
          | some body =>
              rw [Writes.statement, Writes.loopBody] at hwrites
              rw [execStmt]
              refine hother ((isolates_iterationValues ctx hcalls iterable hwrites.left.left).bind
                fun values => ?_) rfl
              obtain ⟨isStaticRangeLoop, values⟩ := values
              -- the loop has a scope of its own around the scope of each round
              refine (Isolates.returning (Leaves.bind (Leaves.changed fun s hs => hs.enter) fun _ =>
                (isolates_execRounds (fun value => ?_) (isolates_block ?_) values).weaken
                  (fun _ => id) ?_ ?_)).weaken (fun _ => id) (fun _ _ => id) fun _ _ hs => hs.within
              · exact isolates_bindTarget
                  (fun hx => hwrites.left.right (decide_eq_true hx)) isStaticRangeLoop value
              · exact isolates_execStatements hcalls false _ body ((hwrites.right.enter _).enter _)
              · exact fun _ s hs => Within.outwards [false] hs.within
              · exact fun _ s hs => Within.outwards [false] hs
  | assign name value =>
      rw [execStmt]
      exact hother (isolates_execAssign ctx hcalls name value hwrites) rfl
  | varDecl node name type initValue compoundFields =>
      rw [execStmt]
      exact leaves_execVarDecl ctx hcalls node name type initValue compoundFields hwrites
  | arrayDecl name elementType sizeExpr initArray =>
      rw [execStmt]
      exact leaves_execArrayDecl ctx hcalls name elementType sizeExpr initArray hwrites
  | exprStmt expr =>
      cases expr with
      | none =>
          rw [execStmt]
          exact hother Isolates.pure rfl
      | some expr =>
          rw [execStmt]
          exact hother ((isolates_evalExpr ctx hcalls expr hwrites).bind fun _ => Isolates.pure) rfl
  | returnStmt expr isValueReturn =>
      rw [execStmt]
      exact hother ((isolates_returnedValues ctx hcalls expr isValueReturn hwrites).bind
        fun _ => Isolates.pure) rfl
  | destructureAssign targets value =>
      rw [execStmt]
      exact hother (isolates_execDestructureAssign ctx hcalls targets value hwrites) rfl

theorem isolates_execBranch (hcalls : CallsIsolate callFunction calls x outer) (mark : Bool)
    (rest : List Bool) (branch : Option AstStmt)
    (hwrites : Covers outer (mark :: rest) (Writes.branch ctx calls x branch)) :
    Isolates x outer (mark :: rest) (execBranch ctx callFunction branch) := by
  cases branch with
  | none => exact Isolates.pure
  | some stmt =>
      exact (leaves_execStmt hcalls mark rest stmt hwrites).imp
        fun _ s hs => hs.forget (forall₂_or _ _ _)

/-- **A sequence leaves the variable of the caller alone** unless it writes to it before it declares the
name. -/
theorem isolates_execStatements (hcalls : CallsIsolate callFunction calls x outer) (mark : Bool)
    (rest : List Bool) (statements : List AstStmt)
    (hwrites : Covers outer (mark :: rest) (Writes.block ctx calls x statements)) :
    Isolates x outer (mark :: rest) (execStatements ctx callFunction statements) := by
  cases statements with
  | nil => exact Isolates.pure
  | cons stmt statements =>
      rw [Writes.block] at hwrites
      rw [execStatements]
      refine (leaves_execStmt hcalls mark rest stmt hwrites.left).bind fun flow => ?_
      split_ifs
      · refine (isolates_execStatements hcalls (mark || Writes.declares x stmt) rest statements
          fun hrest => ?_).weaken (fun _ => id) (fun _ s hs => hs.forget (forall₂_or _ _ _))
            fun _ s hs => hs.forget (forall₂_or _ _ _)
        -- what follows a declaration of the name is in a scope that has it
        cases hdeclares : Writes.declares x stmt with
        | true =>
            rw [Bool.or_true]
            exact .inr List.mem_cons_self
        | false =>
            rw [Bool.or_false]
            refine hwrites.right ?_
            rw [hdeclares, hrest]
            rfl
      · exact Triple.pure fun s hs => hs.forget (forall₂_or _ _ _)

end

/-! ### Calls -/

/-- The parameters hide their names. -/
theorem leaves_bindParameters (mark : Bool) (rest : List Bool) (parameters : List (String × String))
    (args : List RuntimeValue) :
    Leaves x outer (mark :: rest) (bindParameters ctx parameters args) fun _ =>
      At x outer ((mark || parameters.any fun parameter => parameter.1 = x) :: rest) := by
  induction parameters generalizing mark args with
  | nil =>
      rw [List.any_nil, Bool.or_false]
      exact Isolates.pure
  | cons parameter parameters ih =>
      obtain ⟨name, type⟩ := parameter
      have hargument : Isolates x outer (mark :: rest) (argumentOr ctx type args) := by
        cases args with
        | nil => exact Isolates.ofOption _
        | cons value args => exact Isolates.pure
      rw [bindParameters, List.any_cons, ← Bool.or_assoc]
      refine hargument.bind fun value => (isolates_coerceDeclaredValue ctx value type none).bind
        fun value => ?_
      refine Leaves.bind (Q := fun _ => At x outer ((mark || decide (name = x)) :: rest))
        (Leaves.attempt fun s s' hs hdefine => hs.define hdefine) fun _ => ?_
      exact (ih _ args.tail).weaken (fun _ => id) (fun _ _ => id)
        fun _ _ hs => hs.forget (forall₂_or _ _ _)

/-- A call leaves the scopes as they are, also where it throws. -/
theorem at_callWith (hcalls : CallsIsolate callFunction calls x outer)
    (f : FunctionNode) (args : List RuntimeValue)
    (hwrites : Covers outer marks (Writes.function ctx calls x f)) :
    Triple (At x outer marks) (callWith ctx callFunction f args) (fun _ => At x outer marks)
      fun _ => At x outer marks := by
  unfold callWith
  cases hblock : f.block with
  | none => exact Triple.throw fun _ hs => hs
  | some body =>
      dsimp only
      split_ifs
      · exact Triple.throw fun _ hs => hs
      · refine Triple.bind (Isolates.returning (Leaves.bind (Leaves.changed fun s hs => hs.enter)
          fun _ => Triple.bind ((leaves_bindParameters ctx false marks f.parameters args).weaken
            (fun _ => id) (fun _ _ => id) fun _ _ => Within.outwards [false]) fun _ => ?_))
          fun flow => Triple.pure fun _ hs => hs
        refine (Isolates.inBlock (isolates_execStatements ctx hcalls _ marks body
          fun hbody => ?_)).weaken (fun _ => id) (fun _ _ hs => Within.outwards [_] hs.within)
            fun _ _ => Within.outwards [_]
        cases hparameters : f.parameters.any fun parameter => parameter.1 = x with
        | true => exact .inr List.mem_cons_self
        | false =>
            refine (hwrites ?_).imp id (List.mem_cons_of_mem _)
            rw [Writes.function, hparameters, hblock, Option.any_some, hbody]
            rfl

end Running

/-- **A call leaves the scopes as they are**, by induction on the depth of the calls within. -/
theorem at_callFunction (ctx : RuntimeContext) {x : String} {outer : List Scope} (depth : ℕ)
    {marks : List Bool} (f : FunctionNode) (args : List RuntimeValue)
    (hwrites : Covers outer marks (callWrites ctx x depth f)) :
    Triple (At x outer marks) (callFunction ctx depth f args) (fun _ => At x outer marks)
      fun _ => At x outer marks := by
  induction depth generalizing marks f args with
  | zero => exact Triple.ofOption nofun
  | succ depth ih =>
      refine at_callWith ctx (fun marks g values hg => ?_) f args hwrites
      exact (ih g values hg).weaken (fun _ => id) (fun _ _ => id) fun _ _ hs => hs.within

end ASTInterpreter

open ASTInterpreter

/-- **A call changes no other variable of its caller.**  However a call ends, with a result or an error,
the depth is the one before it, and a variable of the caller whose name neither the function nor one that
it calls writes to, where no parameter and no earlier declaration hides it, is as it was in every scope. -/
theorem callFunction_isolated (ctx : RuntimeContext) (depth : ℕ) (f : FunctionNode)
    (args : List RuntimeValue) (s s' : State) (result : Except RuntimeError (List RuntimeValue))
    (hrun : callFunction ctx depth f args s = some (result, s')) :
    s'.scopes.length = s.scopes.length ∧
      ∀ x, ¬ WritesCaller ctx f x → List.Forall₂ (SameSlot x) s.scopes s'.scopes := by
  have hended : ∀ {x : String} {outer : List Scope} {marks : List Bool},
      Covers outer marks (callWrites ctx x depth f) → At x outer marks s → At x outer marks s' := by
    intro x outer marks hwrites hs
    have houtcome := at_callFunction ctx depth f args hwrites s hs result s' hrun
    cases result with
    | ok values => exact houtcome
    | error e => exact houtcome
  have hlength : s'.scopes.length = s.scopes.length := by
    -- all scopes count as those of the call, so that nothing is to be kept of them
    have hs : At f.name [] (List.replicate s.scopes.length false) s := by
      refine ⟨s.scopes, [], (List.append_nil _).symm, ?_, .nil⟩
      exact List.forall₂_iff_get.2 ⟨List.length_replicate, fun i hi _ hmark => by simp at hmark⟩
    rw [(hended (fun _ => .inl rfl) hs).length, ← hs.length]
  refine ⟨hlength, fun x hwrites => ?_⟩
  have hs : At x s.scopes [] s :=
    ⟨[], s.scopes, rfl, .nil, List.forall₂_same.2 fun _ _ => rfl⟩
  obtain ⟨top, mid, hscopes, htop, hmid⟩ :=
    hended (fun h => absurd ⟨depth, h⟩ hwrites) hs
  cases htop
  rw [hscopes]
  exact hmid

def overwriting (parameters : List (String × String)) : FunctionNode where
  name := "f"
  parameters := parameters
  block := some [.assign (some (.identifier "x")) (some (.literal .number "2"))]

def callerState : State where
  scopes := [[("x", { value := .fromInt 1, declaredType := "int" })]]
  globals := []

/-- The context of a contract with a function. -/
def callerContext (f : FunctionNode) : RuntimeContext where
  functions := [f]
  structs := []
  objects := ⟨.voidValue, .voidValue⟩
  hashes := ⟨ripemd160Digest, sha1Digest, sha256Digest, hash160Digest, hash256Digest, none, none⟩

/-- A parameter hides the variable of the caller. -/
theorem callFunction_isolated_parameter : ∃ s',
    callFunction (callerContext (overwriting [("x", "int")])) 1 (overwriting [("x", "int")])
      [.fromInt 5] callerState = some (.ok [], s') ∧
      s'.scopes.length = 1 ∧ List.Forall₂ (SameSlot "x") callerState.scopes s'.scopes := by
  refine ⟨callerState, rfl, ?_⟩
  have hisolated := callFunction_isolated (callerContext (overwriting [("x", "int")])) 1
    (overwriting [("x", "int")]) [.fromInt 5] callerState callerState (.ok []) rfl
  refine ⟨hisolated.1, hisolated.2 "x" ?_⟩
  rintro ⟨depth, hwrites⟩
  cases depth with
  | zero => cases hwrites
  | succ depth => cases hwrites

/-- **A call can change a variable of its caller**: a function without parameters assigns to a name of
the caller. -/
theorem not_callFunction_isolated : ∃ s',
    callFunction (callerContext (overwriting [])) 1 (overwriting []) [] callerState =
      some (.ok [], s') ∧
      ¬ List.Forall₂ (SameSlot "x") callerState.scopes s'.scopes := by
  refine ⟨_, rfl, fun hsame => ?_⟩
  cases hsame with
  | cons hslot _ => cases hslot

end AtomicProof
