/-
How statements end.

A statement falls through, returns from the inlined function with `return`, or ends the script with
`Return`.  `control_flow_analysis.h` of `src/src/compiler` collects the ways in which it may end, without
looking at conditions or ranges: both branches of a conditional count, a loop may run not at all, and what
stands after a statement that never falls through does not count.  The interpreter takes only ways that
are collected.

Main definitions:

* `ControlFlowOutcomes`, `controlFlowOutcomes`, `sequenceControlFlowOutcomes` — the analysis;
* `ControlFlowOutcomes.Allows` — a way of ending is among the outcomes.

Main results:

* `ASTInterpreter.execStmt_allowed`, `ASTInterpreter.execStatements_allowed` — a statement and a sequence
  end in a way that is collected, whatever calls do;
* `controlFlowOutcomes_sound` — **the analysis is sound for the interpreter**.
-/

import AtomicProof.Interpreter

set_option autoImplicit false

namespace AtomicProof

/-! ### The analysis -/

structure ControlFlowOutcomes where
  fallsThrough : Bool := false
  inlineReturns : Bool := false
  scriptTerminates : Bool := false
  deriving DecidableEq, Repr

namespace ControlFlowOutcomes

/-- What a statement adds to the outcomes of a sequence that falls through to it. -/
def followedBy (result current : ControlFlowOutcomes) : ControlFlowOutcomes where
  fallsThrough := current.fallsThrough
  inlineReturns := result.inlineReturns || current.inlineReturns
  scriptTerminates := result.scriptTerminates || current.scriptTerminates

def either (thenOutcomes elseOutcomes : ControlFlowOutcomes) : ControlFlowOutcomes where
  fallsThrough := thenOutcomes.fallsThrough || elseOutcomes.fallsThrough
  inlineReturns := thenOutcomes.inlineReturns || elseOutcomes.inlineReturns
  scriptTerminates := thenOutcomes.scriptTerminates || elseOutcomes.scriptTerminates

/-- A way of ending is among the outcomes. -/
def Allows (outcomes : ControlFlowOutcomes) (flow : ASTInterpreter.Flow) : Prop :=
  match flow.kind, flow.isValueReturn with
  | .normal, _ => outcomes.fallsThrough = true
  | .ret, true => outcomes.inlineReturns = true
  | .ret, false => outcomes.scriptTerminates = true

end ControlFlowOutcomes

mutual

def controlFlowOutcomes : AstStmt → ControlFlowOutcomes
  | .returnStmt _ isValueReturn =>
      if isValueReturn then { inlineReturns := true } else { scriptTerminates := true }
  | .block statements => sequenceOutcomes { fallsThrough := true } statements
  | .ifElse _ thenBranch elseBranch =>
      (branchOutcomes thenBranch).either (branchOutcomes elseBranch)
  | .forLoop _ _ _ body => { bodyOutcomes body with fallsThrough := true }
  | _ => { fallsThrough := true }

def branchOutcomes : Option AstStmt → ControlFlowOutcomes
  | some stmt => controlFlowOutcomes stmt
  | none => { fallsThrough := true }

def bodyOutcomes : Option (List AstStmt) → ControlFlowOutcomes
  | some statements => sequenceOutcomes { fallsThrough := true } statements
  | none => { fallsThrough := true }

/-- The loop of `sequenceControlFlowOutcomes` over the remaining statements. -/
def sequenceOutcomes (result : ControlFlowOutcomes) : List AstStmt → ControlFlowOutcomes
  | [] => result
  | stmt :: rest =>
      if result.fallsThrough then sequenceOutcomes (result.followedBy (controlFlowOutcomes stmt)) rest
      else result

end

def sequenceControlFlowOutcomes (statements : List AstStmt) (startIndex : ℕ) : ControlFlowOutcomes :=
  sequenceOutcomes { fallsThrough := true } (statements.drop startIndex)

/-! ### Outcomes -/

namespace ControlFlowOutcomes

variable {outcomes result current : ControlFlowOutcomes} {flow : ASTInterpreter.Flow}

theorem allows_of_normal (hflow : flow.kind = .normal) (h : outcomes.fallsThrough = true) :
    outcomes.Allows flow := by
  unfold Allows
  rw [hflow]
  exact h

theorem Allows.mono (h : current.Allows flow)
    (hfalls : current.fallsThrough = true → result.fallsThrough = true)
    (hinline : current.inlineReturns = true → result.inlineReturns = true)
    (hscript : current.scriptTerminates = true → result.scriptTerminates = true) :
    result.Allows flow := by
  obtain ⟨kind, values, isValueReturn⟩ := flow
  cases kind with
  | normal => exact hfalls h
  | ret =>
      cases isValueReturn with
      | true => exact hinline h
      | false => exact hscript h

theorem Allows.left (h : current.Allows flow) : (current.either result).Allows flow := by
  refine h.mono ?_ ?_ ?_ <;> intro hset <;> simp [either, hset]

theorem Allows.right (h : current.Allows flow) : (result.either current).Allows flow := by
  refine h.mono ?_ ?_ ?_ <;> intro hset <;> simp [either, hset]

theorem Allows.returns (h : current.Allows flow) (hflow : flow.kind ≠ .normal)
    (hinline : current.inlineReturns = true → result.inlineReturns = true)
    (hscript : current.scriptTerminates = true → result.scriptTerminates = true) :
    result.Allows flow := by
  obtain ⟨kind, values, isValueReturn⟩ := flow
  cases kind with
  | normal => exact absurd rfl hflow
  | ret =>
      cases isValueReturn with
      | true => exact hinline h
      | false => exact hscript h

end ControlFlowOutcomes

/-- The returns of a sequence stay. -/
theorem returns_sequenceOutcomes (result : ControlFlowOutcomes) (statements : List AstStmt) :
    (result.inlineReturns = true → (sequenceOutcomes result statements).inlineReturns = true) ∧
      (result.scriptTerminates = true →
        (sequenceOutcomes result statements).scriptTerminates = true) := by
  induction statements generalizing result with
  | nil => exact ⟨id, id⟩
  | cons stmt rest ih =>
      rw [sequenceOutcomes]
      split_ifs
      · obtain ⟨hinline, hscript⟩ := ih (result.followedBy (controlFlowOutcomes stmt))
        refine ⟨fun h => hinline ?_, fun h => hscript ?_⟩
        · simp [ControlFlowOutcomes.followedBy, h]
        · simp [ControlFlowOutcomes.followedBy, h]
      · exact ⟨id, id⟩

/-! ### Executions -/

namespace ASTInterpreter

open AtomicProof.Computation

variable {α : Type} (ctx : RuntimeContext)
  (callFunction : FunctionNode → List RuntimeValue → Interpretation (List RuntimeValue))

/-! #### What runs around a statement -/

section Around

variable {p : Flow → Prop} {m : Interpretation Flow}

theorem yields_returning (hm : Yields m p) : Yields (returning m) p := by
  exact .after fun depth => (hm.tryCatch fun error => .after fun _ => .throw).bind fun a ha =>
    .after fun _ => .pure ha

theorem yields_inBlock (createScope : Bool) (hm : Yields m p) : Yields (inBlock createScope m) p := by
  exact .after fun depth => .after fun _ => hm.bind fun flow hflow => .after fun _ => .pure hflow

end Around

/-! #### Statements that fall through -/

def Falls (m : Interpretation Flow) : Prop := Yields m fun flow => flow.kind = .normal

theorem falls_execAssign (name value : Option AstExpr) :
    Falls (execAssign ctx callFunction name value) := by
  refine .after fun value => ?_
  split
  · exact .after fun _ => .pure rfl
  · exact .throw
  · exact .after fun _ => .after fun _ => .after fun _ => .after fun _ => .pure rfl

theorem falls_execVarDecl (node : ℕ) (name type : String) (initValue : Option AstExpr)
    (compoundFields : Option (List CompoundFieldInfo)) :
    Falls (execVarDecl ctx callFunction node name type initValue compoundFields) :=
  .after fun _ => .after fun _ => .after fun _ => .after fun _ => .after fun _ => .after fun _ =>
    .pure rfl

theorem falls_execArrayDecl (name elementType : String) (sizeExpr : Option AstExpr)
    (initArray : Option (String × List AstExpr)) :
    Falls (execArrayDecl ctx callFunction name elementType sizeExpr initArray) :=
  .after fun _ => .after fun _ => .pure rfl

theorem falls_execDestructureAssign (targets : List String) (value : Option AstExpr) :
    Falls (execDestructureAssign ctx callFunction targets value) := by
  unfold execDestructureAssign
  cases value with
  | none => exact .throw
  | some value =>
      exact .after fun _ => .after fun _ => .after fun _ => .pure rfl

theorem yields_execReturn (expr : Option AstExpr) (isValueReturn : Bool) :
    Yields (execReturn ctx callFunction expr isValueReturn) fun flow =>
      flow.kind = .ret ∧ flow.isValueReturn = isValueReturn :=
  .after fun _ => .pure ⟨rfl, rfl⟩

theorem yields_execRounds {p : Flow → Prop} {bind : RuntimeValue → Interpretation Unit}
    {body : Interpretation Flow} (hempty : p {}) (hbody : Yields body p) (values : List RuntimeValue) :
    Yields (execRounds bind body values) p := by
  induction values with
  | nil => exact .pure hempty
  | cons value rest ih =>
      refine .after fun _ => hbody.bind fun flow hflow => ?_
      split_ifs
      · exact ih
      · exact .pure hflow

/-! #### Statements -/

mutual

/-- **A statement ends in a way that is collected**, whatever calls do. -/
theorem execStmt_allowed (stmt : AstStmt) :
    Yields (execStmt ctx callFunction stmt) (controlFlowOutcomes stmt).Allows := by
  -- a statement without a return inside only falls through
  have hfalls : ∀ {m : Interpretation Flow} {outcomes : ControlFlowOutcomes}, Falls m →
      outcomes.fallsThrough = true → Yields m outcomes.Allows := fun hm h =>
    hm.imp fun flow hflow => ControlFlowOutcomes.allows_of_normal hflow h
  cases stmt with
  | block statements =>
      rw [execStmt, controlFlowOutcomes]
      exact yields_inBlock true (execStatements_allowed statements _ rfl)
  | ifElse condition thenBranch elseBranch =>
      rw [controlFlowOutcomes]
      cases condition with
      | none =>
          rw [execStmt]
          exact .throw
      | some condition =>
          rw [execStmt]
          refine .after fun value => ?_
          split_ifs
          · exact (execBranch_allowed thenBranch).imp fun flow h => h.left
          · exact (execBranch_allowed elseBranch).imp fun flow h => h.right
  | forLoop target inferredType iterable body =>
      rw [controlFlowOutcomes]
      cases iterable with
      | none =>
          rw [execStmt]
          exact .throw
      | some iterable =>
          cases body with
          | none =>
              rw [execStmt]
              exact .pure rfl
          | some body =>
              rw [execStmt]
              refine .after fun _ => yields_returning (.after fun _ => ?_)
              refine yields_execRounds ?_ (yields_inBlock true ?_) _
              · rfl
              · refine (execStatements_allowed body { fallsThrough := true } rfl).imp fun _ h => ?_
                exact h.mono (fun _ => rfl) id id
  | assign name value =>
      rw [execStmt, controlFlowOutcomes]
      · exact hfalls (falls_execAssign ctx callFunction name value) rfl
      all_goals nofun
  | varDecl node name type initValue compoundFields =>
      rw [execStmt, controlFlowOutcomes]
      · exact hfalls (falls_execVarDecl ctx callFunction node name type initValue compoundFields) rfl
      all_goals nofun
  | arrayDecl name elementType sizeExpr initArray =>
      rw [execStmt, controlFlowOutcomes]
      · exact hfalls (falls_execArrayDecl ctx callFunction name elementType sizeExpr initArray) rfl
      all_goals nofun
  | exprStmt expr =>
      rw [controlFlowOutcomes]
      · cases expr with
        | none =>
            rw [execStmt]
            exact .pure rfl
        | some expr =>
            rw [execStmt]
            exact .after fun _ => .pure rfl
      all_goals nofun
  | returnStmt expr isValueReturn =>
      rw [execStmt, controlFlowOutcomes]
      refine (yields_execReturn ctx callFunction expr isValueReturn).imp fun flow hflow => ?_
      obtain ⟨kind, values, returned⟩ := flow
      obtain ⟨rfl, rfl⟩ := hflow
      cases returned with
      | true => rfl
      | false => rfl
  | destructureAssign targets value =>
      rw [execStmt, controlFlowOutcomes]
      · exact hfalls (falls_execDestructureAssign ctx callFunction targets value) rfl
      all_goals nofun

theorem execBranch_allowed (branch : Option AstStmt) :
    Yields (execBranch ctx callFunction branch) (branchOutcomes branch).Allows := by
  cases branch with
  | none => exact .pure rfl
  | some stmt => exact execStmt_allowed stmt

/-- **A sequence ends in a way that is collected** where it is reached at all. -/
theorem execStatements_allowed (statements : List AstStmt) (result : ControlFlowOutcomes)
    (hresult : result.fallsThrough = true) :
    Yields (execStatements ctx callFunction statements)
      (sequenceOutcomes result statements).Allows := by
  cases statements with
  | nil => exact .pure hresult
  | cons stmt rest =>
      rw [execStatements, sequenceOutcomes, if_pos hresult]
      refine (execStmt_allowed stmt).bind fun flow hflow => ?_
      split_ifs with hnormal
      -- the next statement is reached where this one is said to fall through
      · refine execStatements_allowed rest _ ?_
        unfold ControlFlowOutcomes.Allows at hflow
        rw [hnormal] at hflow
        exact hflow
      · obtain ⟨hinline, hscript⟩ := returns_sequenceOutcomes
          (result.followedBy (controlFlowOutcomes stmt)) rest
        refine .pure (hflow.returns hnormal (fun h => hinline ?_) fun h => hscript ?_)
        · simp [ControlFlowOutcomes.followedBy, h]
        · simp [ControlFlowOutcomes.followedBy, h]

end

end ASTInterpreter

open ASTInterpreter in
/-- **The analysis is sound for the interpreter**: a statement, and the rest of a sequence from any index,
end in a way that is among their outcomes; a sequence that always returns never falls through. -/
theorem controlFlowOutcomes_sound (ctx : RuntimeContext) (depth : ℕ) :
    (∀ stmt s flow s', execStmt ctx (callFunction ctx depth) stmt s = some (.ok flow, s') →
      (controlFlowOutcomes stmt).Allows flow) ∧
    ∀ statements startIndex s flow s',
      execStatements ctx (callFunction ctx depth) (statements.drop startIndex) s =
        some (.ok flow, s') →
      (sequenceControlFlowOutcomes statements startIndex).Allows flow ∧
        ((sequenceControlFlowOutcomes statements startIndex).fallsThrough = false →
          flow.kind = .ret) := by
  refine ⟨fun stmt s flow s' hrun => (execStmt_allowed ctx _ stmt).elim hrun, ?_⟩
  intro statements startIndex s flow s' hrun
  have hallowed : (sequenceControlFlowOutcomes statements startIndex).Allows flow :=
    (execStatements_allowed ctx _ _ { fallsThrough := true } rfl).elim hrun
  refine ⟨hallowed, fun hreturns => ?_⟩
  obtain ⟨kind, values, isValueReturn⟩ := flow
  cases kind with
  | normal => exact absurd (hreturns.symm.trans hallowed) Bool.false_ne_true
  | ret => rfl

open ASTInterpreter in
/-- A block that returns from one branch of a conditional and does not reach what follows. -/
theorem controlFlowOutcomes_sound_return (ctx : RuntimeContext) :
    (controlFlowOutcomes (.block [.ifElse (some (.literal .boolean "true"))
      (some (.returnStmt none true)) none, .returnStmt none false])).Allows
        { kind := .ret, isValueReturn := true } :=
  (controlFlowOutcomes_sound ctx 0).1 _ ⟨[], [], [], []⟩ _ ⟨[], [], [], []⟩ rfl

end AtomicProof
