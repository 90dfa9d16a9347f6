/-
Folding adds no reads and no assignments.

`ConstantFolder` of `src/src/compiler/constant_folder.cpp` decides by two counts of each name what it may
record and what it may drop: how often a function assigns to the name and how often it reads it.  It counts
once, before it folds.  The counts stay bounds while it works: nothing that it puts in, drops or selects
adds a read of a name or an assignment to one, and the root of a target that is folded stays what it was.

Main definitions:

* `Fewer`, `FewerInBody` — what is left of a statement and of a body adds no more to any count.

Main results:

* `countReads_foldExpr` — folding an expression adds no reads;
* `extractAssignTargetName_foldExpr` — a target keeps its root;
* `fewer_foldStmt` — what is left of a statement adds no more to any count;
* `foldFunction_counts` — **the counts of a function are bounds for the folded function**.
-/

import AtomicProof.ConstantFolder

set_option autoImplicit false

namespace AtomicProof

namespace ConstantFolder

/-! ### Expressions -/

section Expressions

variable (name : String)

theorem countReads_tryFoldOp (op : AstExpr) (F : Folder) :
    countReadsInExpr name (tryFoldOp op F).1 ≤ countReadsInExpr name op := by
  rw [tryFoldOp]
  split_ifs
  · cases evaluate (fun _ => none) op.node with
    | none => exact le_refl _
    | some result =>
        cases result with
        | known value => exact Nat.zero_le _
        | unknown => exact le_refl _
        | error diagnostic => exact le_refl _
  · exact le_refl _

theorem countReads_shortCircuit {op : String} {lhs result : AstExpr}
    (h : shortCircuit op lhs = some result) : countReadsInExpr name result = 0 := by
  obtain ⟨constant, -, h⟩ := Option.bind_eq_some_iff.1 h
  obtain ⟨value, -, h⟩ := Option.bind_eq_some_iff.1 h
  split_ifs at h
  · obtain rfl := Option.some.inj h
    rfl
  · obtain rfl := Option.some.inj h
    rfl

mutual

/-- **Folding an expression adds no reads.** -/
theorem countReads_foldExpr (context : FoldContext) (e : AstExpr) (F : Folder) :
    countReadsInExpr name (foldExpr context e F).1 ≤ countReadsInExpr name e := by
  cases e with
  | literal type value =>
      rw [foldExpr]
      exact le_refl _
  | identifier read =>
      rw [foldExpr]
      show countReadsInExpr name
        (((F.consts.scalarAt context read).map Constant.node).getD (.identifier read)) ≤ _
      cases F.consts.scalarAt context read with
      | none => exact le_refl _
      | some constant => exact Nat.zero_le _
  | unary op rhs =>
      have hwhole : countReadsInExpr name (.unary op (foldExpr context rhs F).1) ≤
          countReadsInExpr name (.unary op rhs) := countReads_foldExpr context rhs F
      rw [foldExpr, run_bind]
      split_ifs
      · exact (countReads_tryFoldOp name _ _).trans hwhole
      · exact hwhole
  | binary op lhs rhs =>
      have hwhole : countReadsInExpr name (.binary op (foldExpr context lhs F).1
          (foldExpr context rhs (foldExpr context lhs F).2).1) ≤
            countReadsInExpr name (.binary op lhs rhs) :=
        Nat.add_le_add (countReads_foldExpr context lhs F)
          (countReads_foldExpr context rhs (foldExpr context lhs F).2)
      rw [foldExpr, run_bind, run_bind]
      split_ifs
      · cases hshort : shortCircuit op (foldExpr context lhs F).1 with
        | some result => exact (countReads_shortCircuit name hshort).trans_le (Nat.zero_le _)
        | none => exact (countReads_tryFoldOp name _ _).trans hwhole
      · exact hwhole
  | arrayDef elementType elements =>
      rw [foldExpr]
      exact countReads_foldExprs .rValue elements F
  | brace elements =>
      rw [foldExpr]
      exact countReads_foldExprs .rValue elements F
  | call funcName args isRangeCall =>
      rw [foldExpr]
      exact countReads_foldExprs _ args F
  | methodCall object methodName args =>
      rw [foldExpr]
      exact Nat.add_le_add (countReads_foldExpr .identity object F)
        (countReads_foldExprs .rValue args (foldExpr .identity object F).2)
  | fieldAccess base field =>
      rw [foldExpr]
      exact countReads_foldExpr _ base F
  | indexAccess base index =>
      rw [foldExpr, run_bind, run_bind]
      have hbase := countReads_foldExpr (if context = .rValue then .rValue else .identity) base F
      have hindex := countReads_foldExpr .rValue index
        (foldExpr (if context = .rValue then .rValue else .identity) base F).2
      -- an element that is known takes the place of the array and of the index
      show countReadsInExpr name (Option.getD (Option.map _ (ConstEnvironment.elementAt _ context _ _)) _) ≤ _
      cases ConstEnvironment.elementAt _ context _ _ with
      | none => exact Nat.add_le_add hbase hindex
      | some constant => exact Nat.zero_le _

theorem countReads_foldExprs (context : FoldContext) (es : List AstExpr) (F : Folder) :
    countReadsInExprs name (foldExprs context es F).1 ≤ countReadsInExprs name es := by
  cases es with
  | nil =>
      rw [foldExprs]
      exact le_refl _
  | cons e rest =>
      rw [foldExprs]
      exact Nat.add_le_add (countReads_foldExpr context e F)
        (countReads_foldExprs context rest (foldExpr context e F).2)

end

theorem countReads_foldOption (context : FoldContext) (e : Option AstExpr) (F : Folder) :
    countReadsInOption name (foldOption context e F).1 ≤ countReadsInOption name e := by
  cases e with
  | none => exact le_refl _
  | some e => exact countReads_foldExpr name context e F

theorem countReads_foldInitArray (initArray : Option (String × List AstExpr)) (F : Folder) :
    countReadsInExprs name (((foldInitArray initArray F).1.map Prod.snd).getD []) ≤
      countReadsInExprs name ((initArray.map Prod.snd).getD []) := by
  cases initArray with
  | none => exact le_refl _
  | some array => exact countReads_foldExprs name .rValue array.2 F

end Expressions

/-! ### Targets -/

theorem elementAt_of_ne {context : FoldContext} (hcontext : context ≠ .rValue) (env : ConstEnvironment)
    (base index : AstExpr) : env.elementAt context base index = none := by
  cases base with
  | identifier name =>
      rw [ConstEnvironment.elementAt, if_neg hcontext]
      rfl
  | _ => rfl

theorem scalarAt_of_ne {context : FoldContext} (hcontext : context ≠ .rValue) (env : ConstEnvironment)
    (name : String) : env.scalarAt context name = none := if_neg hcontext

/-- **A target keeps its root**: a variable is not replaced where it is written. -/
theorem extractAssignTargetName_foldExpr {context : FoldContext} (hcontext : context ≠ .rValue)
    (e : AstExpr) (F : Folder) :
    extractAssignTargetName (foldExpr context e F).1 = extractAssignTargetName e := by
  cases e with
  | identifier name =>
      rw [foldExpr]
      show extractAssignTargetName
        (((F.consts.scalarAt context name).map Constant.node).getD (.identifier name)) = _
      rw [scalarAt_of_ne hcontext]
      rfl
  | unary op rhs =>
      rw [foldExpr, run_bind, if_neg hcontext]
      rfl
  | binary op lhs rhs =>
      rw [foldExpr, run_bind, run_bind, if_neg hcontext]
      rfl
  | fieldAccess base field =>
      rw [foldExpr, if_neg hcontext]
      exact extractAssignTargetName_foldExpr (by decide) base F
  | indexAccess base index =>
      rw [foldExpr, if_neg hcontext, run_bind, run_bind]
      show extractAssignTargetName
        (Option.getD (Option.map _ (ConstEnvironment.elementAt _ context _ _)) _) = _
      rw [elementAt_of_ne hcontext]
      exact extractAssignTargetName_foldExpr (by decide) base F
  | _ =>
      rw [foldExpr]
      rfl

/-- The reads of a target are those of the index. -/
theorem countReads_target (name : String) (target : Option AstExpr) (F : Folder) :
    countReadsInTarget name (foldOption .lValue target F).1 ≤ countReadsInTarget name target := by
  cases target with
  | none => exact le_refl _
  | some e =>
      show countReadsInTarget name (some (foldExpr .lValue e F).1) ≤ _
      cases e with
      | indexAccess base index =>
          rw [foldExpr, run_bind, run_bind]
          show countReadsInTarget name
            (some (Option.getD (Option.map _ (ConstEnvironment.elementAt _ .lValue _ _)) _)) ≤ _
          rw [elementAt_of_ne (by decide)]
          exact countReads_foldExpr name .rValue index _
      | _ =>
          rw [foldExpr]
          exact le_refl _

/-! ### Statements -/

/-- What is left of a statement adds no more to the counts of any name. -/
def Fewer (before after : Option AstStmt) : Prop := ∀ name,
  countAssignmentsInBranch name after ≤ countAssignmentsInBranch name before ∧
    countReadsInBranch name after ≤ countReadsInBranch name before

/-- What is left of a body adds no more to the counts of any name. -/
def FewerInBody (before after : Option (List AstStmt)) : Prop := ∀ name,
  countAssignmentsInBody name after ≤ countAssignmentsInBody name before ∧
    countReadsInBody name after ≤ countReadsInBody name before

theorem Fewer.dropped (before : Option AstStmt) : Fewer before none := fun _ =>
  ⟨Nat.zero_le _, Nat.zero_le _⟩

theorem Fewer.trans {before middle after : Option AstStmt} (h : Fewer before middle)
    (h' : Fewer middle after) : Fewer before after := fun name =>
  ⟨(h' name).1.trans (h name).1, (h' name).2.trans (h name).2⟩

theorem fewer_thenBranch (condition : Option AstExpr) (thenBranch elseBranch : Option AstStmt) :
    Fewer (some (.ifElse condition thenBranch elseBranch)) thenBranch := fun _ =>
  ⟨Nat.le_add_right _ _, (Nat.le_add_left _ _).trans (Nat.le_add_right _ _)⟩

theorem fewer_elseBranch (condition : Option AstExpr) (thenBranch elseBranch : Option AstStmt) :
    Fewer (some (.ifElse condition thenBranch elseBranch)) elseBranch := fun _ =>
  ⟨Nat.le_add_left _ _, Nat.le_add_left _ _⟩

/-- The body of a loop is counted once more than it stands, where it assigns at all. -/
theorem fewer_forLoop {target inferredType : String} {iterable iterable' : Option AstExpr}
    {body body' : Option (List AstStmt)} (hbody : FewerInBody body body')
    (hiterable : ∀ name, countReadsInOption name iterable' ≤ countReadsInOption name iterable) :
    Fewer (some (.forLoop target inferredType iterable body))
      (some (.forLoop target inferredType iterable' body')) := by
  intro name
  have hassigned := (hbody name).1
  refine ⟨Nat.add_le_add_left ?_ _, Nat.add_le_add (hiterable name) (hbody name).2⟩
  split_ifs
  · exact Nat.add_le_add_right hassigned 1
  · omega
  · exact Nat.zero_le _
  · exact le_refl _

section Statements

variable (counts : Counts)

mutual

/-- **What is left of a statement adds no more to any count.** -/
theorem fewer_foldStmt (stmt : AstStmt) (F : Folder) :
    Fewer (some stmt) (foldStmt counts stmt F).1 := by
  cases stmt with
  | block statements =>
      rw [foldStmt]
      exact fewer_foldStatements statements { F with declaredNames := [] :: F.declaredNames }
  | ifElse condition thenBranch elseBranch =>
      rw [foldStmt, run_bind]
      cases selectedBranch (foldOption .rValue condition F).1 with
      | some selected =>
          cases selected with
          | true => exact (fewer_thenBranch condition thenBranch elseBranch).trans (fewer_foldBranch _ _)
          | false => exact (fewer_elseBranch condition thenBranch elseBranch).trans (fewer_foldBranch _ _)
      | none =>
          -- the second branch is folded from the environment in front of both
          have hthen := fewer_foldBranch thenBranch (foldOption .rValue condition F).2
          have helse := fewer_foldBranch elseBranch
            { (foldBranch counts thenBranch (foldOption .rValue condition F).2).2 with
              consts := (foldOption .rValue condition F).2.consts }
          intro name
          refine ⟨Nat.add_le_add (hthen name).1 (helse name).1, ?_⟩
          exact Nat.add_le_add (Nat.add_le_add (countReads_foldOption name .rValue condition F)
            (hthen name).2) (helse name).2
  | forLoop target inferredType iterable body =>
      rw [foldStmt, run_bind]
      split_ifs
      · exact Fewer.dropped _
      · exact fewer_forLoop (fewer_foldBody body _) fun name =>
          countReads_foldOption name .rValue iterable F
  | assign target value =>
      rw [foldStmt, run_bind, run_bind]
      intro name
      refine ⟨?_, Nat.add_le_add (countReads_target name target F)
        (countReads_foldOption name .rValue value _)⟩
      cases target with
      | none => exact le_refl _
      | some e =>
          -- a target that lost its root would be counted for another name
          have hroot := extractAssignTargetName_foldExpr (show FoldContext.lValue ≠ .rValue by decide) e F
          show (if decide (extractAssignTargetName (foldExpr .lValue e F).1 = name) = true ∧ name ≠ "" then
            1 else 0) ≤ _
          rw [hroot]
          exact le_refl _
  | varDecl node declared type initValue compoundFields =>
      rw [foldStmt, run_bind]
      split_ifs
      · exact Fewer.dropped _
      · exact fun name => ⟨le_refl _, countReads_foldOption name .rValue initValue F⟩
  | arrayDecl declared elementType sizeExpr initArray =>
      rw [foldStmt]
      exact fun name => ⟨le_refl _, Nat.add_le_add (countReads_foldOption name .rValue sizeExpr F)
        (countReads_foldInitArray name initArray (foldOption .rValue sizeExpr F).2)⟩
  | exprStmt expr =>
      rw [foldStmt]
      exact fun name => ⟨le_refl _, countReads_foldOption name .rValue expr F⟩
  | returnStmt expr isValueReturn =>
      rw [foldStmt]
      exact fun name => ⟨le_refl _, countReads_foldOption name _ expr F⟩
  | destructureAssign targets value =>
      rw [foldStmt]
      exact fun name => ⟨le_refl _, countReads_foldOption name .rValue value F⟩

theorem fewer_foldBranch (branch : Option AstStmt) (F : Folder) :
    Fewer branch (foldBranch counts branch F).1 := by
  cases branch with
  | none =>
      rw [foldBranch]
      exact Fewer.dropped _
  | some stmt =>
      rw [foldBranch]
      exact fewer_foldStmt stmt F

theorem fewer_foldBody (body : Option (List AstStmt)) (F : Folder) :
    FewerInBody body (foldBody counts body F).1 := by
  cases body with
  | none =>
      rw [foldBody]
      exact fun name => ⟨le_refl _, le_refl _⟩
  | some statements =>
      rw [foldBody]
      exact fewer_foldStatements statements { F with declaredNames := [] :: F.declaredNames }

theorem fewer_foldStatements (statements : List AstStmt) (F : Folder) :
    FewerInBody (some statements) (some (foldStatements counts statements F).1) := by
  cases statements with
  | nil =>
      rw [foldStatements]
      exact fun name => ⟨le_refl _, le_refl _⟩
  | cons stmt rest =>
      have hrest := fewer_foldStatements rest (foldStmt counts stmt F).2
      have hstmt := fewer_foldStmt stmt F
      rw [foldStatements, run_bind, run_bind]
      intro name
      obtain ⟨hassigned, hread⟩ := hstmt name
      -- a statement that is dropped leaves nothing in the list
      cases hleft : (foldStmt counts stmt F).1 with
      | none => exact ⟨(hrest name).1.trans (Nat.le_add_left _ _), (hrest name).2.trans (Nat.le_add_left _ _)⟩
      | some left =>
          rw [hleft] at hassigned hread
          exact ⟨Nat.add_le_add hassigned (hrest name).1, Nat.add_le_add hread (hrest name).2⟩

end

end Statements

/-- **The counts of a function are bounds for the folded function**: of every name it has no more reads
and no more assignments than there were, so that what was assigned to once and never read stays so, and no
variable comes in. -/
theorem foldFunction_counts (fn : FunctionNode) (name : String) :
    (countsOf (foldFunction fn).1).assignCounts name ≤ (countsOf fn).assignCounts name ∧
      (countsOf (foldFunction fn).1).readCounts name ≤ (countsOf fn).readCounts name :=
  fewer_foldBody (countsOf fn) fn.block {} name

end ConstantFolder

end AtomicProof
