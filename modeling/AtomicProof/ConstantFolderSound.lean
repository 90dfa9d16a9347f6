/-
Folding keeps the value of an expression.

The constants that `ConstantFolder::foldExpr` of `src/src/compiler/constant_folder.cpp` puts for variables,
the operators that it computes and the operands that it drops behind `&&` and `||` change the expression that
is interpreted and lowered.  Where the folder only knows what is true of the variables, and every part of
an expression has a result, the folded expression has the value of the expression, reads no variable that
the expression does not read, and nothing is reported.  So the interpreter computes the same for both, and
the code of the folded expression leaves what the interpreter computes for the expression that was written.

Main definitions:

* `Informed` — what the folder knows is true of the variables;
* `KeepsValue` — an expression that may take the place of another one.

Main results:

* `tryFoldOp_keepsValue`, `shortCircuit_keepsValue` — an operator that is computed and one that is cut;
* `foldExpr_keepsValue` — folding keeps the value, by induction on the expression;
* `foldExpr_agrees` — **the interpreter computes the same for the folded expression**;
* `visitOperand_foldExpr` — **the code of the folded expression leaves what the interpreter computes**.
-/

import AtomicProof.ConstantFolder

set_option autoImplicit false

namespace AtomicProof

open ASTInterpreter AtomicProof.Computation

/-! ### Numbers as texts -/

/-- The text of a number spells the number. -/
theorem numeral_toString (n : ℤ) : numeral? (toString n).toList = some n := by
  obtain ⟨digits, hne, hdigits, htext⟩ := toList_toString n
  have hall : digits.all Char.isDigit = true := List.all_eq_true.2 hdigits
  unfold numeral?
  dsimp only
  rcases htext with ⟨htext, hn⟩ | ⟨htext, hn⟩
  · have hhead : digits.head? ≠ some '-' := by
      intro hminus
      have hdigit := hdigits '-' (List.mem_of_mem_head? hminus)
      exact absurd hdigit (by decide)
    rw [htext, if_neg hhead, if_pos ⟨hne, hall⟩, if_neg hhead, decimalValue_eq, hn]
  · have hhead : ('-' :: digits).head? = some '-' := rfl
    rw [htext, if_pos hhead, List.tail_cons, if_pos ⟨hne, hall⟩, if_pos hhead, decimalValue_eq, hn]

theorem value_of_numeral {bindings : String → Option Int64} {text : String} {n : ℤ}
    (h : numeral? text.toList = some n) : (ExprNode.literal .number text).value bindings = n := by
  rw [ExprNode.value, h]
  rfl

namespace ConstantFolder

variable {bindings : String → Option Int64}

/-! ### What the folder knows -/

variable (bindings) in
/-- What the folder knows of a variable is the number that the variable has. -/
def Informed (consts : ConstEnvironment) : Prop :=
  ∀ name constant, consts.scalars name = some constant →
    ∃ number, bindings name = some number ∧ constant.type = .number ∧
      numeral? constant.value.toList = some number.toInt

theorem Informed.invalidateName {consts : ConstEnvironment} (h : Informed bindings consts)
    (name : String) : Informed bindings (consts.invalidateName name) := by
  intro x constant hx
  refine h x constant ?_
  have hx : consts.scalars.invalidateName name x = some constant := hx
  rw [ConstMap.invalidateName] at hx
  split_ifs at hx with hname
  · exact hx
  · rw [Function.update_apply] at hx
    split_ifs at hx
    exact hx

/-! ### Expressions of one value -/

variable (bindings) in
/-- **An expression that may take the place of another one**: the operators are known, every part has a
result, the value is the same, and no other variable is read. -/
structure KeepsValue (e e' : ExprNode) : Prop where
  arithmetic : e'.Arithmetic
  inRange : e'.InRange bindings
  value : e'.value bindings = e.value bindings
  identifiers : e'.identifiers ⊆ e.identifiers

namespace KeepsValue

variable {e e' e'' lhs lhs' rhs rhs' : ExprNode}

theorem refl (harith : e.Arithmetic) (hrange : e.InRange bindings) : KeepsValue bindings e e :=
  ⟨harith, hrange, rfl, List.Subset.refl _⟩

theorem trans (h : KeepsValue bindings e e') (h' : KeepsValue bindings e' e'') :
    KeepsValue bindings e e'' :=
  ⟨h'.arithmetic, h'.inRange, h'.value.trans h.value, List.Subset.trans h'.identifiers h.identifiers⟩

/-- A literal of the value.  Its text need not be the one that `toString` writes. -/
theorem literal {n : ℤ} {text : String} (hvalue : e.value bindings = n) (hbound : n.natAbs < 2 ^ 63)
    (hnumeral : numeral? text.toList = some n) : KeepsValue bindings e (.literal .number text) := by
  have hliteral : (ExprNode.literal .number text).value bindings = n := value_of_numeral hnumeral
  refine ⟨⟨rfl, by rw [hnumeral]; rfl⟩, ?_, hliteral.trans hvalue.symm, List.nil_subset _⟩
  intro sub hsub
  obtain rfl := List.mem_singleton.1 hsub
  refine ⟨?_, by rwa [hliteral]⟩
  show Fits64 ((ExprNode.literal .number text).value bindings)
  rw [hliteral]
  unfold Fits64
  omega

theorem unary (h : KeepsValue bindings rhs rhs') (hrange : (ExprNode.unary .minus rhs).InRange bindings) :
    KeepsValue bindings (.unary .minus rhs) (.unary .minus rhs') := by
  have hvalue : (ExprNode.unary .minus rhs').value bindings = (ExprNode.unary .minus rhs).value bindings :=
    congrArg UnaryOp.minus.value h.value
  refine ⟨⟨rfl, h.arithmetic⟩, ?_, hvalue, h.identifiers⟩
  intro sub hsub
  rcases List.mem_cons.1 hsub with rfl | hsub
  · refine ⟨?_, by rw [hvalue]; exact hrange.self.2⟩
    show Fits64 _
    rw [hvalue]
    exact hrange.self.1
  · exact h.inRange sub hsub

theorem binary {op : BinaryOp} (hknown : op.IsKnown) (hmodulo : op ≠ .modulo)
    (hl : KeepsValue bindings lhs lhs') (hr : KeepsValue bindings rhs rhs')
    (hrange : (ExprNode.binary op lhs rhs).InRange bindings) :
    KeepsValue bindings (.binary op lhs rhs) (.binary op lhs' rhs') := by
  have hvalue : (ExprNode.binary op lhs' rhs').value bindings =
      (ExprNode.binary op lhs rhs).value bindings := congrArg₂ op.value hl.value hr.value
  refine ⟨⟨hknown, hmodulo, hl.arithmetic, hr.arithmetic⟩, ?_, hvalue, ?_⟩
  · intro sub hsub
    rcases List.mem_cons.1 hsub with rfl | hsub
    · refine ⟨?_, by rw [hvalue]; exact hrange.self.2⟩
      show op.Sound (lhs'.value bindings) (rhs'.value bindings)
      rw [hl.value, hr.value]
      exact hrange.self.1
    · rcases List.mem_append.1 hsub with hsub | hsub
      · exact hl.inRange sub hsub
      · exact hr.inRange sub hsub
  · intro name hname
    rcases List.mem_append.1 hname with hname | hname
    · exact List.mem_append_left _ (hl.identifiers hname)
    · exact List.mem_append_right _ (hr.identifiers hname)

theorem clone (h : KeepsValue bindings lhs lhs')
    (hrange : (ExprNode.methodCall lhs "Clone" 0).InRange bindings) :
    KeepsValue bindings (.methodCall lhs "Clone" 0) (.methodCall lhs' "Clone" 0) := by
  refine ⟨⟨rfl, rfl, h.arithmetic⟩, ?_, h.value, h.identifiers⟩
  intro sub hsub
  rcases List.mem_cons.1 hsub with rfl | hsub
  · have hvalue : (ExprNode.methodCall lhs' "Clone" 0).value bindings =
        (ExprNode.methodCall lhs "Clone" 0).value bindings := h.value
    refine ⟨?_, by rw [hvalue]; exact hrange.self.2⟩
    show Fits64 _
    rw [hvalue]
    exact hrange.self.1
  · rw [if_pos ⟨rfl, rfl⟩] at hsub
    exact h.inRange sub hsub

end KeepsValue

/-! ### Operators on literals -/

theorem numeral_of_arithmetic {type : BytecodeType} {text : String}
    (harith : (AstExpr.literal type text).node.Arithmetic) :
    type = .number ∧ ∃ n, numeral? text.toList = some n := by
  cases type with
  | number => exact ⟨rfl, Option.isSome_iff_exists.1 harith.2⟩
  | _ => cases harith.1

theorem eq_of_literal? {ast : AstExpr} {constant : Constant} (h : literal? ast = some constant) :
    ast = constant.node := by
  cases ast with
  | literal type text =>
      obtain rfl := Option.some.inj h
      rfl
  | _ => cases h

theorem evaluate_operand {ast : AstExpr} (hliteral : (literal? ast).isSome = true)
    (harith : ast.node.Arithmetic) (hrange : ast.node.InRange bindings) :
    ∃ v, evaluate (fun _ => none) ast.node = some (.known v) ∧ v.toInt = ast.node.value bindings := by
  obtain ⟨⟨type, text⟩, hconstant⟩ := Option.isSome_iff_exists.1 hliteral
  obtain rfl := eq_of_literal? hconstant
  obtain ⟨rfl, n, hn⟩ := numeral_of_arithmetic harith
  have hvalue : (ExprNode.literal .number text).value bindings = n := value_of_numeral hn
  have hbound : ((ExprNode.literal .number text).value bindings).natAbs < 2 ^ 63 := hrange.self.2
  rw [hvalue] at hbound
  obtain ⟨v, hv, hnumber⟩ := ((parseIntegerLiteral_spec text).1 n hn).ok (by unfold Fits64; omega)
  exact ⟨v, hv, hnumber.trans hvalue.symm⟩

/-- An operator on literals has the value that the evaluator computes. -/
theorem evaluate_of_literals {op : AstExpr} (hliterals : hasLiteralOperands op = true)
    (harith : op.node.Arithmetic) (hrange : op.node.InRange bindings) :
    ∃ v, evaluate (fun _ => none) op.node = some (.known v) ∧ v.toInt = op.node.value bindings := by
  cases op with
  | unary op rhs =>
      have harith : UnaryOp.ofText op = .minus ∧ rhs.node.Arithmetic := harith
      have hrange : (ExprNode.unary (.ofText op) rhs.node).InRange bindings := hrange
      -- the evaluator runs without bindings, but a literal has its value under any
      obtain ⟨v, hv, hnumber⟩ := evaluate_operand hliterals harith.2 hrange.rhs_of_unary
      have hbound := hrange.self.1
      show ∃ v : Int64, evaluate _ (.unary (.ofText op) rhs.node) = _ ∧
        v.toInt = (UnaryOp.ofText op).value (rhs.node.value bindings)
      rw [harith.1] at hbound ⊢
      rw [ExprNode.evaluate_unary, hv, ← hnumber]
      refine (applyUnary_spec (show UnaryOp.minus.IsKnown from trivial) v).ok ?_
      rw [hnumber]
      exact hbound
  | binary op lhs rhs =>
      have hliterals : ((literal? rhs).isSome && (literal? lhs).isSome) = true := hliterals
      rw [Bool.and_eq_true] at hliterals
      obtain ⟨hknown, -, harithL, harithR⟩ :
        (BinaryOp.ofText op).IsKnown ∧ BinaryOp.ofText op ≠ .modulo ∧ lhs.node.Arithmetic ∧
          rhs.node.Arithmetic := harith
      have hrange : (ExprNode.binary (.ofText op) lhs.node rhs.node).InRange bindings := hrange
      obtain ⟨a, ha, hleft⟩ := evaluate_operand hliterals.2 harithL hrange.lhs_of_binary
      obtain ⟨b, hb, hright⟩ := evaluate_operand hliterals.1 harithR hrange.rhs_of_binary
      have hsound : (BinaryOp.ofText op).Sound (lhs.node.value bindings) (rhs.node.value bindings) :=
        hrange.self.1
      show ∃ v : Int64, evaluate _ (.binary (.ofText op) lhs.node rhs.node) = _ ∧
        v.toInt = (BinaryOp.ofText op).value (lhs.node.value bindings) (rhs.node.value bindings)
      rw [ExprNode.evaluate_binary, ha, hb, ← hleft, ← hright]
      rw [← hleft, ← hright] at hsound
      exact (applyBinary_spec hknown a b).ok hsound
  | _ => cases hliterals

theorem tryFoldOp_keepsValue (op : AstExpr) (F : Folder) (harith : op.node.Arithmetic)
    (hrange : op.node.InRange bindings) :
    KeepsValue bindings op.node (tryFoldOp op F).1.node ∧ (tryFoldOp op F).2 = F := by
  rw [tryFoldOp]
  split_ifs with hliterals
  · obtain ⟨v, hv, hnumber⟩ := evaluate_of_literals hliterals harith hrange
    rw [hv]
    refine ⟨?_, rfl⟩
    exact KeepsValue.literal hnumber.symm (hnumber ▸ hrange.self.2) (numeral_toString v.toInt)
  · exact ⟨.refl harith hrange, rfl⟩

/-- The right operand that is dropped does not matter. -/
theorem shortCircuit_keepsValue {op : String} {lhs result : AstExpr} (rhs : ExprNode)
    (h : shortCircuit op lhs = some result) (harith : lhs.node.Arithmetic)
    (hrange : lhs.node.InRange bindings) :
    KeepsValue bindings (.binary (.ofText op) lhs.node rhs) result.node := by
  obtain ⟨⟨type, text⟩, hconstant, h⟩ := Option.bind_eq_some_iff.1 h
  obtain ⟨n, hvalue, h⟩ := Option.bind_eq_some_iff.1 h
  obtain rfl := eq_of_literal? hconstant
  obtain ⟨rfl, m, hm⟩ := numeral_of_arithmetic harith
  have hleft : (ExprNode.literal .number text).value bindings = m := value_of_numeral hm
  have hbound : ((ExprNode.literal .number text).value bindings).natAbs < 2 ^ 63 := hrange.self.2
  rw [hleft] at hbound
  have hread : literalAsInt ⟨.number, text⟩ = some m :=
    stoll_of_numeral hm (by unfold Fits64; omega)
  obtain rfl : m = n := Option.some.inj (hread.symm.trans hvalue)
  -- the right operand stays free in the value of the operator, and the left one decides it
  split_ifs at h with hand hor
  · obtain rfl := Option.some.inj h
    obtain ⟨rfl, rfl⟩ := hand
    refine KeepsValue.literal ?_ (by decide) (numeral_toString 0)
    show BinaryOp.and.value ((ExprNode.literal .number text).value bindings) _ = 0
    rw [hleft, BinaryOp.value]
    exact if_neg fun h => h.1 rfl
  · obtain rfl := Option.some.inj h
    obtain ⟨rfl, hm⟩ := hor
    refine KeepsValue.literal ?_ (by decide) (numeral_toString 1)
    show BinaryOp.or.value ((ExprNode.literal .number text).value bindings) _ = 1
    rw [hleft, BinaryOp.value]
    exact if_pos (Or.inl hm)

/-! ### Expressions -/

/-- **Folding keeps the value of an expression**, and what the folder knows stays true. -/
theorem foldExpr_keepsValue (context : FoldContext) (ast : AstExpr) (F : Folder)
    (harith : ast.node.Arithmetic) (hrange : ast.node.InRange bindings)
    (hconsts : Informed bindings F.consts) :
    KeepsValue bindings ast.node (foldExpr context ast F).1.node ∧
      Informed bindings (foldExpr context ast F).2.consts ∧
        (foldExpr context ast F).2.errors = F.errors := by
  cases ast with
  | literal type text =>
      rw [foldExpr]
      exact ⟨.refl harith hrange, hconsts, rfl⟩
  | identifier name =>
      rw [foldExpr]
      show KeepsValue bindings _
        (((F.consts.scalarAt context name).map Constant.node).getD (.identifier name)).node ∧ _ ∧ _
      cases hscalar : F.consts.scalarAt context name with
      | none => exact ⟨.refl harith hrange, hconsts, rfl⟩
      | some constant =>
          -- only an rvalue is replaced, and by what the folder knows
          rw [ConstEnvironment.scalarAt] at hscalar
          split_ifs at hscalar
          obtain ⟨number, hnumber, htype, hnumeral⟩ := hconsts name constant hscalar
          obtain ⟨type, text⟩ := constant
          obtain rfl : type = .number := htype
          have hvalue : (ExprNode.identifier name).value bindings = number.toInt := by
            rw [ExprNode.value, hnumber]
            rfl
          have hbound : ((ExprNode.identifier name).value bindings).natAbs < 2 ^ 63 := hrange.self.2
          rw [hvalue] at hbound
          exact ⟨.literal hvalue hbound hnumeral, hconsts, rfl⟩
  | unary op rhs =>
      obtain ⟨hop, harith⟩ : UnaryOp.ofText op = .minus ∧ rhs.node.Arithmetic := harith
      have hnode (rhs : AstExpr) : (AstExpr.unary op rhs).node = .unary .minus rhs.node := by
        rw [AstExpr.node, hop]
      rw [hnode] at hrange ⊢
      obtain ⟨hrhs, hinformed, herrors⟩ :=
        foldExpr_keepsValue context rhs F harith hrange.rhs_of_unary hconsts
      have hwhole := hrhs.unary hrange
      rw [← hnode (foldExpr context rhs F).1] at hwhole
      rw [foldExpr, run_bind]
      split_ifs
      · obtain ⟨hfolded, hstate⟩ := tryFoldOp_keepsValue _ (foldExpr context rhs F).2
          hwhole.arithmetic hwhole.inRange
        rw [hstate]
        exact ⟨hwhole.trans hfolded, hinformed, herrors⟩
      · exact ⟨hwhole, hinformed, herrors⟩
  | binary op lhs rhs =>
      obtain ⟨hknown, hmodulo, harithL, harithR⟩ :
        (BinaryOp.ofText op).IsKnown ∧ BinaryOp.ofText op ≠ .modulo ∧ lhs.node.Arithmetic ∧
          rhs.node.Arithmetic := harith
      have hrange : (ExprNode.binary (.ofText op) lhs.node rhs.node).InRange bindings := hrange
      obtain ⟨hlhs, hinformedL, herrorsL⟩ :=
        foldExpr_keepsValue context lhs F harithL hrange.lhs_of_binary hconsts
      obtain ⟨hrhs, hinformed, herrors⟩ := foldExpr_keepsValue context rhs (foldExpr context lhs F).2
        harithR hrange.rhs_of_binary hinformedL
      -- the operator over its folded operands comes first, and what is made of it after that
      have hwhole := KeepsValue.binary hknown hmodulo hlhs hrhs hrange
      rw [foldExpr, run_bind, run_bind]
      split_ifs
      · cases hshort : shortCircuit op (foldExpr context lhs F).1 with
        | some result =>
            have hcut := shortCircuit_keepsValue (foldExpr context rhs (foldExpr context lhs F).2).1.node
              hshort hlhs.arithmetic hlhs.inRange
            exact ⟨hwhole.trans hcut, hinformed, herrors.trans herrorsL⟩
        | none =>
            obtain ⟨hfolded, hstate⟩ := tryFoldOp_keepsValue
              (.binary op (foldExpr context lhs F).1 (foldExpr context rhs (foldExpr context lhs F).2).1)
              (foldExpr context rhs (foldExpr context lhs F).2).2 hwhole.arithmetic hwhole.inRange
            dsimp only
            rw [hstate]
            exact ⟨hwhole.trans hfolded, hinformed, herrors.trans herrorsL⟩
      · exact ⟨hwhole, hinformed, herrors.trans herrorsL⟩
  | methodCall object methodName args =>
      obtain ⟨rfl, hargs, harith⟩ :
        methodName = "Clone" ∧ args.length = 0 ∧ object.node.Arithmetic := harith
      obtain rfl := List.length_eq_zero_iff.1 hargs
      have hrange : (ExprNode.methodCall object.node "Clone" 0).InRange bindings := hrange
      -- the object of a method keeps its identity, so that only what it computes is folded
      obtain ⟨hobject, hinformed, herrors⟩ := foldExpr_keepsValue .identity object F harith
        hrange.object_of_clone hconsts
      rw [foldExpr, foldExprs]
      exact ⟨hobject.clone hrange, hinformed.invalidateName _, herrors⟩
  | _ => exact absurd harith id

section Agreement

variable (ctx : RuntimeContext)
  (callFunction : FunctionNode → List RuntimeValue → Interpretation (List RuntimeValue))

variable {known : String → Option Int64} {σ : State} {F : Folder}

/-- **The interpreter computes the same for the folded expression.**  Where the folder knows only what is
true and every part of the expression has a result, both expressions have a result, the two results are
one number, one condition and the same script bytes, what the folder knows stays true, and nothing is
reported. -/
theorem foldExpr_agrees (context : FoldContext) (ast : AstExpr) (harith : ast.node.Arithmetic)
    (hrange : ast.node.InRange bindings) (hconsts : Informed bindings F.consts)
    (hnumbers : ∀ name ∈ ast.node.identifiers, HasNumber ctx bindings σ name) :
    ∃ value value' bytes, evalExpr ctx callFunction ast σ = some (.ok value, σ) ∧
      evalExpr ctx callFunction (foldExpr context ast F).1 σ = some (.ok value', σ) ∧
      value'.toScriptNum = value.toScriptNum ∧ value'.truthy = value.truthy ∧
      value.toScriptBytes = .ok bytes ∧ value'.toScriptBytes = .ok bytes ∧
      Informed bindings (foldExpr context ast F).2.consts ∧
      (foldExpr context ast F).2.errors = F.errors := by
  obtain ⟨hkeeps, hinformed, herrors⟩ := foldExpr_keepsValue context ast F harith hrange hconsts
  obtain ⟨value, heval, hnumber⟩ := evalExpr_node ctx callFunction ast rfl harith hrange hnumbers
  obtain ⟨value', heval', hnumber'⟩ := evalExpr_node ctx callFunction (foldExpr context ast F).1 rfl
    hkeeps.arithmetic hkeeps.inRange fun name hname => hnumbers name (hkeeps.identifiers hname)
  rw [hkeeps.value] at hnumber'
  exact ⟨value, value', _, heval, heval', hnumber'.number.trans hnumber.number.symm,
    hnumber'.truth.trans hnumber.truth.symm, hnumber.bytes, hnumber'.bytes, hinformed, herrors⟩

/-- **The code of the folded expression leaves what the interpreter computes** for the expression that was
written: the script bytes of its value, above the slots that the folded expression does not read. -/
theorem visitOperand_foldExpr {env : ScriptEnv} {s s' : VisitorState} {slots : NamedStacks}
    {code : List String} {str : String} (visitOther : ExprNode → Visit) (context : FoldContext)
    (ast folded : AstExpr) (hfolded : (foldExpr context ast F).1 = folded) (harith : ast.node.Arithmetic)
    (hrange : ast.node.InRange bindings) (hconsts : Informed bindings F.consts)
    (hnumbers : ∀ name ∈ ast.node.identifiers, HasNumber ctx bindings σ name)
    (hlower : folded.node.Lowerable known) (h : Tidy s slots)
    (hvalues : ∀ name ∈ folded.node.identifiers, HasValue env bindings known s slots name)
    (honce : ReadsOnce (folded.node.identifiers.map s.table.resolveBindSymbol) slots.1)
    (hrun : visitOperand (visitExpr visitOther folded.node) str s = .ok (code, s')) :
    ∃ value bytes top, evalExpr ctx callFunction ast σ = some (.ok value, σ) ∧
      value.toScriptBytes = .ok bytes ∧
        Reaches env s slots code s' ((top, bytes) ::
          withoutNames (folded.node.identifiers.map s.table.resolveBindSymbol) slots.1, slots.2) := by
  obtain ⟨hkeeps, -, -⟩ := foldExpr_keepsValue context ast F harith hrange hconsts
  rw [hfolded] at hkeeps
  obtain ⟨value, heval, hnumber⟩ := evalExpr_node ctx callFunction ast rfl harith hrange hnumbers
  obtain ⟨top, hdelivers⟩ := lowers_visitExpr visitOther hlower hkeeps.inRange s slots str code s' h
    hvalues honce hrun
  rw [hkeeps.value] at hdelivers
  exact ⟨value, _, top, heval, hnumber.bytes, hdelivers.reaches⟩

end Agreement

/-! ### A constant and a computed operand -/

/-- `x * (N - 2)` of the parser. -/
def scaledExpr : AstExpr :=
  .binary "*" (.identifier "x") (.binary "-" (.identifier "N") (.literal .number "2"))

/-- The folder behind `N = 7`. -/
def knownConstant : Folder where
  consts := ⟨Function.update (fun _ => none) "N" (some ⟨.number, "7"⟩), fun _ => none⟩

theorem arithmetic_scaledExpr : scaledExpr.node.Arithmetic :=
  ⟨trivial, by decide, trivial, trivial, by decide, trivial, rfl, by decide⟩

theorem informed_knownConstant : Informed variableValues knownConstant.consts := by
  intro name constant hconstant
  have hconstant : Function.update (fun _ => none) "N" (some (⟨.number, "7"⟩ : Constant)) name =
    some constant := hconstant
  rw [Function.update_apply] at hconstant
  split_ifs at hconstant with hname
  obtain rfl := Option.some.inj hconstant
  subst hname
  exact ⟨7, by decide, rfl, by decide⟩

theorem hasNumber_scaledExpr :
    ∀ name ∈ ["x", "N"], HasNumber emptyContext variableValues variableState name := by
  intro name hname
  simp only [List.mem_cons, List.not_mem_nil, or_false] at hname
  rcases hname with rfl | rfl
  · exact ⟨3, .fromInt 3, by decide, by rfl, isNumber_int 3 _⟩
  · exact ⟨7, .fromInt 7, by decide, by rfl, isNumber_int 7 _⟩

/-- `x * (N - 2)` becomes `x * 5`. -/
example : (foldExpr .rValue scaledExpr knownConstant).1 =
    .binary "*" (.identifier "x") (.literal .number "5") := by
  rfl

/-- `x * (N - 2)` and what it is folded to, at `3` and `7`. -/
theorem foldExpr_agrees_scaled :
    ∃ value value' bytes,
      evalExpr emptyContext (fun _ _ => pure []) scaledExpr variableState =
        some (.ok value, variableState) ∧
      evalExpr emptyContext (fun _ _ => pure []) (foldExpr .rValue scaledExpr knownConstant).1
        variableState = some (.ok value', variableState) ∧
      value'.toScriptNum = value.toScriptNum ∧ value'.truthy = value.truthy ∧
      value.toScriptBytes = .ok bytes ∧ value'.toScriptBytes = .ok bytes ∧
      Informed variableValues (foldExpr .rValue scaledExpr knownConstant).2.consts ∧
      (foldExpr .rValue scaledExpr knownConstant).2.errors = [] :=
  foldExpr_agrees emptyContext (fun _ _ => pure []) .rValue scaledExpr arithmetic_scaledExpr
    (by decide +kernel) informed_knownConstant hasNumber_scaledExpr

/-- The code of `x * 5` leaves what the interpreter computes for `x * (N - 2)`. -/
theorem visitOperand_foldExpr_scaled :
    ∃ code s' value bytes top,
      visitOperand (visitExpr (fun _ => Visit.fail "")
        (foldExpr .rValue scaledExpr knownConstant).1.node) "lhs" variablesAndConstant =
          .ok (code, s') ∧
      evalExpr emptyContext (fun _ _ => pure []) scaledExpr variableState =
        some (.ok value, variableState) ∧ value.toScriptBytes = .ok bytes ∧
      Reaches ScriptEnv.plain variablesAndConstant variableSlots code s'
        ((top, bytes) :: withoutNames ["x"] variableSlots.1, []) := by
  obtain ⟨folded, hfolded, hnode⟩ : ∃ folded, (foldExpr .rValue scaledExpr knownConstant).1 = folded ∧
      folded.node = .binary .multiply (.identifier "x") (.literal .number "5") :=
    ⟨_, rfl, by decide +kernel⟩
  have hok : (visitOperand (visitExpr (fun _ => Visit.fail "") folded.node) "lhs"
      variablesAndConstant).toOption.isSome = true := by
    rw [hnode]
    decide +kernel
  have hlower : folded.node.Lowerable variablesAndConstant.staticValue := by
    rw [hnode]
    exact Or.inl ⟨trivial, by decide +kernel, trivial, rfl, by decide +kernel, by decide +kernel⟩
  have hvalues : ∀ name ∈ folded.node.identifiers, HasValue ScriptEnv.plain variableValues
      variablesAndConstant.staticValue variablesAndConstant variableSlots name := by
    intro name hname
    rw [hnode] at hname
    obtain rfl := List.mem_singleton.1 hname
    exact hasValue_variables "x" (by decide)
  have honce : ReadsOnce (folded.node.identifiers.map variablesAndConstant.table.resolveBindSymbol)
      variableSlots.1 := by
    rw [hnode]
    unfold ReadsOnce
    decide +kernel
  have hnames : folded.node.identifiers.map variablesAndConstant.table.resolveBindSymbol = ["x"] := by
    rw [hnode]
    decide +kernel
  cases hrun : visitOperand (visitExpr (fun _ => Visit.fail "") folded.node) "lhs"
      variablesAndConstant with
  | error error =>
      rw [hrun] at hok
      cases hok
  | ok result =>
      obtain ⟨value, bytes, top, heval, hbytes, hreaches⟩ :=
        visitOperand_foldExpr emptyContext (fun _ _ => pure []) (fun _ => Visit.fail "") .rValue
          scaledExpr folded hfolded arithmetic_scaledExpr (by decide +kernel) informed_knownConstant
          hasNumber_scaledExpr hlower tidy_variables hvalues honce hrun
      rw [hnames] at hreaches
      rw [hfolded]
      exact ⟨result.1, result.2, value, bytes, top, hrun, heval, hbytes, hreaches⟩

end ConstantFolder

end AtomicProof
