/-
Operators in the two worlds.

The interpreter of `src/src/interpreter/ast_interpreter.cpp` evaluates an operator on run-time values; the
visitor writes instructions that the machine runs on byte strings.  Both work on the same tree.  On
numbers of the machine they agree: the interpreter has a value, and the code leaves the script bytes of
this value.

Main definitions:

* `AstExpr.node` — an expression as the visitor looks into it;
* `IsNumber` — a run-time value that stands for a number;
* `Arithmetic` — the expressions whose operators both sides know.

Main results:

* `evalExpr_node` — the interpreter computes the value of an expression;
* `visitOperand_agrees` — **the code leaves what the interpreter computes**.
-/

import AtomicProof.OperatorLowering

set_option autoImplicit false

namespace AtomicProof

open ASTInterpreter AtomicProof.Computation

/-! ### One tree -/

/-- The operators with one operand, by their texts. -/
def unaryOperators : List (String × UnaryOp) := [("-", .minus), ("!", .not)]

/-- The operators with two operands, by their texts. -/
def binaryOperators : List (String × BinaryOp) :=
  [("+", .add), ("-", .subtract), ("*", .multiply), ("/", .divide), ("%", .modulo), ("==", .equal),
    ("!=", .notEqual), ("<", .less), (">", .greater), ("<=", .lessOrEqual), (">=", .greaterOrEqual),
    ("&&", .and), ("||", .or)]

def UnaryOp.ofText (op : String) : UnaryOp := (unaryOperators.lookup op).getD (.other op)

def BinaryOp.ofText (op : String) : BinaryOp := (binaryOperators.lookup op).getD (.other op)

/-- An expression as the visitor and the static evaluator look into it. -/
def AstExpr.node : AstExpr → ExprNode
  | .literal .number value => .literal .number value
  | .literal _ value => .literal .other value
  | .identifier name => .identifier name
  | .unary op rhs => .unary (.ofText op) rhs.node
  | .binary op lhs rhs => .binary (.ofText op) lhs.node rhs.node
  | .methodCall object methodName args => .methodCall object.node methodName args.length
  | _ => .other

theorem mem_of_lookup {α β : Type} [BEq α] [LawfulBEq α] {a : α} {b : β} {rows : List (α × β)}
    (h : rows.lookup a = some b) : (a, b) ∈ rows := by
  obtain ⟨front, back, rfl, -⟩ := List.lookup_eq_some_iff.1 h
  exact List.mem_append_right _ (List.mem_cons_self ..)

theorem BinaryOp.text_ofText (op : String) : (BinaryOp.ofText op).text = op := by
  have hrows : ∀ row ∈ binaryOperators, row.2.text = row.1 := by decide
  rw [BinaryOp.ofText]
  cases h : binaryOperators.lookup op with
  | none => rfl
  | some operator => exact hrows _ (mem_of_lookup h)

theorem UnaryOp.text_ofText (op : String) : (UnaryOp.ofText op).text = op := by
  have hrows : ∀ row ∈ unaryOperators, row.2.text = row.1 := by decide
  rw [UnaryOp.ofText]
  cases h : unaryOperators.lookup op with
  | none => rfl
  | some operator => exact hrows _ (mem_of_lookup h)

/-- The expressions whose operators both sides know: numbers, identifiers, the minus, the operators with
two operands except the remainder, and copies. -/
def ExprNode.Arithmetic : ExprNode → Prop
  | literal type text => type = .number ∧ (numeral? text.toList).isSome
  | identifier _ => True
  | methodCall object methodName argCount =>
      methodName = "Clone" ∧ argCount = 0 ∧ object.Arithmetic
  | unary op rhs => op = .minus ∧ rhs.Arithmetic
  | binary op lhs rhs => op.IsKnown ∧ op ≠ .modulo ∧ lhs.Arithmetic ∧ rhs.Arithmetic
  | other => False

/-! ### Values that are numbers -/

/-- A run-time value that stands for a number, as a number, as a condition and as bytes. -/
structure IsNumber (value : RuntimeValue) (n : ℤ) : Prop where
  scalar : value.isScalar = true
  number : value.toScriptNum = .ok n
  truth : value.truthy = decide (n ≠ 0)
  bytes : value.toScriptBytes = .ok (serializeScriptNum n)

theorem isNumber_int (n : ℤ) (declaredType : String) : IsNumber (.int n declaredType) n :=
  ⟨rfl, rfl, rfl, by rw [RuntimeValue.toScriptBytes, RuntimeCodec.serializeScriptNum_eq]⟩

theorem isNumber_bool (p : Prop) [Decidable p] :
    IsNumber (.fromBool (decide p)) (if p then 1 else 0) := by
  by_cases h : p
  · rw [if_pos h, decide_eq_true h]
    exact ⟨rfl, rfl, rfl, by decide⟩
  · rw [if_neg h, decide_eq_false h]
    exact ⟨rfl, rfl, rfl, by decide⟩

section Evaluation

variable {lhs rhs : RuntimeValue} {a b : ℤ}

theorem eq_of_isNumber (hl : IsNumber lhs a) (hr : IsNumber rhs b) (ha : a.natAbs < 2 ^ 63)
    (hb : b.natAbs < 2 ^ 63) : lhs.eq rhs = decide (a = b) := by
  rw [RuntimeValue.eq_of_scalar hl.scalar hr.scalar, hl.bytes, hr.bytes]
  simp only [Except.toOption, Option.some.injEq, serializeScriptNum_inj ha hb]

/-- An operator of the interpreter on numbers of the machine. -/
theorem evalBinary_isNumber {op : BinaryOp} (hknown : op.IsKnown) (hmodulo : op ≠ .modulo)
    (hl : IsNumber lhs a) (hr : IsNumber rhs b) (ha : a.natAbs < 2 ^ 63) (hb : b.natAbs < 2 ^ 63)
    (hresult : (op.value a b).natAbs < 2 ^ 63) (hdivisor : op = .divide → b ≠ 0) :
    ∃ value, evalBinary op.text lhs rhs = .ok value ∧ IsNumber value (op.value a b) := by
  have hscalar : ¬ (lhs.type = .string ∨ rhs.type = .string) := by
    rintro (h | h)
    · have := hl.scalar
      rw [RuntimeValue.isScalar, h] at this
      cases this
    · have := hr.scalar
      rw [RuntimeValue.isScalar, h] at this
      cases this
  have hwrap := NumericOp.wrap64_of_natAbs_lt hresult
  -- the interpreter reads both sides as numbers and wraps what it computes
  cases op with
  | add =>
      refine ⟨.fromInt (wrap64 (a + b)), ?_, ?_⟩
      · simp only [evalBinary, BinaryOp.text, if_pos, if_neg hscalar, hl.number, hr.number, bind,
          Except.bind]
        rfl
      · rw [show wrap64 (a + b) = a + b from hwrap]
        exact isNumber_int _ _
  | subtract =>
      refine ⟨.fromInt (wrap64 (a - b)), ?_, ?_⟩
      · show (do
          let n ← lhs.toScriptNum
          let m ← rhs.toScriptNum
          pure (RuntimeValue.fromInt (wrap64 (n - m)))) = _
        rw [hl.number, hr.number]
        rfl
      · rw [show wrap64 (a - b) = a - b from hwrap]
        exact isNumber_int _ _
  | multiply =>
      refine ⟨.fromInt (wrap64 (a * b)), ?_, ?_⟩
      · show (do
          let n ← lhs.toScriptNum
          let m ← rhs.toScriptNum
          pure (RuntimeValue.fromInt (wrap64 (n * m)))) = _
        rw [hl.number, hr.number]
        rfl
      · rw [show wrap64 (a * b) = a * b from hwrap]
        exact isNumber_int _ _
  | divide =>
      refine ⟨.fromInt (wrap64 (a.tdiv b)), ?_, ?_⟩
      · show (do
          let divisor ← rhs.toScriptNum
          if divisor = 0 then throw (⟨.generic, "division by zero"⟩ : RuntimeError)
          else
            let n ← lhs.toScriptNum
            pure (RuntimeValue.fromInt (wrap64 (n.tdiv divisor)))) = _
        rw [hr.number, hl.number]
        show (if b = 0 then _ else _) = _
        rw [if_neg (hdivisor rfl)]
        rfl
      · rw [show wrap64 (a.tdiv b) = a.tdiv b from hwrap]
        exact isNumber_int _ _
  | modulo => exact absurd rfl hmodulo
  | equal =>
      -- equality compares the values themselves, not the numbers they read as
      refine ⟨.fromBool (decide (a = b)), ?_, isNumber_bool _⟩
      rw [← eq_of_isNumber hl hr ha hb]
      rfl
  | notEqual =>
      refine ⟨.fromBool (decide (a ≠ b)), ?_, isNumber_bool _⟩
      have heq := eq_of_isNumber hl hr ha hb
      show Except.ok (RuntimeValue.fromBool (!lhs.eq rhs)) = _
      rw [heq, decide_not]
  | less =>
      refine ⟨.fromBool (decide (a < b)), ?_, isNumber_bool _⟩
      show (do
        let n ← lhs.toScriptNum
        let m ← rhs.toScriptNum
        pure (RuntimeValue.fromBool (decide (n < m)))) = _
      rw [hl.number, hr.number]
      rfl
  | greater =>
      refine ⟨.fromBool (decide (b < a)), ?_, isNumber_bool _⟩
      show (do
        let n ← lhs.toScriptNum
        let m ← rhs.toScriptNum
        pure (RuntimeValue.fromBool (decide (m < n)))) = _
      rw [hl.number, hr.number]
      rfl
  | lessOrEqual =>
      refine ⟨.fromBool (decide (a ≤ b)), ?_, isNumber_bool _⟩
      show (do
        let n ← lhs.toScriptNum
        let m ← rhs.toScriptNum
        pure (RuntimeValue.fromBool (decide (n ≤ m)))) = _
      rw [hl.number, hr.number]
      rfl
  | greaterOrEqual =>
      refine ⟨.fromBool (decide (b ≤ a)), ?_, isNumber_bool _⟩
      show (do
        let n ← lhs.toScriptNum
        let m ← rhs.toScriptNum
        pure (RuntimeValue.fromBool (decide (m ≤ n)))) = _
      rw [hl.number, hr.number]
      rfl
  | and =>
      -- both sides are evaluated, and only their truth values count
      refine ⟨.fromBool (decide (a ≠ 0 ∧ b ≠ 0)), ?_, isNumber_bool _⟩
      show Except.ok (RuntimeValue.fromBool (lhs.truthy && rhs.truthy)) = _
      rw [hl.truth, hr.truth, Bool.decide_and]
  | or =>
      refine ⟨.fromBool (decide (a ≠ 0 ∨ b ≠ 0)), ?_, isNumber_bool _⟩
      show Except.ok (RuntimeValue.fromBool (lhs.truthy || rhs.truthy)) = _
      rw [hl.truth, hr.truth, Bool.decide_or]
  | other op => exact absurd hknown id

theorem evalUnary_isNumber (hr : IsNumber rhs b) (hb : (-b).natAbs < 2 ^ 63) :
    ∃ value, evalUnary "-" rhs = .ok value ∧ IsNumber value (-b) := by
  refine ⟨.fromInt (wrap64 (-b)) rhs.declaredType, ?_, ?_⟩
  · rw [evalUnary, if_pos rfl, hr.number]
    rfl
  · rw [NumericOp.wrap64_of_natAbs_lt hb]
    exact isNumber_int _ _

end Evaluation

/-! ### Expressions -/

section Nodes

variable {ast : AstExpr}

theorem eq_of_node_literal {text : String} (h : ast.node = .literal .number text) :
    ast = .literal .number text := by
  cases ast with
  | literal type value => cases type <;> simp_all [AstExpr.node]
  | _ => simp [AstExpr.node] at h

theorem eq_of_node_identifier {name : String} (h : ast.node = .identifier name) :
    ast = .identifier name := by
  cases ast with
  | literal type value => cases type <;> simp [AstExpr.node] at h
  | identifier name' => rw [ExprNode.identifier.inj h]
  | _ => simp [AstExpr.node] at h

theorem exists_of_node_methodCall {object : ExprNode} {methodName : String} {argCount : ℕ}
    (h : ast.node = .methodCall object methodName argCount) :
    ∃ object' args, ast = .methodCall object' methodName args ∧ object'.node = object ∧
      args.length = argCount := by
  cases ast with
  | literal type value => cases type <;> simp [AstExpr.node] at h
  | methodCall object' methodName' args =>
      obtain ⟨hobject, rfl, hargs⟩ := ExprNode.methodCall.inj h
      exact ⟨object', args, rfl, hobject, hargs⟩
  | _ => simp [AstExpr.node] at h

theorem exists_of_node_unary {op : UnaryOp} {rhs : ExprNode} (h : ast.node = .unary op rhs) :
    ∃ text rhs', ast = .unary text rhs' ∧ text = op.text ∧ rhs'.node = rhs := by
  cases ast with
  | literal type value => cases type <;> simp [AstExpr.node] at h
  | unary text rhs' =>
      obtain ⟨rfl, hrhs⟩ := ExprNode.unary.inj h
      exact ⟨text, rhs', rfl, (UnaryOp.text_ofText text).symm, hrhs⟩
  | _ => simp [AstExpr.node] at h

theorem exists_of_node_binary {op : BinaryOp} {lhs rhs : ExprNode}
    (h : ast.node = .binary op lhs rhs) :
    ∃ text lhs' rhs', ast = .binary text lhs' rhs' ∧ text = op.text ∧ lhs'.node = lhs ∧
      rhs'.node = rhs := by
  cases ast with
  | literal type value => cases type <;> simp [AstExpr.node] at h
  | binary text lhs' rhs' =>
      obtain ⟨rfl, hlhs, hrhs⟩ := ExprNode.binary.inj h
      exact ⟨text, lhs', rhs', rfl, (BinaryOp.text_ofText text).symm, hlhs, hrhs⟩
  | _ => simp [AstExpr.node] at h

end Nodes

section Expressions

variable (ctx : RuntimeContext)
  (callFunction : FunctionNode → List RuntimeValue → Interpretation (List RuntimeValue))

/-- An identifier of the interpreter has the number that it is bound to. -/
def HasNumber (bindings : String → Option Int64) (σ : State) (name : String) : Prop :=
  ∃ number value, bindings name = some number ∧
    ASTInterpreter.evalIdentifier ctx name σ = some (.ok value, σ) ∧ IsNumber value number.toInt

variable {bindings known : String → Option Int64} {σ : State}

/-- **The interpreter computes the value of an expression**, and changes nothing. -/
theorem evalExpr_node {e : ExprNode} (ast : AstExpr) (hast : ast.node = e) (harith : e.Arithmetic)
    (hrange : e.InRange bindings) (hnumbers : ∀ name ∈ e.identifiers, HasNumber ctx bindings σ name) :
    ∃ value, evalExpr ctx callFunction ast σ = some (.ok value, σ) ∧
      IsNumber value (e.value bindings) := by
  induction e generalizing ast with
  | literal type text =>
      obtain ⟨rfl, hnumeral⟩ := harith
      obtain rfl := eq_of_node_literal hast
      obtain ⟨n, hn⟩ := Option.isSome_iff_exists.1 hnumeral
      have hvalue : (ExprNode.literal .number text).value bindings = n := by
        rw [ExprNode.value, hn]
        rfl
      have hbound := hrange.self.2
      rw [hvalue] at hbound ⊢
      refine ⟨.fromInt n "number", ?_, isNumber_int _ _⟩
      rw [evalExpr, ASTInterpreter.evalLiteral]
      simp only [stoll_of_numeral hn (show Fits64 n by unfold Fits64; omega)]
      rfl
  | identifier name =>
      obtain rfl := eq_of_node_identifier hast
      obtain ⟨number, value, hbound, hrun, hnumber⟩ := hnumbers name (List.mem_singleton_self name)
      refine ⟨value, by rw [evalExpr, hrun], ?_⟩
      rw [ExprNode.value, hbound]
      exact hnumber
  | methodCall object methodName argCount ih =>
      obtain ⟨object', args, rfl, hobject, hargs⟩ := exists_of_node_methodCall hast
      obtain ⟨rfl, rfl, harith⟩ := harith
      obtain ⟨value, hrun, hnumber⟩ := ih object' hobject harith hrange.object_of_clone hnumbers
      refine ⟨value, ?_, hnumber⟩
      rw [evalExpr, bind_of_ok hrun, if_pos (Or.inl rfl), if_neg (by rw [hargs]; exact fun h => h rfl)]
      rfl
  | unary op rhs ih =>
      obtain ⟨text, rhs', rfl, rfl, hrhs⟩ := exists_of_node_unary hast
      obtain ⟨rfl, harith⟩ := harith
      obtain ⟨value, hrun, hnumber⟩ := ih rhs' hrhs harith hrange.rhs_of_unary hnumbers
      obtain ⟨result, heval, hresult⟩ := evalUnary_isNumber hnumber hrange.self.2
      refine ⟨result, ?_, hresult⟩
      rw [evalExpr, bind_of_ok hrun]
      show (MonadExcept.ofExcept (evalUnary "-" value) : Interpretation RuntimeValue) σ = _
      rw [heval]
      rfl
  | binary op lhs rhs ihl ihr =>
      obtain ⟨text, lhs', rhs', rfl, rfl, hlhs, hrhs⟩ := exists_of_node_binary hast
      obtain ⟨hknown, hmodulo, harithL, harithR⟩ := harith
      obtain ⟨left, hrunL, hleft⟩ := ihl lhs' hlhs harithL hrange.lhs_of_binary
        fun name hname => hnumbers name (List.mem_append_left _ hname)
      obtain ⟨right, hrunR, hright⟩ := ihr rhs' hrhs harithR hrange.rhs_of_binary
        fun name hname => hnumbers name (List.mem_append_right _ hname)
      have hdivisor : op = .divide → rhs.value bindings ≠ 0 := by
        rintro rfl
        exact hrange.self.1.1
      obtain ⟨result, heval, hresult⟩ := evalBinary_isNumber hknown hmodulo hleft hright
        hrange.lhs_of_binary.self.2 hrange.rhs_of_binary.self.2 hrange.self.2 hdivisor
      refine ⟨result, ?_, hresult⟩
      rw [evalExpr, bind_of_ok hrunL, bind_of_ok hrunR, heval]
      rfl
  | other => exact absurd harith id

/-- **The code leaves what the interpreter computes.**  Where the variables have the same numbers in the
interpreter and in the slots of the picture, the script bytes of the value that the interpreter returns
are the bytes that the code of an operand leaves, above the slots that are not read. -/
theorem visitOperand_agrees {env : ScriptEnv} {s s' : VisitorState} {slots : NamedStacks}
    {code : List String} {str : String} (visitOther : ExprNode → Visit) (ast : AstExpr)
    (harith : ast.node.Arithmetic) (hlower : ast.node.Lowerable known)
    (hrange : ast.node.InRange bindings)
    (hnumbers : ∀ name ∈ ast.node.identifiers, HasNumber ctx bindings σ name) (h : Tidy s slots)
    (hvalues : ∀ name ∈ ast.node.identifiers, HasValue env bindings known s slots name)
    (honce : ReadsOnce (ast.node.identifiers.map s.table.resolveBindSymbol) slots.1)
    (hrun : visitOperand (visitExpr visitOther ast.node) str s = .ok (code, s')) :
    ∃ value bytes top, evalExpr ctx callFunction ast σ = some (.ok value, σ) ∧
      value.toScriptBytes = .ok bytes ∧
        Reaches env s slots code s' ((top, bytes) ::
          withoutNames (ast.node.identifiers.map s.table.resolveBindSymbol) slots.1, slots.2) := by
  obtain ⟨value, heval, hnumber⟩ := evalExpr_node ctx callFunction ast rfl harith hrange hnumbers
  obtain ⟨top, hdelivers⟩ :=
    lowers_visitExpr visitOther hlower hrange s slots str code s' h hvalues honce hrun
  exact ⟨value, _, top, heval, hnumber.bytes, hdelivers.reaches⟩

end Expressions

/-! ### The two sides on one expression -/

/-- `(x + 1) * (N - y)` of the parser. -/
def productExpr : AstExpr :=
  .binary "*" (.binary "+" (.identifier "x") (.literal .number "1"))
    (.binary "-" (.identifier "N") (.identifier "y"))

/-- No functions, no structures and no objects. -/
def emptyContext : RuntimeContext := ⟨[], [], ⟨.voidValue, .voidValue⟩, ScriptEnv.plain.toEnv⟩

def variableState : State where
  scopes := []
  globals := [("x", { value := .fromInt 3 }), ("y", { value := .fromInt 9 }),
    ("N", { value := .fromInt 7 })]

/-- `(x + 1) * (N - y)` at `3`, `7` and `9` in the interpreter and in the code. -/
theorem visitOperand_agrees_product :
    ∃ code s' value bytes top,
      visitOperand (visitExpr (fun _ => Visit.fail "") productExpr.node) "lhs" variablesAndConstant =
        .ok (code, s') ∧
      evalExpr emptyContext (fun _ _ => pure []) productExpr variableState =
        some (.ok value, variableState) ∧ value.toScriptBytes = .ok bytes ∧
      Reaches ScriptEnv.plain variablesAndConstant variableSlots code s'
        ((top, bytes) :: withoutNames ["x", "N", "y"] variableSlots.1, []) := by
  have hok : (visitOperand (visitExpr (fun _ => Visit.fail "") productExpr.node) "lhs"
      variablesAndConstant).toOption.isSome = true := by
    decide +kernel
  have honce : ReadsOnce (productExpr.node.identifiers.map variablesAndConstant.table.resolveBindSymbol)
      variableSlots.1 := by
    unfold ReadsOnce
    decide +kernel
  have hlower : productExpr.node.Lowerable variablesAndConstant.staticValue := by
    refine Or.inl ⟨trivial, by decide +kernel, Or.inl ⟨trivial, by decide +kernel, trivial, ?_⟩,
      Or.inl ⟨trivial, by decide +kernel, trivial, trivial⟩⟩
    exact ⟨rfl, by decide +kernel, by decide +kernel⟩
  have harith : productExpr.node.Arithmetic :=
    ⟨trivial, by decide, ⟨trivial, by decide, trivial, rfl, by decide⟩, trivial, by decide, trivial, trivial⟩
  have hnumbers : ∀ name ∈ ["x", "N", "y"], HasNumber emptyContext variableValues variableState name := by
    intro name hname
    simp only [List.mem_cons, List.not_mem_nil, or_false] at hname
    rcases hname with rfl | rfl | rfl
    · exact ⟨3, .fromInt 3, by decide, by rfl, isNumber_int 3 _⟩
    · exact ⟨7, .fromInt 7, by decide, by rfl, isNumber_int 7 _⟩
    · exact ⟨9, .fromInt 9, by decide, by rfl, isNumber_int 9 _⟩
  cases hrun : visitOperand (visitExpr (fun _ => Visit.fail "") productExpr.node) "lhs"
      variablesAndConstant with
  | error error =>
      rw [hrun] at hok
      cases hok
  | ok result =>
      obtain ⟨value, bytes, top, heval, hbytes, hreaches⟩ :=
        @visitOperand_agrees emptyContext (fun _ _ => pure []) variableValues
          variablesAndConstant.staticValue variableState ScriptEnv.plain variablesAndConstant result.2
          variableSlots result.1 "lhs" (fun _ => Visit.fail "") productExpr harith hlower
          (by decide +kernel) hnumbers tidy_variables hasValue_variables honce hrun
      exact ⟨result.1, result.2, value, bytes, top, rfl, heval, hbytes, hreaches⟩

end AtomicProof
