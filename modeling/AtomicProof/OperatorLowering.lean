/-
The lowering of operators.

`visitOperator` in `src/src/compiler/ast_to_bytecode_visitor.cpp` writes the instructions of an
expression while it moves the names of the operands on its picture of the stack.  A part whose leaves are
known to the compiler is computed at once; two variables that lie as they should are left where they are;
`x + 1`, `x + 0`, `0 - x`, `x * 1` and their kin need no second operand.  This module models the
lowering and states what its code should do: leave the number that the expression has, and of the
variables that were there those that it does not read.

Main definitions:

* `visitExpr` — the visitor on literals, identifiers and operators; other nodes are a parameter;
* `visitOperand` — a visited expression, taken over by its consumer with `lamd`;
* `Tidy` — names of slots are distinct, and none of them is still to be invented;
* `Bound` — where the value of an identifier is;
* `Lowerable`, `InRange` — the expressions that are lowered, and those whose parts are numbers of the
  machine.

Main results:

* `takes_operator` — the code of an operator leaves its exact result;
* `visitOperator_leaves` — **the code of an expression leaves its value and takes its variables**.
-/

import AtomicProof.PlaceholderSpelling
import AtomicProof.SizeCall
import AtomicProof.StaticInteger
import AtomicProof.Interpreter
import AtomicProof.VMArithmetic

set_option autoImplicit false

namespace AtomicProof

/-! ### Operators and their instructions -/

/-- The text of an operator with two operands. -/
def BinaryOp.text : BinaryOp → String
  | add => "+"
  | subtract => "-"
  | multiply => "*"
  | divide => "/"
  | modulo => "%"
  | equal => "=="
  | notEqual => "!="
  | less => "<"
  | greater => ">"
  | lessOrEqual => "<="
  | greaterOrEqual => ">="
  | and => "&&"
  | or => "||"
  | other op => op

/-- The text of an operator with one operand. -/
def UnaryOp.text : UnaryOp → String
  | minus => "-"
  | not => "!"
  | other op => op

/-- `g_operatorMap`. -/
def operatorMap : List (String × String) :=
  [("+", opcodeToHex .opAdd),
   ("-", opcodeToHex .opSub),
   ("*", opcodeToHex .opMul),
   ("/", opcodeToHex .opDiv),
   ("==", opcodeToHex .opEqual),
   ("!=", opcodeToHex .opEqual ++ opcodeToHex .opNot),
   ("<", opcodeToHex .opLessthan),
   (">", opcodeToHex .opGreaterthan),
   ("<=", opcodeToHex .opLessthanorequal),
   (">=", opcodeToHex .opGreaterthanorequal),
   ("&&", opcodeToHex .opBooland),
   ("||", opcodeToHex .opBoolor)]

def isCommutativeOp (op : String) : Bool := ["+", "*", "==", "!=", "&&", "||"].contains op

/-- The operators whose result is a condition. -/
def isComparisonOp (op : String) : Bool := ["==", "!=", "<", ">", "<=", ">="].contains op

/-! ### Literals -/

/-- `GENESIS_SCRIPT_NUM_POLICY`. -/
def scriptNumPolicy : ℕ := 10 * 1024

/-- `TypeValidator::getHexDataSize`: an odd number of digits is one byte more. -/
def getHexDataSize (hex : String) : ℕ := ((hexData hex).toList.length + 1) / 2

/-- `visitLiteral` on a number.  Text that could be too many bytes of hexadecimal digits is reported and
leaves no symbol. -/
def visitNumber (value : String) : Visit := fun s =>
  if getHexDataSize value ≤ scriptNumPolicy then
    match stoll value.toList with
    | some numberValue =>
        let numberHex := numberToScriptHex numberValue
        Visit.push ⟨numberHex, "num", numberHex⟩ s
    | none => .error ("integer literal out of range: '" ++ value ++ "'")
  else .ok ([], s)

/-! ### Operands -/

/-- A fresh `CompilerPlaceholder` with data of its own is pushed. -/
def Visit.pushFresh (type data : String) : Visit := fun s =>
  push ⟨compilerPlaceholder s.nextId, type, data⟩ { s with nextId := s.nextId + 1 }

/-- `lamd` of `visitOperator`: the value of a popped symbol comes to the top. -/
def lamd (elementOpt : Option StackElement) (str : String) : Visit := fun s =>
  match elementOpt with
  | none => .error ("No processing results for " ++ str ++ " expression")
  | some element =>
      let elementStr := element.name
      if isScript elementStr then
        Visit.seq (Visit.emit (emitText elementStr)) (Visit.pushFresh "" "") s
      else if CompilerPlaceholder.isPlaceholder elementStr then Visit.pushFresh "" "" s
      else
        match s.table.getPos elementStr with
        | some stackPos => Visit.rollToTop stackPos s
        | none =>
            match s.getFixed elementStr with
            -- the name goes back on the picture, and no instruction stands for it
            | some fixedElement => Visit.push ⟨elementStr, fixedElement.type, fixedElement.data⟩ s
            | none => .error ("unable to find element '" ++ elementStr ++ "' position on the stack")

/-- What is popped is handed to `lamd`. -/
def takeOver (str : String) : Visit := fun s =>
  Visit.seq Visit.pop (lamd s.table.main.head? str) s

/-- An operand: `visit` is `visitExpr` on it. -/
def visitOperand (visit : Visit) (str : String) : Visit := Visit.seq visit (takeOver str)

def consumedTwice (s : VisitorState) : ExprNode → ExprNode → Option String
  | .identifier name, .identifier name' =>
      if name = name' ∧ isAnglePlaceholder (s.table.resolveBindSymbol name) = false ∧
        (s.table.getPos name).isSome then some name else none
  | _, _ => none

/-- Two variables that are on top as they should, or are so after one move. -/
def arrangeIdentifiers (op : String) (s : VisitorState) : ExprNode → ExprNode → Option Visit
  | .identifier lhs, .identifier rhs =>
      if lhs = rhs then none
      else
        match s.table.getPos lhs, s.table.getPos rhs with
        | some l, some r =>
            if l = 1 ∧ r = 0 then some (Visit.emit [])
            else if l = 0 ∧ r = 1 then
              some (if isCommutativeOp op then Visit.emit [] else Visit.rollToTop 1)
            else if r = 0 ∧ 1 < l ∧ isCommutativeOp op then some (Visit.rollToTop l)
            else if l = 0 ∧ 1 < r ∧ isCommutativeOp op then some (Visit.rollToTop r)
            else none
        | _, _ => none
  | _, _ => none

def isLiteralOne : ExprNode → Bool
  | .literal .number value => value = "1"
  | _ => false

def isLiteralValue (e : ExprNode) (val : ℤ) : Bool :=
  match e with
  | .literal .number value => stoll value.toList = some val
  | _ => false

/-- An operator that needs one of its operands only: whether it is the right one, the name that it has in
an error, and the code. -/
structure Shortcut where
  keepsRhs : Bool
  str : String
  code : List String
  deriving DecidableEq, Repr

/-- The operators that need one operand only. -/
def shortcut (op : BinaryOp) (lhs rhs : ExprNode) : Option Shortcut :=
  if op = .add ∨ op = .subtract then
    let rhsIsOne := isLiteralOne rhs
    let lhsIsOne := op = .add && isLiteralOne lhs
    let rhsIsZero := isLiteralValue rhs 0
    let lhsIsZero := op = .add && isLiteralValue lhs 0
    if rhsIsOne || lhsIsOne then
      some ⟨!rhsIsOne, "lhs", emitOp (if op = .add then .op1add else .op1sub)⟩
    else if rhsIsZero || lhsIsZero then some ⟨!rhsIsZero, "lhs", []⟩
    else if op = .subtract ∧ isLiteralValue lhs 0 then some ⟨true, "rhs", emitOp .opNegate⟩
    else none
  else if op = .multiply ∨ op = .divide then
    let rhsIsOne := isLiteralValue rhs 1
    let lhsIsOne := op = .multiply && isLiteralValue lhs 1
    if rhsIsOne || lhsIsOne then some ⟨!rhsIsOne, "lhs", []⟩ else none
  else none

/-! ### Operators -/

/-- The end of `visitOperator`: the operands leave the picture, and the result comes. -/
def finishOperator (op : String) (binary : Bool) : Visit :=
  Visit.seq Visit.pop
    (Visit.seq (if binary then Visit.pop else Visit.emit [])
      (match operatorMap.lookup op with
        | some text =>
            Visit.seq (Visit.emit (emitText text))
              (Visit.pushFresh (if isComparisonOp op then "bool" else "int") text)
        | none => Visit.emit []))

/-- `visitOperator` without a left operand, where the value is not known. -/
def lowerUnary (op : UnaryOp) (visitRhs : Visit) : Visit :=
  Visit.seq (visitOperand visitRhs "rhs")
    (if op = .minus then Visit.emit (emitOp .opNegate) else finishOperator op.text false)

/-- `visitOperator` with two operands, where the value is not known. -/
def lowerBinary (op : BinaryOp) (lhs rhs : ExprNode) (visitLhs visitRhs : Visit) : Visit := fun s =>
  match consumedTwice s lhs rhs with
  | some name => .error ("variable '" ++ name ++
      "' is consumed more than once in the same expression (move semantics violation)")
  | none =>
      match arrangeIdentifiers op.text s lhs rhs with
      | some arrange => Visit.seq arrange (finishOperator op.text true) s
      | none =>
          match shortcut op lhs rhs with
          | some cut =>
              Visit.seq (visitOperand (if cut.keepsRhs then visitRhs else visitLhs) cut.str)
                (Visit.seq (Visit.emit cut.code) (Visit.seq Visit.pop (Visit.pushFresh "int" ""))) s
          | none =>
              Visit.seq (visitOperand visitLhs "lhs")
                (Visit.seq (visitOperand visitRhs "rhs") (finishOperator op.text true)) s

/-- The value of an identifier that `evaluateCompileTimeInteger` finds in the fixed area.  A slot hides it,
and its text has to be that of a number. -/
def VisitorState.staticValue (s : VisitorState) (name : String) : Option Int64 :=
  if (s.table.getPos name).isSome ∨
      (posOf (s.table.resolveBindSymbol name) s.table.alt).isSome then none
  else
    match s.getFixed name with
    | none => none
    | some fixed =>
        let encoded := if fixed.data = "" then fixed.name else fixed.data
        if ["int", "num", "number", "uint64"].contains fixed.type ∧ isStrictScriptNumberHex encoded then
          some (Int64.ofInt (scriptHexToNumber encoded))
        else none

/-- The beginning of `visitOperator`: a value that is known is visited as a literal. -/
def foldOr (e : ExprNode) (lowering : Visit) : Visit := fun s =>
  match evaluate s.staticValue e with
  | some (.error diagnostic) => .error diagnostic
  | some (.known value) => visitLiteral (.number value) s
  | _ => lowering s

/-- `visitExpr`; `visitOther` visits the nodes that are no number, identifier or operator. -/
def visitExpr (visitOther : ExprNode → Visit) : ExprNode → Visit
  | .literal .number value => visitNumber value
  | .identifier name => visitIdentifier name
  | .unary op rhs => foldOr (.unary op rhs) (lowerUnary op (visitExpr visitOther rhs))
  | .binary op lhs rhs =>
      foldOr (.binary op lhs rhs)
        (lowerBinary op lhs rhs (visitExpr visitOther lhs) (visitExpr visitOther rhs))
  | e => visitOther e

/-! ### The code of operators -/

section Code

variable {env : ScriptEnv} {alt : Stack}

theorem serializeScriptNum_inj {a b : ℤ} (ha : a.natAbs < 2 ^ 63) (hb : b.natAbs < 2 ^ 63) :
    serializeScriptNum a = serializeScriptNum b ↔ a = b := by
  constructor
  · intro h
    have hsame := toInt_serializeScriptNum ha
    rw [h, toInt_serializeScriptNum hb] at hsame
    exact (Option.some.inj hsame).symm
  · rintro rfl
    rfl

/-- A numeric opcode on the encodings of two numbers. -/
theorem takes_numeric {op : NumericOp} {a b result : ℤ} (hone : isOneByte op.opcode = true)
    (htwo : op.arity = 2) (hcount : op.shiftCount [a, b] = 0) (ha : a.natAbs < 2 ^ 63)
    (hb : b.natAbs < 2 ^ 63) (hexact : op.exact [a, b] = some result) (hresult : result.natAbs < 2 ^ 63)
    (main : Stack) :
    Takes env (emitOp op.opcode) (serializeScriptNum b :: serializeScriptNum a :: main, alt)
      (serializeScriptNum result :: main, alt) := by
  have hoperands : op.operands (serializeScriptNum b :: serializeScriptNum a :: main) =
      some [a, b] := by
    rw [NumericOp.operands_two htwo, toInt_serializeScriptNum ha, toInt_serializeScriptNum hb]
    rfl
  have hstep := @NumericOp.step_of_exact env.toEnv _ _ _ _ hoperands hexact hresult
    (by rw [hcount]; decide)
  rw [htwo] at hstep
  cases hop : mainOp env.toEnv [] op.opcode with
  | none =>
      rw [NumericOp.step, hop] at hstep
      cases hstep
  | some f =>
      rw [NumericOp.step, hop] at hstep
      exact takes_op alt hone hop hstep

/-- A numeric opcode on the encoding of one number. -/
theorem takes_numeric_one {op : NumericOp} {a result : ℤ} (hone : isOneByte op.opcode = true)
    (harity : op.arity = 1) (hcount : op.shiftCount [a] = 0) (ha : a.natAbs < 2 ^ 63)
    (hexact : op.exact [a] = some result) (hresult : result.natAbs < 2 ^ 63) (main : Stack) :
    Takes env (emitOp op.opcode) (serializeScriptNum a :: main, alt)
      (serializeScriptNum result :: main, alt) := by
  have hoperands : op.operands (serializeScriptNum a :: main) = some [a] := by
    rw [NumericOp.operands_one harity, toInt_serializeScriptNum ha]
    rfl
  have hstep := @NumericOp.step_of_exact env.toEnv _ _ _ _ hoperands hexact hresult
    (by rw [hcount]; decide)
  rw [harity] at hstep
  cases hop : mainOp env.toEnv [] op.opcode with
  | none =>
      rw [NumericOp.step, hop] at hstep
      cases hstep
  | some f =>
      rw [NumericOp.step, hop] at hstep
      exact takes_op alt hone hop hstep

theorem takes_equal {a b : ℤ} (ha : a.natAbs < 2 ^ 63) (hb : b.natAbs < 2 ^ 63) (main : Stack) :
    Takes env (emitOp .opEqual) (serializeScriptNum b :: serializeScriptNum a :: main, alt)
      (serializeScriptNum (if a = b then 1 else 0) :: main, alt) := by
  refine takes_op alt (by decide) rfl ?_
  simp only [opEqual, Stack.pop_cons, bind, Except.bind, serializeScriptNum_inj ha hb]
  rfl

theorem takes_not {a : ℤ} (ha : a.natAbs < 2 ^ 63) (main : Stack) :
    Takes env (emitOp .opNot) (serializeScriptNum a :: main, alt)
      (serializeScriptNum (if a = 0 then 1 else 0) :: main, alt) := by
  refine takes_op alt (by decide) rfl ?_
  simp only [opNot, Stack.pop_cons, bind, Except.bind, toInt_serializeScriptNum ha]
  rfl

theorem takes_condition {op : BytOpcode} {error : String} {p : ℤ → ℤ → Prop}
    [∀ a b, Decidable (p a b)] (hone : isOneByte op = true)
    (hop : mainOp env.toEnv [] op = some (Stack.compareNum error fun a b => decide (p a b))) {a b : ℤ}
    (ha : a.natAbs < 2 ^ 63) (hb : b.natAbs < 2 ^ 63) (main : Stack) :
    Takes env (emitOp op) (serializeScriptNum b :: serializeScriptNum a :: main, alt)
      (serializeScriptNum (if p a b then 1 else 0) :: main, alt) := by
  refine takes_op alt hone hop ?_
  simp only [Stack.compareNum, Stack.binaryNum, Stack.pop_cons, bind, Except.bind,
    toInt_serializeScriptNum ha, toInt_serializeScriptNum hb, decide_eq_true_eq]
  rfl

theorem emitText_operators :
    emitText (opcodeToHex .opAdd) = emitOp .opAdd ∧ emitText (opcodeToHex .opSub) = emitOp .opSub ∧
      emitText (opcodeToHex .opMul) = emitOp .opMul ∧ emitText (opcodeToHex .opDiv) = emitOp .opDiv ∧
      emitText (opcodeToHex .opEqual) = emitOp .opEqual ∧
      emitText (opcodeToHex .opEqual ++ opcodeToHex .opNot) = emitOp .opEqual ++ emitOp .opNot ∧
      emitText (opcodeToHex .opLessthan) = emitOp .opLessthan ∧
      emitText (opcodeToHex .opGreaterthan) = emitOp .opGreaterthan ∧
      emitText (opcodeToHex .opLessthanorequal) = emitOp .opLessthanorequal ∧
      emitText (opcodeToHex .opGreaterthanorequal) = emitOp .opGreaterthanorequal ∧
      emitText (opcodeToHex .opBooland) = emitOp .opBooland ∧
      emitText (opcodeToHex .opBoolor) = emitOp .opBoolor := by
  decide +kernel

/-- **The code of an operator leaves its exact result.** -/
theorem takes_operator {op : BinaryOp} {text : String} (hmap : operatorMap.lookup op.text = some text)
    (hknown : op.IsKnown) {a b : ℤ} (ha : a.natAbs < 2 ^ 63) (hb : b.natAbs < 2 ^ 63)
    (hresult : (op.value a b).natAbs < 2 ^ 63) (hdivisor : op = .divide → b ≠ 0) (main : Stack) :
    Takes env (emitText text) (serializeScriptNum b :: serializeScriptNum a :: main, alt)
      (serializeScriptNum (op.value a b) :: main, alt) := by
  obtain ⟨hadd, hsub, hmul, hdiv, hequal, hnot, hless, hgreater, hle, hge, hand, hor⟩ := emitText_operators
  cases op with
  | add =>
      obtain rfl := Option.some.inj hmap
      rw [hadd]
      exact @takes_numeric env alt .add a b _ rfl rfl rfl ha hb rfl hresult main
  | subtract =>
      obtain rfl := Option.some.inj hmap
      rw [hsub]
      exact @takes_numeric env alt .sub a b _ rfl rfl rfl ha hb rfl hresult main
  | multiply =>
      obtain rfl := Option.some.inj hmap
      rw [hmul]
      exact @takes_numeric env alt .mul a b _ rfl rfl rfl ha hb rfl hresult main
  | divide =>
      obtain rfl := Option.some.inj hmap
      rw [hdiv]
      exact @takes_numeric env alt .div a b _ rfl rfl rfl ha hb (if_neg (hdivisor rfl)) hresult main
  | modulo => cases hmap
  | equal =>
      obtain rfl := Option.some.inj hmap
      rw [hequal]
      exact takes_equal ha hb main
  | notEqual =>
      obtain rfl := Option.some.inj hmap
      rw [hnot]
      refine (takes_equal ha hb main).trans ?_
      have hflag : (if a = b then (1 : ℤ) else 0).natAbs < 2 ^ 63 := by split_ifs <;> decide
      have hvalue : (if (if a = b then (1 : ℤ) else 0) = 0 then (1 : ℤ) else 0) =
          BinaryOp.notEqual.value a b := by
        by_cases h : a = b <;> simp [BinaryOp.value, h]
      rw [← hvalue]
      exact takes_not hflag main
  | less =>
      obtain rfl := Option.some.inj hmap
      rw [hless]
      exact takes_condition (p := fun a b => a < b) rfl rfl ha hb main
  | greater =>
      obtain rfl := Option.some.inj hmap
      rw [hgreater]
      exact takes_condition (p := fun a b => b < a) rfl rfl ha hb main
  | lessOrEqual =>
      obtain rfl := Option.some.inj hmap
      rw [hle]
      exact takes_condition (p := fun a b => a ≤ b) rfl rfl ha hb main
  | greaterOrEqual =>
      obtain rfl := Option.some.inj hmap
      rw [hge]
      exact takes_condition (p := fun a b => b ≤ a) rfl rfl ha hb main
  | and =>
      obtain rfl := Option.some.inj hmap
      rw [hand]
      exact takes_condition (p := fun a b => a ≠ 0 ∧ b ≠ 0) rfl rfl ha hb main
  | or =>
      obtain rfl := Option.some.inj hmap
      rw [hor]
      exact takes_condition (p := fun a b => a ≠ 0 ∨ b ≠ 0) rfl rfl ha hb main
  | other op => exact absurd hknown id

end Code

/-! ### Slots that are read -/

section Slots

variable {name : String} {names : List String} {slots : List (String × Bytes)}

/-- The slots without those of some names. -/
def withoutNames (names : List String) (slots : List (String × Bytes)) : List (String × Bytes) :=
  names.foldl (fun slots name => takeNamed name slots) slots

def ReadsOnce (names : List String) (slots : List (String × Bytes)) : Prop :=
  (names.filter fun name => (findNamed name slots).isSome).Nodup

theorem withoutNames_append (names' : List String) :
    withoutNames (names ++ names') slots = withoutNames names' (withoutNames names slots) :=
  List.foldl_append ..

theorem findNamed_eq_none : findNamed name slots = none ↔ name ∉ slots.map Prod.fst := by
  rw [findNamed, List.find?_eq_none]
  simp only [beq_iff_eq, List.mem_map, not_exists, not_and]

theorem takeNamed_of_none (h : findNamed name slots = none) : takeNamed name slots = slots := by
  rw [findNamed, List.find?_eq_none] at h
  exact List.eraseP_of_forall_not h

theorem takeNamed_sublist (name : String) (slots : List (String × Bytes)) :
    (takeNamed name slots).Sublist slots :=
  List.eraseP_sublist

theorem withoutNames_sublist (names : List String) : ∀ slots : List (String × Bytes),
    (withoutNames names slots).Sublist slots := by
  induction names with
  | nil => exact fun slots => List.Sublist.refl slots
  | cons name names ih => exact fun slots => (ih _).trans (takeNamed_sublist name slots)

theorem findNamed_withoutNames (h : name ∉ names) :
    findNamed name (withoutNames names slots) = findNamed name slots := by
  induction names generalizing slots with
  | nil => rfl
  | cons other names ih =>
      rw [List.mem_cons, not_or] at h
      exact (ih h.2).trans (findNamed_takeNamed h.1 slots)

theorem withoutNames_cons {slot : String × Bytes} (h : slot.1 ∉ names) :
    withoutNames names (slot :: slots) = slot :: withoutNames names slots := by
  induction names generalizing slots with
  | nil => rfl
  | cons other names ih =>
      rw [List.mem_cons, not_or] at h
      show withoutNames names (takeNamed other (slot :: slots)) = _
      rw [takeNamed_cons_ne h.1, ih h.2]
      rfl

theorem findNamed_takeNamed_self (h : (slots.map Prod.fst).Nodup) :
    findNamed name (takeNamed name slots) = none := by
  induction slots with
  | nil => rfl
  | cons slot slots ih =>
      rw [List.map_cons, List.nodup_cons] at h
      by_cases hname : slot.1 = name
      · subst hname
        rw [takeNamed_cons_self]
        exact findNamed_eq_none.2 h.1
      · rw [takeNamed_cons_ne hname, findNamed_cons_ne hname]
        exact ih h.2

theorem findNamed_none_of_sublist {slots' : List (String × Bytes)} (hsub : slots'.Sublist slots)
    (h : findNamed name slots = none) : findNamed name slots' = none := by
  rw [findNamed_eq_none] at h ⊢
  exact fun hmem => h ((hsub.map Prod.fst).mem hmem)

theorem findNamed_withoutNames_mem (hmem : name ∈ names) (h : (slots.map Prod.fst).Nodup) :
    findNamed name (withoutNames names slots) = none := by
  induction names generalizing slots with
  | nil => cases hmem
  | cons other names ih =>
      rcases List.mem_cons.1 hmem with rfl | hmem
      · exact findNamed_none_of_sublist (withoutNames_sublist names _) (findNamed_takeNamed_self h)
      · exact ih hmem (((takeNamed_sublist other slots).map Prod.fst).nodup h)

theorem ReadsOnce.of_append {names' : List String} (h : ReadsOnce (names ++ names') slots) :
    ReadsOnce names slots ∧ ReadsOnce names' slots ∧
      ∀ name ∈ names', (findNamed name slots).isSome → name ∉ names := by
  rw [ReadsOnce, List.filter_append, List.nodup_append] at h
  obtain ⟨hleft, hright, hdisjoint⟩ := h
  refine ⟨hleft, hright, ?_⟩
  intro name hname hslot hmem
  exact hdisjoint name (List.mem_filter.2 ⟨hmem, hslot⟩) name (List.mem_filter.2 ⟨hname, hslot⟩) rfl

end Slots

/-! ### Names that the visitor invents -/

theorem toList_compilerPlaceholder (id : ℕ) : (compilerPlaceholder id).toList =
    "/CompilerPlaceholder_".toList ++ ((toString id).toList ++ ['/']) := by
  have happend : ∀ a b c : String, (a ++ b ++ c).toList = a.toList ++ (b.toList ++ c.toList) := by
    intro a b c
    rw [String.toList_append, String.toList_append, List.append_assoc]
  exact happend _ _ _

theorem compilerPlaceholder_inj {a b : ℕ} (h : compilerPlaceholder a = compilerPlaceholder b) :
    a = b := by
  have hlist := congrArg String.toList h
  rw [toList_compilerPlaceholder, toList_compilerPlaceholder] at hlist
  have hdigits := List.append_cancel_right (List.append_cancel_left hlist)
  exact BytecodeFinalizePass.toString_injective (String.ext hdigits)

theorem isPlaceholder_compilerPlaceholder (id : ℕ) :
    CompilerPlaceholder.isPlaceholder (compilerPlaceholder id) = true := by
  have hlen : 0 < (toString id).toList.length := by
    rw [List.length_pos_iff, Nat.toString_eq_repr, Nat.toList_repr]
    exact Nat.toDigits_ne_nil
  have hshape : ∀ front digits : List Char, 0 < digits.length →
      (front.length + 1 < (front ++ (digits ++ ['/'])).length &&
        front.isPrefixOf (front ++ (digits ++ ['/'])) &&
          decide ((front ++ (digits ++ ['/'])).getLast? = some '/')) = true := by
    intro front digits hdigits
    simp only [Bool.and_eq_true, decide_eq_true_eq, List.isPrefixOf_iff_prefix]
    refine ⟨⟨?_, List.prefix_append ..⟩, ?_⟩
    · rw [List.length_append, List.length_append, List.length_singleton]
      omega
    · rw [← List.append_assoc, List.getLast?_concat]
  have hresult := hshape "/CompilerPlaceholder_".toList (toString id).toList hlen
  rwa [← toList_compilerPlaceholder] at hresult

theorem isScript_compilerPlaceholder (id : ℕ) : isScript (compilerPlaceholder id) = false := by
  have hstrip : ScriptCodec.stripHexPrefix (compilerPlaceholder id).toList = (compilerPlaceholder id).toList := by
    rw [toList_compilerPlaceholder]
    rfl
  have hhead : (compilerPlaceholder id).toList.head? = some '/' := by
    rw [toList_compilerPlaceholder]
    rfl
  simp [isScript, hstrip, hhead]

/-! ### What the lowering relies on -/

/-- The identifiers of an expression, from left to right. -/
def ExprNode.identifiers : ExprNode → List String
  | literal _ _ => []
  | identifier name => [name]
  | methodCall object _ _ => object.identifiers
  | unary _ rhs => rhs.identifiers
  | binary _ lhs rhs => lhs.identifiers ++ rhs.identifiers
  | other => []

/-- The expressions that are lowered to instructions: numbers, identifiers, and operators that have
instructions, or whose value the compiler knows. -/
def ExprNode.Lowerable (known : String → Option Int64) : ExprNode → Prop
  | literal type text =>
      type = .number ∧ (numeral? text.toList).isSome ∧ getHexDataSize text ≤ scriptNumPolicy
  | identifier _ => True
  | unary op rhs => (op = .minus ∧ rhs.Lowerable known) ∨ (unary op rhs).LeavesKnown known
  | binary op lhs rhs =>
      (op.IsKnown ∧ (operatorMap.lookup op.text).isSome ∧ lhs.Lowerable known ∧ rhs.Lowerable known) ∨
        (binary op lhs rhs).LeavesKnown known
  | _ => False

/-- Every part has a result, and this is a number of the machine. -/
def ExprNode.InRange (bindings : String → Option Int64) (e : ExprNode) : Prop :=
  ∀ sub ∈ e.subtrees, sub.StepSound bindings ∧ (sub.value bindings).natAbs < 2 ^ 63

instance (op : BinaryOp) (a b : ℤ) : Decidable (op.Sound a b) :=
  match op with
  | .divide => inferInstanceAs (Decidable (b ≠ 0 ∧ Fits64 (a.tdiv b)))
  | .modulo => inferInstanceAs (Decidable (b ≠ 0 ∧ Fits64 (a.tdiv b) ∧ Fits64 (a.tmod b)))
  | .add | .subtract | .multiply | .equal | .notEqual | .less | .greater | .lessOrEqual
  | .greaterOrEqual | .and | .or | .other _ => inferInstanceAs (Decidable (Fits64 _))

instance (bindings : String → Option Int64) (e : ExprNode) : Decidable (e.StepSound bindings) :=
  match e with
  | .binary op lhs rhs =>
      inferInstanceAs (Decidable (op.Sound (lhs.value bindings) (rhs.value bindings)))
  | .literal _ _ | .identifier _ | .methodCall _ _ _ | .unary _ _ | .other =>
      inferInstanceAs (Decidable (Fits64 _))

instance (bindings : String → Option Int64) (e : ExprNode) : Decidable (e.InRange bindings) :=
  inferInstanceAs (Decidable (∀ sub ∈ e.subtrees, _))

/-- The picture shows the slots; no two of them have one name, and none has a name that is still to be
invented. -/
structure Tidy (s : VisitorState) (slots : NamedStacks) : Prop where
  depicts : Depicts s.table slots
  distinct : (slots.1.map Prod.fst).Nodup
  unborn : ∀ id, s.nextId ≤ id → compilerPlaceholder id ∉ slots.1.map Prod.fst

/-- The value of an identifier comes from a script that the visitor knows. -/
structure InText (env : ScriptEnv) (s : VisitorState) (slots : NamedStacks) (name : String)
    (value : Bytes) : Prop where
  noSlot : findNamed (s.table.resolveBindSymbol name) slots.1 = none
  script : isScript (s.identifierElement name).name = true
  pushes : PushesText env (s.identifierElement name).name value

/-- The value of an identifier is in a slot. -/
structure InSlot (s : VisitorState) (slots : NamedStacks) (name : String) (value : Bytes) : Prop where
  noObject : name ≠ "self"
  plain : IsSlotName name
  noMember : isAnglePlaceholder (s.table.resolveBindSymbol name) = false
  noScript : isScript (s.table.resolveBindSymbol name) = false
  resolved : s.table.resolveBindSymbol (s.table.resolveBindSymbol name) =
    s.table.resolveBindSymbol name
  slot : findNamed (s.table.resolveBindSymbol name) slots.1 =
    some (s.table.resolveBindSymbol name, value)

/-- An identifier has the value that it is bound to; `known` are the values that the compiler finds. -/
structure HasValue (env : ScriptEnv) (bindings known : String → Option Int64) (s : VisitorState)
    (slots : NamedStacks) (name : String) : Prop where
  known_eq : s.staticValue name = known name
  agrees : ∀ value, known name = some value → bindings name = some value
  unborn : ∀ id, s.nextId ≤ id → s.table.resolveBindSymbol name ≠ compilerPlaceholder id
  place : ∃ value, bindings name = some value ∧
    (InText env s slots name (serializeScriptNum value.toInt) ∨
      InSlot s slots name (serializeScriptNum value.toInt))

/-- The code leaves a value above the slots that are not read; the name of the new slot is a fresh one,
or that of a slot that was read. -/
structure Delivers (env : ScriptEnv) (s : VisitorState) (slots : NamedStacks) (names : List String)
    (value : ℤ) (top : String) (code : List String) (s' : VisitorState) : Prop where
  reaches : Reaches env s slots code s'
    ((top, serializeScriptNum value) :: withoutNames names slots.1, slots.2)
  fixed : s'.fixed = s.fixed
  nextId_le : s.nextId ≤ s'.nextId
  top : (∃ id, s.nextId ≤ id ∧ id < s'.nextId ∧ top = compilerPlaceholder id) ∨
    (top ∈ names ∧ (findNamed top slots.1).isSome ∧ isScript top = false ∧
      s.table.resolveBindSymbol top = top)

/-! ### The steps of an operand -/

section Steps

variable {env : ScriptEnv} {bindings known : String → Option Int64} {s s' : VisitorState}
  {slots : NamedStacks} {names : List String} {code : List String} {name top str : String} {value : ℤ}
variable {element : StackElement} {bytes : Bytes}

/-- The slots after an operand are tidy again. -/
theorem Delivers.tidy (h : Delivers env s slots names value top code s') (ht : Tidy s slots) :
    Tidy s' ((top, serializeScriptNum value) :: withoutNames names slots.1, slots.2) := by
  have hsub := (withoutNames_sublist names slots.1).map Prod.fst
  refine ⟨h.reaches.depicts, ?_, ?_⟩
  · rw [List.map_cons, List.nodup_cons]
    refine ⟨?_, hsub.nodup ht.distinct⟩
    rcases h.top with ⟨id, hid, -, rfl⟩ | ⟨hmem, -⟩
    · exact fun hmem => ht.unborn id hid (hsub.mem hmem)
    · exact findNamed_eq_none.1 (findNamed_withoutNames_mem hmem ht.distinct)
  · intro id hid hmem
    have hid' := h.nextId_le.trans hid
    rcases List.mem_cons.1 hmem with heq | hmem
    · obtain rfl : compilerPlaceholder id = top := heq
      rcases h.top with ⟨id', -, hlt, htop⟩ | ⟨-, hslot, -⟩
      · have := compilerPlaceholder_inj htop
        omega
      · rw [findNamed_eq_none.2 (ht.unborn id hid')] at hslot
        cases hslot
    · exact ht.unborn id hid' (hsub.mem hmem)

/-- A slot that an operand does not read is where it was. -/
theorem Delivers.findNamed (h : Delivers env s slots names value top code s')
    (hfresh : ∀ id, s.nextId ≤ id → name ≠ compilerPlaceholder id)
    (hread : (AtomicProof.findNamed name slots.1).isSome → name ∉ names) :
    AtomicProof.findNamed name ((top, serializeScriptNum value) :: withoutNames names slots.1) =
      AtomicProof.findNamed name slots.1 := by
  have htop : top ≠ name := by
    rintro rfl
    rcases h.top with ⟨id, hid, -, htop⟩ | ⟨hmem, hslot, -⟩
    · exact hfresh id hid htop
    · exact hread hslot hmem
  rw [findNamed_cons_ne htop]
  by_cases hmem : name ∈ names
  · have hnone : AtomicProof.findNamed name slots.1 = none := by
      by_contra hsome
      exact hread (Option.isSome_iff_ne_none.2 hsome) hmem
    rw [hnone]
    exact findNamed_none_of_sublist (withoutNames_sublist names _) hnone
  · exact findNamed_withoutNames hmem

theorem getPos_isSome (h : Depicts s.table slots) (name : String) :
    (s.table.getPos name).isSome =
      (AtomicProof.findNamed (s.table.resolveBindSymbol name) slots.1).isSome := by
  rw [h.getPos, List.findIdx?_map, List.findIdx?_isSome, AtomicProof.findNamed, List.isSome_find?]
  rfl

theorem posOf_alt_isSome (h : Depicts s.table slots) (name : String) :
    (posOf name s.table.alt).isSome = (AtomicProof.findNamed name slots.2).isSome := by
  have halt : s.table.alt.map StackElement.name = slots.2.map Prod.fst := congrArg Prod.snd h.names
  have hidx : posOf name s.table.alt = (slots.2.map Prod.fst).findIdx? (· == name) := by
    rw [← halt, List.findIdx?_map]
    rfl
  rw [hidx, List.findIdx?_map, List.findIdx?_isSome, AtomicProof.findNamed, List.isSome_find?]
  rfl

/-- An identifier that an operand does not read keeps its value. -/
theorem Delivers.hasValue (h : Delivers env s slots names value top code s') (ht : Tidy s slots)
    (hv : HasValue env bindings known s slots name)
    (hread : (AtomicProof.findNamed (s.table.resolveBindSymbol name) slots.1).isSome →
      s.table.resolveBindSymbol name ∉ names) :
    HasValue env bindings known s'
      ((top, serializeScriptNum value) :: withoutNames names slots.1, slots.2) name := by
  have hresolve := congrFun h.reaches.resolve
  have hslot := h.findNamed hv.unborn hread
  have hpos : (s'.table.getPos name).isSome = (s.table.getPos name).isSome := by
    rw [getPos_isSome h.reaches.depicts, hresolve, hslot, getPos_isSome ht.depicts]
  have hfixed : s'.getFixed name = s.getFixed name := by
    rw [VisitorState.getFixed, h.fixed, ← VisitorState.getFixed]
  have hstatic : s'.staticValue name = s.staticValue name := by
    simp only [VisitorState.staticValue, hpos, hfixed, hresolve,
      posOf_alt_isSome h.reaches.depicts, posOf_alt_isSome ht.depicts]
  have helement : s'.identifierElement name = s.identifierElement name := by
    simp only [VisitorState.identifierElement, hpos, hfixed, hresolve]
  obtain ⟨bound, hbound, hplace⟩ := hv.place
  refine ⟨hstatic.trans hv.known_eq, hv.agrees, ?_, bound, hbound, ?_⟩
  · intro id hid
    rw [hresolve]
    exact hv.unborn id (h.nextId_le.trans hid)
  · rcases hplace with htext | hin
    · refine Or.inl ⟨?_, ?_, ?_⟩
      · rw [hresolve, hslot]
        exact htext.noSlot
      · rw [helement]
        exact htext.script
      · rw [helement]
        exact htext.pushes
    · refine Or.inr ⟨hin.noObject, hin.plain, ?_, ?_, ?_, ?_⟩
      · rw [hresolve]
        exact hin.noMember
      · rw [hresolve]
        exact hin.noScript
      · rw [hresolve, hresolve]
        exact hin.resolved
      · rw [hresolve, hslot]
        exact hin.slot

theorem depicts_pushFresh {type data : String} {main alt : List (String × Bytes)}
    (h : Depicts s.table (main, alt)) (hrun : Visit.pushFresh type data s = .ok (code, s')) :
    code = [] ∧ s'.nextId = s.nextId + 1 ∧ s'.fixed = s.fixed ∧
      s'.table.resolveBindSymbol = s.table.resolveBindSymbol ∧
      ∀ value, Depicts s'.table ((compilerPlaceholder s.nextId, value) :: main, alt) :=
  @depicts_push { s with nextId := s.nextId + 1 } s' code _ main alt h hrun

/-- A symbol that stands for no slot yet is popped again, and `lamd` gets it. -/
theorem takeOver_of_push {s₁ : VisitorState} {code₁ : List String}
    (h : Depicts s.table slots) (hpush : Visit.push element s = .ok (code₁, s₁))
    (hrun : takeOver str s₁ = .ok (code, s')) :
    ∃ s₀, lamd (some element) str s₀ = .ok (code, s') ∧ s₀.nextId = s.nextId ∧ s₀.fixed = s.fixed ∧
      s₀.table.resolveBindSymbol = s.table.resolveBindSymbol ∧ Depicts s₀.table slots ∧ code₁ = [] := by
  obtain ⟨hnil, hid, hfixed, hresolve, hdepicts⟩ :=
    @depicts_push s s₁ code₁ element slots.1 slots.2 h hpush
  obtain ⟨hpopped, hpopResolve⟩ := depicts_pop (hdepicts [])
  have hhead : s₁.table.main.head? = some element := by
    unfold Visit.push pushSlot at hpush
    split_ifs at hpush with hover
    · cases hpush
    · cases hpush
      rfl
  rw [takeOver, hhead] at hrun
  obtain ⟨codePop, s₀, codeLamd, hpop, hlamd, rfl⟩ := Visit.seq_ok hrun
  cases hpop
  exact ⟨_, hlamd, hid, hfixed, hpopResolve.trans hresolve, hpopped, hnil⟩

/-- The text of a script is emitted, and its value gets a fresh name. -/
theorem lamd_script (h : Depicts s.table slots)
    (hscript : isScript element.name = true) (hpushes : PushesText env element.name bytes)
    (hrun : lamd (some element) str s = .ok (code, s')) :
    s'.nextId = s.nextId + 1 ∧ s'.fixed = s.fixed ∧
      Reaches env s slots code s' ((compilerPlaceholder s.nextId, bytes) :: slots.1, slots.2) := by
  simp only [lamd, if_pos hscript] at hrun
  obtain ⟨codeText, s₁, codeFresh, hemit, hfresh, rfl⟩ := Visit.seq_ok hrun
  cases hemit
  obtain ⟨rfl, hid, hfixed, hresolve, hdepicts⟩ :=
    @depicts_pushFresh _ _ _ _ _ slots.1 slots.2 h hfresh
  refine ⟨hid, hfixed, ?_, hdepicts bytes, hresolve⟩
  rw [List.append_nil]
  exact hpushes _ _

variable (env) in
/-- The slot of a name comes to the top. -/
theorem lamd_slot (h : Depicts s.table slots) (hplain : IsSlotName element.name)
    (hslot : AtomicProof.findNamed (s.table.resolveBindSymbol element.name) slots.1 =
      some (s.table.resolveBindSymbol element.name, bytes))
    (hrun : lamd (some element) str s = .ok (code, s')) :
    s'.nextId = s.nextId ∧ s'.fixed = s.fixed ∧
      Reaches env s slots code s' ((s.table.resolveBindSymbol element.name, bytes) ::
        takeNamed (s.table.resolveBindSymbol element.name) slots.1, slots.2) := by
  have hsome : (s.table.getPos element.name).isSome = true := by
    rw [getPos_isSome h, hslot]
    rfl
  obtain ⟨pos, hpos⟩ := Option.isSome_iff_exists.1 hsome
  simp only [lamd, hplain.1, hplain.2, hpos, Bool.false_eq_true, if_false] at hrun
  obtain ⟨s₁, slot, hroll, hid, hfixed, hfound, hreaches⟩ := reaches_bring env h hpos
  obtain rfl := Option.some.inj (hslot.symm.trans hfound)
  obtain ⟨rfl, rfl⟩ := Prod.mk.inj (Except.ok.inj (hrun.symm.trans hroll))
  exact ⟨hid, hfixed, hreaches⟩

/-- A result on top stays there; it may get another name. -/
theorem takeOver_result {main alt : List (String × Bytes)}
    (h : Depicts s.table ((top, bytes) :: main, alt)) (hscript : isScript top = false)
    (htop : CompilerPlaceholder.isPlaceholder top = true ∨
      (s.table.resolveBindSymbol top = top ∧ AtomicProof.findNamed top main = none))
    (hrun : takeOver str s = .ok (code, s')) :
    ∃ top', code = [] ∧ s'.fixed = s.fixed ∧
      s'.table.resolveBindSymbol = s.table.resolveBindSymbol ∧
      Depicts s'.table ((top', bytes) :: main, alt) ∧
      ((top' = compilerPlaceholder s.nextId ∧ s'.nextId = s.nextId + 1) ∨
        (top' = top ∧ s'.nextId = s.nextId)) := by
  obtain ⟨hpopped, hpopResolve⟩ := depicts_pop h
  have hnames : s.table.main.map StackElement.name = top :: main.map Prod.fst :=
    congrArg Prod.fst h.names
  obtain ⟨element, hhead, hname⟩ : ∃ element, s.table.main.head? = some element ∧
      element.name = top := by
    cases hmain : s.table.main with
    | nil => simp [hmain] at hnames
    | cons element rest =>
        rw [hmain, List.map_cons, List.cons.injEq] at hnames
        exact ⟨element, rfl, hnames.1⟩
  rw [takeOver, hhead] at hrun
  obtain ⟨codePop, s₀, codeLamd, hpop, hlamd, rfl⟩ := Visit.seq_ok hrun
  cases hpop
  simp only [lamd, hname, hscript, Bool.false_eq_true, if_false] at hlamd
  by_cases hplaceholder : CompilerPlaceholder.isPlaceholder top = true
  · rw [if_pos hplaceholder] at hlamd
    obtain ⟨rfl, hid, hfixed, hresolve, hdepicts⟩ := depicts_pushFresh hpopped hlamd
    exact ⟨_, rfl, hfixed, hresolve.trans hpopResolve, hdepicts bytes, Or.inl ⟨rfl, hid⟩⟩
  · rw [if_neg hplaceholder] at hlamd
    obtain ⟨hself, hnone⟩ := htop.resolve_left hplaceholder
    -- the name was popped, so that only the fixed area can have it
    have hpos : ({ s with table := s.table.pop } : VisitorState).table.getPos top = none := by
      rw [← Option.not_isSome_iff_eq_none, getPos_isSome hpopped, hpopResolve, hself, hnone]
      exact Bool.false_ne_true
    rw [hpos] at hlamd
    cases hfixed : ({ s with table := s.table.pop } : VisitorState).getFixed top with
    | none => simp [hfixed] at hlamd
    | some fixed =>
        simp only [hfixed] at hlamd
        obtain ⟨rfl, hid, hkept, hresolve, hdepicts⟩ := depicts_push hpopped hlamd
        exact ⟨_, rfl, hkept, hresolve.trans hpopResolve, hdepicts bytes, Or.inr ⟨rfl, hid⟩⟩

end Steps

/-! ### Leaves -/

section Leaves

variable {env : ScriptEnv} {bindings known : String → Option Int64} {s s' : VisitorState}
  {slots : NamedStacks} {code : List String} {str : String}

theorem decimalValue_eq (digits : List Char) : decimalValue digits = Nat.ofDigitChars 10 digits 0 := by
  rw [Nat.ofDigitChars_eq_foldl, decimalValue]
  congr 1
  funext value digit
  rw [Nat.mul_comm]

/-- The digits of a number literal are read as its number. -/
theorem stoll_of_numeral {text : List Char} {n : ℤ} (h : numeral? text = some n) (hfits : Fits64 n) :
    stoll text = some n := by
  have hread : readInteger 10 text = some n := by
    unfold numeral? at h
    dsimp only at h
    split_ifs at h with hneg hshape hshape
    · obtain rfl := Option.some.inj h
      obtain ⟨rest, rfl⟩ : ∃ rest, text = '-' :: rest := by
        cases text with
        | nil => cases hneg
        | cons c rest =>
            obtain rfl := Option.some.inj hneg
            exact ⟨rest, rfl⟩
      rw [List.tail_cons] at hshape ⊢
      rw [decimalValue_eq]
      exact (readInteger_digits rest hshape.1 fun c hc => List.all_eq_true.1 hshape.2 c hc).2
    · obtain rfl := Option.some.inj h
      rw [decimalValue_eq]
      exact (readInteger_digits text hshape.1 fun c hc => List.all_eq_true.1 hshape.2 c hc).1
  rw [stoll, hread, Option.filter_some, if_pos (decide_eq_true ⟨hfits.1, hfits.2⟩)]

theorem delivers_script {element : StackElement} {s₁ : VisitorState} {code₁ code₂ : List String}
    {value : ℤ} (h : Tidy s slots) (hpush : Visit.push element s = .ok (code₁, s₁))
    (hscript : isScript element.name = true)
    (hpushes : PushesText env element.name (serializeScriptNum value))
    (hrun : takeOver str s₁ = .ok (code₂, s')) :
    Delivers env s slots [] value (compilerPlaceholder s.nextId) (code₁ ++ code₂) s' := by
  obtain ⟨s₀, hlamd, hid₀, hfixed₀, hresolve₀, hdepicts₀, rfl⟩ := takeOver_of_push h.depicts hpush hrun
  obtain ⟨hid, hfixed, hreaches⟩ := lamd_script hdepicts₀ hscript hpushes hlamd
  rw [hid₀] at hid hreaches
  refine ⟨⟨hreaches.takes, hreaches.depicts, hreaches.resolve.trans hresolve₀⟩,
    hfixed.trans hfixed₀, by omega, Or.inl ⟨s.nextId, le_rfl, by omega, rfl⟩⟩

theorem delivers_number {text : String} {n : ℤ} (h : Tidy s slots)
    (hnumeral : numeral? text.toList = some n) (hfits : Fits64 n)
    (hsize : getHexDataSize text ≤ scriptNumPolicy)
    (hrun : visitOperand (visitNumber text) str s = .ok (code, s')) :
    ∃ top, Delivers env s slots [] n top code s' := by
  obtain ⟨code₁, s₁, code₂, hvisit, htake, rfl⟩ := Visit.seq_ok hrun
  simp only [visitNumber, if_pos hsize, stoll_of_numeral hnumeral hfits] at hvisit
  obtain ⟨hscript, hpushes⟩ := @pushesText_number env n
  exact ⟨_, delivers_script h hvisit hscript hpushes htake⟩

theorem identifierElement_of_slot {name : String} {bytes : Bytes} (h : Depicts s.table slots)
    (hin : InSlot s slots name bytes) : s.identifierElement name = ⟨name, "", name⟩ := by
  have hpos : (s.table.getPos name).isSome = true := by
    rw [getPos_isSome h, hin.slot]
    rfl
  unfold VisitorState.identifierElement
  dsimp only
  rw [if_neg hin.noObject, if_neg (by rw [hin.noMember]; exact fun h => Bool.false_ne_true h.2),
    if_pos hpos]

/-- An identifier reads its slot, if it has one. -/
theorem delivers_identifier {name : String} {value : Int64} (h : Tidy s slots)
    (hv : HasValue env bindings known s slots name) (hbound : bindings name = some value)
    (hrun : visitOperand (visitIdentifier name) str s = .ok (code, s')) :
    ∃ top, Delivers env s slots [s.table.resolveBindSymbol name] value.toInt top code s' := by
  obtain ⟨code₁, s₁, code₂, hvisit, htake, rfl⟩ := Visit.seq_ok hrun
  obtain ⟨value', hbound', htext | hin⟩ := hv.place
  · obtain rfl := Option.some.inj (hbound.symm.trans hbound')
    obtain ⟨hreaches, hfixed, hid, htop⟩ :=
      delivers_script h hvisit htext.script htext.pushes htake
    have hsame : withoutNames [s.table.resolveBindSymbol name] slots.1 = slots.1 :=
      takeNamed_of_none htext.noSlot
    refine ⟨compilerPlaceholder s.nextId, ⟨?_, hfixed, hid, Or.inl ?_⟩⟩
    · rw [hsame]
      exact hreaches
    · rcases htop with htop | ⟨hmem, -⟩
      · exact htop
      · cases hmem
  · obtain rfl := Option.some.inj (hbound.symm.trans hbound')
    have helement := identifierElement_of_slot h.depicts hin
    rw [visitIdentifier, helement] at hvisit
    obtain ⟨s₀, hlamd, hid₀, hfixed₀, hresolve₀, hdepicts₀, rfl⟩ :=
      takeOver_of_push h.depicts hvisit htake
    have hslot := hin.slot
    rw [← hresolve₀] at hslot
    obtain ⟨hid, hfixed, hreaches⟩ := lamd_slot env hdepicts₀ hin.plain hslot hlamd
    rw [hresolve₀] at hreaches
    refine ⟨s.table.resolveBindSymbol name, ⟨hreaches.takes, hreaches.depicts, hreaches.resolve.trans hresolve₀⟩,
      hfixed.trans hfixed₀, by omega, Or.inr ⟨List.mem_singleton_self _, ?_, hin.noScript, hin.resolved⟩⟩
    rw [hin.slot]
    rfl

end Leaves

/-! ### Values that are known -/

section Known

variable {env : ScriptEnv} {bindings known : String → Option Int64} {s s' : VisitorState}
  {slots : NamedStacks} {code : List String} {e : ExprNode}

namespace ExprNode

/-- The leaves of an expression are its number literals and identifiers. -/
theorem LeavesKnown.identifiers (h : e.LeavesKnown known) :
    ∀ name ∈ e.identifiers, (known name).isSome := by
  induction e with
  | literal type text =>
      intro name hname
      cases hname
  | identifier name =>
      intro name' hname
      obtain rfl := List.mem_singleton.1 hname
      exact h
  | methodCall object methodName argCount ih => exact ih h.2
  | unary op rhs ih => exact ih h.2
  | binary op lhs rhs ihl ihr =>
      intro name hname
      rcases List.mem_append.1 hname with hname | hname
      · exact ihl h.2.1 name hname
      · exact ihr h.2.2 name hname
  | other => exact absurd h id

theorem leavesKnown_congr {known' : String → Option Int64}
    (h : ∀ name ∈ e.identifiers, known name = known' name) :
    e.LeavesKnown known ↔ e.LeavesKnown known' := by
  induction e with
  | literal type text => rfl
  | identifier name =>
      have hname := h name (List.mem_singleton_self name)
      simp only [LeavesKnown, hname]
  | methodCall object methodName argCount ih => exact and_congr Iff.rfl (ih h)
  | unary op rhs ih => exact and_congr Iff.rfl (ih h)
  | binary op lhs rhs ihl ihr =>
      exact and_congr Iff.rfl (and_congr (ihl fun name hname => h name (List.mem_append_left _ hname))
        (ihr fun name hname => h name (List.mem_append_right _ hname)))
  | other => rfl

/-- A value depends on the identifiers alone. -/
theorem value_congr {known' : String → Option Int64}
    (h : ∀ name ∈ e.identifiers, known name = known' name) : e.value known = e.value known' := by
  induction e with
  | literal type text => rfl
  | identifier name =>
      have hname := h name (List.mem_singleton_self name)
      simp only [value, hname]
  | methodCall object methodName argCount ih => exact ih h
  | unary op rhs ih => exact congrArg op.value (ih h)
  | binary op lhs rhs ihl ihr =>
      exact congrArg₂ op.value (ihl fun name hname => h name (List.mem_append_left _ hname))
        (ihr fun name hname => h name (List.mem_append_right _ hname))
  | other => rfl

end ExprNode

theorem withoutNames_of_none {names : List String} {slots : List (String × Bytes)}
    (h : ∀ name ∈ names, findNamed name slots = none) : withoutNames names slots = slots := by
  induction names with
  | nil => rfl
  | cons name names ih =>
      show withoutNames names (takeNamed name slots) = slots
      rw [takeNamed_of_none (h name (List.mem_cons_self ..))]
      exact ih fun name hname => h name (List.mem_cons_of_mem _ hname)

/-- The visitor computes what it knows and lowers the rest. -/
theorem foldOr_cases {lowering : Visit} (h : Tidy s slots)
    (hvalues : ∀ name ∈ e.identifiers, HasValue env bindings known s slots name)
    (hrun : foldOr e lowering s = .ok (code, s')) :
    (∃ value : Int64, value.toInt = e.value bindings ∧
      visitLiteral (.number value) s = .ok (code, s') ∧
        withoutNames (e.identifiers.map s.table.resolveBindSymbol) slots.1 = slots.1) ∨
      (¬ e.LeavesKnown known ∧ lowering s = .ok (code, s')) := by
  have hknown : ∀ name ∈ e.identifiers, s.staticValue name = known name :=
    fun name hname => (hvalues name hname).known_eq
  obtain ⟨result, hresult, hverdict⟩ := ExprNode.evaluate_verdict s.staticValue e
  rw [foldOr, hresult] at hrun
  cases hverdict with
  | error hfaulty => cases hrun
  | unknown hleaves hfaultless =>
      rw [ExprNode.leavesKnown_congr hknown] at hleaves
      exact Or.inr ⟨hleaves, hrun⟩
  | known hleaves hsound hexact =>
      refine Or.inl ⟨_, ?_, hrun, withoutNames_of_none ?_⟩
      · rw [hexact]
        refine ExprNode.value_congr fun name hname => ?_
        obtain ⟨value, hvalue⟩ := Option.isSome_iff_exists.1 (hleaves.identifiers name hname)
        rw [hvalue]
        exact ((hvalues name hname).agrees value ((hknown name hname).symm.trans hvalue)).symm
      · intro name hname
        obtain ⟨identifier, hidentifier, rfl⟩ := List.mem_map.1 hname
        -- a slot would have hidden the value
        by_contra hsome
        have hstatic := hleaves.identifiers identifier hidentifier
        have hpos : (s.table.getPos identifier).isSome = true := by
          rw [getPos_isSome h.depicts]
          exact Option.isSome_iff_ne_none.2 hsome
        rw [VisitorState.staticValue, if_pos (Or.inl hpos)] at hstatic
        cases hstatic

end Known

/-! ### One operand after the other -/

section Operands

variable {env : ScriptEnv} {bindings known : String → Option Int64} {s s₁ s' : VisitorState}
  {slots : NamedStacks} {names names' : List String} {code code' : List String} {top top' str : String}
  {a b value : ℤ}

/-- `visit` is a lowering of `e`: as an operand it leaves the value of `e`. -/
def Lowers (env : ScriptEnv) (bindings known : String → Option Int64) (e : ExprNode) (visit : Visit) :
    Prop :=
  ∀ (s : VisitorState) (slots : NamedStacks) (str : String) (code : List String) (s' : VisitorState),
    Tidy s slots → (∀ name ∈ e.identifiers, HasValue env bindings known s slots name) →
      ReadsOnce (e.identifiers.map s.table.resolveBindSymbol) slots.1 →
        visitOperand visit str s = .ok (code, s') →
          ∃ top, Delivers env s slots (e.identifiers.map s.table.resolveBindSymbol) (e.value bindings)
            top code s'

theorem Delivers.andThen (h : Delivers env s slots names a top code s')
    (hcode : ∀ main alt, Takes env code' (serializeScriptNum a :: main, alt)
      (serializeScriptNum b :: main, alt)) :
    Delivers env s slots names b top (code ++ code') s' := by
  refine ⟨⟨h.reaches.takes.trans (hcode _ _), ?_, h.reaches.resolve⟩, h.fixed, h.nextId_le, h.top⟩
  obtain ⟨hnames, hmain, halt⟩ := h.reaches.depicts
  exact ⟨hnames, hmain, halt⟩

/-- The consumer of an operator takes its result over. -/
theorem Delivers.takeOver (h : Delivers env s slots names a top code s₁) (ht : Tidy s slots)
    (hrun : AtomicProof.takeOver str s₁ = .ok (code', s')) :
    ∃ top', Delivers env s slots names a top' (code ++ code') s' := by
  have hscript : isScript top = false := by
    rcases h.top with ⟨id, -, -, rfl⟩ | ⟨-, -, hscript, -⟩
    · exact isScript_compilerPlaceholder id
    · exact hscript
  have htop : CompilerPlaceholder.isPlaceholder top = true ∨
      (s₁.table.resolveBindSymbol top = top ∧
        AtomicProof.findNamed top (withoutNames names slots.1) = none) := by
    rcases h.top with ⟨id, -, -, rfl⟩ | ⟨hmem, -, -, hself⟩
    · exact Or.inl (isPlaceholder_compilerPlaceholder id)
    · exact Or.inr ⟨(congrFun h.reaches.resolve top).trans hself,
        findNamed_withoutNames_mem hmem ht.distinct⟩
  obtain ⟨top', rfl, hfixed, hresolve, hdepicts, hname⟩ :=
    takeOver_result h.reaches.depicts hscript htop hrun
  refine ⟨top', ⟨?_, hdepicts, hresolve.trans h.reaches.resolve⟩, hfixed.trans h.fixed, ?_, ?_⟩
  · rw [List.append_nil]
    exact h.reaches.takes
  · have := h.nextId_le
    rcases hname with ⟨-, hid⟩ | ⟨-, hid⟩ <;> omega
  · have hle := h.nextId_le
    rcases hname with ⟨rfl, hid⟩ | ⟨rfl, hid⟩
    · exact Or.inl ⟨_, hle, by omega, rfl⟩
    · rcases h.top with ⟨id, hlow, hhigh, hid'⟩ | hread
      · exact Or.inl ⟨id, hlow, by omega, hid'⟩
      · exact Or.inr hread

/-- The end of an operator with two operands on top. -/
theorem reaches_finish {op text : String} {x y z : Bytes} {n m : String}
    {main alt : List (String × Bytes)} (hmap : operatorMap.lookup op = some text)
    (h : Depicts s.table ((m, y) :: (n, x) :: main, alt))
    (hcode : ∀ main alt : Stack, Takes env (emitText text) (y :: x :: main, alt) (z :: main, alt))
    (hrun : finishOperator op true s = .ok (code, s')) :
    s'.nextId = s.nextId + 1 ∧ s'.fixed = s.fixed ∧
      Reaches env s ((m, y) :: (n, x) :: main, alt) code s'
        ((compilerPlaceholder s.nextId, z) :: main, alt) := by
  rw [finishOperator, hmap] at hrun
  obtain ⟨code₁, s₁, rest₁, hpop, hrun, rfl⟩ := Visit.seq_ok hrun
  cases hpop
  obtain ⟨code₂, s₂, rest₂, hpop, hrun, rfl⟩ := Visit.seq_ok hrun
  rw [if_pos rfl] at hpop
  cases hpop
  obtain ⟨code₃, s₃, rest₃, hemit, hfresh, rfl⟩ := Visit.seq_ok hrun
  cases hemit
  obtain ⟨hfirst, hresolve₁⟩ := depicts_pop h
  obtain ⟨hsecond, hresolve₂⟩ := depicts_pop (s := { s with table := s.table.pop }) hfirst
  obtain ⟨rfl, hid, hfixed, hresolve, hdepicts⟩ := depicts_pushFresh hsecond hfresh
  refine ⟨hid, hfixed, ?_, hdepicts z, hresolve.trans (hresolve₂.trans hresolve₁)⟩
  rw [List.nil_append, List.nil_append, List.append_nil]
  exact hcode _ _

/-- The end of an operator that kept one operand. -/
theorem Delivers.finishShortcut {cutCode : List String} (h : Delivers env s slots names a top code s₁)
    (hcode : ∀ main alt, Takes env cutCode (serializeScriptNum a :: main, alt)
      (serializeScriptNum b :: main, alt))
    (hrun : Visit.seq (Visit.emit cutCode) (Visit.seq Visit.pop (Visit.pushFresh "int" "")) s₁ =
      .ok (code', s')) :
    ∃ top', Delivers env s slots names b top' (code ++ code') s' := by
  obtain ⟨code₁, s₂, rest₁, hemit, hrun, rfl⟩ := Visit.seq_ok hrun
  cases hemit
  obtain ⟨code₂, s₃, rest₂, hpop, hfresh, rfl⟩ := Visit.seq_ok hrun
  cases hpop
  obtain ⟨hpopped, hresolve₁⟩ := depicts_pop h.reaches.depicts
  obtain ⟨rfl, hid, hfixed, hresolve, hdepicts⟩ := depicts_pushFresh hpopped hfresh
  have hnext : s'.nextId = s₁.nextId + 1 := hid
  have hle := h.nextId_le
  refine ⟨compilerPlaceholder s₁.nextId, ⟨?_, hdepicts _, ?_⟩, hfixed.trans h.fixed, by omega,
    Or.inl ⟨s₁.nextId, hle, by omega, rfl⟩⟩
  · rw [List.nil_append, List.append_nil]
    exact h.reaches.takes.trans (hcode _ _)
  · exact hresolve.trans (hresolve₁.trans h.reaches.resolve)

theorem Delivers.withoutNames_cons (h : Delivers env s slots names a top code s₁)
    (hfresh : ∀ name ∈ names', ∀ id, s.nextId ≤ id → name ≠ compilerPlaceholder id)
    (hread : ∀ name ∈ names', (AtomicProof.findNamed name slots.1).isSome → name ∉ names) :
    withoutNames names' ((top, serializeScriptNum a) :: withoutNames names slots.1) =
      (top, serializeScriptNum a) :: withoutNames (names ++ names') slots.1 := by
  rw [withoutNames_append]
  refine AtomicProof.withoutNames_cons fun hmem => ?_
  rcases h.top with ⟨id, hid, -, htop⟩ | ⟨hleft, hslot, -⟩
  · exact hfresh top hmem id hid htop
  · exact hread top hmem hslot hleft

/-- Slots that are not read by the left operand are read once by the right one. -/
theorem Delivers.readsOnce (h : Delivers env s slots names a top code s₁)
    (hfresh : ∀ name ∈ names', ∀ id, s.nextId ≤ id → name ≠ compilerPlaceholder id)
    (honce : ReadsOnce (names ++ names') slots.1) :
    ReadsOnce names' ((top, serializeScriptNum a) :: withoutNames names slots.1) := by
  obtain ⟨-, hright, hread⟩ := honce.of_append
  rw [ReadsOnce] at hright ⊢
  have hsame : names'.filter (fun name => (AtomicProof.findNamed name
      ((top, serializeScriptNum a) :: withoutNames names slots.1)).isSome) =
        names'.filter fun name => (AtomicProof.findNamed name slots.1).isSome := by
    refine List.filter_congr fun name hname => ?_
    rw [h.findNamed (hfresh name hname) (hread name hname)]
  rw [hsame]
  exact hright

end Operands

/-! ### Two variables -/

section Arrange

variable {env : ScriptEnv} {s s' : VisitorState} {slots : NamedStacks} {code : List String}
  {op lhs rhs : String} {arrange : Visit} {x y : Bytes}

/-- The ways in which two variables are arranged. -/
theorem arrangeIdentifiers_cases {left right : ExprNode}
    (h : arrangeIdentifiers op s left right = some arrange) :
    ∃ lhs rhs l r, left = .identifier lhs ∧ right = .identifier rhs ∧
      s.table.getPos lhs = some l ∧ s.table.getPos rhs = some r ∧
        (r = 0 ∧ l = 1 ∧ arrange = Visit.emit [] ∨
          l = 0 ∧ r = 1 ∧ isCommutativeOp op = true ∧ arrange = Visit.emit [] ∨
            l = 0 ∧ arrange = Visit.rollToTop r ∨
              r = 0 ∧ isCommutativeOp op = true ∧ arrange = Visit.rollToTop l) := by
  unfold arrangeIdentifiers at h
  split at h
  · rename_i lhs rhs
    by_cases hsame : lhs = rhs
    · rw [if_pos hsame] at h
      cases h
    · rw [if_neg hsame] at h
      cases hl : s.table.getPos lhs with
      | none => simp [hl] at h
      | some l =>
          cases hr : s.table.getPos rhs with
          | none => simp [hl, hr] at h
          | some r =>
              refine ⟨lhs, rhs, l, r, rfl, rfl, hl, hr, ?_⟩
              simp only [hl, hr] at h
              by_cases h10 : l = 1 ∧ r = 0
              · rw [if_pos h10] at h
                exact Or.inl ⟨h10.2, h10.1, (Option.some.inj h).symm⟩
              · rw [if_neg h10] at h
                by_cases h01 : l = 0 ∧ r = 1
                · rw [if_pos h01] at h
                  obtain ⟨rfl, rfl⟩ := h01
                  by_cases hcomm : isCommutativeOp op = true
                  · rw [if_pos hcomm] at h
                    exact Or.inr (Or.inl ⟨rfl, rfl, hcomm, (Option.some.inj h).symm⟩)
                  · rw [if_neg hcomm] at h
                    exact Or.inr (Or.inr (Or.inl ⟨rfl, (Option.some.inj h).symm⟩))
                · rw [if_neg h01] at h
                  split_ifs at h with hleft hright
                  · exact Or.inr (Or.inr (Or.inr ⟨hleft.1, hleft.2.2, (Option.some.inj h).symm⟩))
                  · exact Or.inr (Or.inr (Or.inl ⟨hright.1, (Option.some.inj h).symm⟩))
  · cases h

theorem getElem?_of_getPos {name : String} {pos : ℕ} {bytes : Bytes} (h : Depicts s.table slots)
    (hslot : findNamed (s.table.resolveBindSymbol name) slots.1 =
      some (s.table.resolveBindSymbol name, bytes)) (hpos : s.table.getPos name = some pos) :
    slots.1[pos]? = some (s.table.resolveBindSymbol name, bytes) := by
  obtain ⟨hlt, hfound, -⟩ := h.findNamed_of_getPos hpos
  rw [List.getElem?_eq_getElem hlt, ← hfound, hslot]

theorem exists_cons_of_head {slots : List (String × Bytes)} {slot : String × Bytes}
    (h : slots[0]? = some slot) : ∃ rest, slots = slot :: rest := by
  cases slots with
  | nil => cases h
  | cons first rest =>
      obtain rfl := Option.some.inj h
      exact ⟨rest, rfl⟩

variable (env) in
/-- Two variables that are arranged lie on top, the right one first, or either one where the operator is
commutative; the other slots stay as they are. -/
theorem reaches_arrange (h : Depicts s.table slots)
    (hne : s.table.resolveBindSymbol lhs ≠ s.table.resolveBindSymbol rhs)
    (hlhs : findNamed (s.table.resolveBindSymbol lhs) slots.1 =
      some (s.table.resolveBindSymbol lhs, x))
    (hrhs : findNamed (s.table.resolveBindSymbol rhs) slots.1 =
      some (s.table.resolveBindSymbol rhs, y))
    (harrange : arrangeIdentifiers op s (.identifier lhs) (.identifier rhs) = some arrange)
    (hrun : arrange s = .ok (code, s')) :
    ∃ n m u v, ((u, v) = (x, y) ∨ (u, v) = (y, x) ∧ isCommutativeOp op = true) ∧
      s'.nextId = s.nextId ∧ s'.fixed = s.fixed ∧
        Reaches env s slots code s' ((m, v) :: (n, u) ::
          withoutNames [s.table.resolveBindSymbol lhs, s.table.resolveBindSymbol rhs] slots.1,
            slots.2) := by
  obtain ⟨main, alt⟩ := slots
  obtain ⟨lhs', rhs', l, r, hleft, hright, hposL, hposR, hcases⟩ := arrangeIdentifiers_cases harrange
  obtain rfl := ExprNode.identifier.inj hleft
  obtain rfl := ExprNode.identifier.inj hright
  have hatL := getElem?_of_getPos h hlhs hposL
  have hatR := getElem?_of_getPos h hrhs hposR
  generalize hnameL : s.table.resolveBindSymbol lhs = nameL at *
  generalize hnameR : s.table.resolveBindSymbol rhs = nameR at *
  have hwithout : withoutNames [nameL, nameR] main = takeNamed nameR (takeNamed nameL main) := rfl
  rw [hwithout]
  rcases hcases with ⟨rfl, rfl, rfl⟩ | ⟨rfl, rfl, hcomm, rfl⟩ | ⟨rfl, rfl⟩ | ⟨rfl, hcomm, rfl⟩
  -- both lie there already
  · cases hrun
    obtain ⟨rest, rfl⟩ := exists_cons_of_head hatR
    obtain ⟨rest, rfl⟩ := @exists_cons_of_head rest _ hatL
    refine ⟨nameL, nameR, x, y, Or.inl rfl, rfl, rfl, ?_⟩
    rw [takeNamed_cons_ne hne.symm, takeNamed_cons_self (nameL, x), takeNamed_cons_self (nameR, y)]
    exact Reaches.refl h
  · cases hrun
    obtain ⟨rest, rfl⟩ := exists_cons_of_head hatL
    obtain ⟨rest, rfl⟩ := @exists_cons_of_head rest _ hatR
    refine ⟨nameR, nameL, y, x, Or.inr ⟨rfl, hcomm⟩, rfl, rfl, ?_⟩
    rw [takeNamed_cons_self (nameL, x), takeNamed_cons_self (nameR, y)]
    exact Reaches.refl h
  -- the right one comes above the left one
  · obtain ⟨s₁, slot, hroll, hid, hfixed, hfound, hreaches⟩ := reaches_bring env h hposR
    rw [hnameR] at hfound hreaches
    obtain rfl := Option.some.inj (hrhs.symm.trans hfound)
    obtain ⟨rfl, rfl⟩ := Prod.mk.inj (Except.ok.inj (hrun.symm.trans hroll))
    obtain ⟨rest, rfl⟩ := exists_cons_of_head hatL
    refine ⟨nameL, nameR, x, y, Or.inl rfl, hid, hfixed, ?_⟩
    rw [takeNamed_cons_ne hne] at hreaches
    rw [takeNamed_cons_self (nameL, x)]
    exact hreaches
  · obtain ⟨s₁, slot, hroll, hid, hfixed, hfound, hreaches⟩ := reaches_bring env h hposL
    rw [hnameL] at hfound hreaches
    obtain rfl := Option.some.inj (hlhs.symm.trans hfound)
    obtain ⟨rfl, rfl⟩ := Prod.mk.inj (Except.ok.inj (hrun.symm.trans hroll))
    obtain ⟨rest, rfl⟩ := exists_cons_of_head hatR
    refine ⟨nameR, nameL, y, x, Or.inr ⟨rfl, hcomm⟩, hid, hfixed, ?_⟩
    rw [takeNamed_cons_ne hne.symm] at hreaches ⊢
    rw [takeNamed_cons_self (nameR, y)]
    exact hreaches

end Arrange

/-! ### One operand is enough -/

section Shortcut

variable {env : ScriptEnv} {bindings known : String → Option Int64} {e lhs rhs : ExprNode} {n : ℤ}

theorem ExprNode.InRange.self (h : e.InRange bindings) :
    e.StepSound bindings ∧ (e.value bindings).natAbs < 2 ^ 63 :=
  h e (ExprNode.mem_subtrees_self e)

/-- A literal that is read as a number has no identifiers, and the number is its value. -/
theorem isLiteralValue_spec (hlower : e.Lowerable known) (hrange : e.InRange bindings)
    (h : isLiteralValue e n = true) : e.value bindings = n ∧ e.identifiers = [] := by
  cases e with
  | literal type text =>
      obtain ⟨rfl, hnumeral, -⟩ := hlower
      obtain ⟨m, hm⟩ := Option.isSome_iff_exists.1 hnumeral
      have hvalue : (ExprNode.literal .number text).value bindings = m := by
        simp only [ExprNode.value, hm, Option.getD_some]
      have hfits : Fits64 m := by
        have hbound := hrange.self.2
        rw [hvalue] at hbound
        unfold Fits64
        omega
      rw [isLiteralValue, stoll_of_numeral hm hfits] at h
      exact ⟨hvalue.trans (Option.some.inj (of_decide_eq_true h)), rfl⟩
  | _ => cases h

variable (bindings) in
theorem isLiteralOne_spec (h : isLiteralOne e = true) :
    e.value bindings = 1 ∧ e.identifiers = [] := by
  cases e with
  | literal type text =>
      cases type with
      | number =>
          obtain rfl := of_decide_eq_true h
          exact ⟨rfl, rfl⟩
      | other => cases h
  | _ => cases h

/-- What is kept, and what is done to it. -/
theorem shortcut_cases {op : BinaryOp} {cut : Shortcut} (h : shortcut op lhs rhs = some cut) :
    (cut.keepsRhs = false ∧
      (op = .add ∧ isLiteralOne rhs = true ∧ cut.code = emitOp .op1add ∨
        op = .subtract ∧ isLiteralOne rhs = true ∧ cut.code = emitOp .op1sub ∨
          (op = .add ∨ op = .subtract) ∧ isLiteralValue rhs 0 = true ∧ cut.code = [] ∨
            (op = .multiply ∨ op = .divide) ∧ isLiteralValue rhs 1 = true ∧ cut.code = [])) ∨
      (cut.keepsRhs = true ∧
        (op = .add ∧ isLiteralOne lhs = true ∧ cut.code = emitOp .op1add ∨
          op = .add ∧ isLiteralValue lhs 0 = true ∧ cut.code = [] ∨
            op = .subtract ∧ isLiteralValue lhs 0 = true ∧ cut.code = emitOp .opNegate ∨
              op = .multiply ∧ isLiteralValue lhs 1 = true ∧ cut.code = [])) := by
  unfold shortcut at h
  dsimp only at h
  split_ifs at h with hsum hone hzero hminus hproduct hone
  all_goals obtain rfl := Option.some.inj h
  all_goals grind

/-- **An operator that keeps one operand makes its result of it**, and the other operand has no
identifiers. -/
theorem shortcut_spec {op : BinaryOp} {cut : Shortcut} (hcut : shortcut op lhs rhs = some cut)
    (hlhs : lhs.Lowerable known) (hrhs : rhs.Lowerable known) (hrangeL : lhs.InRange bindings)
    (hrangeR : rhs.InRange bindings)
    (hresult : (op.value (lhs.value bindings) (rhs.value bindings)).natAbs < 2 ^ 63) :
    (if cut.keepsRhs then rhs else lhs).identifiers = lhs.identifiers ++ rhs.identifiers ∧
      ∀ main alt, Takes env cut.code
        (serializeScriptNum ((if cut.keepsRhs then rhs else lhs).value bindings) :: main, alt)
        (serializeScriptNum (op.value (lhs.value bindings) (rhs.value bindings)) :: main, alt) := by
  have hl := hrangeL.self.2
  have hr := hrangeR.self.2
  rcases shortcut_cases hcut with ⟨hkeeps, hcases⟩ | ⟨hkeeps, hcases⟩
  · rw [hkeeps, if_neg Bool.false_ne_true]
    rcases hcases with ⟨rfl, hlit, hcode⟩ | ⟨rfl, hlit, hcode⟩ | ⟨hop, hlit, hcode⟩ |
      ⟨hop, hlit, hcode⟩
    · obtain ⟨hvalue, hnone⟩ := isLiteralOne_spec bindings hlit
      rw [hnone, List.append_nil, hcode]
      rw [hvalue] at hresult ⊢
      refine ⟨rfl, fun main alt => ?_⟩
      exact @takes_numeric_one env alt .oneAdd _ _ rfl rfl rfl hl rfl hresult main
    · obtain ⟨hvalue, hnone⟩ := isLiteralOne_spec bindings hlit
      rw [hnone, List.append_nil, hcode]
      rw [hvalue] at hresult ⊢
      refine ⟨rfl, fun main alt => ?_⟩
      exact @takes_numeric_one env alt .oneSub _ _ rfl rfl rfl hl rfl hresult main
    · obtain ⟨hvalue, hnone⟩ := isLiteralValue_spec hrhs hrangeR hlit
      have hsame : op.value (lhs.value bindings) 0 = lhs.value bindings := by
        rcases hop with rfl | rfl
        · exact add_zero _
        · exact sub_zero _
      rw [hnone, List.append_nil, hcode, hvalue, hsame]
      exact ⟨rfl, fun main alt => Takes.refl _⟩
    · obtain ⟨hvalue, hnone⟩ := isLiteralValue_spec hrhs hrangeR hlit
      have hsame : op.value (lhs.value bindings) 1 = lhs.value bindings := by
        rcases hop with rfl | rfl
        · exact mul_one _
        · exact Int.tdiv_one _
      rw [hnone, List.append_nil, hcode, hvalue, hsame]
      exact ⟨rfl, fun main alt => Takes.refl _⟩
  · rw [hkeeps, if_pos rfl]
    rcases hcases with ⟨rfl, hlit, hcode⟩ | ⟨rfl, hlit, hcode⟩ | ⟨rfl, hlit, hcode⟩ |
      ⟨rfl, hlit, hcode⟩
    · obtain ⟨hvalue, hnone⟩ := isLiteralOne_spec bindings hlit
      have hsum : BinaryOp.add.value 1 (rhs.value bindings) = rhs.value bindings + 1 := add_comm _ _
      rw [hnone, List.nil_append, hcode]
      rw [hvalue, hsum] at hresult ⊢
      refine ⟨rfl, fun main alt => ?_⟩
      exact @takes_numeric_one env alt .oneAdd _ _ rfl rfl rfl hr rfl hresult main
    · obtain ⟨hvalue, hnone⟩ := isLiteralValue_spec hlhs hrangeL hlit
      have hsame : BinaryOp.add.value 0 (rhs.value bindings) = rhs.value bindings := zero_add _
      rw [hnone, List.nil_append, hcode, hvalue, hsame]
      exact ⟨rfl, fun main alt => Takes.refl _⟩
    · obtain ⟨hvalue, hnone⟩ := isLiteralValue_spec hlhs hrangeL hlit
      have hsame : BinaryOp.subtract.value 0 (rhs.value bindings) = -rhs.value bindings := zero_sub _
      rw [hnone, List.nil_append, hcode]
      rw [hvalue, hsame] at hresult ⊢
      refine ⟨rfl, fun main alt => ?_⟩
      exact @takes_numeric_one env alt .negate _ _ rfl rfl rfl hr rfl hresult main
    · obtain ⟨hvalue, hnone⟩ := isLiteralValue_spec hlhs hrangeL hlit
      have hsame : BinaryOp.multiply.value 1 (rhs.value bindings) = rhs.value bindings := one_mul _
      rw [hnone, List.nil_append, hcode, hvalue, hsame]
      exact ⟨rfl, fun main alt => Takes.refl _⟩

end Shortcut

/-! ### Operators -/

section Operators

variable {env : ScriptEnv} {bindings known : String → Option Int64} {s s₁ s' : VisitorState}
  {slots : NamedStacks} {code : List String} {lhs rhs : ExprNode} {visitLhs visitRhs : Visit}
variable {op : BinaryOp} {text : String}

theorem ExprNode.InRange.rhs_of_unary {op : UnaryOp} (h : (ExprNode.unary op rhs).InRange bindings) :
    rhs.InRange bindings :=
  fun sub hsub => h sub (List.mem_cons_of_mem _ hsub)

theorem ExprNode.InRange.lhs_of_binary
    (h : (ExprNode.binary op lhs rhs).InRange bindings) : lhs.InRange bindings :=
  fun sub hsub => h sub (List.mem_cons_of_mem _ (List.mem_append_left _ hsub))

theorem ExprNode.InRange.rhs_of_binary
    (h : (ExprNode.binary op lhs rhs).InRange bindings) : rhs.InRange bindings :=
  fun sub hsub => h sub (List.mem_cons_of_mem _ (List.mem_append_right _ hsub))

theorem ExprNode.InRange.object_of_clone
    (h : (ExprNode.methodCall lhs "Clone" 0).InRange bindings) : lhs.InRange bindings := by
  intro sub hsub
  refine h sub ?_
  rw [ExprNode.subtrees, if_pos ⟨rfl, rfl⟩]
  exact List.mem_cons_of_mem _ hsub

/-- A negated operand. -/
theorem delivers_lowerUnary (hlowers : Lowers env bindings known rhs visitRhs)
    (hrange : (ExprNode.unary .minus rhs).InRange bindings) (h : Tidy s slots)
    (hvalues : ∀ name ∈ rhs.identifiers, HasValue env bindings known s slots name)
    (honce : ReadsOnce (rhs.identifiers.map s.table.resolveBindSymbol) slots.1)
    (hrun : lowerUnary .minus visitRhs s = .ok (code, s')) :
    ∃ top, Delivers env s slots (rhs.identifiers.map s.table.resolveBindSymbol)
      ((ExprNode.unary .minus rhs).value bindings) top code s' := by
  obtain ⟨code₁, s₁, code₂, hoperand, hemit, rfl⟩ := Visit.seq_ok hrun
  rw [if_pos rfl] at hemit
  cases hemit
  obtain ⟨top, hdelivers⟩ := hlowers s slots _ code₁ s' h hvalues honce hoperand
  refine ⟨top, hdelivers.andThen fun main alt => ?_⟩
  exact @takes_numeric_one env alt .negate _ _ rfl rfl rfl hrange.rhs_of_unary.self.2 rfl hrange.self.2
    main

theorem resolve_ne_of_readsOnce {a b : String} {bytes : Bytes}
    (honce : ReadsOnce ([a, b].map s.table.resolveBindSymbol) slots.1)
    (hslot : findNamed (s.table.resolveBindSymbol b) slots.1 =
      some (s.table.resolveBindSymbol b, bytes)) :
    s.table.resolveBindSymbol a ≠ s.table.resolveBindSymbol b := by
  intro heq
  have hread := (@ReadsOnce.of_append [s.table.resolveBindSymbol a] _ _ honce).2.2
    (s.table.resolveBindSymbol b) (List.mem_singleton_self _) (by rw [hslot]; rfl)
  exact hread (List.mem_singleton.2 heq.symm)

theorem HasValue.findNamed {name : String} {pos : ℕ} {value : Int64} (h : Depicts s.table slots)
    (hv : HasValue env bindings known s slots name) (hbound : bindings name = some value)
    (hpos : s.table.getPos name = some pos) :
    AtomicProof.findNamed (s.table.resolveBindSymbol name) slots.1 =
      some (s.table.resolveBindSymbol name, serializeScriptNum value.toInt) := by
  obtain ⟨value', hbound', htext | hin⟩ := hv.place
  · have hsome : (s.table.getPos name).isSome = true := by rw [hpos]; rfl
    rw [getPos_isSome h, htext.noSlot] at hsome
    cases hsome
  · obtain rfl := Option.some.inj (hbound.symm.trans hbound')
    exact hin.slot

theorem value_comm (hknown : op.IsKnown) (hcomm : isCommutativeOp op.text = true)
    (a b : ℤ) : op.value a b = op.value b a := by
  cases op with
  | add => exact add_comm a b
  | multiply => exact mul_comm a b
  | equal => simp only [BinaryOp.value, eq_comm]
  | notEqual => simp only [BinaryOp.value, ne_comm]
  | and => simp only [BinaryOp.value, and_comm]
  | or => simp only [BinaryOp.value, or_comm]
  | other op => exact absurd hknown id
  | _ => exact absurd hcomm (by decide)

theorem takes_binary {op : BinaryOp} {text : String} (hknown : op.IsKnown)
    (hmap : operatorMap.lookup op.text = some text)
    (hrange : (ExprNode.binary op lhs rhs).InRange bindings) (main alt : Stack) :
    Takes env (emitText text) (serializeScriptNum (rhs.value bindings) ::
        serializeScriptNum (lhs.value bindings) :: main, alt)
      (serializeScriptNum ((ExprNode.binary op lhs rhs).value bindings) :: main, alt) := by
  refine takes_operator hmap hknown hrange.lhs_of_binary.self.2 hrange.rhs_of_binary.self.2
    hrange.self.2 ?_ main
  rintro rfl
  exact hrange.self.1.1

/-- Two variables that lie where they should, or come there in one move. -/
theorem delivers_arranged {l r : String} {arrange : Visit} (hknown : op.IsKnown)
    (hmap : operatorMap.lookup op.text = some text)
    (hrange : (ExprNode.binary op (.identifier l) (.identifier r)).InRange bindings)
    (h : Tidy s slots)
    (hvalues : ∀ name ∈ [l, r], HasValue env bindings known s slots name)
    (honce : ReadsOnce ([l, r].map s.table.resolveBindSymbol) slots.1)
    (harrange : arrangeIdentifiers op.text s (.identifier l) (.identifier r) = some arrange)
    (hrun : Visit.seq arrange (finishOperator op.text true) s = .ok (code, s')) :
    ∃ top, Delivers env s slots ([l, r].map s.table.resolveBindSymbol)
      ((ExprNode.binary op (.identifier l) (.identifier r)).value bindings) top code s' := by
  obtain ⟨code₁, s₁, code₂, hfirst, hfinish, rfl⟩ := Visit.seq_ok hrun
  obtain ⟨l', r', posL, posR, hleft, hright, hposL, hposR, -⟩ := arrangeIdentifiers_cases harrange
  obtain rfl := ExprNode.identifier.inj hleft
  obtain rfl := ExprNode.identifier.inj hright
  have hvL := hvalues l (List.mem_cons_self ..)
  have hvR := hvalues r (List.mem_cons_of_mem _ (List.mem_singleton_self r))
  obtain ⟨a, ha, -⟩ := hvL.place
  obtain ⟨b, hb, -⟩ := hvR.place
  have hslotL := hvL.findNamed h.depicts ha hposL
  have hslotR := hvR.findNamed h.depicts hb hposR
  have hvalueL : (ExprNode.identifier l).value bindings = a.toInt := by
    rw [ExprNode.value, ha]
    rfl
  have hvalueR : (ExprNode.identifier r).value bindings = b.toInt := by
    rw [ExprNode.value, hb]
    rfl
  have hcode := @takes_binary env bindings _ _ _ _ hknown hmap hrange
  rw [hvalueL, hvalueR] at hcode
  obtain ⟨n, m, u, v, horder, hid₁, hfixed₁, hreaches⟩ :=
    reaches_arrange env h.depicts (resolve_ne_of_readsOnce honce hslotR) hslotL hslotR harrange hfirst
  have hcode' : ∀ main alt : Stack, Takes env (emitText text) (v :: u :: main, alt)
      (serializeScriptNum ((ExprNode.binary op (.identifier l) (.identifier r)).value bindings) :: main,
        alt) := by
    intro main alt
    rcases horder with horder | ⟨horder, hcomm⟩
    · obtain ⟨rfl, rfl⟩ := Prod.mk.inj horder
      exact hcode main alt
    · obtain ⟨rfl, rfl⟩ := Prod.mk.inj horder
      have hswap : (ExprNode.binary op (.identifier l) (.identifier r)).value bindings =
          op.value b.toInt a.toInt := by
        rw [ExprNode.value, hvalueL, hvalueR]
        exact value_comm hknown hcomm _ _
      have hresult := hrange.self.2
      rw [hswap] at hresult ⊢
      have ha := hrange.lhs_of_binary.self.2
      have hb := hrange.rhs_of_binary.self.2
      rw [hvalueL] at ha
      rw [hvalueR] at hb
      refine takes_operator hmap hknown hb ha hresult ?_ main
      rintro rfl
      exact absurd hcomm (by decide)
  obtain ⟨hid, hfixed, hfinished⟩ := reaches_finish hmap hreaches.depicts hcode' hfinish
  refine ⟨_, hreaches.trans hfinished, hfixed.trans hfixed₁, by omega, Or.inl ⟨_, ?_, ?_, rfl⟩⟩
  · omega
  · omega

section Operands

variable (hlowersL : Lowers env bindings known lhs visitLhs)
  (hlowersR : Lowers env bindings known rhs visitRhs)
  (hrange : (ExprNode.binary op lhs rhs).InRange bindings) (h : Tidy s slots)
  (hvalues : ∀ name ∈ lhs.identifiers ++ rhs.identifiers, HasValue env bindings known s slots name)
  (honce : ReadsOnce ((lhs.identifiers ++ rhs.identifiers).map s.table.resolveBindSymbol) slots.1)

include hlowersL hlowersR hrange h hvalues honce

/-- An operator that keeps one operand. -/
theorem delivers_shortcut {cut : Shortcut} (hcut : shortcut op lhs rhs = some cut)
    (hlhs : lhs.Lowerable known) (hrhs : rhs.Lowerable known)
    (hrun : Visit.seq (visitOperand (if cut.keepsRhs then visitRhs else visitLhs) cut.str)
      (Visit.seq (Visit.emit cut.code) (Visit.seq Visit.pop (Visit.pushFresh "int" ""))) s =
        .ok (code, s')) :
    ∃ top, Delivers env s slots ((lhs.identifiers ++ rhs.identifiers).map s.table.resolveBindSymbol)
      ((ExprNode.binary op lhs rhs).value bindings) top code s' := by
  obtain ⟨code₁, s₁, code₂, hoperand, hfinish, rfl⟩ := Visit.seq_ok hrun
  obtain ⟨hnames, hcode⟩ := @shortcut_spec env bindings known lhs rhs op cut hcut hlhs hrhs
    hrange.lhs_of_binary hrange.rhs_of_binary hrange.self.2
  have hlowers : Lowers env bindings known (if cut.keepsRhs then rhs else lhs)
      (if cut.keepsRhs then visitRhs else visitLhs) := by
    cases cut.keepsRhs
    · exact hlowersL
    · exact hlowersR
  rw [← hnames] at hvalues honce ⊢
  obtain ⟨top, hdelivers⟩ := hlowers s slots _ code₁ s₁ h hvalues honce hoperand
  exact hdelivers.finishShortcut hcode hfinish

/-- An operator whose operands are visited one after the other. -/
theorem delivers_both (hknown : op.IsKnown) (hmap : operatorMap.lookup op.text = some text)
    (hrun : Visit.seq (visitOperand visitLhs "lhs")
      (Visit.seq (visitOperand visitRhs "rhs") (finishOperator op.text true)) s = .ok (code, s')) :
    ∃ top, Delivers env s slots ((lhs.identifiers ++ rhs.identifiers).map s.table.resolveBindSymbol)
      ((ExprNode.binary op lhs rhs).value bindings) top code s' := by
  obtain ⟨code₁, s₁, rest, hleft, hrest, rfl⟩ := Visit.seq_ok hrun
  obtain ⟨code₂, s₂, code₃, hright, hfinish, rfl⟩ := Visit.seq_ok hrest
  rw [List.map_append] at honce ⊢
  obtain ⟨honceL, -, hread⟩ := honce.of_append
  have hfresh : ∀ name ∈ rhs.identifiers.map s.table.resolveBindSymbol, ∀ id, s.nextId ≤ id →
      name ≠ compilerPlaceholder id := by
    intro name hname
    obtain ⟨identifier, hidentifier, rfl⟩ := List.mem_map.1 hname
    exact (hvalues identifier (List.mem_append_right _ hidentifier)).unborn
  -- the left operand
  obtain ⟨top₁, hdelivers₁⟩ := hlowersL s slots _ code₁ s₁ h
    (fun name hname => hvalues name (List.mem_append_left _ hname)) honceL hleft
  have hresolve := hdelivers₁.reaches.resolve
  -- what the right one reads is where it was
  have hvaluesR : ∀ name ∈ rhs.identifiers, HasValue env bindings known s₁
      ((top₁, serializeScriptNum (lhs.value bindings)) ::
        withoutNames (lhs.identifiers.map s.table.resolveBindSymbol) slots.1, slots.2) name := by
    intro name hname
    exact hdelivers₁.hasValue h (hvalues name (List.mem_append_right _ hname))
      (hread _ (List.mem_map_of_mem hname))
  have honceR : ReadsOnce (rhs.identifiers.map s₁.table.resolveBindSymbol)
      ((top₁, serializeScriptNum (lhs.value bindings)) ::
        withoutNames (lhs.identifiers.map s.table.resolveBindSymbol) slots.1) := by
    rw [hresolve]
    exact hdelivers₁.readsOnce hfresh honce
  obtain ⟨top₂, hdelivers₂⟩ := hlowersR s₁ _ _ code₂ s₂ (hdelivers₁.tidy h) hvaluesR honceR hright
  have hreaches₂ := hdelivers₂.reaches
  rw [hresolve, hdelivers₁.withoutNames_cons hfresh hread] at hreaches₂
  obtain ⟨hid, hfixed, hfinished⟩ := reaches_finish hmap hreaches₂.depicts
    (takes_binary hknown hmap hrange) hfinish
  have hle₁ := hdelivers₁.nextId_le
  have hle₂ := hdelivers₂.nextId_le
  refine ⟨compilerPlaceholder s₂.nextId, ?_,
    hfixed.trans (hdelivers₂.fixed.trans hdelivers₁.fixed), by omega,
    Or.inl ⟨s₂.nextId, by omega, by omega, rfl⟩⟩
  exact hdelivers₁.reaches.trans (hreaches₂.trans hfinished)

/-- An operator with two operands. -/
theorem delivers_lowerBinary (hknown : op.IsKnown)
    (hmap : operatorMap.lookup op.text = some text) (hlhs : lhs.Lowerable known)
    (hrhs : rhs.Lowerable known)
    (hrun : lowerBinary op lhs rhs visitLhs visitRhs s = .ok (code, s')) :
    ∃ top, Delivers env s slots ((lhs.identifiers ++ rhs.identifiers).map s.table.resolveBindSymbol)
      ((ExprNode.binary op lhs rhs).value bindings) top code s' := by
  cases htwice : consumedTwice s lhs rhs with
  | some name =>
      simp only [lowerBinary, htwice] at hrun
      cases hrun
  | none =>
      cases harrange : arrangeIdentifiers op.text s lhs rhs with
      | some arrange =>
          simp only [lowerBinary, htwice, harrange] at hrun
          obtain ⟨l, r, -, -, rfl, rfl, -⟩ := arrangeIdentifiers_cases harrange
          exact delivers_arranged hknown hmap hrange h hvalues honce harrange hrun
      | none =>
          cases hcut : shortcut op lhs rhs with
          | some cut =>
              simp only [lowerBinary, htwice, harrange, hcut] at hrun
              exact delivers_shortcut hlowersL hlowersR hrange h hvalues honce hcut hlhs hrhs hrun
          | none =>
              simp only [lowerBinary, htwice, harrange, hcut] at hrun
              exact delivers_both hlowersL hlowersR hrange h hvalues honce hknown hmap hrun

end Operands

end Operators

/-! ### Expressions -/

section Expressions

variable {env : ScriptEnv} {bindings known : String → Option Int64} {s s' : VisitorState}
  {slots : NamedStacks} {code : List String}

/-- What a visited operator leaves: its value above the slots that it does not read, or, where the
compiler knows the value, the symbol of a script that pushes it. -/
def LeavesValue (env : ScriptEnv) (s : VisitorState) (slots : NamedStacks) (names : List String)
    (value : ℤ) (code : List String) (s' : VisitorState) : Prop :=
  (∃ top, Delivers env s slots names value top code s') ∨
    ∃ element, Visit.push element s = .ok (code, s') ∧ isScript element.name = true ∧
      PushesText env element.name (serializeScriptNum value) ∧ withoutNames names slots.1 = slots.1

/-- What an operator leaves is taken over by its consumer. -/
theorem LeavesValue.takeOver {names : List String} {value : ℤ} {str : String} {s₁ : VisitorState}
    {code₁ code₂ : List String} (h : LeavesValue env s slots names value code₁ s₁) (ht : Tidy s slots)
    (hrun : AtomicProof.takeOver str s₁ = .ok (code₂, s')) :
    ∃ top, Delivers env s slots names value top (code₁ ++ code₂) s' := by
  rcases h with ⟨top, hdelivers⟩ | ⟨element, hpush, hscript, hpushes, hsame⟩
  · exact hdelivers.takeOver ht hrun
  · obtain ⟨hreaches, hfixed, hid, htop⟩ := delivers_script ht hpush hscript hpushes hrun
    refine ⟨compilerPlaceholder s.nextId, ⟨?_, hfixed, hid, Or.inl ?_⟩⟩
    · rw [hsame]
      exact hreaches
    · rcases htop with htop | ⟨hmem, -⟩
      · exact htop
      · cases hmem

/-- A value that is known, or a lowering. -/
theorem leaves_foldOr {e : ExprNode} {lowering : Visit} (h : Tidy s slots)
    (hvalues : ∀ name ∈ e.identifiers, HasValue env bindings known s slots name)
    (hlowering : ¬ e.LeavesKnown known → lowering s = .ok (code, s') →
      ∃ top, Delivers env s slots (e.identifiers.map s.table.resolveBindSymbol) (e.value bindings) top
        code s')
    (hrun : foldOr e lowering s = .ok (code, s')) :
    LeavesValue env s slots (e.identifiers.map s.table.resolveBindSymbol) (e.value bindings) code s' := by
  rcases foldOr_cases h hvalues hrun with ⟨value, hvalue, hliteral, hsame⟩ | ⟨hunknown, hlower⟩
  · obtain ⟨hscript, hpushes⟩ := @pushesText_number env value.toInt
    rw [hvalue] at hscript hpushes
    refine Or.inr ⟨_, hliteral, ?_, ?_, hsame⟩
    · rw [hvalue]
      exact hscript
    · rw [hvalue]
      exact hpushes
  · exact Or.inl (hlowering hunknown hlower)

theorem leaves_unary {op : UnaryOp} {rhs : ExprNode} {visitRhs : Visit}
    (hlowers : rhs.Lowerable known → Lowers env bindings known rhs visitRhs) (h : Tidy s slots)
    (hvalues : ∀ name ∈ rhs.identifiers, HasValue env bindings known s slots name)
    (honce : ReadsOnce (rhs.identifiers.map s.table.resolveBindSymbol) slots.1)
    (hlower : (ExprNode.unary op rhs).Lowerable known)
    (hrange : (ExprNode.unary op rhs).InRange bindings)
    (hrun : foldOr (.unary op rhs) (lowerUnary op visitRhs) s = .ok (code, s')) :
    LeavesValue env s slots (rhs.identifiers.map s.table.resolveBindSymbol)
      ((ExprNode.unary op rhs).value bindings) code s' := by
  refine @leaves_foldOr env bindings known s s' slots code (.unary op rhs) _ h hvalues ?_ hrun
  intro hunknown hlowering
  obtain ⟨rfl, hrhs⟩ := hlower.resolve_right hunknown
  exact delivers_lowerUnary (hlowers hrhs) hrange h hvalues honce hlowering

theorem leaves_binary {op : BinaryOp} {lhs rhs : ExprNode} {visitLhs visitRhs : Visit}
    (hlowersL : lhs.Lowerable known → Lowers env bindings known lhs visitLhs)
    (hlowersR : rhs.Lowerable known → Lowers env bindings known rhs visitRhs) (h : Tidy s slots)
    (hvalues : ∀ name ∈ lhs.identifiers ++ rhs.identifiers, HasValue env bindings known s slots name)
    (honce : ReadsOnce ((lhs.identifiers ++ rhs.identifiers).map s.table.resolveBindSymbol) slots.1)
    (hlower : (ExprNode.binary op lhs rhs).Lowerable known)
    (hrange : (ExprNode.binary op lhs rhs).InRange bindings)
    (hrun : foldOr (.binary op lhs rhs) (lowerBinary op lhs rhs visitLhs visitRhs) s = .ok (code, s')) :
    LeavesValue env s slots ((lhs.identifiers ++ rhs.identifiers).map s.table.resolveBindSymbol)
      ((ExprNode.binary op lhs rhs).value bindings) code s' := by
  refine @leaves_foldOr env bindings known s s' slots code (.binary op lhs rhs) _ h hvalues ?_ hrun
  intro hunknown hlowering
  obtain ⟨hknown, hmap, hlhs, hrhs⟩ := hlower.resolve_right hunknown
  obtain ⟨text, htext⟩ := Option.isSome_iff_exists.1 hmap
  exact delivers_lowerBinary (hlowersL hlhs) (hlowersR hrhs) hrange h hvalues honce hknown htext hlhs
    hrhs hlowering

/-- Every expression that can be lowered is lowered, as an operand of whatever consumes it. -/
theorem lowers_visitExpr (visitOther : ExprNode → Visit) {e : ExprNode}
    (hlower : e.Lowerable known) (hrange : e.InRange bindings) :
    Lowers env bindings known e (visitExpr visitOther e) := by
  induction e with
  | literal type text =>
      intro s slots str code s' h hvalues honce hrun
      obtain ⟨rfl, hnumeral, hsize⟩ := hlower
      obtain ⟨n, hn⟩ := Option.isSome_iff_exists.1 hnumeral
      have hvalue : (ExprNode.literal .number text).value bindings = n := by
        rw [ExprNode.value, hn]
        rfl
      have hbound := hrange.self.2
      rw [hvalue] at hbound ⊢
      exact delivers_number h hn (by unfold Fits64; omega) hsize hrun
  | identifier name =>
      intro s slots str code s' h hvalues honce hrun
      have hv := hvalues name (List.mem_singleton_self name)
      obtain ⟨value, hbound, -⟩ := hv.place
      have hvalue : (ExprNode.identifier name).value bindings = value.toInt := by
        rw [ExprNode.value, hbound]
        rfl
      rw [hvalue]
      exact delivers_identifier h hv hbound hrun
  | methodCall object methodName argCount ih => exact absurd hlower id
  | unary op rhs ih =>
      intro s slots str code s' h hvalues honce hrun
      obtain ⟨code₁, s₁, code₂, hvisit, htake, rfl⟩ := Visit.seq_ok hrun
      exact (leaves_unary (fun hrhs => ih hrhs hrange.rhs_of_unary) h hvalues honce hlower hrange
        hvisit).takeOver h htake
  | binary op lhs rhs ihl ihr =>
      intro s slots str code s' h hvalues honce hrun
      obtain ⟨code₁, s₁, code₂, hvisit, htake, rfl⟩ := Visit.seq_ok hrun
      exact (leaves_binary (fun hlhs => ihl hlhs hrange.lhs_of_binary)
        (fun hrhs => ihr hrhs hrange.rhs_of_binary) h hvalues honce hlower hrange hvisit).takeOver h htake
  | other => exact absurd hlower id

/-- An operator with one or two operands. -/
def ExprNode.IsOperator : ExprNode → Prop
  | unary _ _ => True
  | binary _ _ _ => True
  | _ => False

/-- **The code of an expression leaves its value and takes its variables.**  The names of the slots are
distinct, every identifier has its value in a slot or in a script, none of the slots is read twice, and
every part of the expression is a number of the machine. -/
theorem visitOperator_leaves (visitOther : ExprNode → Visit) {e : ExprNode} (hoperator : e.IsOperator)
    (h : Tidy s slots) (hvalues : ∀ name ∈ e.identifiers, HasValue env bindings known s slots name)
    (honce : ReadsOnce (e.identifiers.map s.table.resolveBindSymbol) slots.1)
    (hlower : e.Lowerable known) (hrange : e.InRange bindings)
    (hrun : visitExpr visitOther e s = .ok (code, s')) :
    LeavesValue env s slots (e.identifiers.map s.table.resolveBindSymbol) (e.value bindings) code s' := by
  cases e with
  | unary op rhs =>
      exact leaves_unary (fun hrhs => lowers_visitExpr visitOther hrhs hrange.rhs_of_unary) h hvalues
        honce hlower hrange hrun
  | binary op lhs rhs =>
      exact leaves_binary (fun hlhs => lowers_visitExpr visitOther hlhs hrange.lhs_of_binary)
        (fun hrhs => lowers_visitExpr visitOther hrhs hrange.rhs_of_binary) h hvalues honce hlower
        hrange hrun
  | _ => exact absurd hoperator id

end Expressions

/-! ### An expression over two variables and a constant -/

theorem ne_compilerPlaceholder {name : String} (h : CompilerPlaceholder.isPlaceholder name = false)
    (id : ℕ) : name ≠ compilerPlaceholder id := by
  rintro rfl
  rw [isPlaceholder_compilerPlaceholder] at h
  cases h

/-- The variables `y`, `z` and `x`, from the top down, and the constant `N`. -/
def variablesAndConstant : VisitorState where
  table := ⟨[⟨"y", "", ""⟩, ⟨"z", "", ""⟩, ⟨"x", "", ""⟩], [], [], [], [], [], [], 0, 0⟩
  fixed := [⟨"N", "int", "0x57"⟩]

def variableValues (name : String) : Option Int64 :=
  if name = "x" then some 3 else if name = "y" then some 9 else if name = "N" then some 7 else none

def variableSlots : NamedStacks :=
  ([("y", serializeScriptNum 9), ("z", serializeScriptNum 1), ("x", serializeScriptNum 3)], [])

/-- `(x + 1) * (N - y)`. -/
def variableProduct : ExprNode :=
  .binary .multiply (.binary .add (.identifier "x") (.literal .number "1"))
    (.binary .subtract (.identifier "N") (.identifier "y"))

theorem tidy_variables : Tidy variablesAndConstant variableSlots := by
  refine ⟨⟨rfl, by decide, by decide⟩, by decide, ?_⟩
  intro id _ hmem
  have hnames : ∀ name ∈ variableSlots.1.map Prod.fst,
      CompilerPlaceholder.isPlaceholder name = false := by decide +kernel
  exact ne_compilerPlaceholder (hnames _ hmem) id rfl

theorem hasValue_variables : ∀ name ∈ ["x", "N", "y"],
    HasValue ScriptEnv.plain variableValues variablesAndConstant.staticValue variablesAndConstant
      variableSlots name := by
  have hslot : ∀ name ∈ ["x", "y"], name ≠ "self" ∧ isScript name = false ∧
      CompilerPlaceholder.isPlaceholder name = false ∧ isAnglePlaceholder name = false ∧
        variablesAndConstant.table.resolveBindSymbol name = name ∧
          variablesAndConstant.staticValue name = none := by
    decide +kernel
  have hconstant : variablesAndConstant.staticValue "N" = some 7 ∧
      variablesAndConstant.table.resolveBindSymbol "N" = "N" ∧
        variablesAndConstant.identifierElement "N" = ⟨"0x57", "int", "0x57"⟩ ∧
          numberToScriptHex 7 = "0x57" ∧ CompilerPlaceholder.isPlaceholder "N" = false := by
    decide +kernel
  have hinSlot : ∀ (name : String) (value : Int64), name ∈ ["x", "y"] → variableValues name = some value →
      findNamed name variableSlots.1 = some (name, serializeScriptNum value.toInt) →
        HasValue ScriptEnv.plain variableValues variablesAndConstant.staticValue variablesAndConstant
          variableSlots name := by
    intro name value hname hvalue hfound
    obtain ⟨hobject, hscript, hplaceholder, hangle, hresolve, hstatic⟩ := hslot name hname
    refine ⟨rfl, ?_, ?_, value, hvalue, Or.inr ⟨hobject, ⟨hscript, hplaceholder⟩, ?_, ?_, ?_, ?_⟩⟩
    · intro v hv
      rw [hstatic] at hv
      cases hv
    · intro id _
      rw [hresolve]
      exact ne_compilerPlaceholder hplaceholder id
    all_goals rw [hresolve]
    · exact hangle
    · exact hscript
    · exact hresolve
    · exact hfound
  intro name hname
  simp only [List.mem_cons, List.not_mem_nil, or_false] at hname
  rcases hname with rfl | rfl | rfl
  · exact hinSlot "x" 3 (by decide) (by decide) (by decide)
  · obtain ⟨hstatic, hresolve, helement, htext, hplaceholder⟩ := hconstant
    obtain ⟨hscript, hpushes⟩ := @pushesText_number ScriptEnv.plain 7
    rw [htext] at hscript hpushes
    refine ⟨rfl, ?_, ?_, 7, by decide, Or.inl ⟨?_, ?_, ?_⟩⟩
    · intro v hv
      rw [hstatic] at hv
      exact hv ▸ by decide
    · intro id _
      rw [hresolve]
      exact ne_compilerPlaceholder hplaceholder id
    · rw [hresolve]
      decide
    · rw [helement]
      exact hscript
    · rw [helement]
      exact hpushes
  · exact hinSlot "y" 9 (by decide) (by decide) (by decide)

/-- `(x + 1) * (N - y)` at `3`, `7` and `9` is `-8`, and takes `x` and `y`. -/
theorem visitOperator_leaves_product :
    ∃ code s', visitExpr (fun _ => Visit.fail "") variableProduct variablesAndConstant = .ok (code, s') ∧
      LeavesValue ScriptEnv.plain variablesAndConstant variableSlots ["x", "N", "y"] (-8) code s' := by
  have hok : (visitExpr (fun _ => Visit.fail "") variableProduct variablesAndConstant).toOption.isSome =
      true := by
    decide +kernel
  have honce : ReadsOnce (variableProduct.identifiers.map variablesAndConstant.table.resolveBindSymbol)
      variableSlots.1 := by
    unfold ReadsOnce
    decide +kernel
  have hlower : variableProduct.Lowerable variablesAndConstant.staticValue := by
    refine Or.inl ⟨trivial, by decide +kernel, Or.inl ⟨trivial, by decide +kernel, trivial, ?_⟩,
      Or.inl ⟨trivial, by decide +kernel, trivial, trivial⟩⟩
    exact ⟨rfl, by decide +kernel, by decide +kernel⟩
  cases hrun : visitExpr (fun _ => Visit.fail "") variableProduct variablesAndConstant with
  | error error =>
      rw [hrun] at hok
      cases hok
  | ok result =>
      refine ⟨result.1, result.2, rfl, ?_⟩
      exact @visitOperator_leaves ScriptEnv.plain variableValues variablesAndConstant.staticValue
        variablesAndConstant result.2 variableSlots result.1 (fun _ => Visit.fail "") variableProduct
        trivial tidy_variables hasValue_variables honce hlower (by decide +kernel) hrun

end AtomicProof
