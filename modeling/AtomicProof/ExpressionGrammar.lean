/-
The grammar of expressions.

The expressions of a contract are read by `src/src/parser/parser.cpp` from tokens.  What can be read is a
grammar with a level for each precedence of a binary operator: an operator joins an expression of its own
level on the left with one of the next level on the right, so that it is left associative.  An expression
is printed with parentheses only where its place in another one asks for a higher level.

Main definitions:

* `getOperatorPrecedence` — the precedence of a token as a binary operator;
* `Sentence` — **the grammar**: the spelled tokens that stand for a phrase;
* `render` — an expression as tokens, at a level.

Main results:

* `Sentence.begins` — the tokens that a phrase begins with;
* `sentence_render` — **a printed expression is a sentence** that stands for it.
-/

import AtomicProof.Interpreter
import AtomicProof.Lexer

set_option autoImplicit false

namespace AtomicProof

/-! ### Tokens -/

/-- A token as it is spelled, without its position. -/
abbrev Spelling := TokenType × String

def Token.spelling (token : Token) : Spelling := (token.type, token.value)

def getOperatorPrecedence : TokenType → Option ℕ
  | .equal => some 1
  | .notEqual => some 1
  | .less => some 2
  | .greater => some 2
  | .lessEqual => some 2
  | .greaterEqual => some 2
  | .plus => some 3
  | .minus => some 3
  | .star => some 4
  | .slash => some 4
  | _ => none

variable {kind : TokenType} {ts : List Spelling} {kinds : List TokenType}

theorem getOperatorPrecedence_bounds {precedence : ℕ}
    (h : getOperatorPrecedence kind = some precedence) : 1 ≤ precedence ∧ precedence ≤ 4 := by
  cases kind <;> cases h <;> decide

def literalType : TokenType → Option BytecodeType
  | .number => some .number
  | .hex => some .hex
  | .address => some .addr
  | .string => some .string
  | _ => none

/-! ### The grammar -/

/-- What spelled tokens can stand for: an expression of a level, an operand of a binary operator, what a
field, a method or an index can follow, and lists of expressions. -/
inductive Phrase
  | level (precedence : ℕ) (e : AstExpr)
  | operand (e : AstExpr)
  | receiver (e : AstExpr)
  | sequence (es : List AstExpr)
  | arguments (es : List AstExpr)
  | elements (es : List AstExpr)

/-- **The grammar of expressions.**  An array literal can end with a comma; parentheses can stand around
any expression. -/
inductive Sentence : Phrase → List Spelling → Prop
  | operand {precedence : ℕ} {e : AstExpr} {ts : List Spelling} (h : Sentence (.operand e) ts) :
      Sentence (.level precedence e) ts
  | binary {level precedence : ℕ} {kind : TokenType} {op : String} {lhs rhs : AstExpr}
      {left right : List Spelling} (hop : getOperatorPrecedence kind = some precedence)
      (hlevel : level ≤ precedence) (hleft : Sentence (.level precedence lhs) left)
      (hright : Sentence (.level (precedence + 1) rhs) right) :
      Sentence (.level level (.binary op lhs rhs)) (left ++ (kind, op) :: right)
  | negative {op : String} {e : AstExpr} {ts : List Spelling} (h : Sentence (.operand e) ts) :
      Sentence (.operand (.unary op e)) ((.minus, op) :: ts)
  | literal {kind : TokenType} {literal : BytecodeType} {value : String}
      (h : literalType kind = some literal) :
      Sentence (.operand (.literal literal value)) [(kind, value)]
  | receiver {e : AstExpr} {ts : List Spelling} (h : Sentence (.receiver e) ts) :
      Sentence (.operand e) ts
  | identifier {name : String} : Sentence (.receiver (.identifier name)) [(.identifier, name)]
  | call {name l r : String} {args : List AstExpr} {ts : List Spelling}
      (h : Sentence (.arguments args) ts) :
      Sentence (.receiver (.call name args (name = "Range")))
        ((.identifier, name) :: (.lparen, l) :: (ts ++ [(.rparen, r)]))
  | parentheses {l r : String} {e : AstExpr} {ts : List Spelling} (h : Sentence (.level 0 e) ts) :
      Sentence (.receiver e) ((.lparen, l) :: (ts ++ [(.rparen, r)]))
  | array {l r : String} {es : List AstExpr} {ts : List Spelling} (h : Sentence (.elements es) ts) :
      Sentence (.receiver (.arrayDef "" es)) ((.lbracket, l) :: (ts ++ [(.rbracket, r)]))
  | brace {l r : String} {es : List AstExpr} {ts : List Spelling} (h : Sentence (.arguments es) ts) :
      Sentence (.receiver (.brace es)) ((.lbrace, l) :: (ts ++ [(.rbrace, r)]))
  | field {dot name : String} {e : AstExpr} {ts : List Spelling} (h : Sentence (.receiver e) ts) :
      Sentence (.receiver (.fieldAccess e name)) (ts ++ [(.dot, dot), (.identifier, name)])
  | method {dot name l r : String} {e : AstExpr} {args : List AstExpr} {ts inner : List Spelling}
      (h : Sentence (.receiver e) ts) (hargs : Sentence (.arguments args) inner) :
      Sentence (.receiver (.methodCall e name args))
        (ts ++ (.dot, dot) :: (.identifier, name) :: (.lparen, l) :: (inner ++ [(.rparen, r)]))
  | index {l r : String} {e index : AstExpr} {ts inner : List Spelling}
      (h : Sentence (.receiver e) ts) (hindex : Sentence (.level 0 index) inner) :
      Sentence (.receiver (.indexAccess e index)) (ts ++ (.lbracket, l) :: (inner ++ [(.rbracket, r)]))
  | last {e : AstExpr} {ts : List Spelling} (h : Sentence (.level 0 e) ts) :
      Sentence (.sequence [e]) ts
  | more {comma : String} {e : AstExpr} {es : List AstExpr} {ts rest : List Spelling}
      (h : Sentence (.level 0 e) ts) (hrest : Sentence (.sequence es) rest) :
      Sentence (.sequence (e :: es)) (ts ++ (.comma, comma) :: rest)
  | empty : Sentence (.arguments []) []
  | filled {es : List AstExpr} {ts : List Spelling} (h : Sentence (.sequence es) ts) :
      Sentence (.arguments es) ts
  | plain {es : List AstExpr} {ts : List Spelling} (h : Sentence (.arguments es) ts) :
      Sentence (.elements es) ts
  | trailing {comma : String} {es : List AstExpr} {ts : List Spelling}
      (h : Sentence (.sequence es) ts) : Sentence (.elements es) (ts ++ [(.comma, comma)])

theorem Sentence.lower {level level' : ℕ} {e : AstExpr}
    (h : Sentence (.level level e) ts) (hle : level' ≤ level) : Sentence (.level level' e) ts := by
  cases h with
  | operand h => exact .operand h
  | binary hop hlevel hleft hright => exact .binary hop (hle.trans hlevel) hleft hright

/-! ### Beginnings -/

/-- The tokens with which a phrase begins that something can follow. -/
def receiverTokens : List TokenType := [.identifier, .lparen, .lbracket, .lbrace]

def literalTokens : List TokenType := [.number, .hex, .address, .string]

/-- The kinds of token with which a phrase begins, where it has any. -/
def Phrase.beginnings : Phrase → Option (List TokenType)
  | .receiver _ => some receiverTokens
  | .level _ _ | .operand _ | .sequence _ => some (.minus :: (literalTokens ++ receiverTokens))
  | .arguments _ | .elements _ => none

/-- The first of some tokens is of some kinds. -/
def Begins (kinds : List TokenType) (ts : List Spelling) : Prop :=
  ∃ token rest, ts = token :: rest ∧ token.1 ∈ kinds

theorem Begins.mono {kinds' : List TokenType} (h : Begins kinds ts)
    (hkinds : kinds ⊆ kinds') : Begins kinds' ts := by
  obtain ⟨token, rest, hts, htoken⟩ := h
  exact ⟨token, rest, hts, hkinds htoken⟩

theorem Begins.append (h : Begins kinds ts) (more : List Spelling) : Begins kinds (ts ++ more) := by
  obtain ⟨token, rest, rfl, htoken⟩ := h
  exact ⟨token, rest ++ more, rfl, htoken⟩

theorem literalType_mem {literal : BytecodeType}
    (h : literalType kind = some literal) : kind ∈ literalTokens := by
  cases kind <;> cases h <;> decide

/-- A sentence begins with a token that its phrase asks for. -/
theorem Sentence.begins {phrase : Phrase} (h : Sentence phrase ts)
    (hphrase : phrase.beginnings = some kinds) : Begins kinds ts := by
  induction h generalizing kinds with
  | operand h ih => exact ih hphrase
  | binary hop hlevel hleft hright ihleft ihright => exact (ihleft hphrase).append _
  | negative h ih =>
      cases hphrase
      exact ⟨_, _, rfl, List.mem_cons_self⟩
  | literal h =>
      cases hphrase
      exact ⟨_, _, rfl, List.mem_cons_of_mem _ (List.mem_append_left _ (literalType_mem h))⟩
  | receiver h ih =>
      cases hphrase
      exact (ih rfl).mono fun kind hkind => List.mem_cons_of_mem _ (List.mem_append_right _ hkind)
  | field h ih => exact (ih hphrase).append _
  | method h hargs ih ihargs => exact (ih hphrase).append _
  | index h hindex ih ihindex => exact (ih hphrase).append _
  | last h ih => exact ih hphrase
  | more h hrest ih ihrest => exact (ih hphrase).append _
  | empty => cases hphrase
  | filled h ih => cases hphrase
  | plain h ih => cases hphrase
  | trailing h ih => cases hphrase
  | _ =>
      cases hphrase
      exact ⟨_, _, rfl, by simp [receiverTokens]⟩

/-! ### Printing -/

def operatorToken (op : String) : Option TokenType :=
  [("==", TokenType.equal), ("!=", .notEqual), ("<", .less), (">", .greater), ("<=", .lessEqual),
    (">=", .greaterEqual), ("+", .plus), ("-", .minus), ("*", .star), ("/", .slash)].lookup op

def literalToken : BytecodeType → Option TokenType
  | .number => some .number
  | .hex => some .hex
  | .addr => some .address
  | .string => some .string
  | _ => none

def enclosed (ts : List Spelling) : List Spelling := (.lparen, "(") :: (ts ++ [(.rparen, ")")])

def encloseIf (needed : Bool) (ts : List Spelling) : List Spelling := if needed then enclosed ts else ts

mutual

/-- An expression as tokens, where it is one that can be written.  The levels from 0 to 4 are those of the
binary operators, 5 is that of their operands, and 6 that of what a field, a method or an index follows. -/
def render : ℕ → AstExpr → Option (List Spelling)
  | level, .literal literal value =>
      (literalToken literal).map fun kind => encloseIf (5 < level) [(kind, value)]
  | _, .identifier name => some [(.identifier, name)]
  | level, .unary op rhs =>
      if op = "-" then (render 5 rhs).map fun ts => encloseIf (5 < level) ((.minus, op) :: ts)
      else none
  | level, .binary op lhs rhs => do
      let kind ← operatorToken op
      let precedence ← getOperatorPrecedence kind
      let left ← render precedence lhs
      let right ← render (precedence + 1) rhs
      pure (encloseIf (precedence < level) (left ++ (kind, op) :: right))
  | _, .arrayDef elementType es =>
      if elementType = "" then
        (renderAll es).map fun ts => (.lbracket, "[") :: (ts ++ [(.rbracket, "]")])
      else none
  | _, .brace es => (renderAll es).map fun ts => (.lbrace, "\x7b") :: (ts ++ [(.rbrace, "\x7d")])
  | _, .call funcName args isRangeCall =>
      if isRangeCall = decide (funcName = "Range") then
        (renderAll args).map fun ts => (.identifier, funcName) :: enclosed ts
      else none
  | _, .methodCall object methodName args => do
      let ts ← render 6 object
      let inner ← renderAll args
      pure (ts ++ (.dot, ".") :: (.identifier, methodName) :: enclosed inner)
  | _, .fieldAccess base field =>
      (render 6 base).map fun ts => ts ++ [(.dot, "."), (.identifier, field)]
  | _, .indexAccess base index => do
      let ts ← render 6 base
      let inner ← render 0 index
      pure (ts ++ (.lbracket, "[") :: (inner ++ [(.rbracket, "]")]))

/-- Expressions with commas between them. -/
def renderAll : List AstExpr → Option (List Spelling)
  | [] => some []
  | [e] => render 0 e
  | e :: es => do
      let ts ← render 0 e
      let rest ← renderAll es
      pure (ts ++ (.comma, ",") :: rest)

end

/-! ### Printed expressions are sentences -/

/-- What is asked of an expression at a level of `render`. -/
def Phrase.ofLevel (level : ℕ) (e : AstExpr) : Phrase :=
  if level ≤ 4 then .level level e else if level = 5 then .operand e else .receiver e

theorem literalType_of_literalToken {literal : BytecodeType}
    (h : literalToken literal = some kind) : literalType kind = some literal := by
  cases literal <;> cases h <;> rfl

namespace Sentence

variable {level : ℕ} {e : AstExpr} {ts : List Spelling}

theorem ofLevel_of_receiver (h : Sentence (.receiver e) ts) : Sentence (Phrase.ofLevel level e) ts := by
  unfold Phrase.ofLevel
  split_ifs
  · exact .operand (.receiver h)
  · exact .receiver h
  · exact h

theorem ofLevel_encloseIf_operand (h : Sentence (.operand e) ts) :
    Sentence (Phrase.ofLevel level e) (encloseIf (5 < level) ts) := by
  unfold encloseIf
  split_ifs with hneeded
  · exact ofLevel_of_receiver (.parentheses (.operand h))
  · have hlevel := of_decide_eq_false (Bool.eq_false_of_not_eq_true hneeded)
    unfold Phrase.ofLevel
    split_ifs with hlow hfive
    · exact .operand h
    · exact h
    · omega

theorem ofLevel_encloseIf_level {precedence : ℕ} (hprecedence : precedence ≤ 4)
    (h : Sentence (.level precedence e) ts) :
    Sentence (Phrase.ofLevel level e) (encloseIf (precedence < level) ts) := by
  unfold encloseIf
  split_ifs with hneeded
  · exact ofLevel_of_receiver (.parentheses (h.lower (Nat.zero_le _)))
  · have hlevel := of_decide_eq_false (Bool.eq_false_of_not_eq_true hneeded)
    unfold Phrase.ofLevel
    rw [if_pos (by omega)]
    exact h.lower (by omega)

theorem level_of_ofLevel (hlevel : level ≤ 5) (h : Sentence (Phrase.ofLevel level e) ts) :
    Sentence (.level level e) ts := by
  unfold Phrase.ofLevel at h
  split_ifs at h with hlow hfive
  · exact h
  · exact .operand h
  · omega

theorem arguments_of_renderAll {es : List AstExpr} (h : renderAll es = some ts)
    (hsequence : es ≠ [] → Sentence (.sequence es) ts) : Sentence (.arguments es) ts := by
  cases es with
  | nil =>
      rw [renderAll] at h
      cases h
      exact .empty
  | cons e es => exact .filled (hsequence (List.cons_ne_nil _ _))

end Sentence

mutual

/-- **A printed expression is a sentence** that stands for it. -/
theorem sentence_render (e : AstExpr) (level : ℕ) (ts : List Spelling) (h : render level e = some ts) :
    Sentence (Phrase.ofLevel level e) ts := by
  cases e with
  | literal literal value =>
      rw [render] at h
      obtain ⟨kind, hkind, rfl⟩ := Option.map_eq_some_iff.1 h
      exact .ofLevel_encloseIf_operand (.literal (literalType_of_literalToken hkind))
  | identifier name =>
      rw [render] at h
      cases h
      exact .ofLevel_of_receiver .identifier
  | unary op rhs =>
      rw [render] at h
      split_ifs at h
      obtain ⟨inner, hinner, rfl⟩ := Option.map_eq_some_iff.1 h
      exact .ofLevel_encloseIf_operand (.negative (sentence_render rhs 5 inner hinner))
  | binary op lhs rhs =>
      rw [render] at h
      obtain ⟨kind, hkind, h⟩ := Option.bind_eq_some_iff.1 h
      obtain ⟨precedence, hprecedence, h⟩ := Option.bind_eq_some_iff.1 h
      obtain ⟨left, hleft, h⟩ := Option.bind_eq_some_iff.1 h
      obtain ⟨right, hright, h⟩ := Option.bind_eq_some_iff.1 h
      obtain rfl := Option.some.inj h
      have hbounds := getOperatorPrecedence_bounds hprecedence
      -- operators of one level group to the left, so the right side is one level up
      refine .ofLevel_encloseIf_level hbounds.2 (.binary hprecedence le_rfl ?_ ?_)
      · exact .level_of_ofLevel (by omega) (sentence_render lhs precedence left hleft)
      · exact .level_of_ofLevel (by omega) (sentence_render rhs (precedence + 1) right hright)
  | arrayDef elementType es =>
      rw [render] at h
      split_ifs at h with helement
      subst helement
      obtain ⟨inner, hinner, rfl⟩ := Option.map_eq_some_iff.1 h
      have hes := sequence_renderAll es inner hinner
      exact .ofLevel_of_receiver (.array (.plain (.arguments_of_renderAll hinner hes)))
  | brace es =>
      rw [render] at h
      obtain ⟨inner, hinner, rfl⟩ := Option.map_eq_some_iff.1 h
      have hes := sequence_renderAll es inner hinner
      exact .ofLevel_of_receiver (.brace (.arguments_of_renderAll hinner hes))
  | call funcName args isRangeCall =>
      rw [render] at h
      split_ifs at h with hrange
      subst hrange
      obtain ⟨inner, hinner, rfl⟩ := Option.map_eq_some_iff.1 h
      have hargs := sequence_renderAll args inner hinner
      exact .ofLevel_of_receiver (.call (.arguments_of_renderAll hinner hargs))
  | methodCall object methodName args =>
      rw [render] at h
      obtain ⟨base, hbase, h⟩ := Option.bind_eq_some_iff.1 h
      obtain ⟨inner, hinner, h⟩ := Option.bind_eq_some_iff.1 h
      obtain rfl := Option.some.inj h
      have hargs := sequence_renderAll args inner hinner
      exact .ofLevel_of_receiver
        (.method (sentence_render object 6 base hbase) (.arguments_of_renderAll hinner hargs))
  | fieldAccess base field =>
      rw [render] at h
      obtain ⟨inner, hinner, rfl⟩ := Option.map_eq_some_iff.1 h
      exact .ofLevel_of_receiver (.field (sentence_render base 6 inner hinner))
  | indexAccess base index =>
      rw [render] at h
      obtain ⟨outer, houter, h⟩ := Option.bind_eq_some_iff.1 h
      obtain ⟨inner, hinner, h⟩ := Option.bind_eq_some_iff.1 h
      obtain rfl := Option.some.inj h
      exact .ofLevel_of_receiver
        (.index (sentence_render base 6 outer houter) (sentence_render index 0 inner hinner))

theorem sequence_renderAll (es : List AstExpr) (ts : List Spelling) (h : renderAll es = some ts)
    (hes : es ≠ []) : Sentence (.sequence es) ts := by
  cases es with
  | nil => exact absurd rfl hes
  | cons e es =>
      by_cases hrest : es = []
      · subst hrest
        rw [renderAll] at h
        exact .last (sentence_render e 0 ts h)
      · rw [renderAll] at h
        · obtain ⟨first, hfirst, h⟩ := Option.bind_eq_some_iff.1 h
          obtain ⟨rest, htail, h⟩ := Option.bind_eq_some_iff.1 h
          obtain rfl := Option.some.inj h
          exact .more (sentence_render e 0 first hfirst) (sequence_renderAll es rest htail hrest)
        · exact hrest

end

end AtomicProof
