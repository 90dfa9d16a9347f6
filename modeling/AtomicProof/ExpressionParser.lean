/-
The parser of expressions.

`Parser` of `src/src/parser/parser.cpp` reads expressions by recursive descent, and binary operators by
climbing their precedences.  The state is the tokens from `m_pos` on and the errors that were reported; a
token that does not fit is reported and thrown, except at the beginning of an operand, where the error is
reported and the number 0 stands in its place.  The end of the tokens is thrown as well, so that an
expression has to be followed by something.

The functions take fuel, of which `parseExpression` gives enough.

Main definitions:

* `Parser` — the state;
* `parseBinaryExpression`, `parsePrimary`, `parsePostfixExpression` — the descent;
* `parseExpression` — the parser of expressions.

Main results:

* `isSome_parseExpression` — **there is always a result or an error**.
-/

import AtomicProof.ExpressionGrammar

set_option autoImplicit false

namespace AtomicProof

/-! ### The state -/

/-- `TokenTypeToString`. -/
def TokenType.toText : TokenType → String
  | init => "TOKEN_INIT"
  | arrow => "TOKEN_ARROW"
  | contract => "TOKEN_CONTRACT"
  | library => "TOKEN_LIBRARY"
  | global => "TOKEN_GLOBAL"
  | defKeyword => "TOKEN_DEF"
  | struct => "TOKEN_STRUCT"
  | indent => "TOKEN_INDENT"
  | dedent => "TOKEN_DEDENT"
  | newline => "TOKEN_NEWLINE"
  | eof => "TOKEN_EOF"
  | identifier => "TOKEN_IDENTIFIER"
  | number => "TOKEN_NUMBER"
  | hex => "TOKEN_HEX"
  | string => "TOKEN_STRING"
  | address => "TOKEN_ADDRESS"
  | type => "TOKEN_TYPE"
  | .if => "TOKEN_IF"
  | .else => "TOKEN_ELSE"
  | .return => "TOKEN_RETURN"
  | returnValue => "TOKEN_RETURN_VALUE"
  | .for => "TOKEN_FOR"
  | .in => "TOKEN_IN"
  | assign => "TOKEN_ASSIGN"
  | lparen => "TOKEN_LPAREN"
  | rparen => "TOKEN_RPAREN"
  | lbracket => "TOKEN_LBRACKET"
  | rbracket => "TOKEN_RBRACKET"
  | lbrace => "TOKEN_LBRACE"
  | rbrace => "TOKEN_RBRACE"
  | comma => "TOKEN_COMMA"
  | colon => "TOKEN_COLON"
  | plus => "TOKEN_PLUS"
  | minus => "TOKEN_MINUS"
  | star => "TOKEN_STAR"
  | slash => "TOKEN_SLASH"
  | equal => "TOKEN_EQUAL"
  | notEqual => "TOKEN_NOTEQUAL"
  | less => "TOKEN_LESS"
  | greater => "TOKEN_GREATER"
  | lessEqual => "TOKEN_LESSEQUAL"
  | greaterEqual => "TOKEN_GREATEREQUAL"
  | dot => "TOKEN_DOT"

structure SyntaxReport where
  message : String
  line : ℕ
  column : ℕ
  suggestion : String

/-- The state of the parser: the tokens from `m_pos` on and the reports. -/
structure Parser where
  tokens : List Token
  reports : List SyntaxReport := []

/-- A part of the parser; what is thrown is the text of a `std::runtime_error`. -/
abbrev Parsing (α : Type) := Computation String Parser α

open AtomicProof.Computation

namespace Parser

/-- The token that `check` compares, which is none at the end. -/
def peek (s : Parser) : Option Token := s.tokens.head?.filter fun token => token.type ≠ .eof

def isAtEnd (s : Parser) : Bool := s.peek.isNone

/-- `check` at the current token. -/
def check (kind : TokenType) (s : Parser) : Bool := s.peek.any fun token => token.type = kind

/-- `SYNTAX_ERROR` at the current token, or at a place for the end. -/
def report (message suggestion : String) (place : ℕ) (s : Parser) : Parser :=
  { s with reports := s.reports ++ [{
      message := message
      line := (s.tokens.head?.map fun token => token.position.line).getD place
      column := (s.tokens.head?.map fun token => token.position.column).getD place
      suggestion := suggestion }] }

/-- The text of `consume`. -/
def expected (kind : TokenType) (message : String) (s : Parser) : String :=
  match s.tokens.head? with
  | some token =>
      message ++ " at line " ++ toString token.position.line ++ ", column " ++
        toString token.position.column ++ ". Expected token: " ++ kind.toText ++ ", but found: " ++
        token.type.toText ++ (if token.value = "" then "" else " ('" ++ token.value ++ "')")
  | none => message ++ " at end of file. Unexpected end of input" ++ ". Expected token: " ++ kind.toText

end Parser

def current : Parsing Token := do
  let s ← get
  match s.peek with
  | some token => pure token
  | none => do
      modify (Parser.report "Unexpected end of input" "Check if the source file is complete" 0)
      throw "Unexpected end of input"

def advance : Parsing Unit :=
  modify fun s => if s.isAtEnd then s else { s with tokens := s.tokens.tail }

/-- `match`, with the token that `previous` then is. -/
def matchToken (kind : TokenType) : Parsing (Option Token) := do
  let s ← get
  if s.check kind then do
    advance
    pure s.peek
  else pure none

/-- `consume`, with the token that `previous` then is. -/
def consume (kind : TokenType) (message : String) : Parsing Token := do
  match ← matchToken kind with
  | some token => pure token
  | none => do
      let s ← get
      modify (Parser.report (s.expected kind message) "Check the syntax around this location" 1)
      throw (s.expected kind message)

/-- The end of `parsePrimary`: no expression begins here.  Beyond the last token the code reads past the
end of its vector; here that is the end. -/
def unexpectedToken : Parsing AstExpr := do
  let token ← current
  modify (Parser.report ("unexpected token '" ++ token.value ++ "' in expression")
    "Check the expression syntax" 0)
  pure (.literal .number "0")

/-! ### The descent -/

mutual

/-- `parseBinaryExpression`; `parseExpression` is it at 0. -/
def parseBinaryExpression : ℕ → ℕ → Parsing AstExpr
  | 0, _ => ofOption none
  | fuel + 1, minPrecedence => do
      let left ← parseUnaryExpression fuel
      binaryRounds fuel minPrecedence left

/-- The loop of `parseBinaryExpression`. -/
def binaryRounds : ℕ → ℕ → AstExpr → Parsing AstExpr
  | 0, _, _ => ofOption none
  | fuel + 1, minPrecedence, left => do
      let opToken ← current
      match getOperatorPrecedence opToken.type with
      | none => pure left
      | some precedence =>
          if precedence < minPrecedence then pure left
          else do
            advance
            let right ← parseBinaryExpression fuel (precedence + 1)
            binaryRounds fuel minPrecedence (.binary opToken.value left right)

def parseUnaryExpression : ℕ → Parsing AstExpr
  | 0 => ofOption none
  | fuel + 1 => do
      match ← matchToken .minus with
      | some op => do
          let operand ← parseUnaryExpression fuel
          pure (.unary op.value operand)
      | none => parsePrimary fuel

def parsePrimary : ℕ → Parsing AstExpr
  | 0 => ofOption none
  | fuel + 1 => do
      let s ← get
      match s.peek with
      | none => unexpectedToken
      | some token =>
          match literalType token.type with
          | some literal => do
              advance
              pure (.literal literal token.value)
          | none =>
              match token.type with
              | .identifier => do
                  advance
                  match ← matchToken .lparen with
                  | some _ => do
                      let args ← parseArgumentList fuel "Expected ')' after function arguments."
                      parsePostfixExpression fuel
                        (.call token.value args (token.value = "Range"))
                  | none => parsePostfixExpression fuel (.identifier token.value)
              | .lparen => do
                  advance
                  let expr ← parseBinaryExpression fuel 0
                  let _ ← consume .rparen "Expected ')' after expression."
                  parsePostfixExpression fuel expr
              | .lbracket => do
                  let expr ← parseArrayLiteral fuel
                  parsePostfixExpression fuel expr
              | .lbrace => do
                  let expr ← parseBraceExpression fuel
                  parsePostfixExpression fuel expr
              | _ => unexpectedToken

def parsePostfixExpression : ℕ → AstExpr → Parsing AstExpr
  | 0, _ => ofOption none
  | fuel + 1, expr => do
      match ← matchToken .dot with
      | some _ => do
          let field ← consume .identifier "Expect property name after '.'"
          match ← matchToken .lparen with
          | some _ => do
              let args ← parseArgumentList fuel "Expected ')' after method arguments."
              parsePostfixExpression fuel (.methodCall expr field.value args)
          | none => parsePostfixExpression fuel (.fieldAccess expr field.value)
      | none =>
          match ← matchToken .lbracket with
          | some _ => do
              let index ← parseBinaryExpression fuel 0
              let _ ← consume .rbracket "Expected ']' after array index"
              parsePostfixExpression fuel (.indexAccess expr index)
          | none => pure expr

def parseArgumentList : ℕ → String → Parsing (List AstExpr)
  | 0, _ => ofOption none
  | fuel + 1, closingMessage => do
      let args ← parseUntil fuel .rparen
      let _ ← consume .rparen closingMessage
      pure args

/-- The expressions before a closing token, where it does not stand here. -/
def parseUntil : ℕ → TokenType → Parsing (List AstExpr)
  | 0, _ => ofOption none
  | fuel + 1, closing => do
      let s ← get
      if s.check closing then pure [] else parseSequence fuel

/-- The loop that reads expressions while commas follow. -/
def parseSequence : ℕ → Parsing (List AstExpr)
  | 0 => ofOption none
  | fuel + 1 => do
      let expr ← parseBinaryExpression fuel 0
      match ← matchToken .comma with
      | some _ => do
          let rest ← parseSequence fuel
          pure (expr :: rest)
      | none => pure [expr]

def parseArrayLiteral : ℕ → Parsing AstExpr
  | 0 => ofOption none
  | fuel + 1 => do
      let _ ← consume .lbracket "Expected '[' at start of array literal"
      let s ← get
      if s.check .rbracket then do
        advance
        pure (.arrayDef "" [])
      else do
        let elements ← parseElements fuel
        let _ ← consume .rbracket "Expected ']' at end of array literal"
        pure (.arrayDef "" elements)

/-- The loop of `parseArrayLiteral`, which ends at a closing bracket also behind a comma. -/
def parseElements : ℕ → Parsing (List AstExpr)
  | 0 => ofOption none
  | fuel + 1 => do
      let expr ← parseBinaryExpression fuel 0
      match ← matchToken .comma with
      | some _ => do
          let s ← get
          if s.check .rbracket || s.isAtEnd then pure [expr]
          else do
            let rest ← parseElements fuel
            pure (expr :: rest)
      | none => pure [expr]

def parseBraceExpression : ℕ → Parsing AstExpr
  | 0 => ofOption none
  | fuel + 1 => do
      let _ ← consume .lbrace "Expected '\x7b'"
      let elements ← parseUntil fuel .rbrace
      let _ ← consume .rbrace "Expected '\x7d' after brace expression elements"
      pure (.brace elements)

end

/-- `parseExpression`, with fuel for the tokens that are left. -/
def parseExpression : Parsing AstExpr := do
  let s ← get
  parseBinaryExpression (6 * s.tokens.length + 4) 0

/-! ### Tokens one by one -/

section Tokens

variable {s s' : Parser} {token : Token} {rest : List Token} {kind : TokenType}
  {reports : List SyntaxReport}

theorem Parser.peek_eq_some_iff :
    s.peek = some token ↔ ∃ rest, s.tokens = token :: rest ∧ token.type ≠ .eof := by
  unfold Parser.peek
  rw [Option.filter_eq_some_iff]
  cases s.tokens with
  | nil => simp
  | cons first rest =>
      simp only [List.head?_cons, Option.some.injEq, decide_eq_true_eq, List.cons.injEq]
      constructor
      · rintro ⟨rfl, h⟩
        exact ⟨rest, ⟨rfl, rfl⟩, h⟩
      · rintro ⟨_, ⟨rfl, rfl⟩, h⟩
        exact ⟨rfl, h⟩

theorem Parser.peek_cons (h : token.type ≠ .eof) :
    (⟨token :: rest, reports⟩ : Parser).peek = some token :=
  peek_eq_some_iff.2 ⟨rest, rfl, h⟩

theorem current_of_peek (h : s.peek = some token) : current s = some (.ok token, s) := by
  unfold current
  rw [run_get_bind, h]
  rfl

theorem exists_current_of_end (h : s.peek = none) :
    current s = some (.error "Unexpected end of input",
      s.report "Unexpected end of input" "Check if the source file is complete" 0) := by
  unfold current
  rw [run_get_bind, h]
  rfl

theorem peek_of_current (h : current s = some (.ok token, s')) : s.peek = some token ∧ s' = s := by
  cases hpeek : s.peek with
  | none =>
      rw [exists_current_of_end hpeek] at h
      cases h
  | some first =>
      rw [current_of_peek hpeek] at h
      cases h
      exact ⟨rfl, rfl⟩

theorem advance_cons (h : token.type ≠ .eof) :
    advance ⟨token :: rest, reports⟩ = some (.ok (), ⟨rest, reports⟩) := by
  have hadvance : advance ⟨token :: rest, reports⟩ = some (.ok (),
      if (⟨token :: rest, reports⟩ : Parser).isAtEnd then ⟨token :: rest, reports⟩
      else ⟨rest, reports⟩) := rfl
  rw [hadvance, Parser.isAtEnd, Parser.peek_cons h]
  rfl

theorem matchToken_of_check (h : s.check kind = true) :
    ∃ token rest, s.tokens = token :: rest ∧ token.type = kind ∧ kind ≠ .eof ∧
      matchToken kind s = some (.ok (some token), ⟨rest, s.reports⟩) := by
  obtain ⟨token, hpeek, hkind⟩ := (Option.any_eq_true _ _).1 h
  obtain ⟨rest, htokens, htoken⟩ := Parser.peek_eq_some_iff.1 hpeek
  obtain rfl := of_decide_eq_true hkind
  refine ⟨token, rest, htokens, rfl, htoken, ?_⟩
  obtain ⟨tokens, reports⟩ := s
  obtain rfl : tokens = token :: rest := htokens
  unfold matchToken
  rw [run_get_bind, if_pos h, bind_of_ok (advance_cons htoken),
    hpeek]
  rfl

theorem matchToken_of_not_check (h : s.check kind = false) :
    matchToken kind s = some (.ok none, s) := by
  unfold matchToken
  rw [run_get_bind, if_neg (by rw [h]; exact Bool.false_ne_true)]
  rfl

end Tokens

/-! ### There is always an end -/

/-- A computation ends from a state, with at most so many tokens. -/
def EndsFrom {α : Type} (s : Parser) (count : ℕ) (m : Parsing α) : Prop :=
  ∃ r s', m s = some (r, s') ∧ s'.tokens.length ≤ count

/-- A computation ends from so many tokens, with no more than there were. -/
def Ends {α : Type} (count : ℕ) (m : Parsing α) : Prop :=
  ∀ s, s.tokens.length ≤ count → EndsFrom s count m

section Ends

variable {α β : Type} {count : ℕ} {m : Parsing α} {s s' : Parser} {kind : TokenType}

theorem EndsFrom.bind_ok {f : α → Parsing β} {a : α} (h : m s = some (.ok a, s'))
    (hf : EndsFrom s' count (f a)) : EndsFrom s count (m >>= f) := by
  unfold EndsFrom
  rw [bind_of_ok h]
  exact hf

theorem EndsFrom.bind_error {f : α → Parsing β} {e : String} (h : m s = some (.error e, s'))
    (hs' : s'.tokens.length ≤ count) : EndsFrom s count (m >>= f) := by
  unfold EndsFrom
  rw [bind_of_error h]
  exact ⟨_, s', rfl, hs'⟩

theorem EndsFrom.get_bind {f : Parser → Parsing β} (h : EndsFrom s count (f s)) :
    EndsFrom s count (get >>= f) := h

namespace Ends

theorem pure {a : α} : Ends count (Pure.pure a : Parsing α) := fun s hs => ⟨.ok a, s, rfl, hs⟩

theorem bind {f : α → Parsing β} (hm : Ends count m) (hf : ∀ a, Ends count (f a)) :
    Ends count (m >>= f) := by
  intro s hs
  obtain ⟨r, mid, hrun, hmid⟩ := hm s hs
  cases r with
  | ok a => exact .bind_ok hrun (hf a mid hmid)
  | error e => exact .bind_error hrun hmid

theorem get_bind {f : Parser → Parsing β} (h : ∀ s, Ends count (f s)) : Ends count (get >>= f) :=
  fun s hs => .get_bind (h s s hs)

theorem behind {token : Token} {rest : List Token} {reports : List SyntaxReport}
    (h : ∀ less, count = less + 1 → Ends less m) (htokens : s.tokens = token :: rest)
    (hs : s.tokens.length ≤ count) : EndsFrom ⟨rest, reports⟩ count m := by
  rw [htokens, List.length_cons] at hs
  obtain ⟨less, rfl⟩ : ∃ less, count = less + 1 := ⟨count - 1, by omega⟩
  obtain ⟨r, s', hrun, hs'⟩ := h less rfl ⟨rest, reports⟩ (Nat.le_of_succ_le_succ hs)
  exact ⟨r, s', hrun, hs'.trans (Nat.le_succ less)⟩

theorem matchToken_bind {f : Option Token → Parsing β}
    (hsome : ∀ less token, count = less + 1 → Ends less (f (some token)))
    (hnone : Ends count (f none)) : Ends count (matchToken kind >>= f) := by
  intro s hs
  cases hcheck : s.check kind with
  | true =>
      obtain ⟨token, rest, htokens, _, _, hmatch⟩ := matchToken_of_check hcheck
      exact .bind_ok hmatch (behind (fun less => hsome less token) htokens hs)
  | false => exact .bind_ok (matchToken_of_not_check hcheck) (hnone s hs)

theorem consume_bind {f : Token → Parsing β} {message : String}
    (h : ∀ less token, count = less + 1 → Ends less (f token)) :
    Ends count (consume kind message >>= f) := by
  intro s hs
  cases hcheck : s.check kind with
  | true =>
      obtain ⟨token, rest, htokens, _, _, hmatch⟩ := matchToken_of_check hcheck
      have hconsume : consume kind message s = some (.ok token, ⟨rest, s.reports⟩) := by
        unfold consume
        rw [bind_of_ok hmatch]
        rfl
      exact .bind_ok hconsume (behind (fun less => h less token) htokens hs)
  | false =>
      obtain ⟨e, s', hconsume, hs'⟩ : ∃ e s', consume kind message s = some (.error e, s') ∧
          s'.tokens = s.tokens := by
        unfold consume
        rw [bind_of_ok (matchToken_of_not_check hcheck)]
        exact ⟨_, _, rfl, rfl⟩
      exact .bind_error hconsume (by rwa [hs'])

theorem current_bind {f : Token → Parsing β}
    (h : ∀ s token rest, s.tokens = token :: rest → token.type ≠ .eof → s.tokens.length ≤ count →
      EndsFrom s count (f token)) : Ends count (current >>= f) := by
  intro s hs
  cases hpeek : s.peek with
  | none => exact .bind_error (exists_current_of_end hpeek) hs
  | some token =>
      obtain ⟨rest, htokens, heof⟩ := Parser.peek_eq_some_iff.1 hpeek
      exact .bind_ok (current_of_peek hpeek) (h s token rest htokens heof hs)

theorem unexpected : Ends count unexpectedToken :=
  current_bind fun _ _ _ _ _ hs => ⟨_, _, rfl, hs⟩

theorem advance_bind {f : Unit → Parsing β} {token : Token} {rest : List Token}
    (htokens : s.tokens = token :: rest) (heof : token.type ≠ .eof) (hs : s.tokens.length ≤ count)
    (h : ∀ less, count = less + 1 → Ends less (f ())) : EndsFrom s count (advance >>= f) := by
  have hadvance : advance s = some (.ok (), ⟨rest, s.reports⟩) := by
    obtain ⟨tokens, reports⟩ := s
    obtain rfl : tokens = token :: rest := htokens
    exact advance_cons heof
  exact .bind_ok hadvance (behind h htokens hs)

end Ends

end Ends

mutual

theorem ends_parseBinaryExpression (fuel minPrecedence count : ℕ) (hfuel : 6 * count + 4 ≤ fuel) :
    Ends count (parseBinaryExpression fuel minPrecedence) := by
  cases fuel with
  | zero => omega
  | succ fuel =>
      rw [parseBinaryExpression]
      exact (ends_parseUnaryExpression fuel count (by omega)).bind fun left =>
        ends_binaryRounds fuel minPrecedence count left (by omega)

theorem ends_binaryRounds (fuel minPrecedence count : ℕ) (left : AstExpr)
    (hfuel : 6 * count + 1 ≤ fuel) : Ends count (binaryRounds fuel minPrecedence left) := by
  cases fuel with
  | zero => omega
  | succ fuel =>
      rw [binaryRounds]
      refine .current_bind fun s token rest htokens heof hs => ?_
      cases hop : getOperatorPrecedence token.type with
      | none => exact ⟨_, s, rfl, hs⟩
      | some precedence =>
          dsimp only
          split_ifs
          · exact ⟨_, s, rfl, hs⟩
          · refine Ends.advance_bind htokens heof hs fun less hless => ?_
            exact (ends_parseBinaryExpression fuel (precedence + 1) less (by omega)).bind fun right =>
              ends_binaryRounds fuel minPrecedence less _ (by omega)

theorem ends_parseUnaryExpression (fuel count : ℕ) (hfuel : 6 * count + 3 ≤ fuel) :
    Ends count (parseUnaryExpression fuel) := by
  cases fuel with
  | zero => omega
  | succ fuel =>
      rw [parseUnaryExpression]
      refine .matchToken_bind (fun less token hless => ?_) (ends_parsePrimary fuel count (by omega))
      exact (ends_parseUnaryExpression fuel less (by omega)).bind fun _ => .pure

theorem ends_parsePrimary (fuel count : ℕ) (hfuel : 6 * count + 2 ≤ fuel) :
    Ends count (parsePrimary fuel) := by
  cases fuel with
  | zero => omega
  | succ fuel =>
      rw [parsePrimary]
      refine fun s hs => .get_bind ?_
      cases hpeek : s.peek with
      | none => exact Ends.unexpected s hs
      | some token =>
          obtain ⟨rest, htokens, heof⟩ := Parser.peek_eq_some_iff.1 hpeek
          dsimp only
          cases hliteral : literalType token.type with
          | some literal => exact Ends.advance_bind htokens heof hs fun _ _ => .pure
          | none =>
              dsimp only
              split
              · refine Ends.advance_bind htokens heof hs fun less hless => ?_
                refine .matchToken_bind (fun less' _ hless' => ?_)
                  (ends_parsePostfixExpression fuel less _ (by omega))
                exact (ends_parseArgumentList fuel less' _ (by omega)).bind fun args =>
                  ends_parsePostfixExpression fuel less' _ (by omega)
              · refine Ends.advance_bind htokens heof hs fun less hless => ?_
                refine (ends_parseBinaryExpression fuel 0 less (by omega)).bind fun e => ?_
                exact .consume_bind fun less' _ hless' =>
                  ends_parsePostfixExpression fuel less' e (by omega)
              · exact (ends_parseArrayLiteral fuel count (by omega)).bind
                  (fun e => ends_parsePostfixExpression fuel count e (by omega)) s hs
              · exact (ends_parseBraceExpression fuel count (by omega)).bind
                  (fun e => ends_parsePostfixExpression fuel count e (by omega)) s hs
              · exact Ends.unexpected s hs

theorem ends_parsePostfixExpression (fuel count : ℕ) (e : AstExpr) (hfuel : 6 * count + 1 ≤ fuel) :
    Ends count (parsePostfixExpression fuel e) := by
  cases fuel with
  | zero => omega
  | succ fuel =>
      rw [parsePostfixExpression]
      refine .matchToken_bind (fun less _ hless => .consume_bind fun less' _ hless' => ?_) ?_
      · refine .matchToken_bind (fun fewer _ hfewer => ?_)
          (ends_parsePostfixExpression fuel less' _ (by omega))
        exact (ends_parseArgumentList fuel fewer _ (by omega)).bind fun args =>
          ends_parsePostfixExpression fuel fewer _ (by omega)
      · refine .matchToken_bind (fun less _ hless => ?_) .pure
        exact (ends_parseBinaryExpression fuel 0 less (by omega)).bind fun index =>
          .consume_bind fun less' _ hless' => ends_parsePostfixExpression fuel less' _ (by omega)

theorem ends_parseArgumentList (fuel count : ℕ) (message : String) (hfuel : 6 * count + 7 ≤ fuel) :
    Ends count (parseArgumentList fuel message) := by
  cases fuel with
  | zero => omega
  | succ fuel =>
      rw [parseArgumentList]
      exact (ends_parseUntil fuel count .rparen (by omega)).bind fun _ =>
        .consume_bind fun _ _ _ => .pure

theorem ends_parseUntil (fuel count : ℕ) (closing : TokenType) (hfuel : 6 * count + 6 ≤ fuel) :
    Ends count (parseUntil fuel closing) := by
  cases fuel with
  | zero => omega
  | succ fuel =>
      rw [parseUntil]
      refine .get_bind fun s => ?_
      split_ifs
      · exact .pure
      · exact ends_parseSequence fuel count (by omega)

theorem ends_parseSequence (fuel count : ℕ) (hfuel : 6 * count + 5 ≤ fuel) :
    Ends count (parseSequence fuel) := by
  cases fuel with
  | zero => omega
  | succ fuel =>
      rw [parseSequence]
      refine (ends_parseBinaryExpression fuel 0 count (by omega)).bind fun e => ?_
      refine .matchToken_bind (fun less _ hless => ?_) .pure
      exact (ends_parseSequence fuel less (by omega)).bind fun _ => .pure

theorem ends_parseArrayLiteral (fuel count : ℕ) (hfuel : 6 * count + 1 ≤ fuel) :
    Ends count (parseArrayLiteral fuel) := by
  cases fuel with
  | zero => omega
  | succ fuel =>
      rw [parseArrayLiteral]
      refine .consume_bind fun less _ hless s hs => .get_bind ?_
      split_ifs with hempty
      · obtain ⟨closing, rest, htokens, hclosing, hkind, _⟩ := matchToken_of_check hempty
        exact Ends.advance_bind htokens (by rwa [hclosing]) hs fun _ _ => .pure
      · exact (ends_parseElements fuel less (by omega)).bind
          (fun _ => .consume_bind fun _ _ _ => .pure) s hs

theorem ends_parseElements (fuel count : ℕ) (hfuel : 6 * count + 5 ≤ fuel) :
    Ends count (parseElements fuel) := by
  cases fuel with
  | zero => omega
  | succ fuel =>
      rw [parseElements]
      refine (ends_parseBinaryExpression fuel 0 count (by omega)).bind fun e => ?_
      refine .matchToken_bind (fun less _ hless => .get_bind fun s => ?_) .pure
      split_ifs
      · exact .pure
      · exact (ends_parseElements fuel less (by omega)).bind fun _ => .pure

theorem ends_parseBraceExpression (fuel count : ℕ) (hfuel : 6 * count + 1 ≤ fuel) :
    Ends count (parseBraceExpression fuel) := by
  cases fuel with
  | zero => omega
  | succ fuel =>
      rw [parseBraceExpression]
      refine .consume_bind fun less _ hless => ?_
      exact (ends_parseUntil fuel less .rbrace (by omega)).bind fun _ =>
        .consume_bind fun _ _ _ => .pure

end

/-- **There is always a result or an error.** -/
theorem isSome_parseExpression (s : Parser) : (parseExpression s).isSome = true := by
  unfold parseExpression
  rw [run_get_bind]
  obtain ⟨r, s', hrun, _⟩ := ends_parseBinaryExpression _ 0 s.tokens.length le_rfl s le_rfl
  rw [hrun]
  rfl

end AtomicProof
