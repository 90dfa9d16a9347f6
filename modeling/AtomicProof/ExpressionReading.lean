/-
How sentences are read.

The parser of expressions follows the grammar: behind the tokens of an expression of a level it is in the
loop for binary operators, with that expression as the left operand, and behind those of what can be
followed by a field, a method or an index it is in the loop for these.  This is the invariant that the
induction on sentences carries; the fuel is counted by tokens.

Main definitions:

* `Avoids`, `Follows` — what may come next;
* `Reach` — how a phrase is read.

Main results:

* `reach_of_sentence` — **a sentence is read as what it stands for**;
* `runs_parseExpression` — the same of the parser of expressions.
-/

import AtomicProof.ExpressionParser

set_option autoImplicit false

namespace AtomicProof

open AtomicProof.Computation

/-! ### Sentences are read -/

section Steps

variable {token next : Token} {rest rest' : List Token} {reports : List SyntaxReport} {kind : TokenType}
  {e : AstExpr} {fuel minPrecedence : ℕ}
variable {kinds : List TokenType} {inner : List Token}

/-- The next token, if there is one, is of none of some kinds. -/
def Avoids (kinds : List TokenType) (rest : List Token) : Prop :=
  ∀ token ∈ rest.head?, token.type ∉ kinds

theorem check_cons (h : token.type = kind) (hkind : kind ≠ .eof) :
    (⟨token :: rest, reports⟩ : Parser).check kind = true := by
  subst h
  unfold Parser.check
  rw [Parser.peek_cons hkind]
  exact decide_eq_true rfl

theorem check_of_avoids (h : Avoids kinds rest) (hkind : kind ∈ kinds) :
    (⟨rest, reports⟩ : Parser).check kind = false := by
  refine Bool.eq_false_of_not_eq_true fun hcheck => ?_
  obtain ⟨token, hpeek, htoken⟩ := (Option.any_eq_true _ _).1 hcheck
  obtain ⟨tail, htokens, _⟩ := Parser.peek_eq_some_iff.1 hpeek
  obtain rfl : rest = token :: tail := htokens
  refine h token rfl ?_
  rwa [of_decide_eq_true htoken]

theorem Avoids.mono {kinds' : List TokenType} (h : Avoids kinds rest)
    (hkinds : ∀ kind ∈ kinds', kind ∈ kinds) : Avoids kinds' rest :=
  fun token htoken hmem => h token htoken (hkinds _ hmem)

theorem avoids_cons (h : token.type ∉ kinds) : Avoids kinds (token :: rest) := by
  intro first hfirst
  cases hfirst
  exact h

theorem matchToken_cons (h : token.type = kind) (hkind : kind ≠ .eof) :
    matchToken kind ⟨token :: rest, reports⟩ = some (.ok (some token), ⟨rest, reports⟩) := by
  have hcheck : (⟨token :: rest, reports⟩ : Parser).check kind = true := check_cons h hkind
  obtain ⟨first, tail, htokens, _, _, hmatch⟩ := matchToken_of_check hcheck
  cases htokens
  exact hmatch

theorem consume_cons (h : token.type = kind) (hkind : kind ≠ .eof) (message : String) :
    consume kind message ⟨token :: rest, reports⟩ = some (.ok token, ⟨rest, reports⟩) := by
  unfold consume
  rw [bind_of_ok (matchToken_cons h hkind)]
  rfl

theorem binaryRounds_stop (heof : token.type ≠ .eof)
    (hstop : ∀ precedence, getOperatorPrecedence token.type = some precedence →
      precedence < minPrecedence) :
    binaryRounds (fuel + 1) minPrecedence e ⟨token :: rest, reports⟩ =
      some (.ok e, ⟨token :: rest, reports⟩) := by
  rw [binaryRounds, bind_of_ok (current_of_peek (Parser.peek_cons heof))]
  cases hprecedence : getOperatorPrecedence token.type with
  | none => rfl
  | some precedence =>
      dsimp only
      rw [if_pos (hstop precedence hprecedence)]
      rfl

theorem parsePostfixExpression_stop (h : Avoids [.dot, .lbracket] rest) :
    parsePostfixExpression (fuel + 1) e ⟨rest, reports⟩ = some (.ok e, ⟨rest, reports⟩) := by
  rw [parsePostfixExpression,
    bind_of_ok (matchToken_of_not_check (check_of_avoids h (by decide)))]
  dsimp only
  rw [bind_of_ok (matchToken_of_not_check (check_of_avoids h (by decide)))]
  rfl

theorem parsePostfixExpression_field (hdot : token.type = .dot) (hname : next.type = .identifier)
    (h : Avoids [.lparen] rest) :
    parsePostfixExpression (fuel + 1) e ⟨token :: next :: rest, reports⟩ =
      parsePostfixExpression fuel (.fieldAccess e next.value) ⟨rest, reports⟩ := by
  rw [parsePostfixExpression, bind_of_ok (matchToken_cons hdot (by decide))]
  dsimp only
  rw [bind_of_ok (consume_cons hname (by decide) _),
    bind_of_ok (matchToken_of_not_check (check_of_avoids h (by decide)))]

theorem parsePostfixExpression_method {opening : Token} {args : List AstExpr}
    (hdot : token.type = .dot) (hname : next.type = .identifier) (hopening : opening.type = .lparen)
    (hargs : ∀ message, parseArgumentList fuel message ⟨inner, reports⟩ =
      some (.ok args, ⟨rest, reports⟩)) :
    parsePostfixExpression (fuel + 1) e ⟨token :: next :: opening :: inner, reports⟩ =
      parsePostfixExpression fuel (.methodCall e next.value args) ⟨rest, reports⟩ := by
  rw [parsePostfixExpression, bind_of_ok (matchToken_cons hdot (by decide))]
  dsimp only
  rw [bind_of_ok (consume_cons hname (by decide) _),
    bind_of_ok (matchToken_cons hopening (by decide))]
  dsimp only
  rw [bind_of_ok (hargs _)]

theorem parsePostfixExpression_index {closing : Token} {index : AstExpr}
    (hopening : token.type = .lbracket) (hclosing : closing.type = .rbracket)
    (hindex : parseBinaryExpression fuel 0 ⟨inner, reports⟩ =
      some (.ok index, ⟨closing :: rest, reports⟩)) :
    parsePostfixExpression (fuel + 1) e ⟨token :: inner, reports⟩ =
      parsePostfixExpression fuel (.indexAccess e index) ⟨rest, reports⟩ := by
  have hdot : Avoids [.dot] (token :: inner) := avoids_cons (by rw [hopening]; decide)
  rw [parsePostfixExpression, bind_of_ok (matchToken_of_not_check (check_of_avoids hdot (by decide)))]
  dsimp only
  rw [bind_of_ok (matchToken_cons hopening (by decide))]
  dsimp only
  rw [bind_of_ok hindex, bind_of_ok (consume_cons hclosing (by decide) _)]

theorem parsePrimary_literal {literal : BytecodeType} (h : literalType token.type = some literal) :
    parsePrimary (fuel + 1) ⟨token :: rest, reports⟩ =
      some (.ok (.literal literal token.value), ⟨rest, reports⟩) := by
  have heof : token.type ≠ .eof := fun htype => by
    rw [htype] at h
    cases h
  rw [parsePrimary, run_get_bind, Parser.peek_cons heof]
  dsimp only
  rw [h]
  dsimp only
  rw [bind_of_ok (advance_cons heof)]
  rfl

theorem parsePrimary_identifier (hname : token.type = .identifier) (h : Avoids [.lparen] rest) :
    parsePrimary (fuel + 1) ⟨token :: rest, reports⟩ =
      parsePostfixExpression fuel (.identifier token.value) ⟨rest, reports⟩ := by
  have heof : token.type ≠ .eof := by rw [hname]; decide
  rw [parsePrimary, run_get_bind, Parser.peek_cons heof]
  dsimp only
  rw [hname]
  dsimp only [literalType]
  rw [bind_of_ok (advance_cons heof),
    bind_of_ok (matchToken_of_not_check (check_of_avoids h (by decide)))]

theorem parsePrimary_call {opening : Token} {args : List AstExpr}
    (hname : token.type = .identifier) (hopening : opening.type = .lparen)
    (hargs : ∀ message, parseArgumentList fuel message ⟨inner, reports⟩ =
      some (.ok args, ⟨rest, reports⟩)) :
    parsePrimary (fuel + 1) ⟨token :: opening :: inner, reports⟩ =
      parsePostfixExpression fuel (.call token.value args (token.value = "Range"))
        ⟨rest, reports⟩ := by
  have heof : token.type ≠ .eof := by rw [hname]; decide
  rw [parsePrimary, run_get_bind, Parser.peek_cons heof]
  dsimp only
  rw [hname]
  dsimp only [literalType]
  rw [bind_of_ok (advance_cons heof), bind_of_ok (matchToken_cons hopening (by decide))]
  dsimp only
  rw [bind_of_ok (hargs _)]

theorem parsePrimary_parentheses {closing : Token}
    (hopening : token.type = .lparen) (hclosing : closing.type = .rparen)
    (hinner : parseBinaryExpression fuel 0 ⟨inner, reports⟩ =
      some (.ok e, ⟨closing :: rest, reports⟩)) :
    parsePrimary (fuel + 1) ⟨token :: inner, reports⟩ =
      parsePostfixExpression fuel e ⟨rest, reports⟩ := by
  have heof : token.type ≠ .eof := by rw [hopening]; decide
  rw [parsePrimary, run_get_bind, Parser.peek_cons heof]
  dsimp only
  rw [hopening]
  dsimp only [literalType]
  rw [bind_of_ok (advance_cons heof), bind_of_ok hinner,
    bind_of_ok (consume_cons hclosing (by decide) _)]

theorem parsePrimary_array (hopening : token.type = .lbracket)
    (harray : parseArrayLiteral fuel ⟨token :: rest, reports⟩ = some (.ok e, ⟨rest', reports⟩)) :
    parsePrimary (fuel + 1) ⟨token :: rest, reports⟩ =
      parsePostfixExpression fuel e ⟨rest', reports⟩ := by
  have heof : token.type ≠ .eof := by rw [hopening]; decide
  rw [parsePrimary, run_get_bind, Parser.peek_cons heof]
  dsimp only
  rw [hopening]
  dsimp only [literalType]
  rw [bind_of_ok harray]

theorem parsePrimary_brace (hopening : token.type = .lbrace)
    (hbrace : parseBraceExpression fuel ⟨token :: rest, reports⟩ = some (.ok e, ⟨rest', reports⟩)) :
    parsePrimary (fuel + 1) ⟨token :: rest, reports⟩ =
      parsePostfixExpression fuel e ⟨rest', reports⟩ := by
  have heof : token.type ≠ .eof := by rw [hopening]; decide
  rw [parsePrimary, run_get_bind, Parser.peek_cons heof]
  dsimp only
  rw [hopening]
  dsimp only [literalType]
  rw [bind_of_ok hbrace]

end Steps

/-- What can follow an expression of a level: something that continues none of its parts, and no operator
that binds closer. -/
def Follows (level : ℕ) (rest : List Token) : Prop :=
  ∃ token tail, rest = token :: tail ∧ token.type ≠ .eof ∧
    token.type ∉ [TokenType.dot, .lbracket, .lparen] ∧
    ∀ precedence, getOperatorPrecedence token.type = some precedence → precedence ≤ level

/-- How a phrase is read, with fuel for its tokens: after an expression of a level the loop of any lower
level goes on, and after what can be followed by a field, a method or an index their loop does. -/
def Reach : Phrase → List Spelling → Prop
  | .level level e, ts => ∀ minPrecedence ≤ level, ∀ tokens rest reports fuel,
      tokens.map Token.spelling = ts → Follows level rest → 6 * ts.length ≤ fuel →
      ∃ fuel', fuel + 1 ≤ fuel' + 6 * ts.length ∧
        parseBinaryExpression fuel minPrecedence ⟨tokens ++ rest, reports⟩ =
          binaryRounds fuel' minPrecedence e ⟨rest, reports⟩
  | .operand e, ts => ∀ tokens rest reports fuel, tokens.map Token.spelling = ts →
      Avoids [.dot, .lbracket, .lparen] rest → 6 * ts.length ≤ fuel + 1 →
      parseUnaryExpression fuel ⟨tokens ++ rest, reports⟩ = some (.ok e, ⟨rest, reports⟩)
  | .receiver e, ts => ∀ tokens rest reports fuel, tokens.map Token.spelling = ts →
      Avoids [.lparen] rest → 6 * ts.length ≤ fuel + 2 →
      ∃ fuel', fuel + 3 ≤ fuel' + 6 * ts.length ∧
        parsePrimary fuel ⟨tokens ++ rest, reports⟩ =
          parsePostfixExpression fuel' e ⟨rest, reports⟩
  | .sequence es, ts => ∀ tokens closing tail reports fuel, tokens.map Token.spelling = ts →
      6 * ts.length + 1 ≤ fuel →
      (closing.type ∈ [TokenType.rparen, .rbrace] →
        parseSequence fuel ⟨tokens ++ closing :: tail, reports⟩ =
          some (.ok es, ⟨closing :: tail, reports⟩)) ∧
      (closing.type = .rbracket → ∀ comma : List Token,
        (comma = [] ∨ ∃ token, comma = [token] ∧ token.type = .comma) →
        parseElements fuel ⟨tokens ++ (comma ++ closing :: tail), reports⟩ =
          some (.ok es, ⟨closing :: tail, reports⟩))
  | .arguments es, ts => ∀ tokens closing tail reports fuel, tokens.map Token.spelling = ts →
      6 * ts.length + 3 ≤ fuel →
      (closing.type ∈ [TokenType.rparen, .rbrace] →
        parseUntil fuel closing.type ⟨tokens ++ closing :: tail, reports⟩ =
          some (.ok es, ⟨closing :: tail, reports⟩)) ∧
      (closing.type = .rbracket → ∀ opening : Token, opening.type = .lbracket →
        parseArrayLiteral fuel ⟨opening :: (tokens ++ closing :: tail), reports⟩ =
          some (.ok (.arrayDef "" es), ⟨tail, reports⟩))
  | .elements es, ts => ∀ tokens (closing : Token) tail reports fuel,
      tokens.map Token.spelling = ts → 6 * ts.length + 3 ≤ fuel →
      closing.type = .rbracket → ∀ opening : Token, opening.type = .lbracket →
        parseArrayLiteral fuel ⟨opening :: (tokens ++ closing :: tail), reports⟩ =
          some (.ok (.arrayDef "" es), ⟨tail, reports⟩)

section Reach

variable {e : AstExpr} {es : List AstExpr} {ts : List Spelling} {tokens rest tail : List Token}
  {closing : Token} {reports : List SyntaxReport} {fuel : ℕ}
variable {kind : TokenType} {name l r : String}

theorem Reach.level_runs (h : Reach (.level 0 e) ts) (htokens : tokens.map Token.spelling = ts)
    (hrest : Follows 0 rest) (hfuel : 6 * ts.length ≤ fuel) :
    parseBinaryExpression fuel 0 ⟨tokens ++ rest, reports⟩ = some (.ok e, ⟨rest, reports⟩) := by
  obtain ⟨fuel', hfuel', hrun⟩ := h 0 le_rfl tokens rest reports fuel htokens hrest hfuel
  obtain ⟨token, tail, rfl, heof, _, hstop⟩ := hrest
  obtain ⟨k, rfl⟩ : ∃ k, fuel' = k + 1 := ⟨fuel' - 1, by omega⟩
  rw [hrun]
  refine binaryRounds_stop heof fun precedence hprecedence => ?_
  exact absurd (hstop precedence hprecedence)
    (Nat.not_le.2 (getOperatorPrecedence_bounds hprecedence).1)

theorem follows_cons {token : Token} (h : token.type ∈ [TokenType.comma, .rparen, .rbracket, .rbrace])
    (tail : List Token) : Follows 0 (token :: tail) := by
  refine ⟨token, tail, rfl, ?_, ?_, fun precedence hprecedence => ?_⟩
  · rintro heof
    rw [heof] at h
    revert h
    decide
  · generalize token.type = kind at h
    revert h
    cases kind <;> decide
  · generalize token.type = kind at h hprecedence
    revert h
    cases kind <;> cases hprecedence <;> decide

theorem Reach.operand_level {level : ℕ} (h : Reach (.operand e) ts) (hts : 0 < ts.length) :
    Reach (.level level e) ts := by
  intro minPrecedence hlevel tokens rest reports fuel htokens hrest hfuel
  obtain ⟨k, rfl⟩ : ∃ k, fuel = k + 1 := ⟨fuel - 1, by omega⟩
  refine ⟨k, by omega, ?_⟩
  obtain ⟨token, tail, rfl, _, havoids, _⟩ := hrest
  rw [parseBinaryExpression]
  exact bind_of_ok (h tokens _ reports k htokens (avoids_cons havoids) (by omega))

/-- The left operand is read, then the loop takes the operator and reads the right one. -/
theorem Reach.binary {level precedence : ℕ} {op : String} {lhs rhs : AstExpr}
    {left right : List Spelling} (hop : getOperatorPrecedence kind = some precedence)
    (hlevel : level ≤ precedence) (hleft : Reach (.level precedence lhs) left)
    (hright : Reach (.level (precedence + 1) rhs) right) :
    Reach (.level level (.binary op lhs rhs)) (left ++ (kind, op) :: right) := by
  intro minPrecedence hmin tokens rest reports fuel htokens hrest hfuel
  obtain ⟨first, more, rfl, hfirst, hmore⟩ := List.map_eq_append_iff.1 htokens
  obtain ⟨token, second, rfl, htoken, hsecond⟩ := List.map_eq_cons_iff.1 hmore
  obtain ⟨rfl, rfl⟩ := Prod.mk.inj htoken
  rw [List.length_append, List.length_cons] at hfuel ⊢
  obtain ⟨next, tail, hnext, heof, havoids, hstop⟩ := hrest
  have hoperator : Follows precedence (token :: (second ++ rest)) := by
    refine ⟨token, _, rfl, ?_, ?_, fun q hq => ?_⟩
    · intro hkind
      rw [hkind] at hop
      cases hop
    · generalize token.type = kind at hop
      cases kind <;> cases hop <;> decide
    · exact (Option.some.inj (hq.symm.trans hop)).le
  obtain ⟨fuel₁, hfuel₁, hrun₁⟩ := hleft minPrecedence (hmin.trans hlevel) first _ reports fuel hfirst
    hoperator (by omega)
  obtain ⟨k, rfl⟩ : ∃ k, fuel₁ = k + 1 := ⟨fuel₁ - 1, by omega⟩
  obtain ⟨fuel₂, hfuel₂, hrun₂⟩ := hright (precedence + 1) le_rfl second rest reports k hsecond
    ⟨next, tail, hnext, heof, havoids, fun q hq => (hstop q hq).trans (by omega)⟩ (by omega)
  obtain ⟨j, rfl⟩ : ∃ j, fuel₂ = j + 1 := ⟨fuel₂ - 1, by omega⟩
  have hstopped : parseBinaryExpression k (precedence + 1) ⟨second ++ rest, reports⟩ =
      some (.ok rhs, ⟨rest, reports⟩) := by
    rw [hrun₂, hnext]
    exact binaryRounds_stop heof fun q hq => Nat.lt_succ_of_le ((hstop q hq).trans hlevel)
  obtain ⟨_, _, hcons, hnotend, _, _⟩ := hoperator
  cases hcons
  refine ⟨k, by omega, ?_⟩
  rw [List.append_assoc, List.cons_append, hrun₁, binaryRounds,
    bind_of_ok (current_of_peek (Parser.peek_cons hnotend)), hop]
  dsimp only
  rw [if_neg (Nat.not_lt.2 (hmin.trans hlevel)), bind_of_ok (advance_cons hnotend),
    bind_of_ok hstopped]

theorem Reach.negative {op : String} (h : Reach (.operand e) ts) :
    Reach (.operand (.unary op e)) ((.minus, op) :: ts) := by
  intro tokens rest reports fuel htokens hrest hfuel
  obtain ⟨token, inner, rfl, htoken, hinner⟩ := List.map_eq_cons_iff.1 htokens
  obtain ⟨hkind, rfl⟩ := Prod.mk.inj htoken
  rw [List.length_cons] at hfuel
  obtain ⟨k, rfl⟩ : ∃ k, fuel = k + 1 := ⟨fuel - 1, by omega⟩
  rw [List.cons_append, parseUnaryExpression, bind_of_ok (matchToken_cons hkind (by decide))]
  dsimp only
  rw [bind_of_ok (h inner rest reports k hinner hrest (by omega))]
  rfl

theorem parseUnaryExpression_of_avoids (h : Avoids [.minus] rest) :
    parseUnaryExpression (fuel + 1) ⟨rest, reports⟩ = parsePrimary fuel ⟨rest, reports⟩ := by
  rw [parseUnaryExpression, bind_of_ok (matchToken_of_not_check (check_of_avoids h (by decide)))]

theorem Reach.literal {literal : BytecodeType} {value : String}
    (h : literalType kind = some literal) :
    Reach (.operand (.literal literal value)) [(kind, value)] := by
  intro tokens rest reports fuel htokens hrest hfuel
  obtain ⟨token, inner, rfl, htoken, hinner⟩ := List.map_eq_cons_iff.1 htokens
  obtain rfl := List.map_eq_nil_iff.1 hinner
  obtain ⟨rfl, rfl⟩ := Prod.mk.inj htoken
  rw [List.length_singleton] at hfuel
  obtain ⟨k, rfl⟩ : ∃ k, fuel = k + 2 := ⟨fuel - 2, by omega⟩
  have hsign : Avoids [.minus] ([token] ++ rest) := by
    refine avoids_cons fun hmem => ?_
    rw [List.mem_singleton.1 hmem] at h
    cases h
  rw [parseUnaryExpression_of_avoids hsign]
  exact parsePrimary_literal h

theorem Begins.avoids {kinds kinds' : List TokenType} (h : Begins kinds ts)
    (htokens : tokens.map Token.spelling = ts) (hdisjoint : ∀ kind ∈ kinds, kind ∉ kinds')
    (more : List Token) : Avoids kinds' (tokens ++ more) := by
  obtain ⟨spelling, spellings, rfl, hspelling⟩ := h
  obtain ⟨token, inner, rfl, rfl, _⟩ := List.map_eq_cons_iff.1 htokens
  exact avoids_cons (hdisjoint _ hspelling)

theorem Reach.receiver (h : Reach (.receiver e) ts) (hbegins : Begins receiverTokens ts) :
    Reach (.operand e) ts := by
  intro tokens rest reports fuel htokens hrest hfuel
  have hts : 0 < ts.length := by
    obtain ⟨_, _, rfl, _⟩ := hbegins
    exact Nat.succ_pos _
  obtain ⟨k, rfl⟩ : ∃ k, fuel = k + 1 := ⟨fuel - 1, by omega⟩
  rw [parseUnaryExpression_of_avoids (hbegins.avoids htokens (by decide) rest)]
  obtain ⟨fuel', hfuel', hrun⟩ := h tokens rest reports k htokens (hrest.mono (by decide)) (by omega)
  obtain ⟨j, rfl⟩ : ∃ j, fuel' = j + 1 := ⟨fuel' - 1, by omega⟩
  rw [hrun]
  exact parsePostfixExpression_stop (hrest.mono (by decide))

theorem Reach.identifier : Reach (.receiver (.identifier name)) [(.identifier, name)] := by
  intro tokens rest reports fuel htokens hrest hfuel
  obtain ⟨token, inner, rfl, htoken, hinner⟩ := List.map_eq_cons_iff.1 htokens
  obtain rfl := List.map_eq_nil_iff.1 hinner
  obtain ⟨hkind, rfl⟩ := Prod.mk.inj htoken
  rw [List.length_singleton] at hfuel ⊢
  obtain ⟨k, rfl⟩ : ∃ k, fuel = k + 1 := ⟨fuel - 1, by omega⟩
  exact ⟨k, by omega, parsePrimary_identifier hkind hrest⟩

theorem exists_of_map_concat {spelling : Spelling}
    (h : tokens.map Token.spelling = ts ++ [spelling]) :
    ∃ inner last, tokens = inner ++ [last] ∧ inner.map Token.spelling = ts ∧
      last.spelling = spelling := by
  obtain ⟨inner, more, rfl, hinner, hmore⟩ := List.map_eq_append_iff.1 h
  obtain ⟨last, none, rfl, hlast, hnone⟩ := List.map_eq_cons_iff.1 hmore
  obtain rfl := List.map_eq_nil_iff.1 hnone
  exact ⟨inner, last, rfl, hinner, hlast⟩

theorem Reach.argumentList (h : Reach (.arguments es) ts) (htokens : tokens.map Token.spelling = ts)
    (hclosing : closing.type = .rparen) (hfuel : 6 * ts.length + 4 ≤ fuel) (message : String) :
    parseArgumentList fuel message ⟨tokens ++ closing :: tail, reports⟩ =
      some (.ok es, ⟨tail, reports⟩) := by
  obtain ⟨k, rfl⟩ : ∃ k, fuel = k + 1 := ⟨fuel - 1, by omega⟩
  have huntil := (h tokens closing tail reports k htokens (by omega)).1 (by rw [hclosing]; decide)
  rw [hclosing] at huntil
  rw [parseArgumentList, bind_of_ok huntil, bind_of_ok (consume_cons hclosing (by decide) _)]
  rfl

theorem Reach.call (h : Reach (.arguments es) ts) :
    Reach (.receiver (.call name es (name = "Range")))
      ((.identifier, name) :: (.lparen, l) :: (ts ++ [(.rparen, r)])) := by
  intro tokens rest reports fuel htokens hrest hfuel
  obtain ⟨token, more, rfl, htoken, hmore⟩ := List.map_eq_cons_iff.1 htokens
  obtain ⟨opening, more, rfl, hopening, hmore⟩ := List.map_eq_cons_iff.1 hmore
  obtain ⟨inner, closing, rfl, hinner, hclosing⟩ := exists_of_map_concat hmore
  obtain ⟨hname, rfl⟩ := Prod.mk.inj htoken
  simp only [List.length_cons, List.length_append, List.length_nil] at hfuel ⊢
  obtain ⟨k, rfl⟩ : ∃ k, fuel = k + 1 := ⟨fuel - 1, by omega⟩
  refine ⟨k, by omega, ?_⟩
  rw [List.cons_append, List.cons_append, List.append_assoc]
  exact parsePrimary_call hname (Prod.mk.inj hopening).1
    (h.argumentList hinner (Prod.mk.inj hclosing).1 (by omega))

theorem Reach.parentheses (h : Reach (.level 0 e) ts) :
    Reach (.receiver e) ((.lparen, l) :: (ts ++ [(.rparen, r)])) := by
  intro tokens rest reports fuel htokens hrest hfuel
  obtain ⟨opening, more, rfl, hopening, hmore⟩ := List.map_eq_cons_iff.1 htokens
  obtain ⟨inner, closing, rfl, hinner, hclosing⟩ := exists_of_map_concat hmore
  have hkind := (Prod.mk.inj hclosing).1
  simp only [List.length_cons, List.length_append, List.length_nil] at hfuel ⊢
  obtain ⟨k, rfl⟩ : ∃ k, fuel = k + 1 := ⟨fuel - 1, by omega⟩
  refine ⟨k, by omega, ?_⟩
  rw [List.cons_append, List.append_assoc]
  exact parsePrimary_parentheses (Prod.mk.inj hopening).1 hkind
    (h.level_runs hinner (follows_cons (by rw [hkind]; decide) rest) (by omega))

theorem Reach.array (h : Reach (.elements es) ts) :
    Reach (.receiver (.arrayDef "" es)) ((.lbracket, l) :: (ts ++ [(.rbracket, r)])) := by
  intro tokens rest reports fuel htokens hrest hfuel
  obtain ⟨opening, more, rfl, hopening, hmore⟩ := List.map_eq_cons_iff.1 htokens
  obtain ⟨inner, closing, rfl, hinner, hclosing⟩ := exists_of_map_concat hmore
  simp only [List.length_cons, List.length_append, List.length_nil] at hfuel ⊢
  obtain ⟨k, rfl⟩ : ∃ k, fuel = k + 1 := ⟨fuel - 1, by omega⟩
  refine ⟨k, by omega, ?_⟩
  rw [List.cons_append, List.append_assoc]
  exact parsePrimary_array (Prod.mk.inj hopening).1 (h inner closing rest reports k hinner (by omega)
    (Prod.mk.inj hclosing).1 opening (Prod.mk.inj hopening).1)

theorem Reach.brace (h : Reach (.arguments es) ts) :
    Reach (.receiver (.brace es)) ((.lbrace, l) :: (ts ++ [(.rbrace, r)])) := by
  intro tokens rest reports fuel htokens hrest hfuel
  obtain ⟨opening, more, rfl, hopening, hmore⟩ := List.map_eq_cons_iff.1 htokens
  obtain ⟨inner, closing, rfl, hinner, hclosing⟩ := exists_of_map_concat hmore
  have hkind := (Prod.mk.inj hclosing).1
  simp only [List.length_cons, List.length_append, List.length_nil] at hfuel ⊢
  obtain ⟨k, rfl⟩ : ∃ k, fuel = k + 2 := ⟨fuel - 2, by omega⟩
  refine ⟨k + 1, by omega, ?_⟩
  have huntil := (h inner closing rest reports k hinner (by omega)).1 (by rw [hkind]; decide)
  rw [hkind] at huntil
  have hbrace : parseBraceExpression (k + 1) ⟨opening :: (inner ++ closing :: rest), reports⟩ =
      some (.ok (.brace es), ⟨rest, reports⟩) := by
    rw [parseBraceExpression, bind_of_ok (consume_cons (Prod.mk.inj hopening).1 (by decide) _),
      bind_of_ok huntil, bind_of_ok (consume_cons hkind (by decide) _)]
    rfl
  rw [List.cons_append, List.append_assoc]
  exact parsePrimary_brace (Prod.mk.inj hopening).1 hbrace

theorem Reach.field {dot : String} (h : Reach (.receiver e) ts) :
    Reach (.receiver (.fieldAccess e name)) (ts ++ [(.dot, dot), (.identifier, name)]) := by
  intro tokens rest reports fuel htokens hrest hfuel
  obtain ⟨inner, more, rfl, hinner, hmore⟩ := List.map_eq_append_iff.1 htokens
  obtain ⟨token, more, rfl, htoken, hmore⟩ := List.map_eq_cons_iff.1 hmore
  obtain ⟨next, more, rfl, hnext, hmore⟩ := List.map_eq_cons_iff.1 hmore
  obtain rfl := List.map_eq_nil_iff.1 hmore
  obtain ⟨hdot, rfl⟩ := Prod.mk.inj htoken
  obtain ⟨hname, rfl⟩ := Prod.mk.inj hnext
  simp only [List.length_cons, List.length_append, List.length_nil] at hfuel ⊢
  rw [List.append_assoc]
  obtain ⟨fuel', hfuel', hrun⟩ := h inner (token :: next :: rest) reports fuel hinner
    (avoids_cons (by rw [hdot]; decide)) (by omega)
  obtain ⟨k, rfl⟩ : ∃ k, fuel' = k + 1 := ⟨fuel' - 1, by omega⟩
  exact ⟨k, by omega, hrun.trans (parsePostfixExpression_field hdot hname hrest)⟩

theorem Reach.method {dot : String} {inner : List Spelling} (h : Reach (.receiver e) ts)
    (hargs : Reach (.arguments es) inner) :
    Reach (.receiver (.methodCall e name es))
      (ts ++ (.dot, dot) :: (.identifier, name) :: (.lparen, l) :: (inner ++ [(.rparen, r)])) := by
  intro tokens rest reports fuel htokens hrest hfuel
  obtain ⟨first, more, rfl, hfirst, hmore⟩ := List.map_eq_append_iff.1 htokens
  obtain ⟨token, more, rfl, htoken, hmore⟩ := List.map_eq_cons_iff.1 hmore
  obtain ⟨next, more, rfl, hnext, hmore⟩ := List.map_eq_cons_iff.1 hmore
  obtain ⟨opening, more, rfl, hopening, hmore⟩ := List.map_eq_cons_iff.1 hmore
  obtain ⟨second, closing, rfl, hsecond, hclosing⟩ := exists_of_map_concat hmore
  obtain ⟨hdot, rfl⟩ := Prod.mk.inj htoken
  obtain ⟨hname, rfl⟩ := Prod.mk.inj hnext
  simp only [List.length_cons, List.length_append, List.length_nil] at hfuel ⊢
  obtain ⟨fuel', hfuel', hrun⟩ := h first (token :: next :: opening :: (second ++ closing :: rest))
    reports fuel hfirst (avoids_cons (by rw [hdot]; decide)) (by omega)
  obtain ⟨k, rfl⟩ : ∃ k, fuel' = k + 1 := ⟨fuel' - 1, by omega⟩
  refine ⟨k, by omega, ?_⟩
  simp only [List.append_assoc, List.cons_append, List.nil_append]
  rw [hrun]
  exact parsePostfixExpression_method hdot hname (Prod.mk.inj hopening).1
    (hargs.argumentList hsecond (Prod.mk.inj hclosing).1 (by omega))

theorem Reach.index {index : AstExpr} {inner : List Spelling}
    (h : Reach (.receiver e) ts) (hindex : Reach (.level 0 index) inner) :
    Reach (.receiver (.indexAccess e index))
      (ts ++ (.lbracket, l) :: (inner ++ [(.rbracket, r)])) := by
  intro tokens rest reports fuel htokens hrest hfuel
  obtain ⟨first, more, rfl, hfirst, hmore⟩ := List.map_eq_append_iff.1 htokens
  obtain ⟨opening, more, rfl, hopening, hmore⟩ := List.map_eq_cons_iff.1 hmore
  obtain ⟨second, closing, rfl, hsecond, hclosing⟩ := exists_of_map_concat hmore
  have hkind := (Prod.mk.inj hopening).1
  have hend := (Prod.mk.inj hclosing).1
  simp only [List.length_cons, List.length_append, List.length_nil] at hfuel ⊢
  obtain ⟨fuel', hfuel', hrun⟩ := h first (opening :: (second ++ closing :: rest)) reports fuel hfirst
    (avoids_cons (by rw [hkind]; decide)) (by omega)
  obtain ⟨k, rfl⟩ : ∃ k, fuel' = k + 1 := ⟨fuel' - 1, by omega⟩
  refine ⟨k, by omega, ?_⟩
  simp only [List.append_assoc, List.cons_append, List.nil_append]
  rw [hrun]
  exact parsePostfixExpression_index hkind hend
    (hindex.level_runs hsecond (follows_cons (by rw [hend]; decide) rest) (by omega))

theorem mem_closers (h : kind ∈ [TokenType.rparen, .rbrace] ∨ kind = .rbracket) :
    kind ∈ [TokenType.comma, .rparen, .rbracket, .rbrace] ∧ kind ∉ [TokenType.comma] ∧ kind ≠ .eof := by
  cases kind <;> revert h <;> decide

theorem Reach.last (h : Reach (.level 0 e) ts) : Reach (.sequence [e]) ts := by
  intro tokens closing tail reports fuel htokens hfuel
  obtain ⟨k, rfl⟩ : ∃ k, fuel = k + 1 := ⟨fuel - 1, by omega⟩
  refine ⟨fun hclosing => ?_, fun hclosing comma hcomma => ?_⟩
  · obtain ⟨hcloser, havoids, _⟩ := mem_closers (.inl hclosing)
    rw [parseSequence, bind_of_ok (h.level_runs htokens (follows_cons hcloser tail) (by omega)),
      bind_of_ok (matchToken_of_not_check (check_of_avoids (avoids_cons havoids) (by decide)))]
    rfl
  · obtain ⟨hcloser, havoids, heof⟩ := mem_closers (.inr hclosing)
    rcases hcomma with rfl | ⟨token, rfl, htoken⟩
    · rw [List.nil_append, parseElements,
        bind_of_ok (h.level_runs htokens (follows_cons hcloser tail) (by omega)),
        bind_of_ok (matchToken_of_not_check (check_of_avoids (avoids_cons havoids) (by decide)))]
      rfl
    · have hfollows : Follows 0 (token :: closing :: tail) :=
        follows_cons (by rw [htoken]; decide) _
      rw [List.singleton_append, parseElements, bind_of_ok (h.level_runs htokens hfollows (by omega)),
        bind_of_ok (matchToken_cons htoken (by decide))]
      dsimp only
      rw [run_get_bind, check_cons hclosing (by decide), Bool.true_or, if_pos rfl]
      rfl

/-- Behind a comma another expression is read where one begins. -/
theorem Reach.more {comma : String} {next : List Spelling} (h : Reach (.level 0 e) ts)
    (hrest : Reach (.sequence es) next)
    (hbegins : Begins (.minus :: (literalTokens ++ receiverTokens)) next) :
    Reach (.sequence (e :: es)) (ts ++ (.comma, comma) :: next) := by
  intro tokens closing tail reports fuel htokens hfuel
  obtain ⟨first, more, rfl, hfirst, hmore⟩ := List.map_eq_append_iff.1 htokens
  obtain ⟨token, second, rfl, htoken, hsecond⟩ := List.map_eq_cons_iff.1 hmore
  have hkind := (Prod.mk.inj htoken).1
  simp only [List.length_cons, List.length_append] at hfuel
  obtain ⟨k, rfl⟩ : ∃ k, fuel = k + 1 := ⟨fuel - 1, by omega⟩
  have hfollows : ∀ more, Follows 0 (token :: more) := follows_cons (by rw [hkind]; decide)
  obtain ⟨hsequence, helements⟩ := hrest second closing tail reports k hsecond (by omega)
  refine ⟨fun hclosing => ?_, fun hclosing sep hsep => ?_⟩
  · rw [List.append_assoc, List.cons_append, parseSequence,
      bind_of_ok (h.level_runs hfirst (hfollows _) (by omega)),
      bind_of_ok (matchToken_cons hkind (by decide))]
    dsimp only
    rw [bind_of_ok (hsequence hclosing)]
    rfl
  · have hgoes := helements hclosing sep hsep
    have havoids : Avoids [.rbracket, .eof] (second ++ (sep ++ closing :: tail)) :=
      hbegins.avoids hsecond (by decide) _
    have hnotend : (⟨second ++ (sep ++ closing :: tail), reports⟩ : Parser).isAtEnd = false := by
      obtain ⟨spelling, spellings, rfl, _⟩ := hbegins
      obtain ⟨next, more, rfl, _, _⟩ := List.map_eq_cons_iff.1 hsecond
      have hnext : next.type ≠ .eof := fun heof => havoids next rfl (by rw [heof]; decide)
      rw [Parser.isAtEnd, List.cons_append, Parser.peek_cons hnext]
      rfl
    rw [List.append_assoc, List.cons_append, parseElements,
      bind_of_ok (h.level_runs hfirst (hfollows _) (by omega)),
      bind_of_ok (matchToken_cons hkind (by decide))]
    dsimp only
    rw [run_get_bind, check_of_avoids havoids (by decide), hnotend, Bool.or_false,
      if_neg Bool.false_ne_true, bind_of_ok hgoes]
    rfl

theorem Reach.empty : Reach (.arguments []) [] := by
  intro tokens closing tail reports fuel htokens hfuel
  obtain rfl := List.map_eq_nil_iff.1 htokens
  obtain ⟨k, rfl⟩ : ∃ k, fuel = k + 1 := ⟨fuel - 1, by omega⟩
  refine ⟨fun hclosing => ?_, fun hclosing opening hopening => ?_⟩
  · rw [List.nil_append, parseUntil, run_get_bind,
      check_cons rfl (mem_closers (.inl hclosing)).2.2, if_pos rfl]
    rfl
  · rw [List.nil_append, parseArrayLiteral, bind_of_ok (consume_cons hopening (by decide) _),
      run_get_bind, check_cons hclosing (by decide), if_pos rfl,
      bind_of_ok (advance_cons (by rw [hclosing]; decide))]
    rfl

/-- The elements of an array literal, also where a comma stands behind them. -/
theorem Reach.array_runs (h : Reach (.sequence es) ts)
    (hbegins : Begins (.minus :: (literalTokens ++ receiverTokens)) ts)
    (htokens : tokens.map Token.spelling = ts) (hfuel : 6 * ts.length + 2 ≤ fuel)
    (hclosing : closing.type = .rbracket) {comma : List Token}
    (hcomma : comma = [] ∨ ∃ token, comma = [token] ∧ token.type = .comma) {opening : Token}
    (hopening : opening.type = .lbracket) :
    parseArrayLiteral fuel ⟨opening :: (tokens ++ (comma ++ closing :: tail)), reports⟩ =
      some (.ok (.arrayDef "" es), ⟨tail, reports⟩) := by
  obtain ⟨k, rfl⟩ : ∃ k, fuel = k + 1 := ⟨fuel - 1, by omega⟩
  have helements := (h tokens closing tail reports k htokens (by omega)).2 hclosing comma hcomma
  have havoids : Avoids [.rbracket] (tokens ++ (comma ++ closing :: tail)) :=
    hbegins.avoids htokens (by decide) _
  rw [parseArrayLiteral, bind_of_ok (consume_cons hopening (by decide) _), run_get_bind,
    check_of_avoids havoids (by decide), if_neg Bool.false_ne_true, bind_of_ok helements,
    bind_of_ok (consume_cons hclosing (by decide) _)]
  rfl

theorem Reach.filled (h : Reach (.sequence es) ts)
    (hbegins : Begins (.minus :: (literalTokens ++ receiverTokens)) ts) :
    Reach (.arguments es) ts := by
  intro tokens closing tail reports fuel htokens hfuel
  refine ⟨fun hclosing => ?_, fun hclosing opening hopening => ?_⟩
  · obtain ⟨k, rfl⟩ : ∃ k, fuel = k + 1 := ⟨fuel - 1, by omega⟩
    have havoids : Avoids [.rparen, .rbrace] (tokens ++ closing :: tail) :=
      hbegins.avoids htokens (by decide) _
    rw [parseUntil, run_get_bind, check_of_avoids havoids hclosing, if_neg Bool.false_ne_true]
    exact (h tokens closing tail reports k htokens (by omega)).1 hclosing
  · exact h.array_runs hbegins htokens (by omega) hclosing (.inl rfl) hopening

theorem Reach.plain (h : Reach (.arguments es) ts) : Reach (.elements es) ts := by
  intro tokens closing tail reports fuel htokens hfuel hclosing opening hopening
  exact (h tokens closing tail reports fuel htokens hfuel).2 hclosing opening hopening

theorem Reach.trailing {comma : String} (h : Reach (.sequence es) ts)
    (hbegins : Begins (.minus :: (literalTokens ++ receiverTokens)) ts) :
    Reach (.elements es) (ts ++ [(.comma, comma)]) := by
  intro tokens closing tail reports fuel htokens hfuel hclosing opening hopening
  obtain ⟨inner, token, rfl, hinner, htoken⟩ := exists_of_map_concat htokens
  rw [List.length_append, List.length_singleton] at hfuel
  rw [List.append_assoc]
  exact h.array_runs hbegins hinner (by omega) hclosing (.inr ⟨token, rfl, (Prod.mk.inj htoken).1⟩)
    hopening

end Reach

/-- **A sentence of the grammar is read as what it stands for.** -/
theorem reach_of_sentence {phrase : Phrase} {ts : List Spelling} (h : Sentence phrase ts) :
    Reach phrase ts := by
  induction h with
  | operand h ih =>
      obtain ⟨_, _, rfl, _⟩ := h.begins rfl
      exact ih.operand_level (Nat.succ_pos _)
  | binary hop hlevel hleft hright ihleft ihright => exact .binary hop hlevel ihleft ihright
  | negative h ih => exact ih.negative
  | literal h => exact .literal h
  | receiver h ih => exact ih.receiver (h.begins rfl)
  | identifier => exact .identifier
  | call h ih => exact ih.call
  | parentheses h ih => exact ih.parentheses
  | array h ih => exact ih.array
  | brace h ih => exact ih.brace
  | field h ih => exact ih.field
  | method h hargs ih ihargs => exact ih.method ihargs
  | index h hindex ih ihindex => exact ih.index ihindex
  | last h ih => exact ih.last
  | more h hrest ih ihrest => exact ih.more ihrest (hrest.begins rfl)
  | empty => exact .empty
  | filled h ih => exact ih.filled (h.begins rfl)
  | plain h ih => exact ih.plain
  | trailing h ih => exact ih.trailing (h.begins rfl)

/-! ### The parser of expressions -/

/-- A token that can continue an expression: a field, an index, arguments or a binary operator. -/
def continuesExpression (kind : TokenType) : Bool :=
  [TokenType.dot, .lbracket, .lparen].contains kind || (getOperatorPrecedence kind).isSome

theorem follows_of_not_continues {token : Token} {rest : List Token} (heof : token.type ≠ .eof)
    (h : continuesExpression token.type = false) : Follows 0 (token :: rest) := by
  obtain ⟨havoids, hoperator⟩ := Bool.or_eq_false_iff.1 h
  refine ⟨token, rest, rfl, heof, fun hmem => ?_, fun precedence hprecedence => ?_⟩
  · rw [List.contains_iff_mem.2 hmem] at havoids
    cases havoids
  · rw [hprecedence] at hoperator
    cases hoperator

/-- **A sentence of the grammar is read** as what it stands for, before anything that does not continue
it. -/
theorem runs_parseExpression {e : AstExpr} {ts rest : List Token} {token : Token}
    {reports : List SyntaxReport} (h : Sentence (.level 0 e) (ts.map Token.spelling))
    (heof : token.type ≠ .eof) (hcontinues : continuesExpression token.type = false) :
    parseExpression ⟨ts ++ token :: rest, reports⟩ = some (.ok e, ⟨token :: rest, reports⟩) := by
  unfold parseExpression
  rw [run_get_bind]
  refine (reach_of_sentence h).level_runs rfl (follows_of_not_continues heof hcontinues) ?_
  rw [List.length_map, List.length_append]
  omega

end AtomicProof
