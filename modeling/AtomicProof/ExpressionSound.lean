/-
What the parser of expressions reads.

A run of the parser that yields a result and reports nothing has read a sentence of the grammar that stands
for the result.  The loop for binary operators extends a left operand of any level that the next operator
does not exceed, and stops before an operator that its caller takes; this is why the operands have the
levels that the grammar asks for.

Main definitions:

* `Reads` — what a computation reads, where it reports nothing;
* `Spans`, `Extends`, `Chains` — what the functions read.

Main results:

* `reads_parseBinaryExpression`, `reads_parsePrimary` — the functions of the descent;
* `parseExpression_inverts_render` — **the parser inverts printing**.
-/

import AtomicProof.ExpressionReading

set_option autoImplicit false

namespace AtomicProof

open AtomicProof.Computation

/-! ### What is read is a sentence -/

theorem tokens_of_consume {kind : TokenType} {message : String} {token : Token} {s s' : Parser}
    (h : consume kind message s = some (.ok token, s')) :
    ∃ rest, s.tokens = token :: rest ∧ token.type = kind ∧ s' = ⟨rest, s.reports⟩ := by
  unfold consume at h
  cases hcheck : s.check kind with
  | true =>
      obtain ⟨first, rest, htokens, hkind, _, hmatch⟩ := matchToken_of_check hcheck
      rw [bind_of_ok hmatch] at h
      cases h
      exact ⟨rest, htokens, hkind, rfl⟩
  | false =>
      rw [bind_of_ok (matchToken_of_not_check hcheck)] at h
      cases h

/-- What a computation reads from some tokens: the result and the tokens that are left, where it reports
nothing. -/
def Reads {α : Type} (before : List Token) (m : Parsing α) (T : α → List Token → Prop) : Prop :=
  ∀ s a s', s.tokens = before → m s = some (.ok a, s') → s.reports.length ≤ s'.reports.length ∧
    (s'.reports.length = s.reports.length → T a s'.tokens)

namespace Reads

variable {α β : Type} {before rest : List Token} {m : Parsing α} {Q : α → List Token → Prop}
  {T : β → List Token → Prop} {kind : TokenType} {token : Token}

theorem pure {b : β} (h : T b before) : Reads before (Pure.pure b) T := by
  rintro s b' s' rfl hrun
  cases hrun
  exact ⟨le_rfl, fun _ => h⟩

theorem none : Reads before (ofOption none : Parsing β) T := by
  rintro s b s' rfl hrun
  cases hrun

theorem imp (h : Reads before m Q) {Q' : α → List Token → Prop} (himp : ∀ a rest, Q a rest → Q' a rest) :
    Reads before m Q' := by
  intro s a s' hs hrun
  obtain ⟨hle, hreads⟩ := h s a s' hs hrun
  exact ⟨hle, fun heq => himp _ _ (hreads heq)⟩

theorem bind {f : α → Parsing β} (hm : Reads before m Q)
    (hf : ∀ a mid, Reads mid (f a) fun b rest => Q a mid → T b rest) : Reads before (m >>= f) T := by
  intro s b s' hs hrun
  obtain ⟨a, mid, hfirst, hrest⟩ := exists_of_bind hrun
  obtain ⟨hle, hreads⟩ := hm s a mid hs hfirst
  obtain ⟨hle', hreads'⟩ := hf a mid.tokens mid b s' rfl hrest
  exact ⟨hle.trans hle', fun heq => hreads' (by omega) (hreads (by omega))⟩

theorem get_bind {f : Parser → Parsing β} (h : ∀ s, s.tokens = before → Reads before (f s) T) :
    Reads before (get >>= f) T :=
  fun s b s' hs hrun => h s hs s b s' hs hrun

theorem matchToken_bind {f : Option Token → Parsing β}
    (hsome : ∀ token rest, before = token :: rest → token.type = kind →
      Reads rest (f (some token)) T) (hnone : Reads before (f Option.none) T) :
    Reads before (matchToken kind >>= f) T := by
  intro s b s' hs hrun
  cases hcheck : s.check kind with
  | true =>
      obtain ⟨token, rest, htokens, hkind, _, hmatch⟩ := matchToken_of_check hcheck
      rw [bind_of_ok hmatch] at hrun
      have hreads := hsome token rest (hs.symm.trans htokens) hkind _ b s' rfl hrun
      exact hreads
  | false =>
      rw [bind_of_ok (matchToken_of_not_check hcheck)] at hrun
      exact hnone s b s' hs hrun

theorem consume_bind {f : Token → Parsing β} {message : String}
    (h : ∀ token rest, before = token :: rest → token.type = kind → Reads rest (f token) T) :
    Reads before (consume kind message >>= f) T := by
  intro s b s' hs hrun
  obtain ⟨token, mid, hfirst, hrest⟩ := exists_of_bind hrun
  obtain ⟨rest, htokens, hkind, rfl⟩ := tokens_of_consume hfirst
  have hreads := h token rest (hs.symm.trans htokens) hkind _ b s' rfl hrest
  exact hreads

theorem unexpected {T : AstExpr → List Token → Prop} : Reads before unexpectedToken T := by
  rintro s e s' rfl hrun
  obtain ⟨token, mid, hcurrent, hrest⟩ := exists_of_bind hrun
  obtain ⟨_, rfl⟩ := peek_of_current hcurrent
  cases hrest
  refine ⟨by simp [Parser.report], fun heq => ?_⟩
  simp [Parser.report] at heq

theorem current_bind {f : Token → Parsing β}
    (h : ∀ token rest, before = token :: rest → token.type ≠ .eof → Reads before (f token) T) :
    Reads before (current >>= f) T := by
  intro s b s' hs hrun
  obtain ⟨token, mid, hfirst, hrest⟩ := exists_of_bind hrun
  obtain ⟨hpeek, rfl⟩ := peek_of_current hfirst
  obtain ⟨rest, htokens, heof⟩ := Parser.peek_eq_some_iff.1 hpeek
  exact h token rest (hs.symm.trans htokens) heof _ b s' hs hrest

theorem advance_bind {f : Unit → Parsing β} (heof : token.type ≠ .eof) (h : Reads rest (f ()) T) :
    Reads (token :: rest) (advance >>= f) T := by
  intro s b s' hs hrun
  obtain ⟨tokens, reports⟩ := s
  obtain rfl : tokens = token :: rest := hs
  rw [bind_of_ok (advance_cons heof)] at hrun
  have hreads := h _ b s' rfl hrun
  exact hreads

end Reads

/-! #### What the functions read -/

def Spans {α : Type} (phrase : α → Phrase) (before : List Token) (a : α) (rest : List Token) : Prop :=
  ∃ tokens, before = tokens ++ rest ∧ Sentence (phrase a) (tokens.map Token.spelling)

/-- No operator of a precedence or of a higher one comes next. -/
def StopsBelow (minPrecedence : ℕ) (rest : List Token) : Prop :=
  ∃ token tail, rest = token :: tail ∧
    ∀ precedence, getOperatorPrecedence token.type = some precedence → precedence < minPrecedence

/-- A left operand is extended, of any level that the next operator does not exceed. -/
def Extends (minPrecedence : ℕ) (left : AstExpr) (before : List Token) (e : AstExpr)
    (rest : List Token) : Prop :=
  ∀ level read, minPrecedence ≤ level →
    (∀ token ∈ before.head?, ∀ precedence, getOperatorPrecedence token.type = some precedence →
      precedence ≤ level) →
    Sentence (.level level left) read →
    ∃ tokens, before = tokens ++ rest ∧
      Sentence (.level minPrecedence e) (read ++ tokens.map Token.spelling) ∧
      StopsBelow minPrecedence rest

/-- Fields, methods and indices are read behind what they can follow. -/
def Chains (receiver : AstExpr) (before : List Token) (e : AstExpr) (rest : List Token) : Prop :=
  ∀ read, Sentence (.receiver receiver) read →
    ∃ tokens, before = tokens ++ rest ∧ Sentence (.receiver e) (read ++ tokens.map Token.spelling)

/-- Arguments are read with the token that closes them. -/
def Closes (closing : TokenType) (before : List Token) (es : List AstExpr) (rest : List Token) :
    Prop :=
  ∃ token, token.type = closing ∧ Spans Phrase.arguments before es (token :: rest)

/-- The elements of an array literal are read, with a comma behind the last one or not. -/
def Lists (before : List Token) (es : List AstExpr) (rest : List Token) : Prop :=
  ∃ tokens comma, before = tokens ++ (comma ++ rest) ∧
    Sentence (.sequence es) (tokens.map Token.spelling) ∧
    (comma = [] ∨ ∃ token, comma = [token] ∧ token.type = .comma)

section Functions

variable {e left right : AstExpr} {es : List AstExpr} {before mid rest : List Token} {token : Token}
  {minPrecedence precedence : ℕ}

theorem Token.spelling_of_type {kind : TokenType} (h : token.type = kind) :
    token.spelling = (kind, token.value) := by
  rw [← h]
  rfl

theorem Extends.stop (h : ∀ precedence, getOperatorPrecedence token.type = some precedence →
    precedence < minPrecedence) : Extends minPrecedence left (token :: rest) left (token :: rest) := by
  intro level read hlevel _ hleft
  refine ⟨[], rfl, ?_, token, rest, rfl, h⟩
  rw [List.map_nil, List.append_nil]
  exact hleft.lower hlevel

/-- The loop goes on behind a right operand. -/
theorem Extends.round (hop : getOperatorPrecedence token.type = some precedence)
    (hmin : minPrecedence ≤ precedence) (hright : Spans (Phrase.level (precedence + 1)) before right mid)
    (hstop : StopsBelow (precedence + 1) mid)
    (h : Extends minPrecedence (.binary token.value left right) mid e rest) :
    Extends minPrecedence left (token :: before) e rest := by
  intro level read hlevel hnext hleft
  obtain ⟨tokens, rfl, hright⟩ := hright
  obtain ⟨next, tail, rfl, hbelow⟩ := hstop
  have hprecedence : precedence ≤ level := hnext token rfl precedence hop
  obtain ⟨more, hmore, hsentence, hstops⟩ := h precedence _ hmin
    (fun first hfirst q hq => by
      cases hfirst
      exact Nat.le_of_lt_succ (hbelow q hq))
    (.binary hop le_rfl (hleft.lower hprecedence) hright)
  refine ⟨token :: (tokens ++ more), ?_, ?_, hstops⟩
  · rw [hmore, List.cons_append, List.append_assoc]
  · rw [List.map_cons, List.map_append]
    rwa [List.append_assoc, List.cons_append] at hsentence

theorem Extends.level (hleft : Spans Phrase.operand before left mid)
    (h : Extends minPrecedence left mid e rest) :
    Spans (Phrase.level minPrecedence) before e rest ∧ StopsBelow minPrecedence rest := by
  obtain ⟨tokens, rfl, hleft⟩ := hleft
  obtain ⟨more, rfl, hsentence, hstops⟩ := h (max 4 minPrecedence) _ (le_max_right _ _)
    (fun first hfirst q hq => (getOperatorPrecedence_bounds hq).2.trans (le_max_left _ _))
    (.operand hleft)
  refine ⟨⟨tokens ++ more, (List.append_assoc _ _ _).symm, ?_⟩, hstops⟩
  rw [List.map_append]
  exact hsentence

theorem Chains.operand (hreceiver : Spans Phrase.receiver before left mid)
    (h : Chains left mid e rest) : Spans Phrase.operand before e rest := by
  obtain ⟨tokens, rfl, hreceiver⟩ := hreceiver
  obtain ⟨more, rfl, hsentence⟩ := h _ hreceiver
  refine ⟨tokens ++ more, (List.append_assoc _ _ _).symm, .receiver ?_⟩
  rw [List.map_append]
  exact hsentence

theorem Chains.stop : Chains e rest e rest := by
  intro read hread
  refine ⟨[], rfl, ?_⟩
  rw [List.map_nil, List.append_nil]
  exact hread

theorem Chains.step {tokens : List Token}
    (hstep : ∀ read, Sentence (.receiver left) read →
      Sentence (.receiver right) (read ++ tokens.map Token.spelling))
    (h : Chains right mid e rest) : Chains left (tokens ++ mid) e rest := by
  intro read hread
  obtain ⟨more, rfl, hsentence⟩ := h _ (hstep read hread)
  refine ⟨tokens ++ more, (List.append_assoc _ _ _).symm, ?_⟩
  rw [List.map_append]
  rwa [List.append_assoc] at hsentence

end Functions

mutual

theorem reads_parseBinaryExpression (fuel minPrecedence : ℕ) (before : List Token) :
    Reads before (parseBinaryExpression fuel minPrecedence) fun e rest =>
      Spans (Phrase.level minPrecedence) before e rest ∧ StopsBelow minPrecedence rest := by
  cases fuel with
  | zero => exact .none
  | succ fuel =>
      rw [parseBinaryExpression]
      refine (reads_parseUnaryExpression fuel before).bind fun left mid => ?_
      refine (reads_binaryRounds fuel minPrecedence left mid).imp fun e rest hextends hleft => ?_
      exact hextends.level hleft

theorem reads_binaryRounds (fuel minPrecedence : ℕ) (left : AstExpr) (before : List Token) :
    Reads before (binaryRounds fuel minPrecedence left) (Extends minPrecedence left before) := by
  cases fuel with
  | zero => exact .none
  | succ fuel =>
      rw [binaryRounds]
      refine .current_bind fun token rest hbefore heof => ?_
      subst hbefore
      cases hop : getOperatorPrecedence token.type with
      | none =>
          refine .pure (.stop fun precedence hprecedence => ?_)
          rw [hop] at hprecedence
          cases hprecedence
      | some precedence =>
          dsimp only
          split_ifs with hless
          · refine .pure (.stop fun q hq => ?_)
            obtain rfl := Option.some.inj (hop.symm.trans hq)
            exact hless
          · refine .advance_bind heof ?_
            refine (reads_parseBinaryExpression fuel (precedence + 1) rest).bind fun right mid => ?_
            refine (reads_binaryRounds fuel minPrecedence _ mid).imp fun e rest hextends hright => ?_
            exact .round hop (Nat.not_lt.1 hless) hright.1 hright.2 hextends

theorem reads_parseUnaryExpression (fuel : ℕ) (before : List Token) :
    Reads before (parseUnaryExpression fuel) (Spans Phrase.operand before) := by
  cases fuel with
  | zero => exact .none
  | succ fuel =>
      rw [parseUnaryExpression]
      refine .matchToken_bind (fun token rest hbefore hkind => ?_) (reads_parsePrimary fuel before)
      refine (reads_parseUnaryExpression fuel rest).bind fun e mid => .pure ?_
      rintro ⟨tokens, rfl, hoperand⟩
      refine ⟨token :: tokens, hbefore, ?_⟩
      rw [List.map_cons, Token.spelling_of_type hkind]
      exact .negative hoperand

theorem reads_parsePrimary (fuel : ℕ) (before : List Token) :
    Reads before (parsePrimary fuel) (Spans Phrase.operand before) := by
  cases fuel with
  | zero => exact .none
  | succ fuel =>
      rw [parsePrimary]
      refine .get_bind fun s hs => ?_
      cases hpeek : s.peek with
      | none => exact .unexpected
      | some token =>
          obtain ⟨rest, htokens, heof⟩ := Parser.peek_eq_some_iff.1 hpeek
          obtain rfl : before = token :: rest := hs.symm.trans htokens
          dsimp only
          cases hliteral : literalType token.type with
          | some literal =>
              exact .advance_bind heof (.pure ⟨[token], rfl, .literal hliteral⟩)
          | none =>
              dsimp only
              split
              · rename_i hname
                -- a name is a call when an opening bracket follows
                refine .advance_bind heof (.matchToken_bind (fun opening inner hrest hopening => ?_) ?_)
                · refine (reads_parseArgumentList fuel _ inner).bind fun args mid => ?_
                  refine (reads_parsePostfixExpression fuel _ mid).imp fun e rest hchains hargs => ?_
                  obtain ⟨closing, hclosing, tokens, rfl, harguments⟩ := hargs
                  refine hchains.operand ⟨token :: opening :: (tokens ++ [closing]), ?_, ?_⟩
                  · rw [hrest, List.cons_append, List.cons_append, List.append_assoc]
                    rfl
                  · rw [List.map_cons, List.map_cons, List.map_append, List.map_singleton,
                      Token.spelling_of_type hname, Token.spelling_of_type hopening,
                      Token.spelling_of_type hclosing]
                    exact .call harguments
                · refine (reads_parsePostfixExpression fuel _ rest).imp fun e rest hchains => ?_
                  refine hchains.operand ⟨[token], rfl, ?_⟩
                  rw [List.map_singleton, Token.spelling_of_type hname]
                  exact .identifier
              · rename_i hopening
                refine .advance_bind heof ?_
                refine (reads_parseBinaryExpression fuel 0 rest).bind fun inner mid => ?_
                refine .consume_bind fun closing after hmid hclosing => ?_
                refine (reads_parsePostfixExpression fuel inner after).imp
                  fun e rest hchains hinner => ?_
                obtain ⟨⟨tokens, rfl, hsentence⟩, _⟩ := hinner
                refine hchains.operand ⟨token :: (tokens ++ [closing]), ?_, ?_⟩
                · rw [hmid, List.cons_append, List.append_assoc]
                  rfl
                · rw [List.map_cons, List.map_append, List.map_singleton,
                    Token.spelling_of_type hopening, Token.spelling_of_type hclosing]
                  exact .parentheses hsentence
              · refine (reads_parseArrayLiteral fuel _).bind fun array mid => ?_
                exact (reads_parsePostfixExpression fuel array mid).imp
                  fun e rest hchains harray => hchains.operand harray
              · refine (reads_parseBraceExpression fuel _).bind fun brace mid => ?_
                exact (reads_parsePostfixExpression fuel brace mid).imp
                  fun e rest hchains hbrace => hchains.operand hbrace
              · exact .unexpected

theorem reads_parsePostfixExpression (fuel : ℕ) (receiver : AstExpr) (before : List Token) :
    Reads before (parsePostfixExpression fuel receiver) (Chains receiver before) := by
  cases fuel with
  | zero => exact .none
  | succ fuel =>
      rw [parsePostfixExpression]
      refine .matchToken_bind (fun dot rest hbefore hdot => ?_) ?_
      · refine .consume_bind fun name rest' hrest hname => ?_
        refine .matchToken_bind (fun opening inner hrest' hopening => ?_) ?_
        · refine (reads_parseArgumentList fuel _ inner).bind fun args mid => ?_
          refine (reads_parsePostfixExpression fuel _ mid).imp fun e rest hchains hargs => ?_
          obtain ⟨closing, hclosing, tokens, rfl, harguments⟩ := hargs
          have htokens : before = (dot :: name :: opening :: (tokens ++ [closing])) ++ mid := by
            rw [hbefore, hrest, hrest']
            simp
          rw [htokens]
          refine Chains.step (fun read hread => ?_) hchains
          simp only [List.map_cons, List.map_append, List.map_nil]
          rw [Token.spelling_of_type hdot, Token.spelling_of_type hname,
            Token.spelling_of_type hopening, Token.spelling_of_type hclosing]
          exact .method hread harguments
        · refine (reads_parsePostfixExpression fuel _ rest').imp fun e rest hchains => ?_
          have htokens : before = [dot, name] ++ rest' := by
            rw [hbefore, hrest]
            rfl
          rw [htokens]
          refine Chains.step (fun read hread => ?_) hchains
          simp only [List.map_cons, List.map_nil]
          rw [Token.spelling_of_type hdot, Token.spelling_of_type hname]
          exact .field hread
      · refine .matchToken_bind (fun opening inner hbefore hopening => ?_) (.pure .stop)
        refine (reads_parseBinaryExpression fuel 0 inner).bind fun index mid => ?_
        refine .consume_bind fun closing after hmid hclosing => ?_
        refine (reads_parsePostfixExpression fuel _ after).imp fun e rest hchains hindex => ?_
        obtain ⟨⟨tokens, rfl, hsentence⟩, _⟩ := hindex
        have htokens : before = (opening :: (tokens ++ [closing])) ++ after := by
          rw [hbefore, hmid]
          simp
        rw [htokens]
        refine Chains.step (fun read hread => ?_) hchains
        simp only [List.map_cons, List.map_append, List.map_nil]
        rw [Token.spelling_of_type hopening, Token.spelling_of_type hclosing]
        exact .index hread hsentence

theorem reads_parseArgumentList (fuel : ℕ) (message : String) (before : List Token) :
    Reads before (parseArgumentList fuel message) (Closes .rparen before) := by
  cases fuel with
  | zero => exact .none
  | succ fuel =>
      rw [parseArgumentList]
      refine (reads_parseUntil fuel .rparen before).bind fun args mid => ?_
      refine .consume_bind fun closing rest hmid hclosing => .pure fun hargs => ?_
      rw [hmid] at hargs
      exact ⟨closing, hclosing, hargs⟩

theorem reads_parseUntil (fuel : ℕ) (closing : TokenType) (before : List Token) :
    Reads before (parseUntil fuel closing) (Spans Phrase.arguments before) := by
  cases fuel with
  | zero => exact .none
  | succ fuel =>
      rw [parseUntil]
      refine .get_bind fun s hs => ?_
      split_ifs
      · exact .pure ⟨[], rfl, .empty⟩
      · refine (reads_parseSequence fuel before).imp fun es rest hsequence => ?_
        obtain ⟨tokens, rfl, hsequence⟩ := hsequence
        exact ⟨tokens, rfl, .filled hsequence⟩

theorem reads_parseSequence (fuel : ℕ) (before : List Token) :
    Reads before (parseSequence fuel) (Spans Phrase.sequence before) := by
  cases fuel with
  | zero => exact .none
  | succ fuel =>
      rw [parseSequence]
      refine (reads_parseBinaryExpression fuel 0 before).bind fun e mid => ?_
      refine .matchToken_bind (fun comma inner hmid hcomma => ?_) (.pure fun hfirst => ?_)
      · refine (reads_parseSequence fuel inner).bind fun es after => .pure fun hrest hfirst => ?_
        obtain ⟨⟨tokens, rfl, hsentence⟩, _⟩ := hfirst
        obtain ⟨more, rfl, hsequence⟩ := hrest
        refine ⟨tokens ++ comma :: more, ?_, ?_⟩
        · rw [hmid, List.append_assoc, List.cons_append]
        · rw [List.map_append, List.map_cons, Token.spelling_of_type hcomma]
          exact .more hsentence hsequence
      · obtain ⟨⟨tokens, rfl, hsentence⟩, _⟩ := hfirst
        exact ⟨tokens, rfl, .last hsentence⟩

theorem reads_parseArrayLiteral (fuel : ℕ) (before : List Token) :
    Reads before (parseArrayLiteral fuel) (Spans Phrase.receiver before) := by
  cases fuel with
  | zero => exact .none
  | succ fuel =>
      rw [parseArrayLiteral]
      refine .consume_bind fun opening inner hbefore hopening => .get_bind fun s hs => ?_
      split_ifs with hempty
      · obtain ⟨closing, rest, htokens, hclosing, hkind, _⟩ := matchToken_of_check hempty
        obtain rfl : inner = closing :: rest := hs.symm.trans htokens
        refine .advance_bind (by rwa [hclosing]) (.pure ⟨[opening, closing], hbefore, ?_⟩)
        rw [List.map_cons, List.map_singleton, Token.spelling_of_type hopening,
          Token.spelling_of_type hclosing]
        exact .array (.plain .empty)
      · refine (reads_parseElements fuel inner).bind fun es mid => ?_
        refine .consume_bind fun closing rest hmid hclosing => .pure fun helements => ?_
        obtain ⟨tokens, comma, rfl, hsequence, hcomma⟩ := helements
        refine ⟨opening :: (tokens ++ (comma ++ [closing])), ?_, ?_⟩
        · rw [hbefore, hmid]
          simp
        · rw [List.map_cons, ← List.append_assoc, List.map_append, List.map_singleton,
            Token.spelling_of_type hopening, Token.spelling_of_type hclosing]
          refine .array ?_
          rw [List.map_append]
          rcases hcomma with rfl | ⟨token, rfl, htoken⟩
          · rw [List.map_nil, List.append_nil]
            exact .plain (.filled hsequence)
          · rw [List.map_singleton, Token.spelling_of_type htoken]
            exact .trailing hsequence

theorem reads_parseElements (fuel : ℕ) (before : List Token) :
    Reads before (parseElements fuel) (Lists before) := by
  cases fuel with
  | zero => exact .none
  | succ fuel =>
      rw [parseElements]
      refine (reads_parseBinaryExpression fuel 0 before).bind fun e mid => ?_
      refine .matchToken_bind (fun token inner hmid hcomma => .get_bind fun s hs => ?_)
        (.pure fun hfirst => ?_)
      · split_ifs
        · refine .pure fun hfirst => ?_
          obtain ⟨⟨tokens, rfl, hsentence⟩, _⟩ := hfirst
          exact ⟨tokens, [token], by rw [hmid]; rfl, .last hsentence, .inr ⟨token, rfl, hcomma⟩⟩
        · refine (reads_parseElements fuel inner).bind fun es after => .pure fun hrest hfirst => ?_
          obtain ⟨⟨tokens, rfl, hsentence⟩, _⟩ := hfirst
          obtain ⟨more, comma, rfl, hsequence, hend⟩ := hrest
          refine ⟨tokens ++ token :: more, comma, ?_, ?_, hend⟩
          · rw [hmid, List.append_assoc, List.cons_append]
          · rw [List.map_append, List.map_cons, Token.spelling_of_type hcomma]
            exact .more hsentence hsequence
      · obtain ⟨⟨tokens, rfl, hsentence⟩, _⟩ := hfirst
        exact ⟨tokens, [], rfl, .last hsentence, .inl rfl⟩

theorem reads_parseBraceExpression (fuel : ℕ) (before : List Token) :
    Reads before (parseBraceExpression fuel) (Spans Phrase.receiver before) := by
  cases fuel with
  | zero => exact .none
  | succ fuel =>
      rw [parseBraceExpression]
      refine .consume_bind fun opening inner hbefore hopening => ?_
      refine (reads_parseUntil fuel .rbrace inner).bind fun es mid => ?_
      refine .consume_bind fun closing rest hmid hclosing => .pure fun helements => ?_
      obtain ⟨tokens, rfl, harguments⟩ := helements
      refine ⟨opening :: (tokens ++ [closing]), ?_, ?_⟩
      · rw [hbefore, hmid]
        simp
      · rw [List.map_cons, List.map_append, List.map_singleton, Token.spelling_of_type hopening,
          Token.spelling_of_type hclosing]
        exact .brace harguments

end

/-! ### Printing and parsing -/

/-- **What is read without a report is a sentence.** -/
theorem reads_parseExpression (before : List Token) :
    Reads before parseExpression (Spans (Phrase.level 0) before) :=
  .get_bind fun _ _ => (reads_parseBinaryExpression _ 0 before).imp fun _ _ h => h.1

/-- **The parser inverts printing.**  Tokens that are spelled as a printed expression are read as that
expression, and no others with them, before any token but the end that cannot continue it.  There always is
a result or an error, and a result without a new report was read from a sentence of the grammar that
stands for it. -/
theorem parseExpression_inverts_render :
    (∀ e printed ts token rest reports, render 0 e = some printed →
      ts.map Token.spelling = printed → token.type ≠ .eof → continuesExpression token.type = false →
      parseExpression ⟨ts ++ token :: rest, reports⟩ = some (.ok e, ⟨token :: rest, reports⟩)) ∧
    (∀ s, (parseExpression s).isSome = true) ∧
    ∀ s e s', parseExpression s = some (.ok e, s') → s'.reports = s.reports →
      ∃ ts, s.tokens = ts ++ s'.tokens ∧ Sentence (.level 0 e) (ts.map Token.spelling) := by
  refine ⟨?_, isSome_parseExpression, ?_⟩
  · intro e printed ts token rest reports hrender hts heof hcontinues
    subst hts
    exact runs_parseExpression (sentence_render e 0 _ hrender) heof hcontinues
  · intro s e s' hrun hreports
    exact (reads_parseExpression s.tokens s e s' rfl hrun).2 (congrArg List.length hreports)

def tokenAt (spelling : Spelling) : Token := ⟨spelling.1, spelling.2, ⟨1, 1, "", 0, 0, false⟩, 0⟩

/-- `-(a - (b - 1)).f == g[0]`, before the end of its line. -/
theorem parseExpression_inverts_render_line :
    parseExpression ⟨[tokenAt (.minus, "-"), tokenAt (.lparen, "("), tokenAt (.identifier, "a"),
      tokenAt (.minus, "-"), tokenAt (.lparen, "("), tokenAt (.identifier, "b"),
      tokenAt (.minus, "-"), tokenAt (.number, "1"), tokenAt (.rparen, ")"), tokenAt (.rparen, ")"),
      tokenAt (.dot, "."), tokenAt (.identifier, "f"), tokenAt (.equal, "=="),
      tokenAt (.identifier, "g"), tokenAt (.lbracket, "["), tokenAt (.number, "0"),
      tokenAt (.rbracket, "]"), tokenAt (.newline, "")], []⟩ =
      some (.ok (.binary "==" (.unary "-" (.fieldAccess (.binary "-" (.identifier "a")
          (.binary "-" (.identifier "b") (.literal .number "1"))) "f"))
        (.indexAccess (.identifier "g") (.literal .number "0"))), ⟨[tokenAt (.newline, "")], []⟩) :=
  parseExpression_inverts_render.1 _ [(.minus, "-"), (.lparen, "("), (.identifier, "a"), (.minus, "-"),
    (.lparen, "("), (.identifier, "b"), (.minus, "-"), (.number, "1"), (.rparen, ")"), (.rparen, ")"),
    (.dot, "."), (.identifier, "f"), (.equal, "=="), (.identifier, "g"), (.lbracket, "["),
    (.number, "0"), (.rbracket, "]")]
    [tokenAt (.minus, "-"), tokenAt (.lparen, "("), tokenAt (.identifier, "a"),
      tokenAt (.minus, "-"), tokenAt (.lparen, "("), tokenAt (.identifier, "b"),
      tokenAt (.minus, "-"), tokenAt (.number, "1"), tokenAt (.rparen, ")"), tokenAt (.rparen, ")"),
      tokenAt (.dot, "."), tokenAt (.identifier, "f"), tokenAt (.equal, "=="),
      tokenAt (.identifier, "g"), tokenAt (.lbracket, "["), tokenAt (.number, "0"),
      tokenAt (.rbracket, "]")]
    (tokenAt (.newline, "")) [] [] rfl rfl (by decide) (by decide)

/-- **The end is no token that an expression can stand before**, and a literal is not read with what
follows it: a number at the end of the input is an error, and `"abc".Size` is read as the literal. -/
theorem not_parseExpression_inverts_render :
    (render 0 (.literal .number "1") = some [(.number, "1")] ∧ continuesExpression .eof = false ∧
      ∃ s', parseExpression ⟨[tokenAt (.number, "1"), tokenAt (.eof, "")], []⟩ =
        some (.error "Unexpected end of input", s')) ∧
    parseExpression ⟨[tokenAt (.string, "abc"), tokenAt (.dot, "."), tokenAt (.identifier, "Size"),
      tokenAt (.newline, "")], []⟩ =
      some (.ok (.literal .string "abc"), ⟨[tokenAt (.dot, "."), tokenAt (.identifier, "Size"),
        tokenAt (.newline, "")], []⟩) :=
  ⟨⟨rfl, rfl, _, rfl⟩, rfl⟩

end AtomicProof
