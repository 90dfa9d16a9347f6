/-
**What the tokens of the lexer say about the text.**

A text is read here once more, character by character, by four modes: code, comment, string
literal, and the character after a backslash of a literal.  The modes say what a line of the text
is: it ends at a line feed, or at a carriage return that no line feed follows, unless the break
stands in a literal.  Against this reading stand the tokens of `AtomicProof.Lexer`.

The layout tokens are right for every text: they are nested, and before the first token of a line
stand exactly the changes of the stack of widths its leading blanks ask for.  The line numbers
are right for some texts only.  A literal that goes over several lines carries the number of its
last line, although the columns of a token are moved back to its start; and a carriage return in a
comment or a literal, which the newline handling takes for a line break, is not counted there.

Main definitions:

* `AtomicProof.Lexer.logicalLines` — the lines of a text;
* `AtomicProof.Lexer.LaysOut` — the kinds of the tokens follow the lines;
* `AtomicProof.Lexer.WellTokenized` — the law of the lexer;
* `AtomicProof.Lexer.Stray` — a text has a line break the lexer misreads.

Main results:

* `AtomicProof.Lexer.nested_tokenize`, `AtomicProof.Lexer.complete_tokenize` — the nesting of the
  layout tokens and the end of the list, for every text;
* `AtomicProof.Lexer.laysOut_scanAll` — the layout of the lines;
* `AtomicProof.Lexer.tokenize_wellTokenized_iff` — **the law holds of exactly the texts without a
  misread line break**.
-/

import AtomicProof.Lexer

set_option autoImplicit false

namespace AtomicProof.Lexer

/-! ### Lines of a text -/

inductive Mode
  | code | comment | string | escape
  deriving DecidableEq, Repr

/-- A line break ends at this character: a line feed, or a carriage return without one. -/
def breakAt (c : Char) (next : List Char) : Bool :=
  c = '\n' || (c = '\r' && next.head? ≠ some '\n')

def lineBreaks : List Char → ℕ
  | [] => 0
  | c :: cs => (if breakAt c cs then 1 else 0) + lineBreaks cs

/-- The number of line breaks that end before a position of a text. -/
def breaksBefore : List Char → ℕ → ℕ
  | [], _ => 0
  | _, 0 => 0
  | c :: cs, n + 1 => (if breakAt c cs then 1 else 0) + breaksBefore cs n

/-- A logical line ends at this character: a break in a literal ends none. -/
def Mode.endsLine (mode : Mode) (c : Char) (next : List Char) : Bool :=
  (mode = .code || mode = .comment) && breakAt c next

/-- The mode of the next character of the same line. -/
def Mode.next : Mode → Char → Mode
  | .code, c => if c = '#' then .comment else if c = '"' then .string else .code
  | .comment, _ => .comment
  | .string, c => if c = '"' then .code else if c = '\\' then .escape else .string
  | .escape, _ => .string

/-- The logical lines of a text read in a mode: the rest of the first one, and the others. -/
def logicalLines : Mode → List Char → List Char × List (List Char)
  | _, [] => ([], [])
  | mode, c :: cs =>
      if mode.endsLine c cs then
        ([], (logicalLines .code cs).1 :: (logicalLines .code cs).2)
      else (c :: (logicalLines (mode.next c) cs).1, (logicalLines (mode.next c) cs).2)

/-! ### The law -/

/-- The kinds of the tokens of one line; a blank or comment line has none. -/
def LineContent (line : List Char) (kinds : List TokenType) : Prop :=
  (∀ kind ∈ kinds, Plain kind) ∧ (kinds = [] ↔ lineWidth line = none)

/-- The kinds of the tokens follow the lines: those of the rest of the current line, and for each
further line a NEWLINE, the changes of the stack that line asks for, and its own tokens. -/
def LaysOut : List ℕ → List Char → List (List Char) → List TokenType → List ℕ → Prop
  | stack, line, [], kinds, final => LineContent line kinds ∧ final = stack
  | stack, line, next :: lines, kinds, final =>
      ∃ content tail, LineContent line content ∧
        kinds = content ++ .newline :: (requiredChanges stack (lineWidth next) ++ tail) ∧
        LaysOut (requiredStack stack (lineWidth next)) next lines tail final

/-- The NEWLINE of a last line that the text does not end. -/
def closing (kinds : List TokenType) : List TokenType :=
  match kinds.getLast? with
  | none => []
  | some kind => if kind = .newline then [] else [.newline]

/-- **The law of the lexer**: the layout tokens are nested, the list ends with EOF after complete
lines, the layout of the lines is the one their leading blanks ask for when no error is reported,
and the line of a token is one more than the number of line breaks before it. -/
structure WellTokenized (source : List Char) (tokens : List Token)
    (errors : List LexicalError) : Prop where
  nested : ∀ kinds, kinds <+: tokens.map (·.type) →
    kinds.count .dedent ≤ kinds.count .indent
  balanced : (tokens.map (·.type)).count .indent = (tokens.map (·.type)).count .dedent
  complete : ∃ lines closed, tokens.map (·.type) = lines ++ List.replicate closed .dedent ++ [.eof] ∧
    .eof ∉ lines ∧ (lines = [] ∨ lines.getLast? = some .newline)
  layout : errors = [] → ∃ kinds stack,
    LaysOut [] (logicalLines .code source).1 (logicalLines .code source).2 kinds stack ∧
      tokens.map (·.type) =
        kinds ++ closing kinds ++ List.replicate stack.length .dedent ++ [.eof]
  lines : ∀ t ∈ tokens, t.position.line = 1 + breaksBefore source t.offset

/-- A text read in a mode has the quote that ends the literal. -/
def closes : Mode → List Char → Bool
  | _, [] => false
  | .string, c :: cs => c = '"' || closes (Mode.string.next c) cs
  | .escape, _ :: cs => closes .string cs
  | _, _ :: _ => false

/-- The lexer misreads a line break of a text: a carriage return without a line feed in a comment
or a literal, or any line break of a literal that is closed. -/
def Stray : Mode → List Char → Prop
  | _, [] => False
  | mode, c :: cs =>
      (mode ≠ .code ∧ c = '\r' ∧ cs.head? ≠ some '\n') ∨
        ((mode = .string ∨ mode = .escape) ∧ c = '\n' ∧ closes (mode.next c) cs = true) ∨
        Stray (if mode.endsLine c cs then .code else mode.next c) cs

/-! ### Counting line breaks -/

theorem breaksBefore_add (cs : List Char) (n : ℕ) :
    breaksBefore cs n + lineBreaks (cs.drop n) = lineBreaks cs := by
  induction cs generalizing n with
  | nil => simp [breaksBefore, lineBreaks]
  | cons c cs ih =>
      cases n with
      | zero => simp [breaksBefore]
      | succ n =>
          rw [breaksBefore, List.drop_succ_cons, lineBreaks, Nat.add_assoc, ih n]

/-- A carriage return of a text that no line feed follows. -/
def LoneReturn : List Char → List Char → Prop
  | [], _ => False
  | c :: text, next => (c = '\r' ∧ (text ++ next).head? ≠ some '\n') ∨ LoneReturn text next

theorem breakAt_return (next : List Char) :
    breakAt '\r' next = decide (next.head? ≠ some '\n') := by
  rfl

theorem breakAt_of_ne (c : Char) (next : List Char) (h : c ≠ '\r') :
    breakAt c next = decide (c = '\n') := by
  simp only [breakAt, h, decide_false, Bool.false_and, Bool.or_false]

/-- Line feeds are counted everywhere; a lone carriage return is one break more. -/
theorem lineBreaks_append (text next : List Char) :
    (¬ LoneReturn text next →
      lineBreaks (text ++ next) = text.count '\n' + lineBreaks next) ∧
    (LoneReturn text next →
      text.count '\n' + lineBreaks next < lineBreaks (text ++ next)) := by
  induction text with
  | nil => simp [LoneReturn]
  | cons c text ih =>
      rw [List.cons_append, lineBreaks, LoneReturn, List.count_cons, not_or]
      by_cases hlone : c = '\r' ∧ (text ++ next).head? ≠ some '\n'
      · have hbreak : breakAt c (text ++ next) = true := by
          rw [hlone.1, breakAt_return, decide_eq_true hlone.2]
        have hne : (c == '\n') = false := by
          rw [hlone.1]
          decide
        rw [hbreak, hne, if_pos rfl, if_neg (by decide)]
        refine ⟨fun h => absurd hlone h.1, fun _ => ?_⟩
        by_cases hrest : LoneReturn text next
        · have := ih.2 hrest
          omega
        · have := ih.1 hrest
          omega
      · have hbreak : breakAt c (text ++ next) = (c == '\n') := by
          by_cases hc : c = '\r'
          · have hhead : (text ++ next).head? = some '\n' := by
              by_contra hne
              exact hlone ⟨hc, hne⟩
            rw [hc, breakAt_return, hhead]
            decide
          · rw [breakAt_of_ne c _ hc]
            rfl
        rw [hbreak]
        refine ⟨fun h => ?_, fun h => ?_⟩
        · have := ih.1 h.2
          omega
        · have := ih.2 (h.resolve_left hlone)
          omega

theorem le_lineBreaks_append (text next : List Char) :
    text.count '\n' + lineBreaks next ≤ lineBreaks (text ++ next) := by
  by_cases h : LoneReturn text next
  · exact ((lineBreaks_append text next).2 h).le
  · exact ((lineBreaks_append text next).1 h).ge

theorem not_loneReturn (text next : List Char) (h : '\r' ∉ text) : ¬ LoneReturn text next := by
  induction text with
  | nil => exact id
  | cons c text ih =>
      rw [List.mem_cons, not_or] at h
      rintro (⟨rfl, -⟩ | hrest)
      · exact h.1 rfl
      · exact ih h.2 hrest

theorem lineBreaks_append_of_not_mem (text next : List Char) (hlf : '\n' ∉ text)
    (hcr : '\r' ∉ text) : lineBreaks (text ++ next) = lineBreaks next := by
  rw [(lineBreaks_append text next).1 (not_loneReturn text next hcr),
    List.count_eq_zero_of_not_mem hlf, Nat.zero_add]

variable {text next : List Char} {l l' : Lexer} {fuel : ℕ} {kinds : List TokenType}

theorem lineBreaks_isBreak (h : IsBreak text next) :
    lineBreaks (text ++ next) = 1 + lineBreaks next := by
  rcases h with rfl | rfl | ⟨rfl, hne⟩
  · exact Nat.zero_add _
  · rfl
  · change (if breakAt '\r' next then 1 else 0) + lineBreaks next = _
    rw [breakAt_return, decide_eq_true hne]
    rfl

/-! ### Reading in modes -/

/-- In code and comments a break ends the line; this character is none. -/
theorem endsLine_of_not_lone (mode : Mode) (c : Char) (next : List Char) (hlf : c ≠ '\n')
    (hlone : ¬ (c = '\r' ∧ next.head? ≠ some '\n')) : mode.endsLine c next = false := by
  have hbreak : breakAt c next = false := by
    by_cases hc : c = '\r'
    · have hhead : next.head? = some '\n' := by
        by_contra hne
        exact hlone ⟨hc, hne⟩
      rw [hc, breakAt_return, hhead]
      decide
    · rw [breakAt_of_ne c _ hc, decide_eq_false hlf]
  rw [Mode.endsLine, hbreak, Bool.and_false]

theorem stray_code_cons (c : Char) (cs : List Char) (hcomment : c ≠ '#') (hquote : c ≠ '"') :
    Stray .code (c :: cs) ↔ Stray .code cs := by
  have hnext : Mode.next .code c = .code := by simp [Mode.next, hcomment, hquote]
  simp [Stray, hnext]

theorem stray_code_append (text next : List Char) (h : ∀ c ∈ text, c ≠ '#' ∧ c ≠ '"') :
    Stray .code (text ++ next) ↔ Stray .code next := by
  induction text with
  | nil => rfl
  | cons c text ih =>
      rw [List.forall_mem_cons] at h
      rw [List.cons_append, stray_code_cons c _ h.1.1 h.1.2]
      exact ih h.2

/-- A comment, up to the line feed or the end. -/
theorem stray_comment_append (text next : List Char) (h : '\n' ∉ text)
    (hnext : next = [] ∨ next.head? = some '\n') :
    Stray .comment (text ++ next) ↔ LoneReturn text next ∨ Stray .code next := by
  induction text with
  | nil =>
      rcases hnext with rfl | hnext
      · simp [Stray, LoneReturn]
      · obtain ⟨cs, rfl⟩ := List.head?_eq_some_iff.1 hnext
        simp [Stray, LoneReturn, Mode.endsLine, breakAt, Mode.next]
  | cons c text ih =>
      rw [List.mem_cons, not_or] at h
      have hlf : c ≠ '\n' := fun hc => h.1 hc.symm
      rw [List.cons_append, Stray, LoneReturn]
      by_cases hlone : c = '\r' ∧ (text ++ next).head? ≠ some '\n'
      · exact iff_of_true (Or.inl ⟨by decide, hlone⟩) (Or.inl (Or.inl hlone))
      · rw [endsLine_of_not_lone .comment c _ hlf hlone]
        have := ih h.2
        simp only [ne_eq, reduceCtorEq, not_false_eq_true, true_and, hlone, false_or, or_self,
          false_and, Bool.false_eq_true, if_false, Mode.next]
        exact this

theorem stray_string_cons (c : Char) (cs : List Char) :
    Stray .string (c :: cs) ↔ (c = '\r' ∧ cs.head? ≠ some '\n') ∨
      (c = '\n' ∧ closes (Mode.string.next c) cs = true) ∨ Stray (Mode.string.next c) cs := by
  rw [Stray]
  simp only [ne_eq, reduceCtorEq, not_false_eq_true, true_and, or_false, Mode.endsLine,
    decide_false, Bool.or_self, Bool.false_and, Bool.false_eq_true, if_false]

theorem stray_escape_cons (c : Char) (cs : List Char) :
    Stray .escape (c :: cs) ↔ (c = '\r' ∧ cs.head? ≠ some '\n') ∨
      (c = '\n' ∧ closes .string cs = true) ∨ Stray .string cs := by
  rw [Stray]
  simp only [ne_eq, reduceCtorEq, not_false_eq_true, true_and, or_true, Mode.endsLine,
    decide_false, Bool.or_self, Bool.false_and, Bool.false_eq_true, if_false, Mode.next]

theorem next_string_of_ne (c : Char) (hquote : c ≠ '"') (hslash : c ≠ '\\') :
    Mode.string.next c = .string := by
  simp only [Mode.next, hquote, hslash, if_false]

/-- The cases of the body of a literal, as the loop of `readString` makes them. -/
theorem stringBody_cases {motive : List Char → Prop} (nil : motive [])
    (quote : ∀ cs, motive ('"' :: cs)) (slash : motive ['\\'])
    (escape : ∀ d ds, motive ds → motive ('\\' :: d :: ds))
    (char : ∀ c cs, c ≠ '"' → c ≠ '\\' → motive cs → motive (c :: cs)) (cs : List Char) :
    motive cs := by
  induction cs using stringBody.induct with
  | case1 => exact nil
  | case2 cs => exact quote cs
  | case3 => exact slash
  | case4 d ds ih => exact escape d ds ih
  | case5 c cs hquote hslash hpair ih =>
      refine char c cs (fun h => hquote h) ?_ ih
      rintro rfl
      cases cs with
      | nil => exact hslash rfl rfl
      | cons d ds => exact hpair d ds rfl rfl

/-- A literal is closed when a quote follows its body. -/
theorem closes_string (cs : List Char) :
    (∀ next, cs = stringBody cs ++ '"' :: next → closes .string cs = true) ∧
      (cs = stringBody cs → closes .string cs = false) := by
  induction cs using stringBody_cases with
  | nil => exact ⟨fun next h => absurd h (by simp [stringBody]), fun _ => rfl⟩
  | quote cs => exact ⟨fun next _ => rfl, fun h => absurd h (by simp [stringBody])⟩
  | slash => exact ⟨fun next h => absurd h (by simp [stringBody]), fun _ => rfl⟩
  | escape d ds ih =>
      refine ⟨fun next h => ih.1 next ?_, fun h => ih.2 ?_⟩
      · simpa [stringBody] using h
      · simpa [stringBody] using h
  | char c cs hquote hslash ih =>
      have hcloses : closes .string (c :: cs) = closes .string cs := by
        rw [closes, next_string_of_ne c hquote hslash, decide_eq_false hquote, Bool.false_or]
      rw [hcloses, stringBody_cons c cs hquote hslash]
      refine ⟨fun next h => ih.1 next ?_, fun h => ih.2 ?_⟩
      · simpa using h
      · simpa using h

/-- A literal that is closed misreads its line breaks. -/
theorem stray_closed (cs next : List Char) (h : cs = stringBody cs ++ '"' :: next) :
    Stray .string cs ↔
      LoneReturn (stringBody cs) ('"' :: next) ∨ '\n' ∈ stringBody cs ∨ Stray .code next := by
  induction cs using stringBody_cases with
  | nil => exact absurd h (by simp [stringBody])
  | quote cs =>
      obtain rfl : cs = next := by simpa [stringBody] using h
      simp [Stray, stringBody, LoneReturn, Mode.endsLine, Mode.next]
  | slash => exact absurd h (by simp [stringBody])
  | escape d ds ih =>
      have htail : ds = stringBody ds ++ '"' :: next := by simpa [stringBody] using h
      have hclosed := (closes_string ds).1 next htail
      have hnext : Mode.string.next '\\' = .escape := by decide
      rw [stray_string_cons, hnext, stray_escape_cons, ih htail, hclosed,
        stringBody, LoneReturn, LoneReturn, ← htail]
      simp only [Char.reduceEq, false_and, false_or, and_true, List.mem_cons, eq_comm (a := '\n')]
      tauto
  | char c cs hquote hslash ih =>
      have htail : cs = stringBody cs ++ '"' :: next := by
        rw [stringBody_cons c cs hquote hslash] at h
        simpa using h
      have hclosed := (closes_string cs).1 next htail
      rw [stray_string_cons, next_string_of_ne c hquote hslash, ih htail, hclosed,
        stringBody_cons c cs hquote hslash, LoneReturn, ← htail]
      simp only [and_true, List.mem_cons, eq_comm (a := '\n')]
      tauto

/-- A literal without an end misreads its lone carriage returns. -/
theorem stray_open (cs : List Char) (h : cs = stringBody cs) :
    Stray .string cs ↔ LoneReturn cs [] := by
  induction cs using stringBody_cases with
  | nil => rfl
  | quote cs => exact absurd h (by simp [stringBody])
  | slash => simp [Stray, LoneReturn]
  | escape d ds ih =>
      have htail : ds = stringBody ds := by simpa [stringBody] using h
      have hopen := (closes_string ds).2 htail
      have hnext : Mode.string.next '\\' = .escape := by decide
      rw [stray_string_cons, hnext, stray_escape_cons, ih htail, hopen,
        LoneReturn, LoneReturn]
      simp only [Char.reduceEq, false_and, false_or, and_false, Bool.false_eq_true,
        List.append_nil]
  | char c cs hquote hslash ih =>
      have htail : cs = stringBody cs := by
        rw [stringBody_cons c cs hquote hslash] at h
        simpa using h
      have hopen := (closes_string cs).2 htail
      rw [stray_string_cons, next_string_of_ne c hquote hslash, ih htail, hopen,
        LoneReturn, List.append_nil]
      simp only [Bool.false_eq_true, and_false, false_or]

/-! ### Logical lines -/

/-- Text of a line without comments and literals. -/
theorem logicalLines_code_append (text next : List Char)
    (h : ∀ c ∈ text, c ≠ '\n' ∧ c ≠ '\r' ∧ c ≠ '"' ∧ c ≠ '#') :
    logicalLines .code (text ++ next) =
      (text ++ (logicalLines .code next).1, (logicalLines .code next).2) := by
  induction text with
  | nil => rfl
  | cons c text ih =>
      rw [List.forall_mem_cons] at h
      obtain ⟨⟨hlf, hcr, hquote, hcomment⟩, hrest⟩ := h
      have hends : Mode.endsLine .code c (text ++ next) = false := by
        rw [Mode.endsLine, breakAt_of_ne c _ hcr, decide_eq_false hlf, Bool.and_false]
      have hnext : Mode.next .code c = .code := by simp [Mode.next, hcomment, hquote]
      rw [List.cons_append, logicalLines, hends, hnext, ih hrest]
      rfl

/-- A line break ends the line. -/
theorem logicalLines_isBreak (h : IsBreak text next) : ∃ line, logicalLines .code (text ++ next) =
        (line, (logicalLines .code next).1 :: (logicalLines .code next).2) ∧
      lineWidth line = none := by
  have hlf : ∀ cs, logicalLines .code ('\n' :: cs) =
      ([], (logicalLines .code cs).1 :: (logicalLines .code cs).2) := by
    intro cs
    rw [logicalLines]
    exact if_pos rfl
  rcases h with rfl | rfl | ⟨rfl, hne⟩
  · refine ⟨['\r'], ?_, rfl⟩
    have hends : Mode.endsLine .code '\r' ('\n' :: next) = false := rfl
    rw [List.cons_append, List.singleton_append, logicalLines, hends,
      show Mode.next .code '\r' = .code from rfl, hlf]
    rfl
  · exact ⟨[], hlf next, rfl⟩
  · refine ⟨[], ?_, rfl⟩
    rw [List.singleton_append, logicalLines, if_pos]
    rw [Mode.endsLine, breakAt_return, decide_eq_true hne]
    rfl

/-- A comment belongs to its line. -/
theorem logicalLines_comment_append (text next : List Char) (h : '\n' ∉ text)
    (hnext : next = [] ∨ next.head? = some '\n') (hlone : ¬ LoneReturn text next) :
    logicalLines .comment (text ++ next) =
      (text ++ (logicalLines .code next).1, (logicalLines .code next).2) := by
  induction text with
  | nil =>
      rcases hnext with rfl | hnext
      · rfl
      · obtain ⟨cs, rfl⟩ := List.head?_eq_some_iff.1 hnext
        rfl
  | cons c text ih =>
      rw [List.mem_cons, not_or] at h
      rw [LoneReturn, not_or] at hlone
      have hends : Mode.endsLine .comment c (text ++ next) = false :=
        endsLine_of_not_lone .comment c _ (fun hlf => h.1 hlf.symm) hlone.1
      rw [List.cons_append, logicalLines, hends, show Mode.comment.next c = .comment from rfl,
        ih h.2 hlone.2]
      rfl

theorem logicalLines_string_cons (mode : Mode) (c : Char) (cs : List Char)
    (h : mode = .string ∨ mode = .escape) :
    logicalLines mode (c :: cs) =
      (c :: (logicalLines (mode.next c) cs).1, (logicalLines (mode.next c) cs).2) := by
  have hends : mode.endsLine c cs = false := by
    rcases h with rfl | rfl <;> rfl
  rw [logicalLines, hends]
  rfl

/-- A closed literal belongs to its line, with its line breaks. -/
theorem logicalLines_closed (cs next : List Char) (h : cs = stringBody cs ++ '"' :: next) :
    logicalLines .string cs =
      (stringBody cs ++ '"' :: (logicalLines .code next).1, (logicalLines .code next).2) := by
  induction cs using stringBody_cases with
  | nil => exact absurd h (by simp [stringBody])
  | quote cs =>
      obtain rfl : cs = next := by simpa [stringBody] using h
      rw [logicalLines_string_cons _ _ _ (Or.inl rfl)]
      rfl
  | slash => exact absurd h (by simp [stringBody])
  | escape d ds ih =>
      have htail : ds = stringBody ds ++ '"' :: next := by simpa [stringBody] using h
      have hnext : Mode.string.next '\\' = .escape := by decide
      rw [logicalLines_string_cons _ _ _ (Or.inl rfl), hnext,
        logicalLines_string_cons _ _ _ (Or.inr rfl), show Mode.escape.next d = .string from rfl,
        ih htail, stringBody]
      rfl
  | char c cs hquote hslash ih =>
      have htail : cs = stringBody cs ++ '"' :: next := by
        rw [stringBody_cons c cs hquote hslash] at h
        simpa using h
      rw [logicalLines_string_cons _ _ _ (Or.inl rfl), next_string_of_ne c hquote hslash,
        ih htail, stringBody_cons c cs hquote hslash]
      rfl

theorem lineWidth_append (blanks cs : List Char) (h : ∀ c ∈ blanks, isBlank c = true) :
    lineWidth (blanks ++ cs) = (lineWidth cs).map (blanks.length + ·) := by
  unfold lineWidth
  rw [List.dropWhile_append_of_pos h, List.takeWhile_append_of_pos h, List.length_append]
  split
  · rfl
  · split_ifs <;> rfl

theorem lineWidth_cons (c : Char) (cs : List Char) (h : isBlank c = false) :
    lineWidth (c :: cs) = if c = '\n' ∨ c = '\r' ∨ c = '#' then none else some 0 := by
  unfold lineWidth
  rw [List.dropWhile_cons_of_neg (by simp [h]), List.takeWhile_cons_of_neg (by simp [h])]
  rfl

theorem ne_special_of_isBlank (c : Char) (h : isBlank c = true) :
    c ≠ '\n' ∧ c ≠ '\r' ∧ c ≠ '"' ∧ c ≠ '#' := by
  refine ⟨?_, ?_, ?_, ?_⟩
  all_goals
    rintro rfl
    exact absurd h (by decide)

/-- The width of the first line is read off the text. -/
theorem lineWidth_logicalLines (cs : List Char) :
    lineWidth (logicalLines .code cs).1 = lineWidth cs := by
  have hsplit : cs = cs.takeWhile isBlank ++ cs.dropWhile isBlank :=
    List.takeWhile_append_dropWhile.symm
  have hblanks : ∀ c ∈ cs.takeWhile isBlank, isBlank c = true := fun c hc =>
    List.mem_takeWhile_imp hc
  rw [hsplit, logicalLines_code_append _ _ fun c hc => ne_special_of_isBlank c (hblanks c hc),
    lineWidth_append _ _ hblanks, lineWidth_append _ _ hblanks]
  congr 1
  cases hrest : cs.dropWhile isBlank with
  | nil => rfl
  | cons c rest =>
      have hblank : isBlank c = false := by
        have := List.head?_dropWhile_not isBlank cs
        rw [hrest] at this
        simpa using this
      rw [logicalLines, lineWidth_cons c rest hblank]
      by_cases hends : Mode.endsLine .code c rest = true
      · have hc : c = '\n' ∨ c = '\r' := by
          simp only [Mode.endsLine, breakAt, Bool.and_eq_true, Bool.or_eq_true,
            decide_eq_true_eq] at hends
          tauto
        rw [if_pos hends, if_pos (by tauto)]
        rfl
      · rw [if_neg hends, lineWidth_cons c _ hblank]

/-! ### Blanks and comments -/

/-- The blanks and the comment that are passed before a token. -/
theorem skipped_cases (cs : List Char) :
    ∃ blanks comment next, cs = blanks ++ (comment ++ next) ∧ cs.drop (skipped cs) = next ∧
      (∀ c ∈ blanks, isBlank c = true) ∧
      (comment = [] ∨ ∃ text, comment = '#' :: text ∧ '\n' ∉ text ∧
        (next = [] ∨ next.head? = some '\n')) := by
  induction cs with
  | nil => exact ⟨[], [], [], rfl, rfl, by simp, Or.inl rfl⟩
  | cons c cs ih =>
      rw [skipped]
      split_ifs with hblank hcomment
      · obtain ⟨blanks, comment, next, hcs, hnext, hblanks, hend⟩ := ih
        refine ⟨c :: blanks, comment, next, by rw [List.cons_append, ← hcs], hnext, ?_, hend⟩
        exact List.forall_mem_cons.2 ⟨hblank, hblanks⟩
      · subst hcomment
        refine ⟨[], '#' :: cs.takeWhile (· ≠ '\n'), cs.dropWhile (· ≠ '\n'), ?_, ?_, by simp,
          Or.inr ⟨_, rfl, ?_, ?_⟩⟩
        · rw [List.nil_append, List.cons_append, List.takeWhile_append_dropWhile]
        · rw [commentLength, drop_length_takeWhile]
          rfl
        · intro hmem
          simpa using List.mem_takeWhile_imp hmem
        · cases hrest : cs.dropWhile (· ≠ '\n') with
          | nil => exact Or.inl rfl
          | cons d ds =>
              have := List.head?_dropWhile_not (· ≠ '\n') cs
              rw [hrest] at this
              exact Or.inr (by simpa using this)
      · exact ⟨[], [], c :: cs, rfl, rfl, by simp, Or.inl rfl⟩

/-- What passing blanks and a comment does to the reading of a text. -/
structure Passes (cs next : List Char) : Prop where
  clean : ¬ Stray .code cs → ¬ Stray .code next ∧ lineBreaks next = lineBreaks cs ∧
    (logicalLines .code next).2 = (logicalLines .code cs).2 ∧
    (lineWidth (logicalLines .code next).1 = none ↔ lineWidth (logicalLines .code cs).1 = none)
  stray : Stray .code cs →
    lineBreaks next < lineBreaks cs ∨ (lineBreaks next = lineBreaks cs ∧ Stray .code next)
  le : lineBreaks next ≤ lineBreaks cs

/-- Blanks alone are passed without any change. -/
theorem passes_blanks (blanks cs : List Char) (h : ∀ c ∈ blanks, isBlank c = true) :
    Passes (blanks ++ cs) cs := by
  have hspecial := fun c hc => ne_special_of_isBlank c (h c hc)
  have hbreaks : lineBreaks (blanks ++ cs) = lineBreaks cs :=
    lineBreaks_append_of_not_mem blanks cs (fun hmem => (hspecial _ hmem).1 rfl)
      (fun hmem => (hspecial _ hmem).2.1 rfl)
  have hstray : Stray .code (blanks ++ cs) ↔ Stray .code cs :=
    stray_code_append blanks cs fun c hc => ⟨(hspecial c hc).2.2.2, (hspecial c hc).2.2.1⟩
  refine ⟨fun hclean => ⟨fun hs => hclean (hstray.2 hs), hbreaks.symm, ?_, ?_⟩,
    fun hs => Or.inr ⟨hbreaks.symm, hstray.1 hs⟩, hbreaks.ge⟩
  · rw [logicalLines_code_append blanks cs hspecial]
  · rw [lineWidth_logicalLines, lineWidth_logicalLines, lineWidth_append blanks cs h,
      Option.map_eq_none_iff]

/-- A comment is passed without any change, unless it hides a carriage return. -/
theorem passes_comment (text next : List Char) (h : '\n' ∉ text)
    (hnext : next = [] ∨ next.head? = some '\n') : Passes ('#' :: text ++ next) next := by
  have hmode : Stray .code ('#' :: text ++ next) ↔ Stray .comment (text ++ next) := by
    rw [List.cons_append, Stray]
    simp [Mode.endsLine, breakAt, Mode.next]
  have hstray := hmode.trans (stray_comment_append text next h hnext)
  have hbreaks : lineBreaks ('#' :: text ++ next) = lineBreaks (text ++ next) := by
    rw [List.cons_append, lineBreaks, if_neg (by simp [breakAt]), Nat.zero_add]
  have hcount : text.count '\n' = 0 := List.count_eq_zero_of_not_mem h
  have hle := le_lineBreaks_append text next
  refine ⟨fun hclean => ?_, fun hs => ?_, by omega⟩
  · have hlone : ¬ LoneReturn text next := fun hl => hclean (hstray.2 (Or.inl hl))
    have heq := (lineBreaks_append text next).1 hlone
    have hlines : logicalLines .code ('#' :: text ++ next) =
        ('#' :: text ++ (logicalLines .code next).1, (logicalLines .code next).2) := by
      have hends : Mode.endsLine .code '#' (text ++ next) = false := rfl
      rw [List.cons_append, logicalLines, hends, show Mode.code.next '#' = .comment from rfl,
        logicalLines_comment_append text next h hnext hlone]
      rfl
    refine ⟨fun hs => hclean (hstray.2 (Or.inr hs)), by omega, by rw [hlines], ?_⟩
    rw [lineWidth_logicalLines, lineWidth_logicalLines, List.cons_append,
      lineWidth_cons _ _ (by decide), if_pos (by simp)]
    refine iff_of_true ?_ rfl
    rcases hnext with rfl | hnext
    · rfl
    · obtain ⟨cs, rfl⟩ := List.head?_eq_some_iff.1 hnext
      rfl
  · by_cases hlone : LoneReturn text next
    · have := (lineBreaks_append text next).2 hlone
      exact Or.inl (by omega)
    · have := (lineBreaks_append text next).1 hlone
      exact Or.inr ⟨by omega, (hstray.1 hs).resolve_left hlone⟩

theorem Passes.trans {a b c : List Char} (h : Passes a b) (h' : Passes b c) : Passes a c := by
  refine ⟨fun hclean => ?_, fun hs => ?_, h'.le.trans h.le⟩
  · obtain ⟨hb, hbreaks, hlines, hwidth⟩ := h.clean hclean
    obtain ⟨hc, hbreaks', hlines', hwidth'⟩ := h'.clean hb
    exact ⟨hc, hbreaks'.trans hbreaks, hlines'.trans hlines, hwidth'.trans hwidth⟩
  · rcases h.stray hs with hlt | ⟨heq, hb⟩
    · exact Or.inl (lt_of_le_of_lt h'.le hlt)
    · rcases h'.stray hb with hlt | ⟨heq', hc⟩
      · exact Or.inl (heq ▸ hlt)
      · exact Or.inr ⟨heq'.trans heq, hc⟩

/-- **Passing blanks and a comment.** -/
theorem passes_skipped (cs : List Char) : Passes cs (cs.drop (skipped cs)) := by
  obtain ⟨blanks, comment, next, hcs, hnext, hblanks, hcomment⟩ := skipped_cases cs
  rw [hnext]
  nth_rewrite 1 [hcs]
  refine (passes_blanks blanks _ hblanks).trans ?_
  rcases hcomment with rfl | ⟨text, rfl, hlf, hend⟩
  · exact passes_blanks [] next (by simp)
  · exact passes_comment text next hlf hend

/-- **Passing the indentation of a line.** -/
theorem passes_indentation (cs : List Char) : Passes cs (cs.drop ((lineWidth cs).getD 0)) := by
  cases hwidth : lineWidth cs with
  | none => exact passes_blanks [] cs (by simp)
  | some width =>
      have hlen : (cs.takeWhile isBlank).length = width := by
        unfold lineWidth at hwidth
        split at hwidth
        · cases hwidth
        · split_ifs at hwidth
          exact Option.some.inj hwidth
      rw [Option.getD_some, ← hlen, drop_length_takeWhile]
      have h := passes_blanks (cs.takeWhile isBlank) (cs.dropWhile isBlank)
        fun c hc => List.mem_takeWhile_imp hc
      rwa [List.takeWhile_append_dropWhile] at h

/-! ### Line numbers -/

/-- The line counter agrees with the text that is left. -/
def OnTime (l : Lexer) : Prop := l.line + lineBreaks l.rest = 1 + lineBreaks l.source

def RightLine (source : List Char) (t : Token) : Prop :=
  t.position.line = 1 + breaksBefore source t.offset

theorem rightLine_iff (l : Lexer) (t : Token) (hoffset : t.offset = l.current) :
    RightLine l.source t ↔ t.position.line + lineBreaks l.rest = 1 + lineBreaks l.source := by
  have := breaksBefore_add l.source l.current
  rw [RightLine, hoffset, rest]
  omega

/-- What a step does to the line numbers. -/
structure LineStep (l l' : Lexer) (new : List Token) : Prop where
  tokens : l'.tokens = l.tokens ++ new
  source : l'.source = l.source
  le : l'.line + lineBreaks l'.rest ≤ l.line + lineBreaks l.rest
  clean : OnTime l → ¬ Stray .code l.rest →
    OnTime l' ∧ ¬ Stray .code l'.rest ∧ ∀ t ∈ new, RightLine l.source t
  stray : OnTime l → Stray .code l.rest →
    l'.line + lineBreaks l'.rest < l.line + lineBreaks l.rest ∨
      (OnTime l' ∧ Stray .code l'.rest) ∨ ∃ t ∈ new, ¬ RightLine l.source t

theorem lineStep_of_rest {new : List Token} (htokens : l'.tokens = l.tokens ++ new)
    (hsource : l'.source = l.source) (hline : l'.line = l.line)
    (hbreaks : lineBreaks l'.rest = lineBreaks l.rest)
    (hstray : Stray .code l.rest ↔ Stray .code l'.rest)
    (hnew : OnTime l → ∀ t ∈ new, RightLine l.source t) : LineStep l l' new := by
  have htime : OnTime l' ↔ OnTime l := by
    rw [OnTime, OnTime, hline, hbreaks, hsource]
  exact ⟨htokens, hsource, by omega,
    fun ht hs => ⟨htime.2 ht, fun h => hs (hstray.2 h), hnew ht⟩,
    fun ht hs => Or.inr (Or.inl ⟨htime.2 ht, hstray.1 hs⟩)⟩

/-- Text of a line, with the token it gives. -/
theorem lineStep_code {new : List Token}
    (h : l.rest = text ++ next) (hcode : CodeText text) (htokens : l'.tokens = l.tokens ++ new)
    (hsource : l'.source = l.source) (hline : l'.line = l.line) (hrest : l'.rest = next)
    (hnew : ∀ t ∈ new, t.offset = l.current ∧ t.position.line = l.line) : LineStep l l' new := by
  refine lineStep_of_rest htokens hsource hline ?_ ?_ ?_
  · rw [hrest, h]
    exact (lineBreaks_append_of_not_mem text next (fun hmem => (hcode.2 _ hmem).1 rfl)
      (fun hmem => (hcode.2 _ hmem).2.1 rfl)).symm
  · rw [hrest, h]
    exact stray_code_append text next fun c hc => ⟨(hcode.2 c hc).2.2.2, (hcode.2 c hc).2.2.1⟩
  · intro htime t ht
    obtain ⟨hoffset, hplace⟩ := hnew t ht
    exact (rightLine_iff l t hoffset).2 (hplace ▸ htime)

theorem rest_begin_advance (h : l.rest = text ++ next) :
    (l.begin.advance text.length).rest = next := by
  rw [rest_advance, rest_begin, h, List.drop_left]

theorem rest_begin_advance_string {cs : List Char} (h : l.rest = '"' :: cs)
    (hclosed : cs = stringBody cs ++ '"' :: next) :
    (l.begin.advance ((stringBody cs).length + 2)).rest = next := by
  have hcs : cs.drop ((stringBody cs).length + 1) = next := by
    rw [← List.drop_drop, (congrArg (List.drop _) hclosed).trans List.drop_left]
    rfl
  rw [rest_advance, rest_begin, h]
  exact hcs

theorem stray_isBreak (h : IsBreak text next) : Stray .code (text ++ next) ↔ Stray .code next := by
  refine stray_code_append text next ?_
  rcases h with rfl | rfl | ⟨rfl, -⟩ <;> simp

theorem rest_lineBreak {newline : Token} {marks : List Token}
    (h : Breaks l l' newline marks) : l'.rest = l.rest.drop ((lineWidth l.rest).getD 0) := by
  rw [rest, h.source, h.current, ← List.drop_drop]
  rfl

theorem lineBreaks_quote (cs : List Char) : lineBreaks ('"' :: cs) = lineBreaks cs := by
  rw [lineBreaks, if_neg (by simp [breakAt]), Nat.zero_add]

theorem stray_quote (cs : List Char) : Stray .code ('"' :: cs) ↔ Stray .string cs := by
  rw [Stray]
  simp [Mode.endsLine, breakAt, Mode.next]

/-- A literal that is closed: its token carries the line it ends on. -/
theorem lineStep_closed {cs : List Char} {t : Token}
    (h : l.rest = '"' :: cs) (hclosed : cs = stringBody cs ++ '"' :: next)
    (htokens : l'.tokens = l.tokens ++ [t]) (hsource : l'.source = l.source)
    (hline : l'.line = l.line + (stringBody cs).count '\n') (hrest : l'.rest = next)
    (hoffset : t.offset = l.current) (hplace : t.position.line = l'.line) :
    LineStep l l' [t] := by
  have hbreaks : lineBreaks l.rest = lineBreaks (stringBody cs ++ '"' :: next) := by
    rw [h, lineBreaks_quote, ← hclosed]
  have hstray : Stray .code l.rest ↔ LoneReturn (stringBody cs) ('"' :: next) ∨
      '\n' ∈ stringBody cs ∨ Stray .code next := by
    rw [h, stray_quote, stray_closed cs next hclosed]
  have heq := (lineBreaks_append (stringBody cs) ('"' :: next)).1
  have hlt := (lineBreaks_append (stringBody cs) ('"' :: next)).2
  have hle := le_lineBreaks_append (stringBody cs) ('"' :: next)
  rw [lineBreaks_quote] at heq hlt hle
  have htime : ¬ LoneReturn (stringBody cs) ('"' :: next) → (OnTime l' ↔ OnTime l) := by
    intro hlone
    have := heq hlone
    rw [OnTime, OnTime, hsource, hrest, hline, hbreaks]
    omega
  -- the token is right when the literal has no line feed
  have hright : ∀ htime : OnTime l, RightLine l.source t ↔ (stringBody cs).count '\n' = 0 := by
    intro htime
    rw [rightLine_iff l t hoffset, hplace, hline]
    rw [OnTime] at htime
    omega
  refine ⟨htokens, hsource, by rw [hrest]; omega, ?_, ?_⟩
  · intro ht hs
    rw [hstray, not_or, not_or] at hs
    refine ⟨(htime hs.1).2 ht, by rw [hrest]; exact hs.2.2, ?_⟩
    intro t' ht'
    obtain rfl := List.mem_singleton.1 ht'
    exact (hright ht).2 (List.count_eq_zero_of_not_mem hs.2.1)
  · intro ht hs
    by_cases hlone : LoneReturn (stringBody cs) ('"' :: next)
    · have := hlt hlone
      exact Or.inl (by rw [hrest]; omega)
    rcases (hstray.1 hs).resolve_left hlone with hmem | hs'
    · refine Or.inr (Or.inr ⟨t, List.mem_singleton_self t, ?_⟩)
      rw [hright ht]
      exact (List.count_pos_iff.2 hmem).ne'
    · exact Or.inr (Or.inl ⟨(htime hlone).2 ht, by rw [hrest]; exact hs'⟩)

/-- A literal without an end: its line feeds are counted, its lone carriage returns are not. -/
theorem lineStep_open {cs : List Char} (h : l.rest = '"' :: cs)
    (hopen : cs = stringBody cs) (htokens : l'.tokens = l.tokens) (hsource : l'.source = l.source)
    (hline : l'.line = l.line + (stringBody cs).count '\n') (hrest : l'.rest = []) :
    LineStep l l' [] := by
  have hbreaks : lineBreaks l.rest = lineBreaks (cs ++ []) := by
    rw [h, lineBreaks_quote, List.append_nil]
  have hstray : Stray .code l.rest ↔ LoneReturn cs [] := by
    rw [h, stray_quote, stray_open cs hopen]
  rw [← hopen] at hline
  have heq := (lineBreaks_append cs []).1
  have hlt := (lineBreaks_append cs []).2
  have hle := le_lineBreaks_append cs []
  refine ⟨by rw [htokens, List.append_nil], hsource, by rw [hrest]; omega, ?_, ?_⟩
  · intro ht hs
    have := heq fun hl => hs (hstray.2 hl)
    refine ⟨?_, by rw [hrest]; exact id, by simp⟩
    rw [OnTime, hsource, hrest]
    rw [OnTime] at ht
    omega
  · intro ht hs
    have := hlt (hstray.1 hs)
    exact Or.inl (by rw [hrest]; omega)

/-- **A step and the line numbers.** -/
theorem lineStep_scans (h : Scans l l') : ∃ new, LineStep l l' new := by
  cases h with
  | atEnd hend =>
      exact ⟨[], lineStep_of_rest (List.append_nil _).symm rfl rfl rfl Iff.rfl (by simp)⟩
  | lineBreak text next hrest hbreak =>
      -- a line break is the only step that changes the indentation
      obtain ⟨newline, marks, hb⟩ := breaks_lineBreak (l.begin.advance text.length)
      have hnext := rest_begin_advance hrest
      have hafter := rest_lineBreak hb
      rw [hnext] at hafter
      have hpass := passes_indentation next
      rw [← hafter] at hpass
      have hcount := lineBreaks_isBreak hbreak
      rw [← hrest] at hcount
      have hline : (l.begin.advance text.length).lineBreak.line = l.line + 1 := hb.line
      have hsource : (l.begin.advance text.length).lineBreak.source = l.source := hb.source
      have hstray : Stray .code l.rest ↔ Stray .code next := by rw [hrest, stray_isBreak hbreak]
      refine ⟨newline :: marks, hb.tokens, hsource, ?_, ?_, ?_⟩
      · have := hpass.le
        omega
      · intro htime hs
        obtain ⟨hclean, hbreaks, -⟩ := hpass.clean fun h => hs (hstray.2 h)
        have htime' : OnTime (l.begin.advance text.length).lineBreak := by
          rw [OnTime, hsource, hline, hbreaks]
          rw [OnTime] at htime
          omega
        refine ⟨htime', hclean, ?_⟩
        intro t ht
        rcases List.mem_cons.1 ht with rfl | ht
        · refine (rightLine_iff l t hb.newline_offset).2 ?_
          rw [hb.newline_line]
          exact htime
        · obtain ⟨hoffset, hplace⟩ := hb.marks_place t ht
          have := (rightLine_iff _ t hoffset).2 (by rw [hplace]; rw [OnTime, hline] at htime'; exact htime')
          rwa [hsource] at this
      · intro htime hs
        rcases hpass.stray (hstray.1 hs) with hlt | ⟨heq, hs'⟩
        · exact Or.inl (by omega)
        · refine Or.inr (Or.inl ⟨?_, hs'⟩)
          rw [OnTime, hsource, hline, heq]
          rw [OnTime] at htime
          omega
  | token text next kind hrest hcode hplain =>
      refine ⟨_, lineStep_code hrest hcode rfl rfl rfl ?_ ?_⟩
      · exact rest_begin_advance hrest
      · intro t ht
        obtain rfl := List.mem_singleton.1 ht
        exact ⟨rfl, position_line _⟩
  | invalid text next message column length suggestion hrest hcode =>
      exact ⟨[], lineStep_code hrest hcode (List.append_nil _).symm rfl rfl
        (rest_begin_advance hrest) (by simp)⟩
  | string cs next lexeme kind column hrest hclosed hplain =>
      exact ⟨_, lineStep_closed hrest hclosed rfl rfl rfl
        (rest_begin_advance_string hrest hclosed) rfl (position_line _)⟩
  | openString cs column message at' length suggestion hrest hopen =>
      refine ⟨[], lineStep_open hrest hopen rfl rfl rfl ?_⟩
      change (l.begin.advance ((stringBody cs).length + 1)).rest = []
      rw [rest_advance, rest_begin, hrest]
      exact List.drop_eq_nil_of_le (le_of_eq (congrArg (fun x => x.length + 1) hopen))

/-- One turn of the loop and the line numbers. -/
theorem lineStep_turn (h : Scans l.begin.skipWhitespace l') : ∃ new, LineStep l l' new := by
  obtain ⟨new, hstep⟩ := lineStep_scans h
  have hpass := passes_skipped l.rest
  have hrest : l.begin.skipWhitespace.rest = l.rest.drop (skipped l.rest) := by
    rw [skipWhitespace, rest_advance]
    rfl
  rw [← hrest] at hpass
  have htime : lineBreaks l.begin.skipWhitespace.rest = lineBreaks l.rest →
      OnTime l → OnTime l.begin.skipWhitespace := by
    intro heq ht
    rw [OnTime, heq]
    exact ht
  refine ⟨new, hstep.tokens, hstep.source, hstep.le.trans (Nat.add_le_add_left hpass.le _), ?_, ?_⟩
  · intro ht hs
    obtain ⟨hclean, hbreaks, -⟩ := hpass.clean hs
    exact hstep.clean (htime hbreaks ht) hclean
  · intro ht hs
    rcases hpass.stray hs with hlt | ⟨heq, hs'⟩
    · exact Or.inl (lt_of_le_of_lt hstep.le (Nat.add_lt_add_left hlt _))
    · rcases hstep.stray (htime heq ht) hs' with hlt | hrest
      · exact Or.inl (lt_of_lt_of_le hlt (Nat.add_le_add_left hpass.le _))
      · exact Or.inr hrest

/-- **The run and the line numbers**: without a misread line break every token is right. -/
theorem rightLine_scanAll (h : scanAll fuel l = some l')
    (htime : OnTime l) (hclean : ¬ Stray .code l.rest)
    (htokens : ∀ t ∈ l.tokens, RightLine l.source t) :
    l'.source = l.source ∧ OnTime l' ∧ l'.rest = [] ∧ ∀ t ∈ l'.tokens, RightLine l.source t := by
  have hrun := scanAll_induction (motive := fun l' => l'.source = l.source ∧ OnTime l' ∧
    ¬ Stray .code l'.rest ∧ ∀ t ∈ l'.tokens, RightLine l.source t) h
    ⟨rfl, htime, hclean, htokens⟩ ?_
  · exact ⟨hrun.1.1, hrun.1.2.1, hrun.2, hrun.1.2.2.2⟩
  · rintro a b ⟨hsource, ht, hs, hright⟩ hscan
    obtain ⟨new, hstep⟩ := lineStep_turn hscan
    obtain ⟨ht', hs', hnew⟩ := hstep.clean ht hs
    rw [hsource] at hnew
    refine ⟨hstep.source.trans hsource, ht', hs', ?_⟩
    intro t hmem
    rw [hstep.tokens] at hmem
    rcases List.mem_append.1 hmem with hold | hmem
    · exact hright t hold
    · exact hnew t hmem

/-- After a misread line break a token is wrong, or the counter stays behind to the end. -/
theorem wrongLine_scanAll (h : scanAll fuel l = some l')
    (htime : OnTime l) (hstray : Stray .code l.rest) :
    l'.source = l.source ∧ l'.rest = [] ∧
      (l'.line < 1 + lineBreaks l.source ∨ ∃ t ∈ l'.tokens, ¬ RightLine l.source t) := by
  have hrun := scanAll_induction (motive := fun l' => l'.source = l.source ∧
    (l'.line + lineBreaks l'.rest < 1 + lineBreaks l.source ∨
      (OnTime l' ∧ Stray .code l'.rest) ∨ ∃ t ∈ l'.tokens, ¬ RightLine l.source t)) h
    ⟨rfl, Or.inr (Or.inl ⟨htime, hstray⟩)⟩ ?_
  · obtain ⟨⟨hsource, hcases⟩, hrest⟩ := hrun
    rw [hrest] at hcases
    refine ⟨hsource, hrest, ?_⟩
    rcases hcases with hlate | ⟨-, hs⟩ | hwrong
    · exact Or.inl hlate
    · exact absurd hs id
    · exact Or.inr hwrong
  · rintro a b ⟨hsource, hcases⟩ hscan
    obtain ⟨new, hstep⟩ := lineStep_turn hscan
    refine ⟨hstep.source.trans hsource, ?_⟩
    rcases hcases with hlate | ⟨ht, hs⟩ | ⟨t, hmem, hwrong⟩
    · exact Or.inl (lt_of_le_of_lt hstep.le hlate)
    · rcases hstep.stray ht hs with hlt | hkeep | ⟨t, hmem, hwrong⟩
      · rw [OnTime, hsource] at ht
        exact Or.inl (by omega)
      · exact Or.inr (Or.inl hkeep)
      · rw [hsource] at hwrong
        exact Or.inr (Or.inr ⟨t, by rw [hstep.tokens]; exact List.mem_append_right _ hmem, hwrong⟩)
    · exact Or.inr (Or.inr ⟨t, by rw [hstep.tokens]; exact List.mem_append_left _ hmem, hwrong⟩)

/-! ### The end of the text -/

/-- What is added after the loop: marks at the end of the text, on the last line. -/
structure Finishes (l l' : Lexer) (marks : List Token) : Prop where
  tokens : l'.tokens = l.tokens ++ marks
  errors : l'.errors = l.errors
  place : ∀ t ∈ marks, t.offset = l.current ∧ t.position.line = l.line
  kinds : marks.map (·.type) = closing (l.tokens.map (·.type)) ++
    List.replicate l.indents.length .dedent ++ [.eof]

theorem mark_place (l : Lexer) (kind : TokenType) (text : List Char) :
    (Token.make kind (escapeString (String.ofList text)) l.position l.current).offset = l.current ∧
      (Token.make kind (escapeString (String.ofList text)) l.position l.current).position.line =
        l.line :=
  ⟨rfl, position_line l⟩

/-- The DEDENTs of the open blocks. -/
theorem closeBlocks_spec (stack : List ℕ) (l : Lexer) (h : l.indents = stack) :
    ∃ marks, closeBlocks stack l = { l with indents := [], tokens := l.tokens ++ marks } ∧
      marks.map (·.type) = List.replicate stack.length .dedent ∧
      ∀ t ∈ marks, t.offset = l.current ∧ t.position.line = l.line := by
  induction stack generalizing l with
  | nil =>
      refine ⟨[], ?_, rfl, by simp⟩
      rw [closeBlocks, List.append_nil, ← h]
  | cons top below ih =>
      obtain ⟨marks, hclose, hkinds, hplace⟩ := ih ({ l with indents := below }.addMark .dedent) rfl
      refine ⟨Token.make .dedent (escapeString (String.ofList l.text)) l.position l.current ::
        marks, ?_, ?_, ?_⟩
      · rw [closeBlocks, hclose]
        simp only [addMark, addTokenAt, List.isEmpty_nil, if_true, List.append_assoc,
          List.singleton_append]
        rfl
      · rw [List.map_cons, hkinds, List.length_cons, List.replicate_succ]
        rfl
      · intro t ht
        rcases List.mem_cons.1 ht with rfl | ht
        · exact mark_place l _ _
        · exact hplace t ht

/-- **The end of the text** does what `Finishes` says. -/
theorem finishes_finish (l : Lexer) : ∃ marks, Finishes l l.finish marks := by
  have hlast : ∃ marks, l.completeLine = { l with tokens := l.tokens ++ marks } ∧
      marks.map (·.type) = closing (l.tokens.map (·.type)) ∧
      ∀ t ∈ marks, t.offset = l.current ∧ t.position.line = l.line := by
    unfold closing completeLine
    rw [List.getLast?_map]
    cases l.tokens.getLast? with
    | none => exact ⟨[], by rw [List.append_nil], rfl, by simp⟩
    | some last =>
        by_cases hnewline : last.type = .newline
        · refine ⟨[], ?_, ?_, by simp⟩
          · rw [List.append_nil]
            exact if_pos hnewline
          · exact (if_pos hnewline).symm
        · refine ⟨[Token.make .newline (escapeString (String.ofList l.text)) l.position
            l.current], ?_, ?_, ?_⟩
          · exact if_neg hnewline
          · exact (if_neg hnewline).symm
          · intro t ht
            obtain rfl := List.mem_singleton.1 ht
            exact mark_place l _ _
  obtain ⟨first, hfirst, hkinds, hplace⟩ := hlast
  obtain ⟨dedents, hclose, hkinds', hplace'⟩ := closeBlocks_spec l.indents
    { l with tokens := l.tokens ++ first } rfl
  refine ⟨first ++ dedents ++
    [Token.make .eof (escapeString (String.ofList l.text)) l.position l.current], ?_⟩
  have hstate : l.finish = (closeBlocks l.indents { l with tokens := l.tokens ++ first }).addMark
      .eof := by
    unfold finish
    dsimp only
    rw [hfirst]
  rw [hstate, hclose]
  refine ⟨?_, rfl, ?_, ?_⟩
  · simp only [addMark, addTokenAt, List.isEmpty_nil, if_true, List.append_assoc]
    rfl
  · intro t ht
    rcases List.mem_append.1 ht with ht | ht
    · rcases List.mem_append.1 ht with ht | ht
      · exact hplace t ht
      · exact hplace' t ht
    · obtain rfl := List.mem_singleton.1 ht
      exact mark_place l _ _
  · rw [List.map_append, List.map_append, hkinds, hkinds']
    rfl

/-! ### Nesting -/

/-- The depth after some kinds of tokens; nothing when a block is closed that was never opened. -/
def depthAfter : ℕ → List TokenType → Option ℕ
  | depth, [] => some depth
  | depth, kind :: kinds =>
      if kind = .indent then depthAfter (depth + 1) kinds
      else if kind = .dedent then if depth = 0 then none else depthAfter (depth - 1) kinds
      else depthAfter depth kinds

theorem depthAfter_append (depth : ℕ) (kinds more : List TokenType) :
    depthAfter depth (kinds ++ more) = (depthAfter depth kinds).bind (depthAfter · more) := by
  induction kinds generalizing depth with
  | nil => rfl
  | cons kind kinds ih =>
      rw [List.cons_append, depthAfter, depthAfter]
      split_ifs
      · exact ih _
      · rfl
      · exact ih _
      · exact ih _

theorem depthAfter_dedents (depth closed : ℕ) :
    depthAfter (depth + closed) (List.replicate closed .dedent) = some depth := by
  induction closed with
  | zero => rfl
  | succ closed ih =>
      rw [List.replicate_succ, depthAfter, if_neg (by decide), if_pos rfl, if_neg (by omega)]
      exact ih

theorem depthAfter_other (depth : ℕ) (kind : TokenType) (kinds : List TokenType)
    (hindent : kind ≠ .indent) (hdedent : kind ≠ .dedent) :
    depthAfter depth (kind :: kinds) = depthAfter depth kinds := by
  rw [depthAfter, if_neg hindent, if_neg hdedent]

/-- The depth is the length of the stack. -/
theorem depthAfter_requiredChanges (stack : List ℕ) (width : Option ℕ) :
    depthAfter stack.length (requiredChanges stack width) =
      some (requiredStack stack width).length := by
  cases width with
  | none => rfl
  | some width =>
      by_cases hwide : stack.headD 0 < width
      · rw [requiredChanges, requiredStack, if_pos hwide, if_pos hwide, depthAfter, if_pos rfl]
        rfl
      · rw [requiredChanges, requiredStack, if_neg hwide, if_neg hwide]
        have hlen : stack.length = (stack.dropWhile (width < ·)).length +
            (stack.takeWhile (width < ·)).length := by
          rw [Nat.add_comm, ← List.length_append, List.takeWhile_append_dropWhile]
        rw [hlen]
        exact depthAfter_dedents _ _

/-- Where the depth is defined, no part of the list from its start closes more than it opens. -/
theorem count_le_of_depthAfter {depth final : ℕ} (h : depthAfter depth kinds = some final) :
    depth + kinds.count .indent = final + kinds.count .dedent ∧
      ∀ first, first <+: kinds → first.count .dedent ≤ depth + first.count .indent := by
  induction kinds generalizing depth with
  | nil =>
      obtain rfl := Option.some.inj h
      refine ⟨rfl, ?_⟩
      intro first hfirst
      obtain rfl := List.prefix_nil.1 hfirst
      exact Nat.zero_le _
  | cons kind kinds ih =>
      have hfirst : ∀ (d : ℕ), (∀ first, first <+: kinds →
          first.count .dedent ≤ d + first.count .indent) →
          (if kind = .dedent then 1 else 0) + d ≤ depth + (if kind = .indent then 1 else 0) →
          ∀ first, first <+: kind :: kinds →
            first.count .dedent ≤ depth + first.count .indent := by
        intro d hle hd first hfirst
        cases first with
        | nil => exact Nat.zero_le _
        | cons k first =>
            obtain ⟨rfl, htail⟩ := List.cons_prefix_cons.1 hfirst
            have := hle first htail
            rw [List.count_cons, List.count_cons]
            simp only [beq_iff_eq]
            omega
      rw [depthAfter] at h
      rw [List.count_cons, List.count_cons]
      simp only [beq_iff_eq]
      split_ifs at h with hindent hdedent hzero
      · obtain ⟨heq, hle⟩ := ih h
        subst hindent
        exact ⟨by simp only [if_true, reduceCtorEq, if_false]; omega,
          hfirst _ hle (by simp)⟩
      · obtain ⟨heq, hle⟩ := ih h
        subst hdedent
        exact ⟨by simp only [if_true, reduceCtorEq, if_false]; omega,
          hfirst _ hle (by simp; omega)⟩
      · obtain ⟨heq, hle⟩ := ih h
        exact ⟨by rw [if_neg hindent, if_neg hdedent]; omega,
          hfirst _ hle (by rw [if_neg hindent, if_neg hdedent]; omega)⟩

/-- The kinds of the tokens a step adds: those of a line break, one plain kind, or none. -/
theorem scans_kinds (h : Scans l l') :
    ∃ kinds, l'.tokens.map (·.type) = l.tokens.map (·.type) ++ kinds ∧
      ((∃ width, kinds = .newline :: requiredChanges l.indents width ∧
          l'.indents = requiredStack l.indents width) ∨
        ((∀ kind ∈ kinds, Plain kind) ∧ l'.indents = l.indents)) := by
  cases h with
  | atEnd => exact ⟨[], (List.append_nil _).symm, Or.inr ⟨by simp, rfl⟩⟩
  | lineBreak text next hrest hbreak =>
      obtain ⟨newline, marks, hb⟩ := breaks_lineBreak (l.begin.advance text.length)
      refine ⟨_, ?_, Or.inl ⟨_, rfl, hb.indents⟩⟩
      rw [hb.tokens, List.map_append, List.map_cons, hb.newline_type, hb.marks_type]
      rfl
  | token text next kind hrest hcode hplain =>
      exact ⟨[kind], List.map_append, Or.inr ⟨by simpa using hplain, rfl⟩⟩
  | invalid => exact ⟨[], (List.append_nil _).symm, Or.inr ⟨by simp, rfl⟩⟩
  | string cs next lexeme kind column hrest hclosed hplain =>
      exact ⟨[kind], List.map_append, Or.inr ⟨by simpa using hplain, rfl⟩⟩
  | openString => exact ⟨[], (List.append_nil _).symm, Or.inr ⟨by simp, rfl⟩⟩

theorem depthAfter_plain (depth : ℕ) (kinds : List TokenType) (h : ∀ kind ∈ kinds, Plain kind) :
    depthAfter depth kinds = some depth := by
  induction kinds with
  | nil => rfl
  | cons kind kinds ih =>
      rw [List.forall_mem_cons] at h
      rw [depthAfter_other depth kind kinds h.1.1 h.1.2.1]
      exact ih h.2

theorem not_mem_requiredChanges (stack : List ℕ) (width : Option ℕ) :
    .eof ∉ requiredChanges stack width ∧ .newline ∉ requiredChanges stack width := by
  cases width with
  | none => simp [requiredChanges]
  | some width =>
      rw [requiredChanges]
      split_ifs
      · decide
      · simp [List.mem_replicate]

/-- **The run and the nesting**: at every point the depth is the length of the stack, and the end
has not been marked. -/
theorem depthAfter_scanAll (h : scanAll fuel l = some l')
    (hdepth : depthAfter 0 (l.tokens.map (·.type)) = some l.indents.length)
    (hend : .eof ∉ l.tokens.map (·.type)) :
    depthAfter 0 (l'.tokens.map (·.type)) = some l'.indents.length ∧
      .eof ∉ l'.tokens.map (·.type) := by
  refine (scanAll_induction (motive := fun l => depthAfter 0 (l.tokens.map (·.type)) =
    some l.indents.length ∧ .eof ∉ l.tokens.map (·.type)) h ⟨hdepth, hend⟩ ?_).1
  rintro a b ⟨hd, he⟩ hscan
  obtain ⟨kinds, htokens, hkinds⟩ := scans_kinds hscan
  rw [htokens, depthAfter_append, List.mem_append, not_or]
  change (depthAfter 0 (a.tokens.map (·.type))).bind _ = _ ∧ .eof ∉ a.tokens.map (·.type) ∧ _
  rw [hd]
  rcases hkinds with ⟨width, rfl, hstack⟩ | ⟨hplain, hstack⟩
  · rw [hstack]
    refine ⟨?_, he, ?_⟩
    · rw [Option.bind_some, depthAfter_other _ _ _ (by decide) (by decide)]
      exact depthAfter_requiredChanges a.indents width
    · rw [List.mem_cons, not_or]
      exact ⟨by decide, (not_mem_requiredChanges _ _).1⟩
  · rw [hstack]
    exact ⟨depthAfter_plain _ _ hplain, he, fun hmem => (hplain _ hmem).2.2.2 rfl⟩

/-- **Nesting**: no part of the tokens from their start closes more blocks than it opens, and all
blocks are closed. -/
theorem nested_finish (l : Lexer)
    (h : depthAfter 0 (l.tokens.map (·.type)) = some l.indents.length) :
    depthAfter 0 (l.finish.tokens.map (·.type)) = some 0 := by
  obtain ⟨marks, hmarks⟩ := finishes_finish l
  have hclosing : ∀ depth, depthAfter depth (closing (l.tokens.map (·.type))) = some depth := by
    intro depth
    unfold closing
    split
    · rfl
    · split_ifs <;> rfl
  rw [hmarks.tokens, List.map_append, hmarks.kinds, depthAfter_append, h, Option.bind_some,
    depthAfter_append, depthAfter_append, hclosing, Option.bind_some]
  have := depthAfter_dedents 0 l.indents.length
  rw [Nat.zero_add] at this
  rw [this]
  rfl

/-- **The end of the list**: complete lines, the DEDENTs of the open blocks, EOF. -/
theorem complete_finish (l : Lexer) (h : .eof ∉ l.tokens.map (·.type)) :
    ∃ lines closed, l.finish.tokens.map (·.type) =
        lines ++ List.replicate closed .dedent ++ [.eof] ∧
      .eof ∉ lines ∧ (lines = [] ∨ lines.getLast? = some .newline) := by
  obtain ⟨marks, hmarks⟩ := finishes_finish l
  refine ⟨l.tokens.map (·.type) ++ closing (l.tokens.map (·.type)), l.indents.length, ?_, ?_, ?_⟩
  · rw [hmarks.tokens, List.map_append, hmarks.kinds]
    simp only [List.append_assoc]
  · rw [List.mem_append, not_or]
    refine ⟨h, ?_⟩
    unfold closing
    split
    · simp
    · split_ifs <;> simp
  · unfold closing
    cases hlast : (l.tokens.map (·.type)).getLast? with
    | none => exact Or.inl (by rw [List.getLast?_eq_none_iff.1 hlast]; rfl)
    | some kind =>
        right
        dsimp only
        by_cases hkind : kind = .newline
        · rw [if_pos hkind, List.append_nil, hlast, hkind]
        · rw [if_neg hkind, List.getLast?_append]
          rfl

/-! ### Layout -/

theorem LaysOut.congr {stack : List ℕ} {line line' : List Char} {lines : List (List Char)}
    {final : List ℕ} (h : LaysOut stack line lines kinds final)
    (hline : lineWidth line = none ↔ lineWidth line' = none) :
    LaysOut stack line' lines kinds final := by
  have hcontent : ∀ content, LineContent line content → LineContent line' content :=
    fun content hc => ⟨hc.1, hc.2.trans hline⟩
  cases lines with
  | nil => exact ⟨hcontent kinds h.1, h.2⟩
  | cons next lines =>
      obtain ⟨content, tail, hc, hkinds, hrest⟩ := h
      exact ⟨content, tail, hcontent content hc, hkinds, hrest⟩

theorem LaysOut.token {stack : List ℕ} {line line' : List Char} {lines : List (List Char)}
    {final : List ℕ} {kind : TokenType}
    (h : LaysOut stack line lines kinds final) (hkind : Plain kind)
    (hline : lineWidth line' ≠ none) : LaysOut stack line' lines (kind :: kinds) final := by
  have hcontent : ∀ content, LineContent line content → LineContent line' (kind :: content) :=
    fun content hc => ⟨List.forall_mem_cons.2 ⟨hkind, hc.1⟩,
      iff_of_false (List.cons_ne_nil _ _) hline⟩
  cases lines with
  | nil => exact ⟨hcontent kinds h.1, h.2⟩
  | cons next lines =>
      obtain ⟨content, tail, hc, hkinds, hrest⟩ := h
      exact ⟨kind :: content, tail, hcontent content hc, by rw [hkinds]; rfl, hrest⟩

theorem scans_errors (h : Scans l l') : ∃ reported, l'.errors = l.errors ++ reported := by
  cases h with
  | atEnd => exact ⟨[], (List.append_nil _).symm⟩
  | lineBreak text next hrest hbreak =>
      obtain ⟨newline, marks, hb⟩ := breaks_lineBreak (l.begin.advance text.length)
      exact hb.errors
  | token => exact ⟨[], (List.append_nil _).symm⟩
  | invalid => exact ⟨_, rfl⟩
  | string => exact ⟨[], (List.append_nil _).symm⟩
  | openString => exact ⟨_, rfl⟩

theorem scanAll_errors (h : scanAll fuel l = some l')
    (herrors : l'.errors = []) : l.errors = [] := by
  have hrun := scanAll_induction
    (motive := fun l' => ∃ reported, l'.errors = l.errors ++ reported) h
    ⟨[], (List.append_nil _).symm⟩ ?_
  · obtain ⟨⟨reported, hreported⟩, -⟩ := hrun
    rw [herrors] at hreported
    exact (List.append_eq_nil_iff.1 hreported.symm).1
  · rintro a b ⟨first, hfirst⟩ hscan
    obtain ⟨more, hmore⟩ := scans_errors hscan
    refine ⟨first ++ more, ?_⟩
    rw [hmore, ← List.append_assoc, ← hfirst]
    rfl

theorem lineWidth_codeText (h : CodeText text) (rest : List Char) :
    lineWidth (text ++ rest) ≠ none := by
  obtain ⟨⟨c, hc, hblank⟩, hspecial⟩ := h
  obtain ⟨cs, rfl⟩ := List.head?_eq_some_iff.1 hc
  have hne := hspecial c (List.mem_cons_self ..)
  rw [List.cons_append, lineWidth_cons c _ hblank, if_neg (by tauto)]
  exact Option.some_ne_none _

/-- **A step and the layout**: what follows the step, with the tokens of the step before it,
follows the lines from the step on. -/
theorem laysOut_scans (h : Scans l l') (hclean : ¬ Stray .code l.rest) (herrors : l'.errors = []) :
    ¬ Stray .code l'.rest ∧ ∃ kinds, l'.tokens.map (·.type) = l.tokens.map (·.type) ++ kinds ∧
      ∀ more final, LaysOut l'.indents (logicalLines .code l'.rest).1
          (logicalLines .code l'.rest).2 more final →
        LaysOut l.indents (logicalLines .code l.rest).1 (logicalLines .code l.rest).2
          (kinds ++ more) final := by
  cases h with
  | atEnd hend => exact ⟨hclean, [], (List.append_nil _).symm, fun more final hmore => hmore⟩
  | lineBreak text next hrest hbreak =>
      obtain ⟨newline, marks, hb⟩ := breaks_lineBreak (l.begin.advance text.length)
      have hnext := rest_begin_advance hrest
      have hafter := rest_lineBreak hb
      rw [hnext] at hafter
      have hstray : Stray .code l.rest ↔ Stray .code next := by rw [hrest, stray_isBreak hbreak]
      obtain ⟨hclean', -, hlines, hwidth⟩ :=
        (passes_indentation next).clean fun hs => hclean (hstray.2 hs)
      rw [← hafter] at hclean' hlines hwidth
      obtain ⟨line, hsplit, hblank⟩ := logicalLines_isBreak hbreak
      refine ⟨hclean', .newline :: requiredChanges l.indents (lineWidth next), ?_, ?_⟩
      · rw [hb.tokens, List.map_append, List.map_cons, hb.newline_type, hb.marks_type, hnext]
        rfl
      · intro more final hmore
        rw [hrest, hsplit, ← lineWidth_logicalLines next]
        refine ⟨[], more, ⟨by simp, iff_of_true rfl hblank⟩, rfl, ?_⟩
        rw [hb.indents, hnext, hlines] at hmore
        rw [lineWidth_logicalLines]
        exact hmore.congr hwidth
  | token text next kind hrest hcode hplain =>
      have hnext : ((l.begin.advance text.length).addToken kind).rest = next :=
        rest_begin_advance hrest
      refine ⟨?_, [kind], List.map_append, ?_⟩
      · rw [hnext, ← stray_code_append text next fun c hc =>
          ⟨(hcode.2 c hc).2.2.2, (hcode.2 c hc).2.2.1⟩, ← hrest]
        exact hclean
      · intro more final hmore
        rw [hnext] at hmore
        rw [hrest, logicalLines_code_append text next hcode.2]
        exact hmore.token hplain (lineWidth_codeText hcode _)
  | invalid => exact absurd herrors (by simp [report])
  | string cs next lexeme kind column hrest hclosed hplain =>
      have hnext : ({ l.begin.advance ((stringBody cs).length + 2) with
          line := l.line + (stringBody cs).count '\n'
          column := column }.addToken kind lexeme).rest = next :=
        rest_begin_advance_string hrest hclosed
      rw [hrest, stray_quote, stray_closed cs next hclosed, not_or, not_or] at hclean
      refine ⟨?_, [kind], List.map_append, ?_⟩
      · rw [hnext]
        exact hclean.2.2
      · intro more final hmore
        rw [hnext] at hmore
        have hquote : logicalLines .code ('"' :: cs) =
            ('"' :: (logicalLines .string cs).1, (logicalLines .string cs).2) := rfl
        rw [hrest, hquote, logicalLines_closed cs next hclosed]
        refine hmore.token hplain ?_
        rw [lineWidth_cons _ _ (by decide), if_neg (by decide)]
        exact Option.some_ne_none _
  | openString => exact absurd herrors (by simp [report])

/-- **The run and the layout.** -/
theorem laysOut_scanAll (h : scanAll fuel l = some l')
    (hclean : ¬ Stray .code l.rest) (herrors : l'.errors = []) :
    ∃ kinds, l'.tokens.map (·.type) = l.tokens.map (·.type) ++ kinds ∧
      LaysOut l.indents (logicalLines .code l.rest).1 (logicalLines .code l.rest).2 kinds
        l'.indents := by
  induction fuel generalizing l with
  | zero => cases h
  | succ fuel ih =>
      rw [scanAll] at h
      split_ifs at h with hend
      · obtain rfl := Option.some.inj h
        refine ⟨[], (List.append_nil _).symm, ?_⟩
        rw [(isAtEnd_iff l).1 hend]
        exact ⟨⟨by simp, iff_of_true rfl rfl⟩, rfl⟩
      · have hrest : l.begin.skipWhitespace.rest = l.rest.drop (skipped l.rest) := by
          rw [skipWhitespace, rest_advance]
          rfl
        obtain ⟨hclean', -, hlines, hwidth⟩ := (passes_skipped l.rest).clean hclean
        rw [← hrest] at hclean' hlines hwidth
        obtain ⟨hclean'', first, hfirst, hstep⟩ := laysOut_scans (scans_scanToken l.begin) hclean'
          (scanAll_errors h herrors)
        obtain ⟨more, hmore, hlayout⟩ := ih h hclean''
        refine ⟨first ++ more, ?_, ?_⟩
        · rw [hmore, hfirst, List.append_assoc]
          rfl
        · have := hstep more _ hlayout
          rw [hlines] at this
          exact this.congr hwidth

/-! ### The law of the lexer -/

/-- **The lexer and its law**: on every text the lexer ends, and its tokens obey the law exactly
when the text has no line break that the lexer misreads. -/
theorem tokenize_wellTokenized_iff (source : List Char) (filename : String)
    (sourceMap : Option (ℕ → Option (String × ℕ))) :
    ∃ l : Lexer, (∀ fuel, source.length < fuel → tokenize fuel source filename sourceMap = some l) ∧
      (WellTokenized source l.tokens l.errors ↔ ¬ Stray .code source) := by
  let start : Lexer := { source := source, filename := filename, sourceMap := sourceMap }
  obtain ⟨l, hrun⟩ := Option.isSome_iff_exists.1
    (scanAll_isSome (source.length + 1) start (Nat.lt_succ_self _))
  obtain ⟨marks, hmarks⟩ := finishes_finish l
  obtain ⟨hdepth, heof⟩ := depthAfter_scanAll hrun rfl (by simp [start])
  have hnested := count_le_of_depthAfter (nested_finish l hdepth)
  have htime : OnTime start := rfl
  refine ⟨l.finish, ?_, ?_, ?_⟩
  · intro fuel hfuel
    unfold tokenize
    rw [scanAll_mono hrun hfuel]
    rfl
  -- EOF is on time only if nothing was misread
  · intro hlaw hstray
    obtain ⟨hsource, hrest, hlate | ⟨t, hmem, hwrong⟩⟩ := wrongLine_scanAll hrun htime hstray
    · have hmark : ∃ t ∈ marks, t.type = .eof := by
        have hmem : TokenType.eof ∈ marks.map (·.type) := by
          rw [hmarks.kinds]
          exact List.mem_append_right _ (List.mem_singleton_self _)
        exact List.mem_map.1 hmem
      obtain ⟨t, ht, -⟩ := hmark
      obtain ⟨hoffset, hplace⟩ := hmarks.place t ht
      have hline := (rightLine_iff l t hoffset).1 (by
        rw [hsource]
        exact hlaw.lines t (by rw [hmarks.tokens]; exact List.mem_append_right _ ht))
      rw [hplace, hrest, hsource] at hline
      exact hlate.ne hline
    · exact hwrong (hlaw.lines t (by rw [hmarks.tokens]; exact List.mem_append_left _ hmem))
  · intro hclean
    obtain ⟨hsource, ht, hrest, hright⟩ :=
      rightLine_scanAll hrun htime hclean (by simp [start])
    refine ⟨fun kinds hkinds => ?_, ?_, complete_finish l heof, ?_, ?_⟩
    · have := hnested.2 kinds hkinds
      omega
    · have := hnested.1
      omega
    · intro herrors
      rw [hmarks.errors] at herrors
      obtain ⟨kinds, hkinds, hlayout⟩ := laysOut_scanAll hrun hclean herrors
      rw [List.map_nil, List.nil_append] at hkinds
      refine ⟨kinds, l.indents, hlayout, ?_⟩
      rw [hmarks.tokens, List.map_append, hmarks.kinds, hkinds]
      simp only [List.append_assoc]
    · intro t hmem
      rw [hmarks.tokens] at hmem
      rcases List.mem_append.1 hmem with hmem | hmem
      · exact hright t hmem
      · obtain ⟨hoffset, hplace⟩ := hmarks.place t hmem
        have := (rightLine_iff l t hoffset).2 (by rw [hplace]; exact ht)
        rwa [hsource] at this

/-- The text `x = "a⏎b"`, a literal over two lines. -/
def twoLineLiteral : List Char := ['x', '=', '"', 'a', '\n', 'b', '"']

/-- **A literal over two lines carries the number of the second one**: its token begins on the
first line, and no line break stands before it. -/
theorem wellTokenized_fails :
    ∃ l, tokenize 8 twoLineLiteral "" none = some l ∧
      ¬ WellTokenized twoLineLiteral l.tokens l.errors := by
  have htoken : ∃ l, tokenize 8 twoLineLiteral "" none = some l ∧ ∃ t ∈ l.tokens,
      t.type = .string ∧ t.position.line = 2 ∧ t.offset = 2 := by
    refine ⟨((tokenize 8 twoLineLiteral "" none).getD {source := []}), rfl, ?_⟩
    decide
  obtain ⟨l, hrun, t, hmem, -, hline, hoffset⟩ := htoken
  refine ⟨l, hrun, fun hlaw => ?_⟩
  have := hlaw.lines t hmem
  rw [hline, hoffset] at this
  exact absurd this (by decide)

end AtomicProof.Lexer
