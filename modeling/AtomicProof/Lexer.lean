/-
**The lexer.**

`Lexer::tokenize` turns a source text into tokens.  It works on one position of the text at a
time, keeps a line and a column counter beside that position, and turns the leading blanks of a
line into INDENT and DEDENT tokens by a stack of widths.  This module is the lexer as the code
has it; what its tokens say about the text is the subject of `AtomicProof.LexerLayout`.

A `char` of the text is a byte; the lexer tells only ASCII characters apart, every other byte
being neither a blank nor a punctuation mark.  The loop of `tokenize` takes fuel, and
`AtomicProof.Lexer.scanAll_isSome` says how much is enough.

Main definitions:

* `AtomicProof.Lexer` — the state of the lexer;
* `AtomicProof.Lexer.handleIndentation`, `AtomicProof.Lexer.readString`,
  `AtomicProof.Lexer.readAlphaNumeric`, `AtomicProof.Lexer.scanToken`;
* `AtomicProof.Lexer.tokenize` — the whole run;
* `AtomicProof.Lexer.Scans` — what one step can do.

Main results:

* `AtomicProof.Lexer.scans_scanToken` — **the step lemma**: `scanToken` does one of the things
  `Scans` lists;
* `AtomicProof.Lexer.scanAll_isSome` — one unit of fuel for each character, and one more, is
  enough.
-/

import AtomicProof.Operands
import Mathlib.Data.List.TakeWhile
import Mathlib.Data.List.Basic
import Mathlib.Tactic.Common
import Mathlib.Data.Nat.Notation

set_option autoImplicit false

namespace AtomicProof

/-! ### Tokens -/

inductive TokenType
  | init | arrow | contract | library | global | defKeyword | struct | indent | dedent | newline | eof
  | identifier | number | hex | string | address | type | if | else | return | returnValue
  | for | in | assign | lparen | rparen | lbracket | rbracket | lbrace | rbrace | comma | colon
  | plus | minus | star | slash | equal | notEqual | less | greater | lessEqual | greaterEqual
  | dot
  deriving DecidableEq, Repr

/-- Where a token stands: in the text the lexer sees, and, when a source map knows the line, in
the file it came from. -/
structure Position where
  line : ℕ
  column : ℕ
  sourceFilename : String := ""
  sourceLine : ℕ := 0
  sourceColumn : ℕ := 0
  hasSourceLocation : Bool := false
  deriving DecidableEq, Repr

/-- A token.  `offset` is the number of characters of the text before it; the code does not keep
it, and the results about line numbers read it. -/
structure Token where
  type : TokenType
  value : String
  position : Position
  offset : ℕ
  deriving DecidableEq, Repr

/-- The constructor of `Token`: it moves the columns back by the length of the value, to the
start of the token. -/
def Token.make (kind : TokenType) (value : String) (pos : Position) (offset : ℕ) : Token :=
  let back := fun column : ℕ => if value.length < column then column - value.length else 1
  { type := kind, value := value, offset := offset
    position := { pos with
      column := back pos.column
      sourceColumn := if pos.hasSourceLocation then back pos.sourceColumn
        else pos.sourceColumn } }

structure LexicalError where
  message : String
  filename : String
  line : ℕ
  column : ℤ
  length : ℕ
  suggestion : String
  deriving DecidableEq, Repr

/-! ### Character classes -/

def isBlank (c : Char) : Bool := c = ' ' || c = '\t'

def isDigit (c : Char) : Bool := 48 ≤ c.toNat && c.toNat ≤ 57

def isAlpha (c : Char) : Bool :=
  (65 ≤ c.toNat && c.toNat ≤ 90) || (97 ≤ c.toNat && c.toNat ≤ 122)

/-- `std::ispunct`: a printing character that is neither a blank, a letter nor a digit. -/
def isPunct (c : Char) : Bool := 33 ≤ c.toNat && c.toNat ≤ 126 && !isAlpha c && !isDigit c

def shouldStop (c : Char) : Bool := isSpace c || (isPunct c && c ≠ '_')

/-- `Lexer::isBitcoinAddress`: 34 characters of the Base58 alphabet, the first being `1`. -/
def isBitcoinAddress (str : List Char) : Bool :=
  str.length = 34 && str.head? = some '1' &&
    str.tail.all fun c =>
      (isDigit c || isAlpha c) && !(['0', 'O', 'I', 'l'].contains c)

/-! ### The state -/

/-- The state of the lexer: the text, the start of the token being read, the position reached
with its line and column, and what has been produced.  The stack of widths has its top first. -/
structure Lexer where
  source : List Char
  filename : String := ""
  sourceMap : Option (ℕ → Option (String × ℕ)) := none
  start : ℕ := 0
  current : ℕ := 0
  line : ℕ := 1
  column : ℕ := 1
  tokens : List Token := []
  indents : List ℕ := []
  errors : List LexicalError := []

namespace Lexer

/-- The text from the current position on. -/
def rest (l : Lexer) : List Char := l.source.drop l.current

/-- The text from the start of the token to the current position. -/
def text (l : Lexer) : List Char := (l.source.drop l.start).take (l.current - l.start)

def isAtEnd (l : Lexer) : Bool := l.source.length ≤ l.current

/-- `Lexer::advance`, for `n` characters. -/
def advance (l : Lexer) (n : ℕ) : Lexer :=
  { l with current := l.current + n, column := l.column + n }

def begin (l : Lexer) : Lexer := { l with start := l.current }

def newLine (l : Lexer) : Lexer := { l with line := l.line + 1, column := 1 }

/-- `Lexer::peek`; nothing at the end of the text. -/
def peek (l : Lexer) : Option Char := l.rest.head?

/-- The position of a token that ends here. -/
def position (l : Lexer) : Position :=
  match l.sourceMap with
  | none => { line := l.line, column := l.column }
  | some lookup =>
      match lookup l.line with
      | none => { line := l.line, column := l.column }
      | some (file, sourceLine) =>
          { line := l.line, column := l.column, sourceFilename := file
            sourceLine := sourceLine, sourceColumn := l.column
            hasSourceLocation := file ≠ "" }

/-- `Lexer::addToken`, with the offset the token is given. -/
def addTokenAt (l : Lexer) (offset : ℕ) (kind : TokenType) (lexeme : List Char) : Lexer :=
  let value := if lexeme.isEmpty then l.text else lexeme
  { l with
    tokens := l.tokens ++
      [Token.make kind (escapeString (String.ofList value)) l.position offset] }

/-- A token of the text: it begins where the scan of it began. -/
def addToken (l : Lexer) (kind : TokenType) (lexeme : List Char := []) : Lexer :=
  l.addTokenAt l.start kind lexeme

/-- A token that stands for no text of its own: it is placed at the current position. -/
def addMark (l : Lexer) (kind : TokenType) : Lexer := l.addTokenAt l.current kind []

/-- `LEXICAL_ERROR` at a column of the current line. -/
def report (l : Lexer) (message : String) (column : ℤ) (length : ℕ) (suggestion : String) :
    Lexer :=
  { l with
    errors := l.errors ++
      [{ message := message, filename := l.filename, line := l.line, column := column
         length := length, suggestion := suggestion }] }

/-! ### Blanks, comments and indentation -/

/-- The length of a comment: up to the next line feed, which is not part of it. -/
def commentLength (cs : List Char) : ℕ := (cs.takeWhile (· ≠ '\n')).length

/-- The characters `Lexer::skipWhitespace` passes.  After a comment the loop goes round once more
and stops, at a line feed or at the end. -/
def skipped : List Char → ℕ
  | [] => 0
  | c :: cs =>
      if isBlank c then skipped cs + 1
      else if c = '#' then commentLength (c :: cs)
      else 0

def skipWhitespace (l : Lexer) : Lexer := l.advance (skipped l.rest)

/-- `Lexer::getNextLogicalLine`: the rest of the line without its leading blanks. -/
def getNextLogicalLine (l : Lexer) : List Char :=
  (l.rest.dropWhile isBlank).takeWhile fun c => c ≠ '\n' && c ≠ '\r'

/-- The regular expression `^[ \t]*(#.*)?$`, on a text of one line. -/
def emptyOrCommentLine (line : List Char) : Bool :=
  match line.dropWhile isBlank with
  | [] => true
  | c :: _ => c = '#'

/-- The loop that closes the blocks wider than `newIndent`. -/
def popIndents (newIndent : ℕ) : List ℕ → Lexer → Lexer
  | [], l => l
  | top :: below, l =>
      if newIndent < top then popIndents newIndent below ({ l with indents := below }.addMark .dedent)
      else l

/-- The end of `Lexer::handleIndentation`: the stack is brought to the new width. -/
def indentTo (l : Lexer) (newIndent : ℕ) : Lexer :=
  match l.indents with
  | [] => if 0 < newIndent then { l with indents := [newIndent] }.addMark .indent else l
  | lastIndent :: _ =>
      if lastIndent < newIndent then { l with indents := newIndent :: l.indents }.addMark .indent
      else if newIndent < lastIndent then
        let l := popIndents newIndent l.indents l
        if l.indents.headD 0 ≠ newIndent then
          l.report ("inconsistent dedent level. Expected indentation to match a previous " ++
              "level, got " ++ toString newIndent ++ " spaces") l.column 1
            "Check your indentation levels and ensure they match previous indentation"
        else l
      else l

def handleIndentation (l : Lexer) : Lexer :=
  let newIndent := (l.rest.takeWhile isBlank).length
  let l' := { l with column := l.column + newIndent }
  match l.rest.dropWhile isBlank with
  | [] => { l' with line := l.line + 1 }
  | c :: _ =>
      if c = '\n' ∨ c = '\r' ∨ c = '#' then { l' with line := l.line + 1 }
      else { l' with current := l.current + newIndent }.indentTo newIndent

/-- The counters of a new line, and its indentation unless it is empty or a comment. -/
def nextLine (l : Lexer) : Lexer :=
  let l := l.newLine
  if emptyOrCommentLine l.getNextLogicalLine then l else l.handleIndentation

/-- A line break: the NEWLINE token and what the next line needs. -/
def lineBreak (l : Lexer) : Lexer := (l.addToken .newline).nextLine

/-! ### String literals -/

/-- The loop of `Lexer::readString`: to the closing quote or the end, a backslash taking the next
character with it, and each line feed counted. -/
def scanString : List Char → Lexer → Lexer
  | [], l => l
  | '"' :: _, l => l
  | ['\\'], l => l.advance 1
  | '\\' :: d :: ds, l =>
      let l := l.advance 1
      scanString ds ((if d = '\n' then l.newLine else l).advance 1)
  | c :: cs, l => scanString cs ((if c = '\n' then l.newLine else l).advance 1)

def readString (l : Lexer) : Lexer :=
  let start := l.current
  let l := scanString l.rest l
  if l.isAtEnd then
    l.report "unterminated string literal" ((l.column : ℤ) - (l.current - start : ℕ)) 1
      "Add closing quote (\") to terminate the string"
  else
    let strValue := (l.source.drop start).take (l.current - start)
    let l := l.advance 1
    if isBitcoinAddress strValue then l.addToken .address strValue
    else l.addToken .string strValue

/-! ### Words -/

def keywords (text : List Char) : Option TokenType :=
  match String.ofList text with
  | "def" => some .defKeyword
  | "Struct" => some .struct
  | "Contract" => some .contract
  | "Library" => some .library
  | "global" => some .global
  | "if" => some .if
  | "else" => some .else
  | "Return" => some .return
  | "return" => some .returnValue
  | "for" => some .for
  | "in" => some .in
  | _ => none

/-- The search of `Lexer::isInBraceTypeContext`, over the kinds from the last one back; `later`
holds the kinds already passed. -/
def braceTypeContext (later : List TokenType) : List TokenType → Bool
  | [] => false
  | kind :: before =>
      if kind = .lbrace then before.head? = some .arrow && !later.contains .return
      else if kind = .rbrace || kind = .newline || kind = .colon then false
      else braceTypeContext (kind :: later) before

def isInBraceTypeContext (l : Lexer) : Bool :=
  2 ≤ l.tokens.length && braceTypeContext [] (l.tokens.map (·.type)).reverse

def getPreviousTokenType (l : Lexer) : TokenType :=
  (l.tokens.getLast?.map (·.type)).getD .eof

/-- Whether a word stands where a type is expected. -/
def isTypeContext (l : Lexer) : Bool :=
  match l.getPreviousTokenType with
  | .colon => true
  | .arrow => true
  | .lbrace => l.isInBraceTypeContext
  | .comma => l.isInBraceTypeContext
  | _ => false

/-- The regular expression `^[_a-zA-Z][_a-zA-Z0-9]*$`. -/
def identifierPattern : List Char → Bool
  | [] => false
  | c :: cs =>
      (c = '_' || isAlpha c) && cs.all fun d => d = '_' || isAlpha d || isDigit d

/-- A word that is neither a number nor a keyword: a type or an identifier, by its context. -/
def addWord (l : Lexer) (text : List Char) : Lexer :=
  if l.isTypeContext then l.addToken .type
  else if identifierPattern text then l.addToken .identifier
  else
    l.report ("invalid identifier '" ++ String.ofList text ++ "'")
      ((l.column : ℤ) - text.length) text.length
      (if text.any fun c => 127 < c.toNat then
        "Identifiers cannot contain non-ASCII characters. Use " ++
          "ASCII letters, digits, and underscores only"
      else
        "Identifiers must start with a letter or underscore, " ++
          "followed by letters, digits, or underscores")

/-- The token of a word that has been read: a number, a hexadecimal number with at least one
digit, a keyword, or a word like any other. -/
def classify (l : Lexer) (isNumber isHexNumber : Bool) : Lexer :=
  if isNumber then l.addToken .number
  else if isHexNumber && 2 < l.text.length then l.addToken .hex
  else
    match keywords l.text with
    | some kind => l.addToken kind
    | none => l.addWord l.text

/-- `Lexer::readAlphaNumeric`, the first character of the word having been read. -/
def readAlphaNumeric (l : Lexer) (c : Char) : Lexer :=
  let hexStart : Bool := c = '0' && (l.peek = some 'x' || l.peek = some 'X')
  let l := if hexStart then l.advance 1 else l
  let word := l.rest.takeWhile fun d => !shouldStop d
  let isNumber : Bool := isDigit c && !hexStart && word.all isDigit
  let isHexNumber : Bool := hexStart && word.all isXDigit
  (l.advance word.length).classify isNumber isHexNumber

/-! ### The scanner -/

/-- A token of one character, or of two when the second is as given. -/
def addPair (l : Lexer) (second : Char) (pair single : TokenType) : Lexer :=
  if l.peek = some second then (l.advance 1).addToken pair else l.addToken single

def scanToken (l : Lexer) : Lexer :=
  let l := l.skipWhitespace
  match l.rest with
  | [] => l
  | c :: _ =>
      let l := l.begin.advance 1
      match c with
      | '(' => l.addToken .lparen
      | ')' => l.addToken .rparen
      | '[' => l.addToken .lbracket
      | ']' => l.addToken .rbracket
      | '{' => l.addToken .lbrace
      | '}' => l.addToken .rbrace
      | '+' => l.addToken .plus
      | '-' => l.addPair '>' .arrow .minus
      | '*' => l.addToken .star
      | '/' => l.addToken .slash
      | ':' => l.addToken .colon
      | '.' => l.addToken .dot
      | ',' => l.addToken .comma
      | '=' => l.addPair '=' .equal .assign
      | '!' =>
          if l.peek = some '=' then (l.advance 1).addToken .notEqual
          else
            l.report "unexpected character '!'" ((l.column : ℤ) - 1) 1
              ("Use the Not(...) built-in for logical negation, or use " ++
                "'!=' for inequality")
      | '<' => l.addPair '=' .lessEqual .less
      | '>' => l.addPair '=' .greaterEqual .greater
      | '\r' => if l.peek = some '\n' then (l.advance 1).lineBreak else l.lineBreak
      | '\n' => l.lineBreak
      | '"' => l.readString
      | _ => l.readAlphaNumeric c

/-- The loop of `Lexer::tokenize`; nothing when the fuel is used up. -/
def scanAll : ℕ → Lexer → Option Lexer
  | 0, _ => none
  | fuel + 1, l =>
      if l.isAtEnd then some l else scanAll fuel l.begin.scanToken

/-- The blocks still open at the end of the text. -/
def closeBlocks : List ℕ → Lexer → Lexer
  | [], l => l
  | _ :: below, l => closeBlocks below ({ l with indents := below }.addMark .dedent)

/-- The NEWLINE of a last line that has tokens and no end. -/
def completeLine (l : Lexer) : Lexer :=
  match l.tokens.getLast? with
  | none => l
  | some last => if last.type = .newline then l else l.addMark .newline

/-- What `Lexer::tokenize` does after the loop: the NEWLINE of an unfinished last line, the
DEDENTs of the open blocks, EOF. -/
def finish (l : Lexer) : Lexer :=
  let l := l.completeLine
  (closeBlocks l.indents l).addMark .eof

/-- `Lexer::tokenize` on a new lexer. -/
def tokenize (fuel : ℕ) (source : List Char) (filename : String)
    (sourceMap : Option (ℕ → Option (String × ℕ))) : Option Lexer :=
  (scanAll fuel { source := source, filename := filename, sourceMap := sourceMap }).map finish

/-! ### What one step can do -/

theorem advance_advance (l : Lexer) (m n : ℕ) : (l.advance m).advance n = l.advance (m + n) := by
  simp only [advance, Nat.add_assoc]

@[simp] theorem rest_advance (l : Lexer) (n : ℕ) : (l.advance n).rest = l.rest.drop n := by
  simp only [rest, advance, List.drop_drop]

@[simp] theorem rest_newLine (l : Lexer) : l.newLine.rest = l.rest := rfl

@[simp] theorem position_line (l : Lexer) : l.position.line = l.line := by
  unfold position
  split
  · rfl
  · split <;> rfl

theorem isAtEnd_iff (l : Lexer) : l.isAtEnd = true ↔ l.rest = [] := by
  simp only [isAtEnd, rest, decide_eq_true_eq, List.drop_eq_nil_iff]

/-- The body of a string literal: the characters the loop of `readString` passes. -/
def stringBody : List Char → List Char
  | [] => []
  | '"' :: _ => []
  | ['\\'] => ['\\']
  | '\\' :: d :: ds => '\\' :: d :: stringBody ds
  | c :: cs => c :: stringBody cs

/-- The characters of a text that is neither blank, comment, literal nor line break. -/
def CodeText (text : List Char) : Prop :=
  (∃ c, text.head? = some c ∧ isBlank c = false) ∧
    ∀ c ∈ text, c ≠ '\n' ∧ c ≠ '\r' ∧ c ≠ '"' ∧ c ≠ '#'

/-- The three spellings of a line break; a carriage return before a line feed is none. -/
def IsBreak (text next : List Char) : Prop :=
  text = ['\r', '\n'] ∨ text = ['\n'] ∨ (text = ['\r'] ∧ next.head? ≠ some '\n')

/-- A kind of token that stands for text of a line. -/
def Plain (kind : TokenType) : Prop :=
  kind ≠ .indent ∧ kind ≠ .dedent ∧ kind ≠ .newline ∧ kind ≠ .eof

@[simp] theorem rest_begin (l : Lexer) : l.begin.rest = l.rest := rfl

/-- **What one step can do**, once blanks and comments are behind. -/
inductive Scans (l : Lexer) : Lexer → Prop
  /-- The end of the text. -/
  | atEnd : l.rest = [] → Scans l l
  /-- A line break. -/
  | lineBreak (text next : List Char) : l.rest = text ++ next → IsBreak text next →
      Scans l (l.begin.advance text.length).lineBreak
  /-- A token that is not a literal in quotes. -/
  | token (text next : List Char) (kind : TokenType) : l.rest = text ++ next → CodeText text →
      Plain kind → Scans l ((l.begin.advance text.length).addToken kind)
  /-- A text that is no token. -/
  | invalid (text next : List Char) (message : String) (column : ℤ) (length : ℕ)
      (suggestion : String) : l.rest = text ++ next → CodeText text →
      Scans l ((l.begin.advance text.length).report message column length suggestion)
  /-- A string literal; its line is the one it ends on. -/
  | string (cs next lexeme : List Char) (kind : TokenType) (column : ℕ) : l.rest = '"' :: cs →
      cs = stringBody cs ++ '"' :: next → Plain kind →
      Scans l ({ l.begin.advance ((stringBody cs).length + 2) with
        line := l.line + (stringBody cs).count '\n'
        column := column }.addToken kind lexeme)
  /-- A string literal without an end. -/
  | openString (cs : List Char) (column : ℕ) (message : String) (at' : ℤ) (length : ℕ)
      (suggestion : String) : l.rest = '"' :: cs → cs = stringBody cs →
      Scans l ({ l.begin.advance ((stringBody cs).length + 1) with
        line := l.line + (stringBody cs).count '\n'
        column := column }.report message at' length suggestion)

/-! ### The step lemma -/

theorem drop_length_takeWhile {α : Type} (p : α → Bool) (xs : List α) :
    xs.drop (xs.takeWhile p).length = xs.dropWhile p := by
  have h : (xs.takeWhile p ++ xs.dropWhile p).drop (xs.takeWhile p).length = xs.dropWhile p :=
    List.drop_left
  rwa [List.takeWhile_append_dropWhile] at h

/-- What `skipWhitespace` leaves begins with neither a blank nor a comment. -/
theorem head_drop_skipped (cs : List Char) (c : Char)
    (h : (cs.drop (skipped cs)).head? = some c) : isBlank c = false ∧ c ≠ '#' := by
  induction cs with
  | nil => simp at h
  | cons d ds ih =>
      rw [skipped] at h
      split_ifs at h with hblank hcomment
      · exact ih (by simpa using h)
      -- after a comment comes a line feed
      · have hdrop : (d :: ds).drop (commentLength (d :: ds)) =
            (d :: ds).dropWhile (· ≠ '\n') := by
          rw [commentLength, drop_length_takeWhile]
        rw [hdrop] at h
        have hc : c = '\n' := by
          have := List.head?_dropWhile_not (· ≠ '\n') (d :: ds)
          rw [h] at this
          simpa using this
        subst hc
        exact ⟨by decide, by decide⟩
      · simp only [List.drop_zero, List.head?_cons, Option.some.injEq] at h
        subst h
        exact ⟨by simpa using hblank, hcomment⟩

theorem stringBody_cons (c : Char) (cs : List Char) (hquote : c ≠ '"') (hslash : c ≠ '\\') :
    stringBody (c :: cs) = c :: stringBody cs := by
  rw [stringBody]
  · exact hquote
  · intro h
    exact absurd h hslash
  · intro d ds h
    exact absurd h hslash

/-- The text after the opening quote is the body, and then the closing quote if there is one. -/
theorem stringBody_append (cs : List Char) :
    cs = stringBody cs ∨ ∃ next, cs = stringBody cs ++ '"' :: next := by
  induction cs using stringBody.induct with
  | case1 => exact Or.inl rfl
  | case2 cs => exact Or.inr ⟨cs, rfl⟩
  | case3 => exact Or.inl rfl
  | case4 d ds ih =>
      rw [stringBody]
      rcases ih with h | ⟨next, h⟩
      · exact Or.inl (by rw [← h])
      · exact Or.inr ⟨next, by rw [List.cons_append, List.cons_append, ← h]⟩
  | case5 c cs hquote hslash hpair ih =>
      have hc : c ≠ '\\' := by
        rintro rfl
        cases cs with
        | nil => exact hslash rfl rfl
        | cons d ds => exact hpair d ds rfl rfl
      rw [stringBody_cons c cs (fun h => hquote h) hc]
      rcases ih with h | ⟨next, h⟩
      · exact Or.inl (by rw [← h])
      · exact Or.inr ⟨next, by rw [List.cons_append, ← h]⟩

/-- The loop of `readString` passes the body and counts its line feeds. -/
theorem scanString_eq (cs : List Char) (l : Lexer) :
    ∃ column, scanString cs l =
      { l with
        current := l.current + (stringBody cs).length
        line := l.line + (stringBody cs).count '\n'
        column := column } := by
  induction cs using stringBody.induct generalizing l with
  | case1 => exact ⟨l.column, rfl⟩
  | case2 cs => exact ⟨l.column, rfl⟩
  | case3 => exact ⟨l.column + 1, rfl⟩
  | case4 d ds ih =>
      obtain ⟨column, h⟩ := ih ((if d = '\n' then (l.advance 1).newLine else l.advance 1).advance 1)
      refine ⟨column, ?_⟩
      have hslash : ('\\' == '\n') = false := by decide
      rw [scanString, h, stringBody, List.count_cons, List.count_cons, hslash]
      by_cases hd : d = '\n'
      · subst hd
        simp only [if_true, advance, newLine, List.length_cons, beq_self_eq_true, Bool.false_eq_true,
          if_false, Lexer.mk.injEq, true_and, and_true]
        omega
      · simp only [if_neg hd, advance, List.length_cons, beq_iff_eq, Bool.false_eq_true, if_false,
          Lexer.mk.injEq, true_and, and_true]
        omega
  | case5 c cs hquote hslash hpair ih =>
      have hc : c ≠ '\\' := by
        rintro rfl
        cases cs with
        | nil => exact hslash rfl rfl
        | cons d ds => exact hpair d ds rfl rfl
      obtain ⟨column, h⟩ := ih ((if c = '\n' then l.newLine else l).advance 1)
      refine ⟨column, ?_⟩
      rw [scanString, h, stringBody_cons c cs (fun h => hquote h) hc, List.count_cons]
      · by_cases hd : c = '\n'
        · subst hd
          simp only [if_true, advance, newLine, List.length_cons, beq_self_eq_true,
            Lexer.mk.injEq, true_and, and_true]
          omega
        · simp only [if_neg hd, advance, List.length_cons, beq_iff_eq, Lexer.mk.injEq, true_and,
            and_true]
          omega
      · exact hquote
      · exact hslash
      · exact hpair

/-- Reading a string literal, the opening quote having been read. -/
theorem scans_readString (l : Lexer) (cs : List Char) (h : l.rest = '"' :: cs) :
    Scans l (l.begin.advance 1).readString := by
  have hrest : (l.begin.advance 1).rest = cs := by
    rw [rest_advance, rest_begin, h]
    rfl
  obtain ⟨column, hscan⟩ := scanString_eq cs (l.begin.advance 1)
  have hafter : (scanString cs (l.begin.advance 1)).rest = cs.drop (stringBody cs).length := by
    rw [hscan]
    change l.source.drop (l.current + 1 + (stringBody cs).length) = _
    rw [← List.drop_drop]
    exact congrArg (List.drop _) hrest
  unfold readString
  rw [hrest]
  dsimp only
  rcases stringBody_append cs with hopen | ⟨next, hclosed⟩
  · have hend : (scanString cs (l.begin.advance 1)).isAtEnd = true := by
      rw [isAtEnd_iff, hafter]
      exact List.drop_eq_nil_of_le (le_of_eq (congrArg List.length hopen))
    rw [if_pos hend]
    have := Scans.openString cs column "unterminated string literal"
      (((scanString cs (l.begin.advance 1)).column : ℤ) -
        ((scanString cs (l.begin.advance 1)).current - (l.begin.advance 1).current : ℕ)) 1
      "Add closing quote (\") to terminate the string" h hopen
    convert this using 2
    rw [hscan]
    simp only [advance, begin, Lexer.mk.injEq, true_and, and_true]
    omega
  · have hend : ¬ (scanString cs (l.begin.advance 1)).isAtEnd = true := by
      have hdrop : cs.drop (stringBody cs).length = '"' :: next :=
        (congrArg (List.drop _) hclosed).trans List.drop_left
      rw [isAtEnd_iff, hafter, hdrop]
      exact List.cons_ne_nil _ _
    rw [if_neg hend]
    have hstate : (scanString cs (l.begin.advance 1)).advance 1 =
        { l.begin.advance ((stringBody cs).length + 2) with
          line := l.line + (stringBody cs).count '\n'
          column := column + 1 } := by
      rw [hscan]
      simp only [advance, begin, Lexer.mk.injEq, true_and, and_true]
      omega
    rw [hstate]
    split_ifs
    · exact Scans.string cs next _ .address _ h hclosed (by simp [Plain])
    · exact Scans.string cs next _ .string _ h hclosed (by simp [Plain])

theorem codeText_of_all (c : Char) (cs : List Char) (hblank : isBlank c = false)
    (h : ∀ d ∈ c :: cs, d ≠ '\n' ∧ d ≠ '\r' ∧ d ≠ '"' ∧ d ≠ '#') : CodeText (c :: cs) :=
  ⟨⟨c, rfl, hblank⟩, h⟩

theorem ne_special_of_not_stop (d : Char) (h : shouldStop d = false) :
    d ≠ '\n' ∧ d ≠ '\r' ∧ d ≠ '"' ∧ d ≠ '#' := by
  refine ⟨?_, ?_, ?_, ?_⟩
  all_goals
    rintro rfl
    exact absurd h (by decide)

theorem plain_keywords (text : List Char) (kind : TokenType) (h : keywords text = some kind) :
    Plain kind := by
  unfold keywords at h
  split at h <;> first
    | (obtain rfl := Option.some.inj h; simp [Plain])
    | cases h

theorem scans_classify (l : Lexer) (text next : List Char) (isNumber isHexNumber : Bool)
    (h : l.rest = text ++ next) (hcode : CodeText text) :
    Scans l ((l.begin.advance text.length).classify isNumber isHexNumber) := by
  unfold classify
  split_ifs
  · exact Scans.token text next .number h hcode (by simp [Plain])
  · exact Scans.token text next .hex h hcode (by simp [Plain])
  · split
    · rename_i kind hkind
      exact Scans.token text next kind h hcode (plain_keywords _ _ hkind)
    · unfold addWord
      split_ifs
      · exact Scans.token text next .type h hcode (by simp [Plain])
      · exact Scans.token text next .identifier h hcode (by simp [Plain])
      · exact Scans.invalid text next _ _ _ _ h hcode
      · exact Scans.invalid text next _ _ _ _ h hcode

/-- Reading a word, its first character having been read. -/
theorem scans_readAlphaNumeric (l : Lexer) (c : Char) (cs : List Char) (h : l.rest = c :: cs)
    (hblank : isBlank c = false) (hc : c ≠ '\n' ∧ c ≠ '\r' ∧ c ≠ '"' ∧ c ≠ '#') :
    Scans l ((l.begin.advance 1).readAlphaNumeric c) := by
  have hrest : (l.begin.advance 1).rest = cs := by
    rw [rest_advance, rest_begin, h]
    rfl
  -- the word: the first character, the `x` of a hexadecimal number, and the run up to a stop
  have hword : ∃ text next, l.rest = text ++ next ∧ CodeText text ∧
      ∀ hexStart : Bool, hexStart = ((c = '0' : Bool) && ((l.begin.advance 1).peek = some 'x' ||
          (l.begin.advance 1).peek = some 'X')) →
        (let l₁ := if hexStart then (l.begin.advance 1).advance 1 else l.begin.advance 1
         l₁.advance (l₁.rest.takeWhile fun d => !shouldStop d).length) =
          l.begin.advance text.length := by
    by_cases hhex : ((c = '0' : Bool) && ((l.begin.advance 1).peek = some 'x' ||
        (l.begin.advance 1).peek = some 'X')) = true
    · rw [peek, hrest] at hhex
      obtain ⟨x, xs, hcs, hx⟩ : ∃ x xs, cs = x :: xs ∧ (x = 'x' ∨ x = 'X') := by
        cases cs with
        | nil => simp at hhex
        | cons x xs =>
            simp only [List.head?_cons, Option.some.injEq, Bool.and_eq_true, decide_eq_true_eq,
              Bool.or_eq_true] at hhex
            exact ⟨x, xs, rfl, hhex.2⟩
      refine ⟨c :: x :: xs.takeWhile (fun d => !shouldStop d), xs.dropWhile (fun d => !shouldStop d), ?_, ?_, ?_⟩
      · rw [h, hcs, List.cons_append, List.cons_append, List.takeWhile_append_dropWhile]
      · refine codeText_of_all c _ hblank ?_
        intro d hd
        rcases List.mem_cons.1 hd with rfl | hd
        · exact hc
        rcases List.mem_cons.1 hd with rfl | hd
        · rcases hx with rfl | rfl <;> decide
        · exact ne_special_of_not_stop d (by simpa using List.mem_takeWhile_imp hd)
      · intro hexStart hstart
        rw [hstart, peek, hrest, hhex]
        simp only [if_true, advance_advance, rest_advance, rest_begin, h, hcs, List.drop_succ_cons,
          List.drop_zero, List.length_cons]
        congr 1
        omega
    · refine ⟨c :: cs.takeWhile (fun d => !shouldStop d), cs.dropWhile (fun d => !shouldStop d), ?_, ?_, ?_⟩
      · rw [h, List.cons_append, List.takeWhile_append_dropWhile]
      · refine codeText_of_all c _ hblank ?_
        intro d hd
        rcases List.mem_cons.1 hd with rfl | hd
        · exact hc
        · exact ne_special_of_not_stop d (by simpa using List.mem_takeWhile_imp hd)
      · intro hexStart hstart
        dsimp only
        rw [hstart, if_neg hhex, hrest, advance_advance, List.length_cons, Nat.add_comm]
  obtain ⟨text, next, htext, hcode, hstate⟩ := hword
  unfold readAlphaNumeric
  dsimp only
  rw [hstate _ rfl]
  exact scans_classify l text next _ _ htext hcode

theorem scans_addPair (l : Lexer) (c second : Char) (cs : List Char) (pair single : TokenType)
    (h : l.rest = c :: cs) (hblank : isBlank c = false)
    (hc : c ≠ '\n' ∧ c ≠ '\r' ∧ c ≠ '"' ∧ c ≠ '#')
    (hsecond : second ≠ '\n' ∧ second ≠ '\r' ∧ second ≠ '"' ∧ second ≠ '#')
    (hpair : Plain pair) (hsingle : Plain single) :
    Scans l ((l.begin.advance 1).addPair second pair single) := by
  have hrest : (l.begin.advance 1).rest = cs := by
    rw [rest_advance, rest_begin, h]
    rfl
  unfold addPair
  rw [peek, hrest]
  split_ifs with hpeek
  · obtain ⟨xs, rfl⟩ : ∃ xs, cs = second :: xs := by
      cases cs with
      | nil => cases hpeek
      | cons x xs =>
          obtain rfl := Option.some.inj hpeek
          exact ⟨xs, rfl⟩
    rw [advance_advance]
    refine Scans.token [c, second] xs pair h (codeText_of_all c [second] hblank ?_) hpair
    simp only [List.mem_cons, List.not_mem_nil, or_false]
    rintro d (rfl | rfl)
    · exact hc
    · exact hsecond
  · refine Scans.token [c] cs single h (codeText_of_all c [] hblank ?_) hsingle
    simpa using hc

/-- **The step lemma**: past blanks and comments, a step of the lexer does one of the things
`Scans` lists. -/
theorem scans_scanToken (l : Lexer) : Scans l.skipWhitespace l.scanToken := by
  unfold scanToken
  dsimp only
  split
  · rename_i hrest
    exact Scans.atEnd hrest
  · rename_i c cs hrest
    have hhead : isBlank c = false ∧ c ≠ '#' := by
      refine head_drop_skipped l.rest c ?_
      rw [skipWhitespace, rest_advance] at hrest
      rw [hrest]
      rfl
    have hsingle : ∀ kind, Plain kind → c ≠ '\n' ∧ c ≠ '\r' ∧ c ≠ '"' →
        Scans l.skipWhitespace ((l.skipWhitespace.begin.advance 1).addToken kind) := by
      intro kind hkind hc
      refine Scans.token [c] cs kind hrest (codeText_of_all c [] hhead.1 ?_) hkind
      simpa using ⟨hc.1, hc.2.1, hc.2.2, hhead.2⟩
    have hpairs : ∀ second pair single, second ≠ '\n' ∧ second ≠ '\r' ∧ second ≠ '"' ∧ second ≠ '#' →
        Plain pair → Plain single → c ≠ '\n' ∧ c ≠ '\r' ∧ c ≠ '"' →
        Scans l.skipWhitespace ((l.skipWhitespace.begin.advance 1).addPair second pair single) := by
      intro second pair single hsecond hpair hplain hc
      exact scans_addPair _ c second cs pair single hrest hhead.1
        ⟨hc.1, hc.2.1, hc.2.2, hhead.2⟩ hsecond hpair hplain
    have hpeek : (l.skipWhitespace.begin.advance 1).peek = cs.head? := by
      rw [peek, rest_advance, rest_begin, hrest]
      rfl
    split
    case h_15 =>
      -- an exclamation mark must be followed by an equals sign
      split_ifs with heq
      · obtain ⟨xs, rfl⟩ : ∃ xs, cs = '=' :: xs := by
          rw [hpeek] at heq
          cases cs with
          | nil => cases heq
          | cons x xs =>
              obtain rfl := Option.some.inj heq
              exact ⟨xs, rfl⟩
        rw [advance_advance]
        exact Scans.token ['!', '='] xs .notEqual hrest
          (codeText_of_all _ _ (by decide) (by simp)) (by simp [Plain])
      · exact Scans.invalid ['!'] cs _ _ _ _ hrest
          (codeText_of_all _ _ (by decide) (by simp))
    case h_18 =>
      split_ifs with hlf
      · obtain ⟨xs, rfl⟩ : ∃ xs, cs = '\n' :: xs := by
          rw [hpeek] at hlf
          cases cs with
          | nil => cases hlf
          | cons x xs =>
              obtain rfl := Option.some.inj hlf
              exact ⟨xs, rfl⟩
        rw [advance_advance]
        exact Scans.lineBreak ['\r', '\n'] xs hrest (Or.inl rfl)
      · exact Scans.lineBreak ['\r'] cs hrest (Or.inr (Or.inr ⟨rfl, by rwa [hpeek] at hlf⟩))
    case h_19 => exact Scans.lineBreak ['\n'] cs hrest (Or.inr (Or.inl rfl))
    case h_20 => exact scans_readString _ cs hrest
    case h_21 =>
      rename_i hcr hlf hquote
      exact scans_readAlphaNumeric _ c cs hrest hhead.1 ⟨hlf, hcr, hquote, hhead.2⟩
    all_goals first
      | exact hsingle _ (by simp [Plain]) (by decide)
      | exact hpairs _ _ _ (by decide) (by simp [Plain]) (by simp [Plain]) (by decide)

/-! ### Line breaks -/

/-- The width of the indentation of a line, seen from its first character; nothing for a blank or
comment line. -/
def lineWidth (line : List Char) : Option ℕ :=
  match line.dropWhile isBlank with
  | [] => none
  | c :: _ =>
      if c = '\n' ∨ c = '\r' ∨ c = '#' then none else some (line.takeWhile isBlank).length

def requiredStack (stack : List ℕ) : Option ℕ → List ℕ
  | none => stack
  | some width =>
      if stack.headD 0 < width then width :: stack else stack.dropWhile (width < ·)

def requiredChanges (stack : List ℕ) : Option ℕ → List TokenType
  | none => []
  | some width =>
      if stack.headD 0 < width then [.indent]
      else List.replicate (stack.takeWhile (width < ·)).length .dedent

theorem emptyOrCommentLine_iff (l : Lexer) :
    emptyOrCommentLine l.getNextLogicalLine = true ↔ lineWidth l.rest = none := by
  unfold emptyOrCommentLine getNextLogicalLine lineWidth
  cases hrest : l.rest.dropWhile isBlank with
  | nil => simp
  | cons c cs =>
      have hblank : isBlank c = false := by
        have := List.head?_dropWhile_not isBlank l.rest
        rw [hrest] at this
        simpa using this
      by_cases hend : c = '\n' ∨ c = '\r'
      · rcases hend with rfl | rfl <;> simp
      · rw [not_or] at hend
        rw [List.takeWhile_cons_of_pos (by simp [hend.1, hend.2]),
          List.dropWhile_cons_of_neg (by simp [hblank])]
        simp [hend.1, hend.2]

/-- What a line break leaves: the NEWLINE token, then the layout tokens the next line asks for. -/
structure Breaks (l l' : Lexer) (newline : Token) (marks : List Token) : Prop where
  source : l'.source = l.source
  line : l'.line = l.line + 1
  tokens : l'.tokens = l.tokens ++ newline :: marks
  newline_type : newline.type = .newline
  newline_offset : newline.offset = l.start
  newline_line : newline.position.line = l.line
  marks_type : marks.map (·.type) = requiredChanges l.indents (lineWidth l.rest)
  marks_place : ∀ t ∈ marks, t.offset = l'.current ∧ t.position.line = l.line + 1
  indents : l'.indents = requiredStack l.indents (lineWidth l.rest)
  current : l'.current = l.current + (lineWidth l.rest).getD 0
  errors : ∃ reported, l'.errors = l.errors ++ reported

/-- Closing the blocks wider than the new width. -/
theorem popIndents_spec (width : ℕ) (stack : List ℕ) (l : Lexer) (h : l.indents = stack) :
    ∃ marks, popIndents width stack l =
        { l with indents := stack.dropWhile (width < ·), tokens := l.tokens ++ marks } ∧
      marks.map (·.type) = List.replicate (stack.takeWhile (width < ·)).length .dedent ∧
      ∀ t ∈ marks, t.offset = l.current ∧ t.position.line = l.line := by
  induction stack generalizing l with
  | nil =>
      refine ⟨[], ?_, rfl, ?_⟩
      · rw [popIndents, List.append_nil, List.dropWhile_nil, ← h]
      · simp
  | cons top below ih =>
      rw [popIndents]
      by_cases hwide : width < top
      · rw [if_pos hwide]
        obtain ⟨marks, hpop, hkinds, hplace⟩ := ih ({ l with indents := below }.addMark .dedent) rfl
        refine ⟨Token.make .dedent (escapeString (String.ofList l.text)) l.position l.current ::
          marks, ?_, ?_, ?_⟩
        · rw [hpop, List.dropWhile_cons_of_pos (by simpa using hwide)]
          simp only [addMark, addTokenAt, List.isEmpty_nil, if_true, List.append_assoc,
            List.singleton_append]
          rfl
        · rw [List.takeWhile_cons_of_pos (by simpa using hwide), List.map_cons, hkinds,
            List.length_cons, List.replicate_succ]
          rfl
        · intro t ht
          rcases List.mem_cons.1 ht with rfl | ht
          · exact ⟨rfl, position_line l⟩
          · exact hplace t ht
      · rw [if_neg hwide]
        refine ⟨[], ?_, ?_, ?_⟩
        · rw [List.append_nil, List.dropWhile_cons_of_neg (by simpa using hwide), ← h]
        · rw [List.takeWhile_cons_of_neg (by simpa using hwide)]
          rfl
        · simp

/-- Bringing the stack to a new width. -/
theorem indentTo_spec (l : Lexer) (width : ℕ) :
    ∃ marks reported, l.indentTo width =
        { l with
          indents := requiredStack l.indents (some width)
          tokens := l.tokens ++ marks
          errors := l.errors ++ reported } ∧
      marks.map (·.type) = requiredChanges l.indents (some width) ∧
      ∀ t ∈ marks, t.offset = l.current ∧ t.position.line = l.line := by
  have hindent : ∀ stack, { l with indents := stack }.addMark .indent =
      { l with
        indents := stack
        tokens := l.tokens ++
          [Token.make .indent (escapeString (String.ofList l.text)) l.position l.current]
        errors := l.errors ++ [] } := by
    intro stack
    rw [List.append_nil]
    rfl
  have hplace : ∀ t ∈ [Token.make .indent (escapeString (String.ofList l.text)) l.position
      l.current], t.offset = l.current ∧ t.position.line = l.line := by
    intro t ht
    obtain rfl := List.mem_singleton.1 ht
    exact ⟨rfl, position_line l⟩
  have hnone : ∀ stack, l.indents = stack → l =
      { l with indents := stack, tokens := l.tokens ++ [], errors := l.errors ++ [] } := by
    intro stack h
    rw [List.append_nil, List.append_nil, ← h]
  unfold indentTo
  cases hstack : l.indents with
  | nil =>
      dsimp only
      by_cases hwide : 0 < width
      · have hreq : requiredStack [] (some width) = [width] := if_pos hwide
        rw [if_pos hwide, hreq]
        exact ⟨_, [], hindent [width], (if_pos hwide).symm, hplace⟩
      · have hreq : requiredStack [] (some width) = [] := if_neg hwide
        rw [if_neg hwide, hreq]
        exact ⟨[], [], hnone _ hstack, (if_neg hwide).symm, by simp⟩
  | cons top below =>
      dsimp only
      by_cases hwide : top < width
      · have hreq : requiredStack (top :: below) (some width) = width :: top :: below :=
          if_pos hwide
        rw [if_pos hwide, hreq]
        exact ⟨_, [], hindent _, (if_pos hwide).symm, hplace⟩
      rw [if_neg hwide]
      have hreq : requiredStack (top :: below) (some width) =
          (top :: below).dropWhile (width < ·) := if_neg hwide
      have hchanges : requiredChanges (top :: below) (some width) =
          List.replicate ((top :: below).takeWhile (width < ·)).length .dedent := if_neg hwide
      by_cases hnarrow : width < top
      -- closing stops at the first level that is not wider, an error if it is narrower
      · obtain ⟨marks, hpop, hkinds, hmarks⟩ := popIndents_spec width (top :: below) l hstack
        rw [if_pos hnarrow, hpop, hreq, hchanges]
        split_ifs
        · exact ⟨marks, _, rfl, hkinds, hmarks⟩
        · exact ⟨marks, [], by rw [List.append_nil], hkinds, hmarks⟩
      · rw [if_neg hnarrow, hreq, hchanges, List.dropWhile_cons_of_neg (by simpa using hnarrow),
          List.takeWhile_cons_of_neg (by simpa using hnarrow)]
        exact ⟨[], [], hnone _ hstack, rfl, by simp⟩

/-- A new line: nothing more for a blank or comment line, else its indentation. -/
theorem nextLine_spec (l : Lexer) :
    l.nextLine = match lineWidth l.rest with
      | none => l.newLine
      | some width =>
          { l.newLine with column := 1 + width, current := l.current + width }.indentTo width := by
  unfold nextLine
  dsimp only
  by_cases hwidth : lineWidth l.rest = none
  · rw [if_pos ((emptyOrCommentLine_iff l.newLine).2 hwidth), hwidth]
  · rw [if_neg fun h => hwidth ((emptyOrCommentLine_iff l.newLine).1 h)]
    unfold handleIndentation lineWidth at *
    rw [rest_newLine]
    split at hwidth
    · exact absurd rfl hwidth
    · rename_i c cs hrest
      by_cases hend : c = '\n' ∨ c = '\r' ∨ c = '#'
      · exact absurd (if_pos hend) hwidth
      · dsimp only
        rw [if_neg hend, if_neg hend]
        rfl

/-- **A line break** does what `Breaks` says. -/
theorem breaks_lineBreak (l : Lexer) : ∃ newline marks, Breaks l l.lineBreak newline marks := by
  refine ⟨Token.make .newline (escapeString (String.ofList l.text)) l.position l.start, ?_⟩
  have hrest : (l.addToken .newline).rest = l.rest := rfl
  rw [lineBreak, nextLine_spec, hrest]
  cases hwidth : lineWidth l.rest with
  | none =>
      exact ⟨[], rfl, rfl, rfl, rfl, rfl, position_line l, by rw [hwidth]; rfl, by simp,
        by rw [hwidth]; rfl, by rw [hwidth]; rfl, [], (List.append_nil _).symm⟩
  | some width =>
      obtain ⟨marks, reported, hindent, hkinds, hmarks⟩ := indentTo_spec
        { (l.addToken .newline).newLine with
          column := 1 + width, current := l.current + width } width
      refine ⟨marks, ?_⟩
      dsimp only
      rw [show (l.addToken .newline).current = l.current from rfl, hindent]
      exact ⟨rfl, rfl, List.append_assoc _ _ _, rfl, rfl, position_line l, by rw [hwidth]; exact hkinds,
        hmarks, by rw [hwidth]; rfl, by rw [hwidth]; rfl, reported, rfl⟩

/-! ### Termination -/

/-- A step that is not at the end of the text moves on in the same text. -/
theorem Scans.current_lt {l l' : Lexer} (h : Scans l l') (hrest : l.rest ≠ []) :
    l.current < l'.current ∧ l'.source = l.source := by
  cases h with
  | atEnd hend => exact absurd hend hrest
  | lineBreak text next _ hbreak =>
      obtain ⟨newline, marks, hb⟩ := breaks_lineBreak (l.begin.advance text.length)
      have hpos : 0 < text.length := by
        rcases hbreak with rfl | rfl | ⟨rfl, -⟩ <;> decide
      refine ⟨?_, hb.source⟩
      rw [hb.current]
      change l.current < l.current + text.length + _
      omega
  | token text next kind _ hcode =>
      have hpos : 0 < text.length := by
        obtain ⟨⟨c, hc, -⟩, -⟩ := hcode
        cases text with
        | nil => cases hc
        | cons => simp
      exact ⟨Nat.lt_add_of_pos_right hpos, rfl⟩
  | invalid text next _ _ _ _ _ hcode =>
      have hpos : 0 < text.length := by
        obtain ⟨⟨c, hc, -⟩, -⟩ := hcode
        cases text with
        | nil => cases hc
        | cons => simp
      exact ⟨Nat.lt_add_of_pos_right hpos, rfl⟩
  | string => exact ⟨Nat.lt_add_of_pos_right (by omega), rfl⟩
  | openString => exact ⟨Nat.lt_add_of_pos_right (by omega), rfl⟩

/-- A turn of the loop moves on in the same text. -/
theorem scanToken_current_lt (l : Lexer) (h : l.rest ≠ []) :
    l.current < l.scanToken.current ∧ l.scanToken.source = l.source := by
  have hstep := scans_scanToken l
  by_cases hrest : l.skipWhitespace.rest = []
  -- only blanks and comments were left
  · have hscan : l.scanToken = l.skipWhitespace := by
      unfold scanToken
      dsimp only
      rw [hrest]
    rw [hscan]
    refine ⟨?_, rfl⟩
    have hlen := List.length_pos_of_ne_nil h
    rw [skipWhitespace, rest_advance, List.drop_eq_nil_iff] at hrest
    change l.current < l.current + skipped l.rest
    omega
  · obtain ⟨hlt, hsource⟩ := hstep.current_lt hrest
    exact ⟨lt_of_le_of_lt (Nat.le_add_right _ _) hlt, hsource⟩

/-- **Termination**: one unit of fuel for each character left, and one more, is enough. -/
theorem scanAll_isSome (fuel : ℕ) (l : Lexer) (h : l.rest.length < fuel) :
    (scanAll fuel l).isSome := by
  induction fuel generalizing l with
  | zero => exact absurd h (Nat.not_lt_zero _)
  | succ fuel ih =>
      rw [scanAll]
      split_ifs with hend
      · rfl
      · have hrest : l.begin.rest ≠ [] := fun hnil => hend ((isAtEnd_iff l).2 hnil)
        obtain ⟨hlt, hsource⟩ := scanToken_current_lt l.begin hrest
        refine ih l.begin.scanToken ?_
        rw [rest, hsource, List.length_drop]
        rw [rest_begin] at hrest
        have hpos := List.length_pos_of_ne_nil hrest
        rw [rest, List.length_drop] at hpos h
        change l.current < _ at hlt
        change l.source.length - _ < fuel
        omega

theorem scanAll_mono {fuel more : ℕ} {l l' : Lexer} (h : scanAll fuel l = some l')
    (hle : fuel ≤ more) : scanAll more l = some l' := by
  induction fuel generalizing l more with
  | zero => cases h
  | succ fuel ih =>
      obtain ⟨more, rfl⟩ := Nat.exists_eq_add_of_le' (Nat.lt_of_lt_of_le (Nat.succ_pos _) hle)
      rw [scanAll] at h ⊢
      split_ifs at h ⊢ with hend
      · exact h
      · exact ih h (by omega)

/-- **The run rule**: what holds of a state, and is kept when blanks and comments are passed and
when a step is made, holds at the end of the text. -/
theorem scanAll_induction {motive : Lexer → Prop} {fuel : ℕ} {l l' : Lexer}
    (h : scanAll fuel l = some l') (hstart : motive l)
    (hstep : ∀ l l', motive l → Scans l.begin.skipWhitespace l' → motive l') :
    motive l' ∧ l'.rest = [] := by
  induction fuel generalizing l with
  | zero => cases h
  | succ fuel ih =>
      rw [scanAll] at h
      split_ifs at h with hend
      · obtain rfl := Option.some.inj h
        exact ⟨hstart, (isAtEnd_iff l).1 hend⟩
      · exact ih h (hstep l _ hstart (scans_scanToken l.begin))

end Lexer

end AtomicProof
