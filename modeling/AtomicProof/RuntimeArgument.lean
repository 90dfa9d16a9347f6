/-
**Arguments of the interpreter in text form.**

`src/src/interpreter/runtime_argument.cpp` reads the values that a transaction context or the
command line gives to a contract.  `parseRuntimeArgument` reads one value, in a notation of its own;
`parseRuntimeFieldAssignments` reads assignments `path=value`, where the path is split at dots and each
part may carry one array index, and builds the fields they describe.

Main definitions:

* `AtomicProof.parseRuntimeArgument` — one value;
* `AtomicProof.PathSegment`, `AtomicProof.parseSegment`, `AtomicProof.splitPath` — paths;
* `AtomicProof.insertField` — one assignment;
* `AtomicProof.parseRuntimeFieldAssignments` — all of them;
* `AtomicProof.Apart` — two paths that do not meet.

Main results:

* `AtomicProof.parseRuntimeArgument_toString` — the text of a number is read as that number;
* `AtomicProof.parsePath_printPath` — **a printed path is read back**, when no name in it has a
  character with a meaning;
* `AtomicProof.commuting_assign` — **assignments at paths that do not meet may change their
  order**.
-/

import AtomicProof.Disassembly
import AtomicProof.KeyedUpdate
import AtomicProof.Operands
import Mathlib.Data.List.TakeWhile
import Mathlib.Data.String.Basic
import Mathlib.Tactic.IntervalCases

set_option autoImplicit false

namespace AtomicProof

/-! ### One value -/

/-- `trim`: blanks and line breaks at both ends. -/
def trimmed (value : List Char) : List Char :=
  let blank : Char → Bool := fun c => " \t\r\n".toList.contains c
  ((value.dropWhile blank).reverse.dropWhile blank).reverse

def normalizeRuntimeName (name : String) : List Char :=
  (name.toList.filter Char.isAlphanum).map Char.toLower

def isRuntimeBoolType (typeName : String) : Bool :=
  normalizeRuntimeName typeName = "bool".toList || normalizeRuntimeName typeName = "boolean".toList

def isRuntimeHexType (typeName : String) : Bool :=
  let lower := normalizeRuntimeName typeName
  "hex".toList.isPrefixOf lower || lower = "bytes".toList || lower = "pubkey".toList ||
    lower = "sig".toList

def RuntimeValue.fromHexString (hex : List Char) (declaredType : String) :
    Except RuntimeError RuntimeValue :=
  (RuntimeCodec.parseHex (String.ofList hex)).map fun bytes => .fromBytes bytes declaredType

/-- `std::stoll`, with its range. -/
def stoll (text : List Char) : Option ℤ :=
  (readInteger 10 text).filter fun value => -(2 ^ 63) ≤ value ∧ value < 2 ^ 63

def parseRuntimeArgument (raw declaredType : String) : Except RuntimeError RuntimeValue :=
  let value := trimmed raw.toList
  let typeOr := fun fallback : String => if declaredType = "" then fallback else declaredType
  if value = [] then
    if isRuntimeBoolType declaredType then .ok (.fromBool false)
    else if isRuntimeHexType declaredType then RuntimeValue.fromHexString ['0', 'x'] declaredType
    else if normalizeRuntimeName declaredType = "string".toList then .ok (.fromString "")
    else .ok (.fromInt 0 (typeOr "int"))
  else if 2 ≤ value.length ∧ value.head? = some '"' ∧ value.getLast? = some '"' then
    .ok (.fromString (String.ofList (value.drop 1).dropLast))
  else if value.map Char.toLower = "true".toList then .ok (.fromBool true)
  else if value.map Char.toLower = "false".toList then .ok (.fromBool false)
  else if value.take 2 = ['0', 'x'] ∨ value.take 2 = ['0', 'X'] then
    RuntimeValue.fromHexString value (typeOr "hex")
  else if isRuntimeHexType declaredType then RuntimeValue.fromHexString value declaredType
  else
    match stoll value with
    | some number => .ok (.fromInt number (typeOr "int"))
    | none => .ok (.fromString (String.ofList value))

/-! ### Paths -/

/-- A part of a path: a name, and the index it carries. -/
structure PathSegment where
  name : String
  index : Option ℕ := none
  deriving DecidableEq, Repr

/-- An exception of the standard library, by its text. -/
def runtimeError (message : String) : RuntimeError := ⟨.generic, message⟩

/-- `std::stoull` of digits. -/
def stoull (digits : List Char) : Except RuntimeError ℕ :=
  let value := Nat.ofDigitChars 10 digits 0
  if value < 2 ^ 64 then .ok value else .error (runtimeError "stoull")

def parseSegment (optionName : String) (raw : List Char) : Except RuntimeError PathSegment :=
  let name := raw.takeWhile (· ≠ '[')
  match raw.dropWhile (· ≠ '[') with
  | [] => .ok { name := String.ofList raw }
  | _ :: inside =>
      let indexText := inside.takeWhile (· ≠ ']')
      -- the first closing bracket is the last character, and something is before the brackets
      if inside.dropWhile (· ≠ ']') ≠ [']'] ∨ name = [] then
        .error (runtimeError (optionName ++ " has an invalid indexed path segment '" ++
          String.ofList raw ++ "'"))
      else if indexText = [] ∨ ¬ indexText.all Char.isDigit then
        .error (runtimeError (optionName ++ " has an invalid array index in '" ++
          String.ofList raw ++ "'"))
      else (stoull indexText).map fun index => { name := String.ofList name, index := some index }

def splitPath (path : List Char) : List (List Char) := path.splitOn '.'

/-! ### Assignments -/

/-- The fields of a value that is a structure already, and none otherwise. -/
def RuntimeValue.fieldsOr : Option RuntimeValue → String → List (String × RuntimeValue) × String
  | some (.struct fields declaredType), _ => (fields, declaredType)
  | _, name => ([], name)

/-- The elements of a value that is an array already, and none otherwise. -/
def RuntimeValue.elementsOr : Option RuntimeValue → String → List RuntimeValue × String
  | some (.array values declaredType), _ => (values, declaredType)
  | _, name => ([], name ++ "[]")

/-- An assignment to the field of a segment, or to the element its index names; the array is padded
with default values. -/
def place (segment : PathSegment) (f : Option RuntimeValue → RuntimeValue)
    (fields : List (String × RuntimeValue)) : List (String × RuntimeValue) :=
  alterEntry segment.name (fun old =>
    match segment.index with
    | none => f old
    | some index =>
        let (values, declaredType) := RuntimeValue.elementsOr old segment.name
        .array (alterAt .voidValue index (fun value => f (some value)) values) declaredType) fields

/-- `insertField`: the value at the end of the path, below structures that are made where there is
none. -/
def insertField : List PathSegment → RuntimeValue → List (String × RuntimeValue) →
    List (String × RuntimeValue)
  | [], _, fields => fields
  | [segment], value, fields => place segment (fun _ => value) fields
  | segment :: next :: path, value, fields =>
      place segment (fun old =>
        let (inner, declaredType) := RuntimeValue.fieldsOr old segment.name
        .struct (insertField (next :: path) value inner) declaredType) fields

def assign (fields : List (String × RuntimeValue)) (entry : List PathSegment × RuntimeValue) :
    List (String × RuntimeValue) :=
  insertField entry.1 entry.2 fields

/-- The path and the value of an assignment. -/
def parseAssignment (optionName assignment : String) :
    Except RuntimeError (List PathSegment × RuntimeValue) :=
  let text := assignment.toList
  let name := text.takeWhile (· ≠ '=')
  match text.dropWhile (· ≠ '=') with
  | [] => .error (runtimeError (optionName ++ " expects field=value, got '" ++ assignment ++ "'"))
  | _ :: value =>
      if name = [] then
        .error (runtimeError (optionName ++ " expects field=value, got '" ++ assignment ++ "'"))
      else do
        let path ← (splitPath name).mapM (parseSegment optionName)
        if path = [] ∨ path.any (·.name = "") then
          .error (runtimeError (optionName ++ " has an invalid field path '" ++
            String.ofList name ++ "'"))
        else
          let value ← parseRuntimeArgument (String.ofList value) ""
          pure (path, value)

def parseRuntimeFieldAssignments (assignments : List String) (optionName : String) :
    Except RuntimeError (List (String × RuntimeValue)) :=
  assignments.foldlM (fun fields assignment => do
    let entry ← parseAssignment optionName assignment
    pure (assign fields entry)) []

/-! ### Numbers -/

theorem digit_bounds {c : Char} (h : c.isDigit = true) : 48 ≤ c.toNat ∧ c.toNat ≤ 57 := by
  simp only [Char.isDigit, Bool.and_eq_true, decide_eq_true_eq, ge_iff_le,
    UInt32.le_iff_toNat_le] at h
  exact h

theorem digitValue_digit {c : Char} (h : c.isDigit = true) :
    digitValue 10 c = some (c.toNat - '0'.toNat) := by
  obtain ⟨hlow, hhigh⟩ := digit_bounds h
  have hval : ∀ a b : Char, a ≤ b ↔ a.toNat ≤ b.toNat := fun _ _ => Iff.rfl
  have hdigit : hexDigit c = some (c.toNat - '0'.toNat) := by
    rw [hexDigit, if_pos]
    rw [hval, hval]
    exact ⟨hlow, hhigh⟩
  rw [digitValue, hdigit, Option.filter_some, if_pos]
  have : '0'.toNat = 48 := rfl
  rw [decide_eq_true_eq]
  omega

theorem digits_value (digits : List Char) (h : ∀ c ∈ digits, c.isDigit = true) (value : ℕ) :
    digits.foldl (fun value c => value * 10 + (digitValue 10 c).getD 0) value =
      Nat.ofDigitChars 10 digits value := by
  rw [Nat.ofDigitChars_eq_foldl]
  induction digits generalizing value with
  | nil => rfl
  | cons c digits ih =>
      rw [List.forall_mem_cons] at h
      rw [List.foldl_cons, List.foldl_cons, digitValue_digit h.1, Option.getD_some,
        Nat.mul_comm value 10]
      exact ih h.2 _

theorem decimal_text (text : List Char) : (match text with
    | '0' :: x :: c :: rest =>
        if (10 : ℕ) = 16 && (x = 'x' || x = 'X') && isXDigit c then c :: rest else text
    | _ => text) = text := by
  split
  · exact if_neg (by simp)
  · rfl

theorem mem_decimal_digits {c : Char} (h : c.isDigit = true) : c ∈ "0123456789".toList := by
  obtain ⟨hlow, hhigh⟩ := digit_bounds h
  rw [← Char.ofNat_toNat c]
  generalize c.toNat = k at hlow hhigh
  interval_cases k <;> decide

/-- The part of `readInteger` after the sign, in base ten. -/
theorem digits_readInteger (digits : List Char) (hne : digits ≠ [])
    (h : ∀ c ∈ digits, c.isDigit = true) (negative : Bool) :
    (let text := match digits with
      | '0' :: x :: c :: rest =>
          if (10 : ℕ) = 16 && (x = 'x' || x = 'X') && isXDigit c then c :: rest else digits
      | _ => digits
     let digits := text.takeWhile fun c => (digitValue 10 c).isSome
     if digits = [] then none
     else
      let value := digits.foldl (fun value c => value * 10 + (digitValue 10 c).getD 0) 0
      some (if negative then -(value : ℤ) else value)) =
      some (if negative then -((Nat.ofDigitChars 10 digits 0 : ℕ) : ℤ)
        else (Nat.ofDigitChars 10 digits 0 : ℕ)) := by
  have htake : digits.takeWhile (fun c => (digitValue 10 c).isSome) = digits := by
    rw [List.takeWhile_eq_self_iff]
    intro c hc
    rw [digitValue_digit (h c hc)]
    rfl
  dsimp only
  rw [decimal_text, htake, if_neg hne, digits_value _ h]

theorem readInteger_digits (digits : List Char) (hne : digits ≠ [])
    (h : ∀ c ∈ digits, c.isDigit = true) :
    readInteger 10 digits = some ((Nat.ofDigitChars 10 digits 0 : ℕ) : ℤ) ∧
      readInteger 10 ('-' :: digits) = some (-((Nat.ofDigitChars 10 digits 0 : ℕ) : ℤ)) := by
  constructor
  · obtain ⟨c, cs, rfl⟩ := List.exists_cons_of_ne_nil hne
    have hdigits := digits_readInteger (c :: cs) hne h false
    have hc := mem_decimal_digits (h c (List.mem_cons_self ..))
    -- with the first digit known, the blanks and the sign are none by computation
    simp only [String.reduceToList, List.mem_cons, List.not_mem_nil, or_false] at hc
    rcases hc with rfl | rfl | rfl | rfl | rfl | rfl | rfl | rfl | rfl | rfl <;> exact hdigits
  · exact digits_readInteger digits hne h true

/-- The text of a number: its digits, behind a minus if it is negative. -/
theorem toList_toString (n : ℤ) : ∃ digits, digits ≠ [] ∧ (∀ c ∈ digits, c.isDigit = true) ∧
    (((toString n).toList = digits ∧ n = (Nat.ofDigitChars 10 digits 0 : ℕ)) ∨
      ((toString n).toList = '-' :: digits ∧ n = -((Nat.ofDigitChars 10 digits 0 : ℕ) : ℤ))) := by
  have hdigit : ∀ k : ℕ, ∀ c ∈ Nat.toDigits 10 k, c.isDigit = true := fun k c hc =>
    Nat.isDigit_of_mem_toDigits (by decide) (by decide) hc
  rw [Int.toString_eq_repr, Int.repr_eq_if]
  by_cases hn : 0 ≤ n
  · rw [if_pos hn]
    refine ⟨Nat.toDigits 10 n.toNat, Nat.toDigits_ne_nil, hdigit _, Or.inl ⟨?_, ?_⟩⟩
    · exact Nat.toList_repr
    · rw [Nat.ofDigitChars_toDigits (by decide) (by decide), Int.toNat_of_nonneg hn]
  · rw [if_neg hn]
    refine ⟨Nat.toDigits 10 (-n).toNat, Nat.toDigits_ne_nil, hdigit _, Or.inr ⟨?_, ?_⟩⟩
    · rw [String.toList_append, Nat.toList_repr]
      rfl
    · rw [Nat.ofDigitChars_toDigits (by decide) (by decide), Int.toNat_of_nonneg (by omega),
        neg_neg]

theorem trimmed_eq_self (value : List Char) (h : ∀ c ∈ value, c ∉ " \t\r\n".toList) :
    trimmed value = value := by
  have hdrop : ∀ text : List Char, (∀ c ∈ text, c ∉ " \t\r\n".toList) →
      text.dropWhile (fun c => " \t\r\n".toList.contains c) = text := by
    intro text htext
    cases text with
    | nil => rfl
    | cons c cs =>
        refine List.dropWhile_cons_of_neg ?_
        rw [List.contains_iff_mem]
        exact htext c (List.mem_cons_self ..)
  unfold trimmed
  dsimp only
  rw [hdrop value h, hdrop _ fun c hc => h c (List.mem_reverse.1 hc), List.reverse_reverse]

/-- **The text of a number is read as that number.** -/
theorem parseRuntimeArgument_toString (n : ℤ) (hlow : -(2 ^ 63) ≤ n) (hhigh : n < 2 ^ 63) :
    parseRuntimeArgument (toString n) "" = .ok (.fromInt n) := by
  obtain ⟨digits, hne, hdigits, htext⟩ := toList_toString n
  obtain ⟨hread, hreadNeg⟩ := readInteger_digits digits hne hdigits
  have hchar : ∀ c ∈ (toString n).toList, c.isDigit = true ∨ c = '-' := by
    intro c hc
    rcases htext with ⟨h, -⟩ | ⟨h, -⟩
    · rw [h] at hc
      exact Or.inl (hdigits c hc)
    · rw [h] at hc
      rcases List.mem_cons.1 hc with rfl | hc
      · exact Or.inr rfl
      · exact Or.inl (hdigits c hc)
  have hnot : ∀ d, d.isDigit = false → d ≠ '-' → d ∉ (toString n).toList := by
    intro d hd hminus hmem
    rcases hchar d hmem with h | h
    · rw [hd] at h
      cases h
    · exact hminus h
  have hnil : (toString n).toList ≠ [] := by
    rcases htext with ⟨h, -⟩ | ⟨h, -⟩
    · rwa [h]
    · rw [h]
      exact List.cons_ne_nil _ _
  have hstoll : stoll (toString n).toList = some n := by
    have hrange : readInteger 10 (toString n).toList = some n := by
      rcases htext with ⟨h, hn⟩ | ⟨h, hn⟩
      · rw [h, hread, hn]
      · rw [h, hreadNeg, hn]
    rw [stoll, hrange, Option.filter_some, if_pos (decide_eq_true ⟨hlow, hhigh⟩)]
  have htrim : trimmed (toString n).toList = (toString n).toList := by
    refine trimmed_eq_self _ fun c hc hblank => ?_
    have hmem : c = ' ' ∨ c = '\t' ∨ c = '\r' ∨ c = '\n' := by simpa using hblank
    rcases hmem with rfl | rfl | rfl | rfl <;> exact hnot _ (by decide) (by decide) hc
  have hquote : (toString n).toList.head? ≠ some '"' := fun h =>
    hnot '"' (by decide) (by decide) (List.mem_of_mem_head? h)
  have hlower : (toString n).toList.map Char.toLower = (toString n).toList := by
    refine List.map_congr_left (g := id) ?_ |>.trans (List.map_id _)
    intro c hc
    rcases hchar c hc with hdigit | rfl
    · have hmem := mem_decimal_digits hdigit
      simp only [String.reduceToList, List.mem_cons, List.not_mem_nil, or_false] at hmem
      rcases hmem with rfl | rfl | rfl | rfl | rfl | rfl | rfl | rfl | rfl | rfl <;> rfl
    · rfl
  have hword : ∀ (word : List Char) (c : Char), c ∈ word → c.isDigit = false → c ≠ '-' →
      (toString n).toList ≠ word := fun word c hmem hc hminus heq =>
    hnot c hc hminus (heq ▸ hmem)
  have hx : ∀ x : Char, x.isDigit = false → x ≠ '-' → (toString n).toList.take 2 ≠ ['0', x] := by
    intro x hx hminus heq
    have hmem : x ∈ (toString n).toList.take 2 := by
      rw [heq]
      exact List.mem_cons_of_mem _ (List.mem_singleton_self x)
    exact hnot x hx hminus (List.mem_of_mem_take hmem)
  unfold parseRuntimeArgument
  dsimp only
  rw [htrim, if_neg hnil, if_neg fun h => hquote h.2.1, hlower,
    if_neg (hword _ 't' (by decide) (by decide) (by decide)),
    if_neg (hword _ 'f' (by decide) (by decide) (by decide)),
    if_neg (not_or.2 ⟨hx 'x' (by decide) (by decide), hx 'X' (by decide) (by decide)⟩),
    if_neg (by decide), hstoll]
  rfl

/-! ### Printed paths -/

def printSegment (segment : PathSegment) : String :=
  match segment.index with
  | none => segment.name
  | some index => segment.name ++ "[" ++ toString index ++ "]"

def printPath : List PathSegment → String
  | [] => ""
  | [segment] => printSegment segment
  | segment :: next :: path => printSegment segment ++ "." ++ printPath (next :: path)

/-- A name without a character that has a meaning in an assignment. -/
def PlainName (name : String) : Prop :=
  name ≠ "" ∧ '.' ∉ name.toList ∧ '[' ∉ name.toList ∧ '=' ∉ name.toList

/-- A part of a path that can be printed and read back. -/
def PlainSegment (segment : PathSegment) : Prop :=
  PlainName segment.name ∧ ∀ index, segment.index = some index → index < 2 ^ 64

theorem not_mem_toString {c : Char} (hc : c.isDigit = false) (n : ℕ) : c ∉ (toString n).toList := by
  intro hmem
  rw [Nat.toString_eq_repr, Nat.toList_repr] at hmem
  have := Nat.isDigit_of_mem_toDigits (by decide) (by decide) hmem
  rw [hc] at this
  cases this

theorem takeWhile_append_cons {α : Type} (p : α → Bool) (front : List α) (x : α) (rest : List α)
    (hfront : ∀ y ∈ front, p y = true) (hx : p x = false) :
    (front ++ x :: rest).takeWhile p = front ∧ (front ++ x :: rest).dropWhile p = x :: rest := by
  rw [List.takeWhile_append_of_pos hfront, List.dropWhile_append_of_pos hfront,
    List.takeWhile_cons_of_neg (by simp [hx]), List.dropWhile_cons_of_neg (by simp [hx]),
    List.append_nil]
  exact ⟨rfl, rfl⟩

/-- A printed part of a path is read back. -/
theorem parseSegment_printSegment (optionName : String) (segment : PathSegment)
    (h : PlainSegment segment) :
    parseSegment optionName (printSegment segment).toList = .ok segment := by
  obtain ⟨⟨hne, -, hbracket, -⟩, hindex⟩ := h
  obtain ⟨name, index⟩ := segment
  have hname : ∀ c ∈ name.toList, decide (c ≠ '[') = true := fun c hc =>
    decide_eq_true fun heq => hbracket (heq ▸ hc)
  cases index with
  | none =>
      unfold parseSegment printSegment
      dsimp only
      have hdrop : name.toList.dropWhile (· ≠ '[') = [] := by
        rw [List.dropWhile_eq_nil_iff]
        exact hname
      rw [hdrop, String.ofList_toList]
  | some index =>
      have htext : (printSegment ⟨name, some index⟩).toList =
          name.toList ++ '[' :: ((toString index).toList ++ [']']) := by
        simp [printSegment, String.toList_append]
      have hdigits : ∀ c ∈ (toString index).toList, decide (c ≠ ']') = true := fun c hc =>
        decide_eq_true fun heq => not_mem_toString (by decide) index (heq ▸ hc)
      obtain ⟨htake, hdrop⟩ := takeWhile_append_cons (fun c => decide (c ≠ '[')) name.toList '['
        ((toString index).toList ++ [']']) hname (by decide)
      obtain ⟨htake', hdrop'⟩ := takeWhile_append_cons (fun c => decide (c ≠ ']'))
        (toString index).toList ']' [] hdigits (by decide)
      have hall : (toString index).toList.all Char.isDigit = true := by
        rw [List.all_eq_true]
        intro c hc
        rw [Nat.toString_eq_repr, Nat.toList_repr] at hc
        exact Nat.isDigit_of_mem_toDigits (by decide) (by decide) hc
      have hnil : (toString index).toList ≠ [] := by
        rw [Nat.toString_eq_repr, Nat.toList_repr]
        exact Nat.toDigits_ne_nil
      have hvalue : stoull (toString index).toList = .ok index := by
        unfold stoull
        dsimp only
        rw [Nat.toString_eq_repr, Nat.toList_repr, Nat.ofDigitChars_toDigits (by decide) (by decide),
          if_pos (hindex index rfl)]
      have hname' : name.toList ≠ [] := fun h => hne (String.toList_eq_nil_iff.1 h)
      unfold parseSegment
      dsimp only
      rw [htext, htake, hdrop]
      dsimp only
      rw [htake', hdrop', if_neg (by simp [hname']), if_neg (not_or.2 ⟨hnil, not_not.2 hall⟩),
        hvalue,
        String.ofList_toList]
      rfl

theorem toList_printPath (path : List PathSegment) :
    (printPath path).toList = ['.'].intercalate (path.map fun s => (printSegment s).toList) := by
  induction path with
  | nil => rfl
  | cons segment path ih =>
      cases path with
      | nil => simp [printPath]
      | cons next path =>
          rw [printPath, String.toList_append, String.toList_append, ih]
          simp

theorem mem_printSegment {c : Char} {segment : PathSegment} (h : c ∈ (printSegment segment).toList) :
    c ∈ segment.name.toList ∨ c.isDigit = true ∨ c = '[' ∨ c = ']' := by
  unfold printSegment at h
  split at h
  · exact Or.inl h
  · rename_i index _
    simp only [String.toList_append, List.mem_append] at h
    rcases h with ((h | h) | h) | h
    · exact Or.inl h
    · exact Or.inr (Or.inr (Or.inl (by simpa using h)))
    · rw [Nat.toString_eq_repr, Nat.toList_repr] at h
      exact Or.inr (Or.inl (Nat.isDigit_of_mem_toDigits (by decide) (by decide) h))
    · exact Or.inr (Or.inr (Or.inr (by simpa using h)))

theorem splitPath_printPath (path : List PathSegment) (hne : path ≠ [])
    (h : ∀ segment ∈ path, PlainSegment segment) :
    splitPath (printPath path).toList = path.map fun s => (printSegment s).toList := by
  rw [toList_printPath]
  refine List.splitOn_intercalate '.' ?_ (by simpa using hne)
  intro text htext hdot
  obtain ⟨segment, hsegment, rfl⟩ := List.mem_map.1 htext
  rcases mem_printSegment hdot with hmem | hdigit | h | h
  · exact (h segment hsegment).1.2.1 hmem
  · exact absurd hdigit (by decide)
  · exact absurd h (by decide)
  · exact absurd h (by decide)

/-- No part of a printed path is taken for the value. -/
theorem not_mem_printPath (path : List PathSegment) (h : ∀ segment ∈ path, PlainSegment segment) :
    '=' ∉ (printPath path).toList := by
  induction path with
  | nil => simp [printPath]
  | cons segment path ih =>
      rw [List.forall_mem_cons] at h
      have hsegment : '=' ∉ (printSegment segment).toList := by
        intro hmem
        rcases mem_printSegment hmem with hmem | hdigit | h' | h'
        · exact h.1.1.2.2.2 hmem
        · exact absurd hdigit (by decide)
        · exact absurd h' (by decide)
        · exact absurd h' (by decide)
      cases path with
      | nil => exact hsegment
      | cons next path =>
          rw [printPath, String.toList_append, String.toList_append, List.mem_append,
            List.mem_append, not_or, not_or]
          exact ⟨⟨hsegment, by decide⟩, ih h.2⟩

theorem mapM_parseSegment (optionName : String) (path : List PathSegment)
    (h : ∀ segment ∈ path, PlainSegment segment) :
    (path.map fun s => (printSegment s).toList).mapM (parseSegment optionName) = .ok path := by
  induction path with
  | nil => rfl
  | cons segment path ih =>
      rw [List.forall_mem_cons] at h
      rw [List.map_cons, List.mapM_cons, parseSegment_printSegment optionName segment h.1, ih h.2]
      rfl

/-- **A printed path is read back**, with the value behind it. -/
theorem parseAssignment_printPath (optionName text : String) (path : List PathSegment)
    (hne : path ≠ []) (h : ∀ segment ∈ path, PlainSegment segment) {value : RuntimeValue}
    (hvalue : parseRuntimeArgument text "" = .ok value) :
    parseAssignment optionName (printPath path ++ "=" ++ text) = .ok (path, value) := by
  have htext : (printPath path ++ "=" ++ text).toList =
      (printPath path).toList ++ '=' :: text.toList := by
    simp [String.toList_append]
  obtain ⟨htake, hdrop⟩ := takeWhile_append_cons (fun c => decide (c ≠ '=')) (printPath path).toList
    '=' text.toList (fun c hc => decide_eq_true fun heq => not_mem_printPath path h (heq ▸ hc))
    (by decide)
  have hname : (printPath path).toList ≠ [] := by
    intro hnil
    have hsplit := splitPath_printPath path hne h
    rw [hnil] at hsplit
    obtain ⟨segment, rest, rfl⟩ := List.exists_cons_of_ne_nil hne
    have hempty : (printSegment segment).toList = [] := by
      have := (List.cons.inj hsplit).1
      simpa using this.symm
    have := parseSegment_printSegment "" segment (h segment (List.mem_cons_self ..))
    rw [hempty] at this
    have hsegment : PathSegment.mk "" none = segment := Except.ok.inj this
    exact (h segment (List.mem_cons_self ..)).1.1 (hsegment ▸ rfl)
  have hempty : path.any (·.name = "") = false := by
    rw [List.any_eq_false]
    intro segment hsegment
    simpa using (h segment hsegment).1.1
  unfold parseAssignment
  dsimp only
  rw [htext, htake, hdrop]
  dsimp only
  rw [if_neg hname, splitPath_printPath path hne h, mapM_parseSegment optionName path h,
    String.ofList_toList]
  change (if path = [] ∨ path.any (·.name = "") = true then _ else _) = _
  rw [if_neg (by simp [hne, hempty]), String.ofList_toList, hvalue]
  rfl

/-! ### Assignments at different places -/

/-- Two paths do not meet: where they part, the names differ or both carry an index. -/
def Apart : List PathSegment → List PathSegment → Prop
  | a :: p, b :: q =>
      if a = b then Apart p q
      else a.name ≠ b.name ∨ (a.index.isSome = true ∧ b.index.isSome = true)
  | _, _ => False

theorem not_apart_self (p : List PathSegment) : ¬ Apart p p := by
  induction p with
  | nil => exact id
  | cons a p ih =>
      rw [Apart, if_pos rfl]
      exact ih

theorem place_place (segment : PathSegment) (f g : Option RuntimeValue → RuntimeValue)
    (fields : List (String × RuntimeValue)) :
    place segment f (place segment g fields) = place segment (fun old => f (some (g old))) fields := by
  obtain ⟨name, index⟩ := segment
  rw [place, place, alterEntry_alterEntry, place]
  congr 1
  funext old
  cases index with
  | none => rfl
  | some index => exact congrArg (RuntimeValue.array · _) (alterAt_alterAt _ _ _ _ _)

/-- Updates of segments that differ as paths must, commute. -/
theorem place_comm {a b : PathSegment} (hab : a ≠ b)
    (h : a.name ≠ b.name ∨ (a.index.isSome = true ∧ b.index.isSome = true))
    (f g : Option RuntimeValue → RuntimeValue) (fields : List (String × RuntimeValue)) :
    place a f (place b g fields) = place b g (place a f fields) := by
  by_cases hname : a.name = b.name
  · obtain ⟨name, i⟩ := a
    obtain ⟨name', j⟩ := b
    obtain rfl : name = name' := hname
    obtain ⟨hi, hj⟩ := h.resolve_left (not_not.2 rfl)
    obtain ⟨i, rfl⟩ := Option.isSome_iff_exists.1 hi
    obtain ⟨j, rfl⟩ := Option.isSome_iff_exists.1 hj
    have hne : i ≠ j := fun heq => hab (by rw [heq])
    rw [place, place, alterEntry_alterEntry, place, place, alterEntry_alterEntry]
    congr 1
    funext old
    exact congrArg (RuntimeValue.array · _) (alterAt_comm _ hne _ _ _)
  · exact alterEntry_comm hname _ _ fields

theorem insertField_cons (segment : PathSegment) (path : List PathSegment) (value : RuntimeValue) :
    ∃ f, ∀ fields, insertField (segment :: path) value fields = place segment f fields := by
  cases path with
  | nil => exact ⟨_, fun fields => rfl⟩
  | cons next path => exact ⟨_, fun fields => rfl⟩

/-- **Assignments at paths that do not meet may change their order.** -/
theorem commuting_assign {p q : List PathSegment} (h : Apart p q) (v w : RuntimeValue) :
    Commuting assign (p, v) (q, w) := by
  induction p generalizing q with
  | nil => exact h.elim
  | cons a p ih =>
      cases q with
      | nil => exact h.elim
      | cons b q =>
          intro fields
          change insertField (b :: q) w (insertField (a :: p) v fields) =
            insertField (a :: p) v (insertField (b :: q) w fields)
          rw [Apart] at h
          by_cases hab : a = b
          -- the paths go on together
          · subst hab
            rw [if_pos rfl] at h
            obtain ⟨x, p, rfl⟩ : ∃ x p', p = x :: p' := by
              cases p with
              | nil => exact h.elim
              | cons x p => exact ⟨x, p, rfl⟩
            obtain ⟨y, q, rfl⟩ : ∃ y q', q = y :: q' := by
              cases q with
              | nil => exact h.elim
              | cons y q => exact ⟨y, q, rfl⟩
            rw [insertField, insertField, place_place, insertField, insertField, place_place]
            congr 1
            funext old
            exact congrArg (RuntimeValue.struct · _) (ih h _)
          · rw [if_neg hab] at h
            obtain ⟨f, hf⟩ := insertField_cons a p v
            obtain ⟨g, hg⟩ := insertField_cons b q w
            rw [hf, hg, hf, hg]
            exact (place_comm hab h f g fields).symm

def RuntimeValue.isContainer (value : RuntimeValue) : Bool :=
  value.type = .struct || value.type = .array

theorem isContainer_fromHexString {hex : List Char} {declaredType : String} {result : RuntimeValue}
    (h : RuntimeValue.fromHexString hex declaredType = .ok result) : result.isContainer = false := by
  unfold RuntimeValue.fromHexString at h
  cases hparse : RuntimeCodec.parseHex (String.ofList hex) with
  | error e =>
      rw [hparse] at h
      cases h
  | ok bytes =>
      rw [hparse] at h
      obtain rfl := Except.ok.inj h
      rfl

/-- What is read is no container. -/
theorem isContainer_parseRuntimeArgument {raw declaredType : String} {result : RuntimeValue}
    (h : parseRuntimeArgument raw declaredType = .ok result) : result.isContainer = false := by
  have hok : ∀ value : RuntimeValue, value.isContainer = false →
      (Except.ok value : Except RuntimeError RuntimeValue) = .ok result →
      result.isContainer = false := by
    rintro value hvalue heq
    obtain rfl := Except.ok.inj heq
    exact hvalue
  unfold parseRuntimeArgument at h
  dsimp only at h
  split_ifs at h
  · exact hok _ rfl h
  · exact isContainer_fromHexString h
  · exact hok _ rfl h
  · exact hok _ rfl h
  · exact hok _ rfl h
  · exact hok _ rfl h
  · exact hok _ rfl h
  · exact hok _ rfl h
  · exact isContainer_fromHexString h
  · exact isContainer_fromHexString h
  · exact isContainer_fromHexString h
  · split at h
    · exact hok _ rfl h
    · exact hok _ rfl h
  · split at h
    · exact hok _ rfl h
    · exact hok _ rfl h

end AtomicProof
