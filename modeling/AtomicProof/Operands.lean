/-
Operands of the code generator.

`visitIdentifier` and `visitLiteral` in `src/src/compiler/ast_to_bytecode_visitor.cpp` emit nothing.
They push a name on the picture of the main stack, and whoever asked for the operand looks at the name:
the text of a script is emitted where the operand is needed, the name of a slot stands for the slot, and a
`CompilerPlaceholder` is a result that lies on top already.  `evalLiteral` of the interpreter gives a
literal its value.

Main definitions:

* `Literal`, `visitLiteral`, `evalLiteral` — the literals of the parser, compiled and interpreted;
* `visitIdentifier` — an identifier;
* `PushesText` — a script that pushes a value.

Main results:

* `pushesText_literal` — **the script of a literal pushes its value**, where the literal is no address and
  escaping does not change it;
* `length_of_decodeP2PKHAddress` — an address is longer than the hash it stands for.
-/

import AtomicProof.Slice

set_option autoImplicit false

namespace AtomicProof

open ScriptCodec

/-! ### Texts -/

def CompilerPlaceholder.isPlaceholder (str : String) : Bool :=
  "/CompilerPlaceholder_".toList.length + 1 < str.toList.length &&
    "/CompilerPlaceholder_".toList.isPrefixOf str.toList && str.toList.getLast? = some '/'

/-- The characters that `escapeString` writes with a backslash. -/
def escapeChar : Char → List Char
  | '\n' => ['\\', 'n']
  | '\t' => ['\\', 't']
  | '\x00' => ['\\', '0']
  | '\r' => ['\\', 'r']
  | c => [c]

/-- The loop of `escapeString`; `kept` where the last character was a backslash that starts an escape
already, which is kept as a whole. -/
def escapeChars (kept : Bool) : List Char → List Char
  | [] => []
  | c :: rest =>
      if kept then c :: escapeChars false rest
      else if c = '\\' && rest.head?.any fun c => c = 'n' || c = 't' || c = '"' || c = '\\' then
        c :: escapeChars true rest
      else escapeChar c ++ escapeChars false rest

def escapeString (str : String) : String := String.ofList (escapeChars false str.toList)

def textBytes (str : String) : Bytes := str.toUTF8.toList

/-- The text of an encoded push, with its prefix. -/
def scriptHexOf (bytes : Bytes) : String :=
  match encodePushHex bytes .legacy with
  | some encoded => "0x" ++ encoded
  | none => "0x00"

def stringToScriptHex (str : String) : String :=
  if str = "" then "0x00" else scriptHexOf (textBytes (escapeString str))

def bytEncodeLengthOpcode (length : ℕ) : String :=
  ((legacyPushPrefix length).map hexText).getD ""

def hexToScriptHex (hexStr : String) : String :=
  if hexData hexStr = "" then "0x00"
  else
    match hexToBytes (hexData hexStr) with
    | .ok bytes => scriptHexOf bytes
    | .error _ =>
        "0x" ++ bytEncodeLengthOpcode ((hexData hexStr).toList.length / 2) ++ hexData hexStr

/-- `isValidHex` of `TypeValidator`. -/
def isValidHex (hex : String) : Bool :=
  let digits := stripHexPrefix hex.toList
  !digits.isEmpty && digits.length % 2 = 0 && digits.all isXDigit

/-! ### Addresses -/

def base58Chars : List Char :=
  "123456789ABCDEFGHJKLMNPQRSTUVWXYZabcdefghijkmnopqrstuvwxyz".toList

/-- The loop over a carry that is left; an `int` has four bytes. -/
def carryBytes : ℕ → ℕ → Bytes
  | 0, _ => []
  | fuel + 1, carry =>
      if carry = 0 then [] else UInt8.ofNat (carry % 256) :: carryBytes fuel (carry / 256)

/-- One digit is taken in: `num * 58 + carry`, the lowest byte first. -/
def timesBase (carry : ℕ) : Bytes → Bytes
  | [] => carryBytes 4 carry
  | byte :: num =>
      UInt8.ofNat ((carry + byte.toNat * 58) % 256) :: timesBase ((carry + byte.toNat * 58) / 256) num

def base58Decode (encoded : List Char) : Bytes :=
  let zeroCount := (encoded.takeWhile (· = '1')).length
  match (encoded.drop zeroCount).mapM (fun c => base58Chars.idxOf? c) with
  | none => []
  | some digits =>
      List.replicate zeroCount 0x00 ++ (digits.foldl (fun num digit => timesBase digit num) []).reverse

def decodeP2PKHAddress (address : String) : String :=
  let decoded := base58Decode address.toList
  if decoded.length ≠ 25 then ""
  else if decoded.head? ≠ some 0x00 then ""
  else hexText ((decoded.drop 1).take 20)

/-! ### Literals -/

/-- The literals that the parser makes; the digits of a number are read already. -/
inductive Literal
  | number (value : Int64)
  | string (value : String)
  | hex (value : String)
  | address (value : String)
  deriving DecidableEq, Repr

/-- `GENESIS_STACK_MEMORY_POLICY`. -/
def stackMemoryPolicy : ℕ := 100 * 1024 * 1024

/-- What `visitLiteral` pushes; `none` where it reports a type error.  The narrower types that
`inferLiteralType` finds for hexadecimal text accept what they are found for. -/
def Literal.element : Literal → Option StackElement
  | .number value =>
      let numberHex := numberToScriptHex value.toInt
      some ⟨numberHex, "num", numberHex⟩
  | .string value =>
      let stringHex := stringToScriptHex value
      if stringHex.toList.length / 2 ≤ stackMemoryPolicy then some ⟨stringHex, "string", stringHex⟩
      else none
  | .hex value =>
      let hexOpValue := hexToScriptHex value
      if isValidHex value ∧ (stripHexPrefix value.toList).length / 2 ≤ stackMemoryPolicy then
        some ⟨hexOpValue, "hex", hexOpValue⟩
      else none
  | .address value =>
      let pubkeyHashHex := decodeP2PKHAddress value
      if pubkeyHashHex.toList.length = 40 then
        some ⟨"0x" ++ (bytEncodeLengthOpcode 20 ++ pubkeyHashHex), "address", pubkeyHashHex⟩
      else none

def visitLiteral (literal : Literal) : Visit := fun s =>
  match literal.element with
  | some element => Visit.push element s
  | none => .ok ([], s)

def RuntimeCodec.parseHex (hex : String) : Except RuntimeError Bytes :=
  let clean := (stripHexPrefix hex.toList).filter fun c => !isSpace c
  match hexPairs (if clean.length % 2 ≠ 0 then '0' :: clean else clean) with
  | some bytes => .ok bytes
  | none => .error ⟨.typeMismatch, "invalid hex literal"⟩

def evalLiteral : Literal → Except RuntimeError RuntimeValue
  | .number value => .ok (.fromInt value.toInt "number")
  | .string value => .ok (.fromString value)
  | .hex value => (RuntimeCodec.parseHex value).map fun bytes => .fromBytes bytes "hex"
  | .address value => .ok (.address value "address")

/-! ### Identifiers -/

def VisitorState.getFixed (s : VisitorState) (name : String) : Option StackElement :=
  s.fixed.find? fun element => element.name == name

/-- What `visitIdentifier` pushes. -/
def VisitorState.identifierElement (s : VisitorState) (name : String) : StackElement :=
  let boundName := s.table.resolveBindSymbol name
  if name = "self" then ⟨"<self>", "", "<self>"⟩
  else if boundName ≠ name ∧ isAnglePlaceholder boundName then
    ⟨boundName, "builtin_member", boundName⟩
  else if (s.table.getPos name).isSome then ⟨name, "", name⟩
  else
    match s.getFixed name with
    | some fixedVar =>
        if fixedVar.data ≠ "" ∧ fixedVar.data ≠ name then
          ⟨fixedVar.data, fixedVar.type, fixedVar.data⟩
        else ⟨name, fixedVar.type, name⟩
    | none => ⟨name, "", name⟩

def visitIdentifier (name : String) : Visit := fun s => Visit.push (s.identifierElement name) s

/-- Where the value of an identifier is: in the text of a script, in a slot, or nowhere. -/
inductive Place
  | text (script : String)
  | main (pos : ℕ)
  | alt (pos : ℕ)
  | nowhere

def VisitorState.place (s : VisitorState) (name : String) : Place :=
  if name = "self" ∨ (s.table.resolveBindSymbol name ≠ name ∧
      isAnglePlaceholder (s.table.resolveBindSymbol name)) then
    .text (s.identifierElement name).name
  else
    match s.table.getPos name with
    | some pos => .main pos
    | none =>
        if (s.getFixed name).isSome then .text (s.identifierElement name).name
        else
          match posOf (s.table.resolveBindSymbol name) s.table.alt with
          | some pos => .alt pos
          | none => .nowhere

def PushesText (env : ScriptEnv) (text : String) (value : Bytes) : Prop :=
  ∀ main alt : Stack, Takes env (emitText text) (main, alt) (value :: main, alt)

/-- A place holds a value.  Text that is no script is never run. -/
def Place.Holds (env : ScriptEnv) (slots : NamedStacks) (value : Bytes) : Place → Prop
  | .text script => isScript script = true → PushesText env script value
  | .main pos => ∃ name, slots.1[pos]? = some (name, value)
  | .alt pos => ∃ name, slots.2[pos]? = some (name, value)
  | .nowhere => False

/-! ### Texts as bytes -/

/-- The loop of `ByteArray.toList` lists what is left. -/
theorem toList_loop (b : ByteArray) (i : ℕ) (r : List UInt8) :
    ByteArray.toList.loop b i r = r.reverse ++ b.data.toList.drop i := by
  fun_induction ByteArray.toList.loop b i r with
  | case1 i r h ih =>
      have hlt : i < b.data.toList.length := h
      have hget : b.get! i = b.data.toList[i] := by
        rw [Array.getElem_toList]
        exact getElem!_pos b.data i h
      rw [ih, List.reverse_cons, List.append_assoc, List.drop_eq_getElem_cons hlt, hget]
      rfl
  | case2 i r h =>
      have hle : b.data.toList.length ≤ i := Nat.le_of_not_lt h
      rw [List.drop_eq_nil_of_le hle, List.append_nil]

theorem textBytes_eq (str : String) : textBytes str = str.toList.flatMap String.utf8EncodeChar := by
  have hbytes : textBytes str = str.toUTF8.data.toList := toList_loop str.toUTF8 0 []
  rw [hbytes, String.toUTF8_eq_toByteArray, ← String.utf8Encode_toList, List.utf8Encode,
    List.data_toByteArray]

theorem length_textBytes (str : String) :
    (textBytes str).length = (str.toList.map Char.utf8Size).sum := by
  rw [textBytes_eq, List.length_flatMap]
  congr 1
  exact List.map_congr_left fun c _ => String.length_utf8EncodeChar c

theorem length_le_textBytes (str : String) : str.toList.length ≤ (textBytes str).length := by
  rw [length_textBytes]
  generalize str.toList = cs
  induction cs with
  | nil => exact le_refl _
  | cons c cs ih =>
      have hpos := Char.utf8Size_pos c
      rw [List.length_cons, List.map_cons, List.sum_cons]
      omega

/-- Escaping is done character by character. -/
theorem escapeChars_eq (cs : List Char) : ∀ kept : Bool,
    (kept = true → ∀ c ∈ cs.head?, escapeChar c = [c]) →
      escapeChars kept cs = cs.flatMap escapeChar := by
  induction cs with
  | nil => exact fun _ _ => rfl
  | cons c rest ih =>
      intro kept hkept
      rw [escapeChars, List.flatMap_cons]
      cases kept with
      | true =>
          rw [if_pos rfl, hkept rfl c rfl, ih false nofun]
          rfl
      | false =>
          rw [if_neg Bool.false_ne_true]
          split
          · rename_i hbackslash
            obtain ⟨hc, hrest⟩ := Bool.and_eq_true_iff.1 hbackslash
            rw [ih true ?_, of_decide_eq_true hc]
            · rfl
            · intro _ d hd
              rw [Option.mem_def.1 hd, Option.any_some] at hrest
              simp only [Bool.or_eq_true, decide_eq_true_eq] at hrest
              rcases hrest with ((rfl | rfl) | rfl) | rfl <;> rfl
          · rw [ih false nofun]

theorem textBytes_escapeString (str : String) :
    textBytes (escapeString str) =
      str.toList.flatMap fun c => (escapeChar c).flatMap String.utf8EncodeChar := by
  rw [textBytes_eq, escapeString, String.toList_ofList, escapeChars_eq _ false nofun,
    List.flatMap_assoc]

theorem utf8_escapeChar (c : Char) :
    escapeChar c = [c] ∨ ((escapeChar c).flatMap String.utf8EncodeChar).length =
      (String.utf8EncodeChar c).length + 1 := by
  unfold escapeChar
  split
  · exact .inr rfl
  · exact .inr rfl
  · exact .inr rfl
  · exact .inr rfl
  · exact .inl rfl

/-- Escaping keeps the bytes of a text that has nothing to escape, and adds to any other. -/
theorem length_escapeString (str : String) :
    ((∀ c ∈ str.toList, escapeChar c = [c]) → textBytes (escapeString str) = textBytes str) ∧
      ((¬ ∀ c ∈ str.toList, escapeChar c = [c]) →
        (textBytes str).length < (textBytes (escapeString str)).length) := by
  rw [textBytes_escapeString, textBytes_eq]
  generalize str.toList = cs
  induction cs with
  | nil => exact ⟨fun _ => rfl, fun h => absurd (fun _ hc => absurd hc List.not_mem_nil) h⟩
  | cons c cs ih =>
      obtain ⟨hsame, hmore⟩ := ih
      rw [List.flatMap_cons, List.flatMap_cons, List.forall_mem_cons]
      constructor
      · rintro ⟨hc, hcs⟩
        rw [hsame hcs, hc, List.flatMap_singleton]
      · intro hchanged
        rw [List.length_append, List.length_append]
        by_cases hcs : ∀ d ∈ cs, escapeChar d = [d]
        -- only this character is escaped
        · rw [hsame hcs]
          rcases utf8_escapeChar c with hc | hc
          · exact absurd ⟨hc, hcs⟩ hchanged
          · omega
        · have hrest := hmore hcs
          rcases utf8_escapeChar c with hc | hc
          · rw [hc, List.flatMap_singleton]
            omega
          · omega

/-! ### Addresses are long -/

theorem length_carryBytes {carry : ℕ} (h : carry < 256) (fuel : ℕ) :
    (carryBytes fuel carry).length ≤ 1 := by
  cases fuel with
  | zero => exact Nat.zero_le _
  | succ fuel =>
      rw [carryBytes]
      split_ifs with h0
      · exact Nat.zero_le _
      · rw [Nat.div_eq_of_lt h]
        cases fuel with
        | zero => exact le_refl _
        | succ fuel => exact le_refl _

theorem length_timesBase {carry : ℕ} (h : carry < 58) (num : Bytes) :
    (timesBase carry num).length ≤ num.length + 1 := by
  induction num generalizing carry with
  | nil => exact length_carryBytes (by omega) 4
  | cons byte num ih =>
      have hbyte := byte.toNat_lt
      rw [timesBase, List.length_cons, List.length_cons]
      exact Nat.succ_le_succ (ih (by omega))

theorem length_foldl_timesBase {digits : List ℕ} (h : ∀ digit ∈ digits, digit < 58) (num : Bytes) :
    (digits.foldl (fun num digit => timesBase digit num) num).length ≤ num.length + digits.length := by
  induction digits generalizing num with
  | nil => exact le_refl _
  | cons digit digits ih =>
      obtain ⟨hdigit, hdigits⟩ := List.forall_mem_cons.1 h
      have hstep := length_timesBase hdigit num
      have hrest := ih hdigits (timesBase digit num)
      rw [List.foldl_cons, List.length_cons]
      omega

theorem mapM_eq_some {α β : Type} {f : α → Option β} {xs : List α} {ys : List β}
    (h : xs.mapM f = some ys) : ys.length = xs.length ∧ ∀ y ∈ ys, ∃ x, f x = some y := by
  induction xs generalizing ys with
  | nil =>
      obtain rfl : [] = ys := Option.some.inj h
      exact ⟨rfl, nofun⟩
  | cons x xs ih =>
      rw [List.mapM_cons] at h
      obtain ⟨y, hy, h⟩ := Option.bind_eq_some_iff.1 h
      obtain ⟨rest, hrest, h⟩ := Option.bind_eq_some_iff.1 h
      obtain rfl : y :: rest = ys := Option.some.inj h
      obtain ⟨hlength, hall⟩ := ih hrest
      exact ⟨congrArg (· + 1) hlength, List.forall_mem_cons.2 ⟨⟨x, hy⟩, hall⟩⟩

/-- A text decodes to no more bytes than it has characters. -/
theorem length_base58Decode (encoded : List Char) : (base58Decode encoded).length ≤ encoded.length := by
  have hzero : (encoded.takeWhile (· = '1')).length ≤ encoded.length :=
    (List.takeWhile_prefix _).length_le
  unfold base58Decode
  dsimp only
  split
  · exact Nat.zero_le _
  · rename_i digits hdigits
    obtain ⟨hlength, hall⟩ := mapM_eq_some hdigits
    rw [List.length_drop] at hlength
    have hlt : ∀ digit ∈ digits, digit < 58 := by
      intro digit hdigit
      obtain ⟨c, hc⟩ := hall digit hdigit
      exact (List.idxOf?_eq_some_iff.1 hc).1
    have hfold := length_foldl_timesBase hlt []
    rw [List.length_nil] at hfold
    rw [List.length_append, List.length_replicate, List.length_reverse]
    omega

/-- An address is longer than the hash it stands for. -/
theorem length_of_decodeP2PKHAddress {address : String}
    (h : (decodeP2PKHAddress address).toList.length = 40) :
    ∃ hash : Bytes, decodeP2PKHAddress address = hexText hash ∧ hash.length = 20 ∧
      25 ≤ (textBytes address).length := by
  have hdecoded := length_base58Decode address.toList
  have htext := length_le_textBytes address
  unfold decodeP2PKHAddress at h ⊢
  dsimp only at h ⊢
  split_ifs at h ⊢ with hlength hversion
  · cases h
  · cases h
  · rw [not_not] at hlength
    refine ⟨_, rfl, ?_, by omega⟩
    rw [List.length_take, List.length_drop, hlength]
    rfl

/-! ### Scripts that push -/

variable {env : ScriptEnv}

/-- Digits with a prefix are a script. -/
theorem isScript_prefixed {digits : List Char} (hne : digits ≠ []) (h : digits.all isXDigit = true) :
    isScript ("0x" ++ String.ofList digits) = true := by
  have htext : ("0x" ++ String.ofList digits).toList = '0' :: 'x' :: digits := by
    rw [String.toList_append, String.toList_ofList, String.toList_ofList]
    rfl
  have hstrip : stripHexPrefix ('0' :: 'x' :: digits) = digits := rfl
  have hnonempty : digits.isEmpty = false := by simpa using hne
  have hshorter : digits.length < ('0' :: 'x' :: digits).length :=
    Nat.lt_succ_of_lt (Nat.lt_succ_self _)
  unfold isScript
  rw [htext]
  dsimp only
  rw [hstrip, hnonempty, h, decide_eq_true hshorter]
  exact Bool.or_true _

theorem all_bytesToHex (bytes : Bytes) : (bytesToHex bytes).all isXDigit = true := by
  have hpairs := (hexPairs_isSome_iff (bytesToHex bytes)).1 (by rw [hexPairs_bytesToHex]; rfl)
  exact List.all_eq_true.2 hpairs.2

theorem isScript_hexText {bytes : Bytes} (hne : bytes ≠ []) : isScript ("0x" ++ hexText bytes) = true := by
  refine isScript_prefixed ?_ (all_bytesToHex bytes)
  intro hnil
  have hlength := bytesToHex_length bytes
  rw [hnil] at hlength
  have hpos := List.length_pos_iff.2 hne
  rw [List.length_nil] at hlength
  omega

theorem pushesText_push {bytes value : Bytes} (h : IsPush bytes value) :
    isScript ("0x" ++ hexText bytes) = true ∧ PushesText env ("0x" ++ hexText bytes) value := by
  refine ⟨isScript_hexText ?_, takes_push h⟩
  rintro rfl
  obtain ⟨-, instr, hexact, -⟩ := h
  cases hexact

theorem pushesText_number (value : ℤ) : isScript (numberToScriptHex value) = true ∧
    PushesText env (numberToScriptHex value) (serializeScriptNum value) := by
  obtain ⟨bytes, htext, hpush⟩ := exists_isPush_number value
  rw [htext]
  exact pushesText_push hpush

/-- An encoded push pushes its payload. -/
theorem pushesText_scriptHexOf {payload : Bytes} (h : payload.length ≤ 4294967295) :
    isScript (scriptHexOf payload) = true ∧ PushesText env (scriptHexOf payload) payload := by
  by_cases hnil : payload = []
  · subst hnil
    exact pushesText_number 0
  · obtain ⟨encoding, form, hencoding, -⟩ := encodePush_spec h .legacy
    obtain ⟨form', hdecode, -⟩ := decodePush_encodePush hencoding
    have htext : scriptHexOf payload = "0x" ++ hexText encoding := by
      unfold scriptHexOf encodePushHex
      rw [hencoding]
      rfl
    rw [htext]
    exact pushesText_push (isPush_of_decodePush hdecode hnil)

theorem pushesText_scriptHexOf_long {payload : Bytes} (h : 4294967295 < payload.length) :
    isScript (scriptHexOf payload) = true ∧ PushesText env (scriptHexOf payload) [] := by
  have htext : scriptHexOf payload = numberToScriptHex 0 := by
    unfold scriptHexOf encodePushHex
    rw [encodePush_eq_none_iff.2 h]
    rfl
  rw [htext]
  exact pushesText_number 0

theorem isSpace_of_isXDigit {c : Char} (h : isXDigit c = true) : isSpace c = false := by
  by_contra hspace
  rw [Bool.not_eq_false, isSpace, List.contains_iff_mem] at hspace
  have hnone : (" \t\n\x0b\x0c\r".toList.all fun d => !isXDigit d) = true := by decide
  have hc := List.all_eq_true.1 hnone c hspace
  rw [h] at hc
  cases hc

theorem hex_literal {value : String} (h : isValidHex value = true) :
    ∃ bytes, hexPairs (stripHexPrefix value.toList) = some bytes ∧ 
      hexToScriptHex value = scriptHexOf bytes ∧ RuntimeCodec.parseHex value = .ok bytes := by
  unfold isValidHex at h
  simp only [Bool.and_eq_true, Bool.not_eq_true', decide_eq_true_eq] at h
  obtain ⟨⟨hne, heven⟩, hdigits⟩ := h
  have hdigits' := List.all_eq_true.1 hdigits
  obtain ⟨bytes, hbytes⟩ := Option.isSome_iff_exists.1
    ((hexPairs_isSome_iff (stripHexPrefix value.toList)).2 ⟨heven, hdigits'⟩)
  refine ⟨bytes, hbytes, ?_, ?_⟩
  · have hdata : hexData value = String.ofList (stripHexPrefix value.toList) := by
      unfold hexData
      rw [if_pos hdigits]
    have hnonempty : hexData value ≠ "" := by
      rw [hdata]
      intro hempty
      have hnil := congrArg String.toList hempty
      rw [String.toList_ofList] at hnil
      rw [hnil] at hne
      cases hne
    have hhex : hexToBytes (hexData value) = .ok bytes := by
      refine hexToBytes_of_hexPairs ?_ ?_
      · rintro rfl
        have hlength := length_of_hexPairs hbytes
        rw [List.isEmpty_eq_false_iff] at hne
        exact hne (List.length_eq_zero_iff.1 hlength)
      · rw [hdata, String.toList_ofList, hbytes]
    unfold hexToScriptHex
    rw [if_neg hnonempty, hhex]
  · have hclean : (stripHexPrefix value.toList).filter (fun c => !isSpace c) =
        stripHexPrefix value.toList := by
      refine List.filter_eq_self.2 ?_
      intro c hc
      rw [isSpace_of_isXDigit (hdigits' c hc)]
      rfl
    unfold RuntimeCodec.parseHex
    rw [hclean]
    dsimp only
    rw [if_neg (by omega), hbytes]

/-! ### Literals -/

/-- A literal that the machine and the interpreter measure differently. -/
def Literal.Differs : Literal → Prop
  | .number _ => False
  | .string value => (∃ c ∈ value.toList, escapeChar c ≠ [c]) ∨ 4294967295 < (textBytes value).length
  | .hex _ => False
  | .address _ => True

/-- The text of a literal is a `std::string`, whose length fits `int64_t`. -/
def Literal.Fits : Literal → Prop
  | .string value => (textBytes value).length < 2 ^ 63
  | .address value => (textBytes value).length < 2 ^ 63
  | _ => True

theorem length_serializeScriptNum_lt (value : ℤ) : (serializeScriptNum value).length < 76 := by
  by_cases h : value = 0
  · subst h
    decide
  · exact (serializeScriptNum_length h).2

/-- **The script of a literal pushes a value as long as the interpreter's**, unless the literal
differs. -/
theorem pushesText_literal {literal : Literal} {element : StackElement}
    (helement : literal.element = some element) (hfits : literal.Fits) :
    ∃ value v w, evalLiteral literal = .ok value ∧ value.toScriptBytes = .ok v ∧
      isScript element.name = true ∧ PushesText env element.name w ∧
      v.length < 2 ^ 63 ∧ w.length < 2 ^ 63 ∧ (w.length = v.length ↔ ¬ literal.Differs) := by
  cases literal with
  | number number =>
      obtain rfl := Option.some.inj helement
      obtain ⟨hscript, hpushes⟩ := @pushesText_number env number.toInt
      have hlength := length_serializeScriptNum_lt number.toInt
      refine ⟨_, _, _, rfl, rfl, hscript, hpushes, ?_, by omega, ?_⟩
      · rw [RuntimeCodec.serializeScriptNum_eq]
        omega
      · rw [RuntimeCodec.serializeScriptNum_eq]
        exact iff_of_true rfl id
  | string str =>
      replace hfits : (textBytes str).length < 2 ^ 63 := hfits
      unfold Literal.element at helement
      dsimp only at helement
      split_ifs at helement
      obtain rfl := Option.some.inj helement
      obtain ⟨hsame, hgrows⟩ := length_escapeString str
      have hchars := length_le_textBytes str
      -- the empty text is written as the number zero
      by_cases hempty : str = ""
      · subst hempty
        obtain ⟨hscript, hpushes⟩ := @pushesText_number env 0
        have hnil : textBytes "" = [] := by
          rw [textBytes_eq]
          rfl
        refine ⟨_, _, _, rfl, rfl, hscript, hpushes, hfits, by decide,
          iff_of_true (congrArg List.length hnil.symm) ?_⟩
        rintro (⟨c, hc, -⟩ | hlong)
        · exact absurd hc List.not_mem_nil
        · rw [hnil] at hlong
          exact absurd hlong (by decide)
      have hpos : 0 < str.toList.length := by
        refine List.length_pos_iff.2 fun hnil => hempty ?_
        rw [← @String.ofList_toList str, hnil]
      have htext : stringToScriptHex str = scriptHexOf (textBytes (escapeString str)) := if_neg hempty
      rw [htext]
      -- the escaped text is what is pushed, unless it is too long for a push
      by_cases hshort : (textBytes (escapeString str)).length ≤ 4294967295
      · obtain ⟨hscript, hpushes⟩ := @pushesText_scriptHexOf env _ hshort
        refine ⟨_, _, _, rfl, rfl, hscript, hpushes, hfits, by omega, ?_⟩
        by_cases hall : ∀ c ∈ str.toList, escapeChar c = [c]
        · rw [hsame hall] at hshort ⊢
          refine iff_of_true rfl ?_
          rintro (⟨c, hc, hchanged⟩ | hlong)
          · exact hchanged (hall c hc)
          · omega
        · have hlonger := hgrows hall
          push Not at hall
          exact iff_of_false hlonger.ne' (not_not_intro (.inl hall))
      · obtain ⟨hscript, hpushes⟩ := @pushesText_scriptHexOf_long env _ (Nat.lt_of_not_le hshort)
        refine ⟨_, _, _, rfl, rfl, hscript, hpushes, hfits, by decide,
          iff_of_false ?_ (not_not_intro ?_)⟩
        · show 0 ≠ (textBytes str).length
          omega
        · by_cases hall : ∀ c ∈ str.toList, escapeChar c = [c]
          · rw [hsame hall] at hshort
            exact .inr (Nat.lt_of_not_le hshort)
          · push Not at hall
            exact .inl hall
  | hex hex =>
      unfold Literal.element at helement
      dsimp only at helement
      split_ifs at helement with hvalid
      obtain rfl := Option.some.inj helement
      obtain ⟨bytes, hpairs, htext, hparse⟩ := hex_literal hvalid.1
      have hlength := length_of_hexPairs hpairs
      have hsize := hvalid.2
      unfold stackMemoryPolicy at hsize
      have heval : evalLiteral (.hex hex) = .ok (.fromBytes bytes "hex") := by
        rw [evalLiteral, hparse]
        rfl
      obtain ⟨hscript, hpushes⟩ := @pushesText_scriptHexOf env bytes (by omega)
      rw [← htext] at hscript hpushes
      exact ⟨_, _, _, heval, rfl, hscript, hpushes, by omega, by omega, iff_of_true rfl id⟩
  | address address =>
      unfold Literal.element at helement
      dsimp only at helement
      split_ifs at helement with hlength
      obtain rfl := Option.some.inj helement
      -- the compiler pushes the hash of the address, the interpreter keeps its text
      obtain ⟨hash, hhash, hhashLength, htext⟩ := length_of_decodeP2PKHAddress hlength
      have hpush : IsPush (0x14 :: hash) hash := by
        have hdirect := @isPush_direct hash (by rintro rfl; cases hhashLength) (by omega)
        rwa [hhashLength] at hdirect
      have hname : "0x" ++ (bytEncodeLengthOpcode 20 ++ decodeP2PKHAddress address) =
          "0x" ++ hexText (0x14 :: hash) := by
        have hcons : hexText (0x14 :: hash) = hexText [0x14] ++ hexText hash := hexText_append [0x14] hash
        rw [hhash, hcons]
        rfl
      obtain ⟨hscript, hpushes⟩ := @pushesText_push env _ _ hpush
      rw [← hname] at hscript hpushes
      have hne : hash.length ≠ (textBytes address).length := by omega
      exact ⟨_, _, _, rfl, rfl, hscript, hpushes, hfits, by omega,
        iff_of_false hne (not_not_intro trivial)⟩

end AtomicProof
