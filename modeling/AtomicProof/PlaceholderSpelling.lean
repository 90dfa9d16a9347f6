/-
The sizes and the spelling of placeholders in front of `OP_RETURN`.

`BytecodeFinalizePass` in `src/src/bytecode_finalize_pass.h` sizes the executable part of a script
before the values of its placeholders are known.  The length of `<self.x>` is declared for the name
`self.x`, and the pass appends it to the name: `<self.x>` with two bytes is spelled `<self.x2>`, and
a name that ends in its digits already is left alone.  A spelled label is sized again by searching
for the longest declared name that the digits complete to the label.  A name can end in digits
itself, so the spelling of one declaration can be the name of another.

Main definitions:

* `PlaceholderLengthMap`, `selfPlaceholderPayloadLength` — the declared lengths and the search;
* `instructionBytes` — the size of an instruction and its text with the labels spelled out;
* `SpellingKept` — distinct labels keep distinct spellings, and a spelling has the size of its label;
* `DigitsApart` — no declaration is in the way of the digits that are appended.

Main results:

* `selfPlaceholderPayloadLength_of_undeclared` — the search takes the longest name, in any order;
* `spellingKept_iff` — **the spelling keeps labels apart exactly when no declaration is in the way of
  the digits**;
* `spelling_confused` — **two fields of one contract that are spelled alike**;
* `Scans.rewritten` — a text whose labels keep their sizes is read as it was after the spelling.
-/

import AtomicProof.IfTail
import Mathlib.Data.List.TakeWhile

set_option autoImplicit false

namespace AtomicProof

namespace BytecodeFinalizePass

open IfTail (isPureHex normalizeHex)

/-! ### Declared lengths -/

/-- `PlaceholderLengthMap`: one length for every declared name. -/
structure PlaceholderLengthMap where
  entries : List (String × ℕ)
  nodup : (entries.map Prod.fst).Nodup

/-- The entry of a name, if it is declared. -/
def PlaceholderLengthMap.find? (placeholderLengths : PlaceholderLengthMap) (label : String) :
    Option ℕ :=
  placeholderLengths.entries.lookup label

def startsWith (value start : String) : Bool := start.toList.isPrefixOf value.toList

def endsWith (value suffix : String) : Bool := suffix.toList.isSuffixOf value.toList

/-- Why an instruction has no size: its text cannot be read, or a placeholder has no declaration. -/
inductive SizeFailure
  | unreadable
  | undeclared (label : String)
  deriving DecidableEq, Repr

/-- The error that is reported where a length is required. -/
def SizeFailure.message : SizeFailure → Option String
  | .unreadable => none
  | .undeclared label =>
      some ("placeholder '<" ++ label ++
        ">' appears before OP_RETURN but has no fixed byte length declaration")

/-- One step of the search: an entry that completes to the label replaces a shorter one. -/
def longerMatch (label : String) (matched : Option (ℕ × ℕ)) (entry : String × ℕ) : Option (ℕ × ℕ) :=
  if label = entry.1 ++ toString entry.2 then
    match matched with
    | none => some (entry.2, entry.1.length)
    | some (matchedLength, matchedBaseLength) =>
        if matchedBaseLength < entry.1.length then some (entry.2, entry.1.length)
        else some (matchedLength, matchedBaseLength)
  else matched

def selfPlaceholderPayloadLength (label : String) (placeholderLengths : PlaceholderLengthMap) :
    Except SizeFailure ℕ :=
  if startsWith label "self." then
    match placeholderLengths.find? label with
    | some payloadLength => .ok payloadLength
    | none =>
        match placeholderLengths.entries.foldl (longerMatch label) none with
        | some (matchedLength, _) => .ok matchedLength
        | none => .error (.undeclared label)
  else .error .unreadable

/-- `rewrittenLabel`: the label followed by its length, unless it ends in it. -/
def rewrittenLabel (label : String) (payloadLength : ℕ) : String :=
  if endsWith label (toString payloadLength) then label else label ++ toString payloadLength

/-! ### Instructions -/

def pushEncodedByteLength (payloadBytes : ℕ) : ℕ :=
  if payloadBytes < 76 then 1 + payloadBytes
  else if payloadBytes ≤ 255 then 2 + payloadBytes
  else if payloadBytes ≤ 65535 then 3 + payloadBytes
  else 5 + payloadBytes

/-- What the loop over a text with placeholders has found. -/
structure Scan where
  total : ℕ
  rewritten : List Char
  labels : List String
  deriving DecidableEq, Repr

def Scan.addLabel (label : String) (payloadLength : ℕ) (found : Scan) : Scan :=
  ⟨pushEncodedByteLength payloadLength + found.total,
    '<' :: ((rewrittenLabel label payloadLength).toList ++ '>' :: found.rewritten),
    label :: found.labels⟩

def Scan.addDigits (digits : List Char) (found : Scan) : Scan :=
  ⟨digits.length / 2 + found.total, digits ++ found.rewritten, found.labels⟩

/-- The loop of `instructionBytes` over hexadecimal digits and placeholders. -/
def scan (placeholderLengths : PlaceholderLengthMap) : List Char → Except SizeFailure Scan
  | [] => .ok ⟨0, [], []⟩
  | c :: rest =>
      if c = '<' then
        match _h : rest.dropWhile (· ≠ '>') with
        | [] => .error .unreadable
        | _ :: remaining =>
            match selfPlaceholderPayloadLength (String.ofList (rest.takeWhile (· ≠ '>')))
                placeholderLengths with
            | .error failure => .error failure
            | .ok payloadLength =>
                (scan placeholderLengths remaining).map
                  (Scan.addLabel (String.ofList (rest.takeWhile (· ≠ '>'))) payloadLength)
      else if isXDigit c then
        if (c :: rest.takeWhile isXDigit).length % 2 ≠ 0 then .error .unreadable
        else
          (scan placeholderLengths (rest.dropWhile isXDigit)).map
            (Scan.addDigits (c :: rest.takeWhile isXDigit))
      else .error .unreadable
  termination_by cs => cs.length
  decreasing_by
  · have hle := (List.dropWhile_sublist (· ≠ '>') (l := rest)).length_le
    rw [_h] at hle
    simp only [List.length_cons] at hle ⊢
    omega
  · have hle := (List.dropWhile_sublist isXDigit (l := rest)).length_le
    simp only [List.length_cons]
    omega

def isIgnored (value : String) : Bool := value.toList.head?.all (· = '#')

/-- The `0x` in front of a text, and the text after it. -/
def splitHexPrefix : List Char → List Char × List Char
  | '0' :: 'x' :: rest => (['0', 'x'], rest)
  | '0' :: 'X' :: rest => (['0', 'X'], rest)
  | chars => ([], chars)

/-- `instructionBytes`: the size of an instruction, and its text with the labels spelled out. -/
def instructionBytes (value : String) (placeholderLengths : PlaceholderLengthMap) :
    Except SizeFailure (ℕ × String) :=
  if isIgnored value then .ok (0, value)
  else if isPureHex value then .ok ((normalizeHex value).length / 2, value)
  else do
    let (hexStart, source) := splitHexPrefix value.toList
    let found ← scan placeholderLengths source
    if found.labels = [] then .error .unreadable
    else .ok (found.total, String.ofList (hexStart ++ found.rewritten))

/-! ### The longest declared name -/

theorem toString_injective {m n : ℕ} (h : toString m = toString n) : m = n := by
  have hdigits : Nat.toDigits 10 m = Nat.toDigits 10 n := by
    simpa using congrArg String.toList h
  have hm := Nat.ofDigitChars_toDigits (b := 10) (n := m) (by decide) (by decide)
  have hn := Nat.ofDigitChars_toDigits (b := 10) (n := n) (by decide) (by decide)
  rw [← hm, hdigits, hn]

theorem append_toString_ne (label : String) (n : ℕ) : label ++ toString n ≠ label := by
  intro h
  have hlen := congrArg String.length h
  have hpos : 0 < (Nat.repr n).length := Nat.length_repr_pos
  rw [String.length_append, Nat.toString_eq_repr] at hlen
  omega

/-- Of two texts that are continued to the same text, the longer one continues the shorter one. -/
theorem exists_eq_append {p q a b : String} (h : p ++ a = q ++ b) (hle : p.length ≤ q.length) :
    ∃ u, q = p ++ u ∧ a = u ++ b := by
  have hlist : p.toList ++ a.toList = q.toList ++ b.toList := by
    rw [← String.toList_append, ← String.toList_append, h]
  have hcut : ∃ u, q.toList = p.toList ++ u ∧ a.toList = u ++ b.toList := by
    rcases List.append_eq_append_iff.mp hlist with h | ⟨u, hp, hb⟩
    · exact h
    · have hlen := congrArg List.length hp
      rw [List.length_append, String.length_toList, String.length_toList] at hlen
      obtain rfl : u = [] := List.eq_nil_of_length_eq_zero (by omega)
      exact ⟨[], by simpa using hp.symm, by simpa using hb.symm⟩
  obtain ⟨u, hq, ha⟩ := hcut
  refine ⟨String.ofList u, ?_, ?_⟩
  · rw [← String.toList_inj]
    simpa using hq
  · rw [← String.toList_inj]
    simpa using ha

theorem PlaceholderLengthMap.find?_eq_some_iff {placeholderLengths : PlaceholderLengthMap}
    {label : String} {n : ℕ} :
    placeholderLengths.find? label = some n ↔ (label, n) ∈ placeholderLengths.entries := by
  obtain ⟨entries, hnodup⟩ := placeholderLengths
  simp only [find?]
  induction entries with
  | nil => simp
  | cons entry rest ih =>
      obtain ⟨name, length⟩ := entry
      rw [List.map_cons, List.nodup_cons] at hnodup
      rw [List.lookup_cons, List.mem_cons, Prod.mk.injEq]
      by_cases hname : label = name
      · subst hname
        have hnot : (label, n) ∉ rest := by
          intro hmem
          exact hnodup.1 (List.mem_map.mpr ⟨(label, n), hmem, rfl⟩)
        simp [hnot, eq_comm]
      · rw [beq_eq_false_iff_ne.mpr hname]
        simp [hname, ih hnodup.2]

/-- What the search has found among the entries it has seen: the length of a name that completes to
the label, and no such name is longer. -/
def IsLongest (label : String) (seen : List (String × ℕ)) : Option (ℕ × ℕ) → Prop
  | none => ∀ entry ∈ seen, label ≠ entry.1 ++ toString entry.2
  | some (matchedLength, matchedBaseLength) =>
      (∃ base, (base, matchedLength) ∈ seen ∧ base.length = matchedBaseLength ∧
        label = base ++ toString matchedLength) ∧
      ∀ entry ∈ seen, label = entry.1 ++ toString entry.2 → entry.1.length ≤ matchedBaseLength

theorem isLongest_longerMatch {label : String} {seen : List (String × ℕ)} {entry : String × ℕ}
    {matched : Option (ℕ × ℕ)} (h : IsLongest label seen matched) :
    IsLongest label (seen ++ [entry]) (longerMatch label matched entry) := by
  by_cases hentry : label = entry.1 ++ toString entry.2
  · cases matched with
    | none =>
        simp only [longerMatch, if_pos hentry]
        refine ⟨⟨entry.1, by simp, rfl, hentry⟩, ?_⟩
        intro e he heq
        rcases List.mem_append.mp he with hseen | hnew
        · exact absurd heq (h e hseen)
        · rw [List.mem_singleton.mp hnew]
    | some found =>
        obtain ⟨matchedLength, matchedBaseLength⟩ := found
        obtain ⟨⟨base, hbase, hlen, heq⟩, hmax⟩ := h
        simp only [longerMatch, if_pos hentry]
        by_cases hlt : matchedBaseLength < entry.1.length
        · simp only [if_pos hlt]
          refine ⟨⟨entry.1, by simp, rfl, hentry⟩, ?_⟩
          intro e he hcompletes
          rcases List.mem_append.mp he with hseen | hnew
          · exact (hmax e hseen hcompletes).trans hlt.le
          · rw [List.mem_singleton.mp hnew]
        · simp only [if_neg hlt]
          refine ⟨⟨base, by simp [hbase], hlen, heq⟩, ?_⟩
          intro e he hcompletes
          rcases List.mem_append.mp he with hseen | hnew
          · exact hmax e hseen hcompletes
          · rw [List.mem_singleton.mp hnew]
            omega
  · have hsame : longerMatch label matched entry = matched := by
      simp only [longerMatch, if_neg hentry]
    rw [hsame]
    cases matched with
    | none =>
        intro e he
        rcases List.mem_append.mp he with hseen | hnew
        · exact h e hseen
        · rwa [List.mem_singleton.mp hnew]
    | some found =>
        obtain ⟨⟨base, hbase, hlen, heq⟩, hmax⟩ := h
        refine ⟨⟨base, by simp [hbase], hlen, heq⟩, ?_⟩
        intro e he hcompletes
        rcases List.mem_append.mp he with hseen | hnew
        · exact hmax e hseen hcompletes
        · rw [List.mem_singleton.mp hnew] at hcompletes
          exact absurd hcompletes hentry

theorem isLongest_foldl {label : String} (rest : List (String × ℕ)) {seen : List (String × ℕ)}
    {matched : Option (ℕ × ℕ)} (h : IsLongest label seen matched) :
    IsLongest label (seen ++ rest) (rest.foldl (longerMatch label) matched) := by
  induction rest generalizing seen matched with
  | nil => simpa using h
  | cons entry rest ih =>
      have hstep : IsLongest label (seen ++ [entry]) (longerMatch label matched entry) :=
        isLongest_longerMatch h
      have hrun := ih hstep
      rwa [List.append_assoc, List.singleton_append] at hrun

section Labels

variable {placeholderLengths : PlaceholderLengthMap} {label : String} {n : ℕ}

theorem startsWith_append {start : String} (h : startsWith label start = true) (rest : String) :
    startsWith (label ++ rest) start = true := by
  rw [startsWith, List.isPrefixOf_iff_prefix] at h ⊢
  rw [String.toList_append]
  exact h.trans (List.prefix_append _ _)

theorem startsWith_of_sized (h : selfPlaceholderPayloadLength label placeholderLengths = .ok n) :
    startsWith label "self." = true := by
  by_contra hself
  rw [selfPlaceholderPayloadLength, if_neg hself] at h
  exact absurd h (by simp)

theorem selfPlaceholderPayloadLength_of_declared (hself : startsWith label "self." = true)
    (h : placeholderLengths.find? label = some n) :
    selfPlaceholderPayloadLength label placeholderLengths = .ok n := by
  simp only [selfPlaceholderPayloadLength, if_pos hself, h]

/-- A label that is not declared has the length of the longest declared name that its own digits
complete to the label. -/
theorem selfPlaceholderPayloadLength_of_undeclared (hself : startsWith label "self." = true)
    (h : placeholderLengths.find? label = none) :
    selfPlaceholderPayloadLength label placeholderLengths = .ok n ↔
      ∃ base, placeholderLengths.find? base = some n ∧ label = base ++ toString n ∧
        ∀ b k, placeholderLengths.find? b = some k → label = b ++ toString k →
          b.length ≤ base.length := by
  have hlongest : IsLongest label placeholderLengths.entries
      (placeholderLengths.entries.foldl (longerMatch label) none) := by
    have hstart : IsLongest label [] none := by simp [IsLongest]
    simpa using isLongest_foldl placeholderLengths.entries hstart
  simp only [selfPlaceholderPayloadLength, if_pos hself, h]
  cases hfold : placeholderLengths.entries.foldl (longerMatch label) none with
  | none =>
      rw [hfold] at hlongest
      constructor
      · intro hok
        exact absurd hok (by simp)
      · rintro ⟨base, hbase, heq, -⟩
        exact absurd heq (hlongest _ (PlaceholderLengthMap.find?_eq_some_iff.mp hbase))
  | some found =>
      obtain ⟨matchedLength, matchedBaseLength⟩ := found
      rw [hfold] at hlongest
      obtain ⟨⟨base, hbase, hlen, heq⟩, hmax⟩ := hlongest
      have hdeclared := PlaceholderLengthMap.find?_eq_some_iff.mpr hbase
      constructor
      · intro hok
        obtain rfl : matchedLength = n := by simpa using hok
        refine ⟨base, hdeclared, heq, ?_⟩
        intro b k hb hcompletes
        rw [hlen]
        exact hmax _ (PlaceholderLengthMap.find?_eq_some_iff.mp hb) hcompletes
      · rintro ⟨other, hother, hotherEq, hotherMax⟩
        -- two names of the same length that complete to one label are the same name
        have hle : base.length ≤ other.length := hotherMax _ _ hdeclared heq
        have hge : other.length ≤ base.length := by
          rw [hlen]
          exact hmax _ (PlaceholderLengthMap.find?_eq_some_iff.mp hother) hotherEq
        obtain ⟨u, hu, -⟩ := exists_eq_append (heq.symm.trans hotherEq) hle
        have hempty : u = "" := by
          have hsum := congrArg String.length hu
          rw [String.length_append] at hsum
          exact String.length_eq_zero_iff.mp (by omega)
        rw [hu, hempty, String.append_empty, hdeclared] at hother
        exact congrArg Except.ok (Option.some.inj hother)

/-! ### Spelled labels -/

def normalizedLabel (placeholderLengths : PlaceholderLengthMap) (label : String) : String :=
  match selfPlaceholderPayloadLength label placeholderLengths with
  | .ok payloadLength => rewrittenLabel label payloadLength
  | .error _ => label

theorem normalizedLabel_of_ok (h : selfPlaceholderPayloadLength label placeholderLengths = .ok n) :
    normalizedLabel placeholderLengths label = rewrittenLabel label n := by
  simp only [normalizedLabel, h]

/-- A label to which the pass appends digits: it is declared, and does not end in its length. -/
def Lengthened (placeholderLengths : PlaceholderLengthMap) (label : String) (n : ℕ) : Prop :=
  placeholderLengths.find? label = some n ∧ endsWith label (toString n) = false

theorem endsWith_append (label suffix : String) : endsWith (label ++ suffix) suffix = true := by
  rw [endsWith, List.isSuffixOf_iff_suffix, String.toList_append]
  exact List.suffix_append _ _

theorem normalizedLabel_of_lengthened (hself : startsWith label "self." = true)
    (h : Lengthened placeholderLengths label n) :
    normalizedLabel placeholderLengths label = label ++ toString n := by
  rw [normalizedLabel_of_ok (selfPlaceholderPayloadLength_of_declared hself h.1), rewrittenLabel,
    if_neg (ne_true_of_eq_false h.2)]

/-- A label is spelled as it is, or its declared length is appended. -/
theorem normalizedLabel_cases (h : selfPlaceholderPayloadLength label placeholderLengths = .ok n) :
    normalizedLabel placeholderLengths label = label ∧
        (∀ k, ¬ Lengthened placeholderLengths label k) ∨
      Lengthened placeholderLengths label n := by
  have hself := startsWith_of_sized h
  cases hfind : placeholderLengths.find? label with
  | none =>
      obtain ⟨base, -, heq, -⟩ := (selfPlaceholderPayloadLength_of_undeclared hself hfind).mp h
      refine Or.inl ⟨?_, ?_⟩
      · have hends : endsWith label (toString n) = true := by
          rw [heq]
          exact endsWith_append _ _
        rw [normalizedLabel_of_ok h, rewrittenLabel, if_pos hends]
      · intro k hk
        rw [Lengthened, hfind] at hk
        exact absurd hk.1 (by simp)
  | some m =>
      obtain rfl : m = n := by
        simpa [selfPlaceholderPayloadLength_of_declared hself hfind] using h
      by_cases hends : endsWith label (toString m) = true
      · refine Or.inl ⟨by rw [normalizedLabel_of_ok h, rewrittenLabel, if_pos hends], ?_⟩
        intro k hk
        rw [Lengthened, hfind] at hk
        obtain rfl : m = k := by simpa using hk.1
        exact absurd hends (ne_true_of_eq_false hk.2)
      · exact Or.inr ⟨hfind, by simpa using hends⟩

/-! ### Keeping labels apart -/

/-- Distinct labels are spelled differently, and a spelling has the size of its label. -/
structure SpellingKept (placeholderLengths : PlaceholderLengthMap) (labels : List String) :
    Prop where
  apart : ∀ p ∈ labels, ∀ q ∈ labels,
    normalizedLabel placeholderLengths p = normalizedLabel placeholderLengths q ↔ p = q
  reread : ∀ p ∈ labels,
    selfPlaceholderPayloadLength (normalizedLabel placeholderLengths p) placeholderLengths =
      selfPlaceholderPayloadLength p placeholderLengths

/-- No declaration is in the way of the digits that are appended to a label: the completed label is
no other label, it is not declared with another length, and no longer name with a shorter length is
completed to it. -/
structure DigitsApart (placeholderLengths : PlaceholderLengthMap) (labels : List String) :
    Prop where
  not_label : ∀ p ∈ labels, ∀ n, Lengthened placeholderLengths p n → p ++ toString n ∉ labels
  same_length : ∀ p ∈ labels, ∀ n, Lengthened placeholderLengths p n →
    ∀ k, placeholderLengths.find? (p ++ toString n) = some k → k = n
  no_longer_name : ∀ p ∈ labels, ∀ n, Lengthened placeholderLengths p n →
    ∀ u k, u ≠ "" → placeholderLengths.find? (p ++ u) = some k → toString n = u ++ toString k →
      placeholderLengths.find? (p ++ toString n) ≠ none ∧
        (p ++ u ∈ labels → endsWith (p ++ u) (toString k) = true)

theorem append_right_ne {p u : String} (hu : u ≠ "") : p ++ u ≠ p := by
  intro h
  have hlen := congrArg String.length h
  rw [String.length_append] at hlen
  exact hu (String.length_eq_zero_iff.mp (by omega))

theorem digitsApart_of_spellingKept {labels : List String}
    (hsized : ∀ p ∈ labels, ∃ n, selfPlaceholderPayloadLength p placeholderLengths = .ok n)
    (h : SpellingKept placeholderLengths labels) : DigitsApart placeholderLengths labels := by
  have hspelled : ∀ p ∈ labels, ∀ n, Lengthened placeholderLengths p n →
      startsWith p "self." = true ∧ normalizedLabel placeholderLengths p = p ++ toString n ∧
        selfPlaceholderPayloadLength (p ++ toString n) placeholderLengths = .ok n := by
    intro p hp n hn
    obtain ⟨m, hm⟩ := hsized p hp
    have hself := startsWith_of_sized hm
    have hnorm := normalizedLabel_of_lengthened hself hn
    refine ⟨hself, hnorm, ?_⟩
    rw [← hnorm, h.reread p hp]
    exact selfPlaceholderPayloadLength_of_declared hself hn.1
  refine ⟨?_, ?_, ?_⟩
  · intro p hp n hn hq
    obtain ⟨-, hnorm, hok⟩ := hspelled p hp n hn
    rcases normalizedLabel_cases hok with ⟨hkept, -⟩ | hlonger
    · exact append_toString_ne p n ((h.apart _ hq p hp).mp (hkept.trans hnorm.symm))
    · exact absurd (endsWith_append p (toString n)) (ne_true_of_eq_false hlonger.2)
  · intro p hp n hn k hk
    obtain ⟨hself, -, hok⟩ := hspelled p hp n hn
    have hdeclared :=
      selfPlaceholderPayloadLength_of_declared (startsWith_append hself (toString n)) hk
    rw [hok] at hdeclared
    exact (Except.ok.inj hdeclared).symm
  · intro p hp n hn u k hu hfind hdigits
    obtain ⟨hself, hnorm, hok⟩ := hspelled p hp n hn
    have hsame : p ++ u ++ toString k = p ++ toString n := by rw [String.append_assoc, ← hdigits]
    constructor
    · intro hnone
      -- the longest name that completes to the spelling has the length of `p`, so it is `p`
      obtain ⟨base, -, heq, hmax⟩ := (selfPlaceholderPayloadLength_of_undeclared
        (startsWith_append hself (toString n)) hnone).mp hok
      have hbase : p = base := (String.append_left_inj (toString n)).mp heq
      have hle := hmax _ _ hfind hsame.symm
      rw [← hbase, String.length_append] at hle
      exact hu (String.length_eq_zero_iff.mp (by omega))
    · intro hq
      by_contra hends
      have hlonger : Lengthened placeholderLengths (p ++ u) k := ⟨hfind, by simpa using hends⟩
      obtain ⟨-, hnormq, -⟩ := hspelled _ hq k hlonger
      exact append_right_ne hu ((h.apart _ hq p hp).mp (by rw [hnormq, hnorm, hsame]))

theorem spellingKept_of_digitsApart {labels : List String}
    (hsized : ∀ p ∈ labels, ∃ n, selfPlaceholderPayloadLength p placeholderLengths = .ok n)
    (h : DigitsApart placeholderLengths labels) : SpellingKept placeholderLengths labels := by
  -- two lengthened labels of which one is no longer than the other
  have hordered : ∀ p ∈ labels, ∀ q ∈ labels, ∀ n k, Lengthened placeholderLengths p n →
      Lengthened placeholderLengths q k → p ++ toString n = q ++ toString k →
      p.length ≤ q.length → p = q := by
    intro p hp q hq n k hn hk heq hle
    obtain ⟨u, rfl, hdigits⟩ := exists_eq_append heq hle
    by_contra hne
    have hu : u ≠ "" := by
      rintro rfl
      exact hne (String.append_empty).symm
    have hends := (h.no_longer_name p hp n hn u k hu hk.1 hdigits).2 hq
    exact absurd hends (ne_true_of_eq_false hk.2)
  refine ⟨?_, ?_⟩
  · intro p hp q hq
    refine ⟨?_, fun heq => by rw [heq]⟩
    intro hnorm
    obtain ⟨n, hn⟩ := hsized p hp
    obtain ⟨k, hk⟩ := hsized q hq
    have hselfp := startsWith_of_sized hn
    have hselfq := startsWith_of_sized hk
    rcases normalizedLabel_cases hn with ⟨hp', -⟩ | hp' <;>
      rcases normalizedLabel_cases hk with ⟨hq', -⟩ | hq'
    · rwa [hp', hq'] at hnorm
    · rw [hp', normalizedLabel_of_lengthened hselfq hq'] at hnorm
      exact absurd (hnorm ▸ hp) (h.not_label q hq k hq')
    · rw [hq', normalizedLabel_of_lengthened hselfp hp'] at hnorm
      exact absurd (hnorm ▸ hq) (h.not_label p hp n hp')
    · rw [normalizedLabel_of_lengthened hselfp hp', normalizedLabel_of_lengthened hselfq hq'] at hnorm
      rcases le_total p.length q.length with hle | hle
      · exact hordered p hp q hq n k hp' hq' hnorm hle
      · exact (hordered q hq p hp k n hq' hp' hnorm.symm hle).symm
  · intro p hp
    obtain ⟨n, hn⟩ := hsized p hp
    have hself := startsWith_of_sized hn
    rcases normalizedLabel_cases hn with ⟨hkept, -⟩ | hlonger
    · rw [hkept]
    · rw [normalizedLabel_of_lengthened hself hlonger, hn]
      have hself' := startsWith_append hself (toString n)
      cases hfind : placeholderLengths.find? (p ++ toString n) with
      | some k =>
          rw [selfPlaceholderPayloadLength_of_declared hself' hfind,
            h.same_length p hp n hlonger k hfind]
      | none =>
          rw [selfPlaceholderPayloadLength_of_undeclared hself' hfind]
          refine ⟨p, hlonger.1, rfl, ?_⟩
          intro b k hb heq
          by_contra hlt
          obtain ⟨u, rfl, hdigits⟩ := exists_eq_append heq (by omega)
          have hu : u ≠ "" := by
            rintro rfl
            exact hlt (by rw [String.append_empty])
          exact (h.no_longer_name p hp n hlonger u k hu hb hdigits).1 hfind

/-- **The spelling keeps labels apart, and their sizes, exactly when no declaration is in the way of
the digits that are appended.** -/
theorem spellingKept_iff (placeholderLengths : PlaceholderLengthMap) (labels : List String)
    (hsized : ∀ p ∈ labels, ∃ n, selfPlaceholderPayloadLength p placeholderLengths = .ok n) :
    SpellingKept placeholderLengths labels ↔ DigitsApart placeholderLengths labels :=
  ⟨digitsApart_of_spellingKept hsized, spellingKept_of_digitsApart hsized⟩

end Labels

/-- A contract with the fields `a` and `b`, of two and of twenty bytes. -/
def distinctFields : PlaceholderLengthMap := ⟨[("self.a", 2), ("self.b", 20)], by decide⟩

theorem spellingKept_iff_distinctFields :
    SpellingKept distinctFields ["self.a", "self.b"] ↔
      DigitsApart distinctFields ["self.a", "self.b"] := by
  refine spellingKept_iff _ _ ?_
  intro p hp
  rcases List.mem_cons.mp hp with rfl | hp
  · exact ⟨2, rfl⟩
  · rw [List.mem_singleton.mp hp]
    exact ⟨20, rfl⟩

/-- A contract with the fields `a` and `a2`, of two bytes each. -/
def confusedFields : PlaceholderLengthMap := ⟨[("self.a", 2), ("self.a2", 2)], by decide⟩

/-- **The pass spells both fields `self.a2`.** -/
theorem spelling_confused :
    (∀ p ∈ ["self.a", "self.a2"],
      ∃ n, selfPlaceholderPayloadLength p confusedFields = .ok n) ∧
      ¬ SpellingKept confusedFields ["self.a", "self.a2"] := by
  constructor
  · intro p hp
    rcases List.mem_cons.mp hp with rfl | hp
    · exact ⟨2, rfl⟩
    · rw [List.mem_singleton.mp hp]
      exact ⟨2, rfl⟩
  · intro h
    have hspelled : normalizedLabel confusedFields "self.a" =
        normalizedLabel confusedFields "self.a2" := by decide +kernel
    have hsame := (h.apart "self.a" (by simp) "self.a2" (by simp)).mp hspelled
    exact absurd hsame (by decide)

/-! ### Spelled instructions -/

section Rescan

variable {placeholderLengths : PlaceholderLengthMap}
variable {found : Scan} {cs : List Char}

theorem takeWhile_append_cons {p : Char → Bool} {front rest : List Char} {c : Char}
    (hfront : ∀ x ∈ front, p x = true) (hc : p c = false) :
    (front ++ c :: rest).takeWhile p = front ∧ (front ++ c :: rest).dropWhile p = c :: rest := by
  rw [List.takeWhile_append_of_pos hfront, List.dropWhile_append_of_pos hfront]
  simp [hc]

theorem exists_of_map_eq_ok {result : Except SizeFailure Scan} {f : Scan → Scan}
    (h : result.map f = .ok found) : ∃ rest, result = .ok rest ∧ f rest = found := by
  cases result with
  | error failure => exact absurd h (by simp [Except.map])
  | ok rest => exact ⟨rest, rfl, Except.ok.inj h⟩

/-- The texts that can be sized: digits in pairs, and placeholders of known length. -/
inductive Scans (placeholderLengths : PlaceholderLengthMap) : List Char → Scan → Prop
  | nil : Scans placeholderLengths [] ⟨0, [], []⟩
  | label {label rest : List Char} {n : ℕ} {found : Scan} :
      '>' ∉ label →
      selfPlaceholderPayloadLength (String.ofList label) placeholderLengths = .ok n →
      Scans placeholderLengths rest found →
      Scans placeholderLengths ('<' :: (label ++ '>' :: rest))
        (found.addLabel (String.ofList label) n)
  | digits {digits rest : List Char} {found : Scan} :
      digits ≠ [] → (∀ c ∈ digits, isXDigit c = true) → digits.length % 2 = 0 →
      (∀ c ∈ rest.head?, isXDigit c = false) →
      Scans placeholderLengths rest found →
      Scans placeholderLengths (digits ++ rest) (found.addDigits digits)

theorem scan_of_scans (h : Scans placeholderLengths cs found) :
    scan placeholderLengths cs = .ok found := by
  induction h with
  | nil => rw [scan]
  | @label label rest n found hlabel hn _ ih =>
      have hcut : (label ++ '>' :: rest).takeWhile (· ≠ '>') = label ∧
          (label ++ '>' :: rest).dropWhile (· ≠ '>') = '>' :: rest :=
        takeWhile_append_cons (by intro x hx; simpa using ne_of_mem_of_not_mem hx hlabel) (by simp)
      rw [scan, if_pos rfl]
      split
      · next h =>
          rw [hcut.2] at h
          exact absurd h (by simp)
      · next c remaining h =>
          rw [hcut.2, List.cons.injEq] at h
          rw [hcut.1, hn, ← h.2, ih]
          rfl
  | @digits digits rest found hne hall heven hhead _ ih =>
      obtain ⟨c, digits, rfl⟩ := List.exists_cons_of_ne_nil hne
      have hc : isXDigit c = true := hall c (by simp)
      have hopen : c ≠ '<' := by
        rintro rfl
        exact absurd hc (by decide)
      have hdigits : ∀ x ∈ digits, isXDigit x = true := fun x hx => hall x (by simp [hx])
      have hcut : (digits ++ rest).takeWhile isXDigit = digits ∧
          (digits ++ rest).dropWhile isXDigit = rest := by
        rw [List.takeWhile_append_of_pos hdigits, List.dropWhile_append_of_pos hdigits]
        cases rest with
        | nil => simp
        | cons d rest => simp [hhead d rfl]
      rw [List.cons_append, scan, if_neg hopen, if_pos hc, hcut.1, hcut.2, ih, if_neg (by omega)]
      rfl

theorem scans_of_scan (fuel : ℕ) (hfuel : cs.length ≤ fuel)
    (h : scan placeholderLengths cs = .ok found) : Scans placeholderLengths cs found := by
  induction fuel generalizing cs found with
  | zero =>
      obtain rfl := List.eq_nil_of_length_eq_zero (Nat.le_zero.mp hfuel)
      rw [scan] at h
      obtain rfl := Except.ok.inj h
      exact .nil
  | succ fuel ih =>
      cases cs with
      | nil =>
          rw [scan] at h
          obtain rfl := Except.ok.inj h
          exact .nil
      | cons c rest =>
          rw [List.length_cons] at hfuel
          rw [scan] at h
          by_cases hopen : c = '<'
          · subst hopen
            rw [if_pos rfl] at h
            split at h
            · exact absurd h (by simp)
            · next c remaining hdrop =>
                -- the label ends at the first closing bracket
                have hsplit : rest = rest.takeWhile (· ≠ '>') ++ c :: remaining := by
                  rw [← hdrop, List.takeWhile_append_dropWhile]
                obtain rfl : c = '>' := by
                  have hhead := List.head?_dropWhile_not (· ≠ '>') rest
                  rw [hdrop] at hhead
                  simpa using hhead
                have hlabel : '>' ∉ rest.takeWhile (· ≠ '>') := by
                  intro hmem
                  simpa using List.mem_takeWhile_imp hmem
                have hlen := congrArg List.length hsplit
                rw [List.length_append, List.length_cons] at hlen
                split at h
                · exact absurd h (by simp)
                · next n hn =>
                    obtain ⟨found', hrest, rfl⟩ := exists_of_map_eq_ok h
                    have hscans := Scans.label hlabel hn (ih (by omega) hrest)
                    rwa [← hsplit] at hscans
          · rw [if_neg hopen] at h
            split_ifs at h with hc heven
            · obtain ⟨found', hrest, rfl⟩ := exists_of_map_eq_ok h
              -- the digits are taken as far as they go
              have hsplit : c :: rest = c :: rest.takeWhile isXDigit ++ rest.dropWhile isXDigit := by
                rw [List.cons_append, List.takeWhile_append_dropWhile]
              rw [hsplit]
              refine .digits (by simp) ?_ (by omega) ?_ (ih ?_ hrest)
              · intro x hx
                rcases List.mem_cons.mp hx with rfl | hx
                · exact hc
                · exact List.mem_takeWhile_imp hx
              · intro x hx
                have hhead := List.head?_dropWhile_not isXDigit rest
                rw [Option.mem_def.mp hx] at hhead
                exact hhead
              · have hle := (List.dropWhile_sublist isXDigit (l := rest)).length_le
                omega

theorem not_mem_rewrittenLabel {label : String} {n : ℕ} (h : '>' ∉ label.toList) :
    '>' ∉ (rewrittenLabel label n).toList := by
  unfold rewrittenLabel
  split_ifs
  · exact h
  · rw [String.toList_append, Nat.toString_eq_repr, Nat.toList_repr, List.mem_append]
    rintro (hmem | hmem)
    · exact h hmem
    · exact absurd (Nat.isDigit_of_mem_toDigits (by decide) (by decide) hmem) (by decide)

theorem rewrittenLabel_rewrittenLabel (label : String) (n : ℕ) :
    rewrittenLabel (rewrittenLabel label n) n = rewrittenLabel label n := by
  by_cases hends : endsWith label (toString n) = true
  · have hsame : rewrittenLabel label n = label := by rw [rewrittenLabel, if_pos hends]
    rw [hsame, hsame]
  · have hlonger : rewrittenLabel label n = label ++ toString n := by
      rw [rewrittenLabel, if_neg hends]
    rw [hlonger, rewrittenLabel, if_pos (endsWith_append _ _)]

theorem Scans.head_rewritten
    (h : Scans placeholderLengths cs found) : found.rewritten.head? = cs.head? := by
  cases h with
  | nil => rfl
  | label _ _ _ => rfl
  | @digits digits rest found hne _ _ _ _ =>
      obtain ⟨c, digits, rfl⟩ := List.exists_cons_of_ne_nil hne
      rfl

/-- Where every spelling has the size of its label, a spelled text is read as the text itself, with
the spellings for labels, and is left as it is. -/
theorem Scans.rewritten (h : Scans placeholderLengths cs found) (hreread : ∀ label ∈ found.labels,
      selfPlaceholderPayloadLength (normalizedLabel placeholderLengths label) placeholderLengths =
        selfPlaceholderPayloadLength label placeholderLengths) :
    Scans placeholderLengths found.rewritten
      ⟨found.total, found.rewritten,
        found.labels.map (normalizedLabel placeholderLengths)⟩ := by
  induction h with
  | nil => exact .nil
  | @label label rest n found hlabel hn _ ih =>
      have hspelled := normalizedLabel_of_ok hn
      have hsize := hreread (String.ofList label) (by simp [Scan.addLabel])
      rw [hspelled, hn] at hsize
      have hrest := ih fun l hl => hreread l (by simp [Scan.addLabel, hl])
      have hclosed : '>' ∉ (rewrittenLabel (String.ofList label) n).toList :=
        not_mem_rewrittenLabel (by simpa using hlabel)
      have hscans := Scans.label hclosed (by simpa using hsize) hrest
      simpa [Scan.addLabel, rewrittenLabel_rewrittenLabel, hspelled] using hscans
  | @digits digits rest found hne hall heven hhead hscans ih =>
      exact .digits hne hall heven (by rwa [hscans.head_rewritten]) (ih hreread)

end Rescan

end BytecodeFinalizePass

end AtomicProof
