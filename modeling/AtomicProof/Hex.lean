/-
Hexadecimal text.

Scripts travel through the compiler as hexadecimal text.  This file is about the text alone: the
value of a digit, the bytes denoted by a row of digits and the two lower-case digits of a byte.

Main definitions:

* `hexDigit` — the value of a digit, `none` where the C++ helpers return `-1`;
* `hexPairs` — the bytes denoted by a row of digits;
* `bytesToHex` — the digits of a byte string.

Main results:

* `hexPairs_bytesToHex` — reading back what was written;
* `hexPairs_isSome_iff` — exactly the rows of digits of even length denote bytes;
* `map_toLower_of_hexPairs` — a row of digits is, in lower case, the text of the bytes it denotes.
-/

import AtomicProof.ScriptNum
import Mathlib.Data.List.Basic

set_option autoImplicit false

namespace AtomicProof

/-! ### Digits -/

def hexDigit (value : Char) : Option ℕ :=
  if '0' ≤ value ∧ value ≤ '9' then some (value.toNat - '0'.toNat)
  else if 'a' ≤ value ∧ value ≤ 'f' then some (10 + value.toNat - 'a'.toNat)
  else if 'A' ≤ value ∧ value ≤ 'F' then some (10 + value.toNat - 'A'.toNat)
  else none

def isXDigit (value : Char) : Bool := (hexDigit value).isSome

/-- `std::isspace` in the C locale. -/
def isSpace (value : Char) : Bool := " \t\n\x0b\x0c\r".toList.contains value

/-- `digits[n]` of the constant `"0123456789abcdef"`. -/
def hexChar (n : ℕ) : Char :=
  "0123456789abcdef".toList.getD n '0'

theorem hexDigit_hexChar : ∀ {n : ℕ}, n < 16 → hexDigit (hexChar n) = some n := by
  decide

/-- The digits are below sixteen. -/
theorem hexDigit_lt {value : Char} {n : ℕ} (h : hexDigit value = some n) : n < 16 := by
  have hval : ∀ c d : Char, c ≤ d ↔ c.toNat ≤ d.toNat := fun _ _ => Iff.rfl
  have h0 : '0'.toNat = 48 := rfl
  have h9 : '9'.toNat = 57 := rfl
  have ha : 'a'.toNat = 97 := rfl
  have hf : 'f'.toNat = 102 := rfl
  have hA : 'A'.toNat = 65 := rfl
  have hF : 'F'.toNat = 70 := rfl
  simp only [hexDigit, hval] at h
  split at h
  · simp only [Option.some.injEq] at h; omega
  · split at h
    · simp only [Option.some.injEq] at h; omega
    · split at h
      · simp only [Option.some.injEq] at h; omega
      · simp at h

/-! ### Rows of digits -/

/-- The bytes denoted by a row of digits, two digits a byte. -/
def hexPairs : List Char → Option Bytes
  | [] => some []
  | [_] => none
  | high :: low :: rest => do
      let h ← hexDigit high
      let l ← hexDigit low
      let bytes ← hexPairs rest
      pure (UInt8.ofNat (16 * h + l) :: bytes)

def byteToHex (byte : UInt8) : List Char :=
  [hexChar (byte.toNat / 16), hexChar (byte.toNat % 16)]

def bytesToHex (bytes : Bytes) : List Char := bytes.flatMap byteToHex

@[simp] theorem hexPairs_nil : hexPairs [] = some [] := rfl

@[simp] theorem bytesToHex_nil : bytesToHex [] = [] := rfl

@[simp] theorem bytesToHex_cons (b : UInt8) (bs : Bytes) :
    bytesToHex (b :: bs) = byteToHex b ++ bytesToHex bs := rfl

theorem bytesToHex_append (first second : Bytes) :
    bytesToHex (first ++ second) = bytesToHex first ++ bytesToHex second :=
  List.flatMap_append

@[simp] theorem byteToHex_length (b : UInt8) : (byteToHex b).length = 2 := rfl

theorem bytesToHex_length (bs : Bytes) : (bytesToHex bs).length = 2 * bs.length := by
  induction bs with
  | nil => rfl
  | cons b bs ih =>
      rw [bytesToHex_cons, List.length_append, byteToHex_length, ih, List.length_cons]
      omega

theorem hexPairs_cons_cons {high low : Char} {rest : List Char} {bytes : Bytes} :
    hexPairs (high :: low :: rest) = some bytes ↔
      ∃ h l bs, hexDigit high = some h ∧ hexDigit low = some l ∧ hexPairs rest = some bs ∧
        bytes = UInt8.ofNat (16 * h + l) :: bs := by
  simp only [hexPairs, Option.bind_eq_bind, Option.bind_eq_some_iff, Option.pure_def,
    Option.some.injEq]
  constructor
  · rintro ⟨h, hh, l, hl, bs, hbs, rfl⟩
    exact ⟨h, l, bs, hh, hl, hbs, rfl⟩
  · rintro ⟨h, l, bs, hh, hl, hbs, rfl⟩
    exact ⟨h, hh, l, hl, bs, hbs, rfl⟩

theorem hexPairs_byteToHex_append (b : UInt8) (rest : List Char) :
    hexPairs (byteToHex b ++ rest) = (hexPairs rest).map (b :: ·) := by
  have hb : b.toNat < 256 := b.toNat_lt
  have hhigh : b.toNat / 16 < 16 := by omega
  have hlow : b.toNat % 16 < 16 := by omega
  have hsum : 16 * (b.toNat / 16) + b.toNat % 16 = b.toNat := by omega
  cases hrest : hexPairs rest <;>
    simp only [byteToHex, List.cons_append, List.nil_append, hexPairs, hexDigit_hexChar hhigh,
      hexDigit_hexChar hlow, hsum, hrest, UInt8.ofNat_toNat, Option.bind_eq_bind,
      Option.bind_some, Option.bind_none, Option.pure_def, Option.map_some, Option.map_none]

/-- **Reading back what was written.** -/
theorem hexPairs_bytesToHex (bs : Bytes) : hexPairs (bytesToHex bs) = some bs := by
  induction bs with
  | nil => rfl
  | cons b bs ih => simp [hexPairs_byteToHex_append, ih]

variable {cs : List Char} {bs : Bytes}

theorem length_of_hexPairs {bytes : Bytes} (h : hexPairs cs = some bytes) :
    cs.length = 2 * bytes.length := by
  induction cs using hexPairs.induct generalizing bytes with
  | case1 => obtain rfl : [] = bytes := by simpa using h
             rfl
  | case2 c => simp [hexPairs] at h
  | case3 high low rest ih =>
      obtain ⟨_, _, bs, _, _, hbs, rfl⟩ := hexPairs_cons_cons.1 h
      have := ih hbs
      simp only [List.length_cons]
      omega

/-- Exactly the rows of digits of even length denote bytes. -/
theorem hexPairs_isSome_iff (cs : List Char) :
    (hexPairs cs).isSome ↔ cs.length % 2 = 0 ∧ ∀ c ∈ cs, isXDigit c := by
  induction cs using hexPairs.induct with
  | case1 => simp
  | case2 c => simp [hexPairs]
  | case3 high low rest ih =>
      have hlen : (high :: low :: rest).length % 2 = rest.length % 2 := by
        simp only [List.length_cons]; omega
      have hstep : (hexPairs (high :: low :: rest)).isSome =
          ((hexDigit high).isSome && (hexDigit low).isSome && (hexPairs rest).isSome) := by
        cases hh : hexDigit high <;> cases hl : hexDigit low <;> cases hr : hexPairs rest <;>
          simp [hexPairs, hh, hl, hr]
      rw [hstep, hlen, List.forall_mem_cons, List.forall_mem_cons, Bool.and_eq_true,
        Bool.and_eq_true, ih]
      unfold isXDigit
      tauto

/-- The bytes of a row without its first `2 * n` digits. -/
theorem hexPairs_drop (h : hexPairs cs = some bs) (n : ℕ) :
    hexPairs (cs.drop (n * 2)) = some (bs.drop n) := by
  induction n generalizing cs bs with
  | zero => simpa using h
  | succ n ih =>
      match cs with
      | [] => obtain rfl : [] = bs := by simpa using h
              simp
      | [c] => simp [hexPairs] at h
      | high :: low :: rest =>
          obtain ⟨_, _, bs', _, _, hr, rfl⟩ := hexPairs_cons_cons.1 h
          have hmul : (n + 1) * 2 = n * 2 + 1 + 1 := by omega
          rw [hmul, List.drop_succ_cons, List.drop_succ_cons, List.drop_succ_cons]
          exact ih hr

/-- The bytes of the first `2 * n` digits of a row. -/
theorem hexPairs_take (h : hexPairs cs = some bs) (n : ℕ) :
    hexPairs (cs.take (n * 2)) = some (bs.take n) := by
  induction n generalizing cs bs with
  | zero => rfl
  | succ n ih =>
      match cs with
      | [] => obtain rfl : [] = bs := by simpa using h
              rfl
      | [c] => simp [hexPairs] at h
      | high :: low :: rest =>
          obtain ⟨hv, lv, bs', hh, hl, hr, rfl⟩ := hexPairs_cons_cons.1 h
          have hmul : (n + 1) * 2 = n * 2 + 1 + 1 := by omega
          rw [hmul, List.take_succ_cons, List.take_succ_cons, List.take_succ_cons]
          exact hexPairs_cons_cons.2 ⟨hv, lv, _, hh, hl, ih hr, rfl⟩

/-! ### Letter case -/

/-- `std::tolower` on a character. -/
def toLower (c : Char) : Char := if 'A' ≤ c ∧ c ≤ 'Z' then Char.ofNat (c.toNat + 32) else c

theorem toNat_lt_of_hexDigit {c : Char} {n : ℕ} (h : hexDigit c = some n) : c.toNat < 128 := by
  have hval : ∀ c d : Char, c ≤ d ↔ c.toNat ≤ d.toNat := fun _ _ => Iff.rfl
  have h9 : '9'.toNat = 57 := rfl
  have hf : 'f'.toNat = 102 := rfl
  have hF : 'F'.toNat = 70 := rfl
  by_contra hc
  have : hexDigit c = none := by
    simp only [hexDigit, hval]
    rw [if_neg (by omega), if_neg (by omega), if_neg (by omega)]
  rw [this] at h
  simp at h

theorem toLower_of_hexDigit {c : Char} {n : ℕ} (h : hexDigit c = some n) :
    toLower c = hexChar n := by
  have hall : ∀ k : Fin 128, ∀ m ∈ hexDigit (Char.ofNat k), toLower (Char.ofNat k) = hexChar m := by
    decide
  have := hall ⟨c.toNat, toNat_lt_of_hexDigit h⟩ n
  simpa [Char.ofNat_toNat, h] using this

@[simp] theorem hexDigit_toLower (c : Char) : hexDigit (toLower c) = hexDigit c := by
  by_cases h : c.toNat < 128
  · have hall : ∀ k : Fin 128, hexDigit (toLower (Char.ofNat k)) = hexDigit (Char.ofNat k) := by
      decide
    simpa [Char.ofNat_toNat] using hall ⟨c.toNat, h⟩
  -- `tolower` leaves every other character alone
  · have hZ : ¬ c ≤ 'Z' := by
      have hval : c ≤ 'Z' ↔ c.toNat ≤ 90 := Iff.rfl
      rw [hval]
      omega
    rw [toLower, if_neg (fun hc => hZ hc.2)]

/-- A row of digits is, in lower case, the text of the bytes it denotes. -/
theorem map_toLower_of_hexPairs (h : hexPairs cs = some bs) : cs.map toLower = bytesToHex bs := by
  induction cs using hexPairs.induct generalizing bs with
  | case1 => obtain rfl : [] = bs := by simpa using h
             rfl
  | case2 c => simp [hexPairs] at h
  | case3 high low rest ih =>
      obtain ⟨hv, lv, bs', hh, hl, hr, rfl⟩ := hexPairs_cons_cons.1 h
      have hvlt := hexDigit_lt hh
      have hllt := hexDigit_lt hl
      have hdiv : (UInt8.ofNat (16 * hv + lv)).toNat / 16 = hv := by
        rw [UInt8.toNat_ofNat']; omega
      have hmod : (UInt8.ofNat (16 * hv + lv)).toNat % 16 = lv := by
        rw [UInt8.toNat_ofNat']; omega
      rw [List.map_cons, List.map_cons, ih hr, toLower_of_hexDigit hh, toLower_of_hexDigit hl,
        bytesToHex_cons, byteToHex, hdiv, hmod]
      rfl

end AtomicProof
