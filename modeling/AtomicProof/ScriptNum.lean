/-
Script numbers.

A stack element of the script machine is a byte string.  Arithmetic reads it as a number written
in little-endian sign-magnitude form, with the sign in the highest bit of the last byte.  The
simulator's encoder is `serializeScriptNum` and its decoder `StackElement::toInt`, both in
`src/src/debugger/vm/stack_state.cpp`; the decoder refuses elements longer than eight bytes, so
every number it returns fits `int64_t`.

Main definitions:

* `serializeScriptNum` — the bytes of a number;
* `toInt` — the number of a stack element, when it has one;
* `wrap64` — the two's complement reduction of a result to `int64_t`.

Main results:

* `toInt_serializeScriptNum` — the decoder inverts the encoder on every number whose magnitude
  is below `2 ^ 63`;
* `magnitudeBytes_leNat` — the little-endian digits of a number denote it.
-/

import Mathlib.Algebra.Order.Group.Int
import Mathlib.Data.Nat.Basic
import Mathlib.Tactic.Ring
import Mathlib.Tactic.NormNum
import Mathlib.Tactic.Linarith

set_option autoImplicit false

namespace AtomicProof

abbrev Bytes := List UInt8

/-! ### Little-endian naturals -/

/-- The number denoted by little-endian base-256 digits. -/
def leNat : Bytes → ℕ
  | [] => 0
  | b :: bs => b.toNat + 256 * leNat bs

@[simp] theorem leNat_nil : leNat [] = 0 := rfl

@[simp] theorem leNat_cons (b : UInt8) (bs : Bytes) :
    leNat (b :: bs) = b.toNat + 256 * leNat bs := rfl

theorem leNat_append (bs cs : Bytes) :
    leNat (bs ++ cs) = leNat bs + 256 ^ bs.length * leNat cs := by
  induction bs with
  | nil => simp
  | cons b bs ih =>
      simp only [List.cons_append, leNat_cons, ih, List.length_cons, pow_succ]
      ring

theorem leNat_lt (bs : Bytes) : leNat bs < 256 ^ bs.length := by
  induction bs with
  | nil => simp
  | cons b bs ih =>
      have hb : b.toNat < 256 := b.toNat_lt
      simp only [leNat_cons, List.length_cons, pow_succ]
      omega

/-- The base-256 digits of `n`, least significant first and without leading zeros, with `fuel`
bounding their number.  `while (absvalue) { push(absvalue & 0xff); absvalue >>= 8; }` on a
`uint64_t` is the case of eight digits. -/
def magnitudeBytes : ℕ → ℕ → Bytes
  | 0, _ => []
  | fuel + 1, n => if n = 0 then [] else UInt8.ofNat n :: magnitudeBytes fuel (n / 256)

@[simp] theorem magnitudeBytes_zero (fuel : ℕ) : magnitudeBytes fuel 0 = [] := by
  cases fuel <;> simp [magnitudeBytes]

theorem magnitudeBytes_length_le (fuel n : ℕ) : (magnitudeBytes fuel n).length ≤ fuel := by
  induction fuel generalizing n with
  | zero => simp [magnitudeBytes]
  | succ fuel ih =>
      simp only [magnitudeBytes]
      split
      · simp
      · simpa using ih (n / 256)

/-- **The digits of a number denote it.** -/
theorem magnitudeBytes_leNat (fuel n : ℕ) (h : n < 256 ^ fuel) :
    leNat (magnitudeBytes fuel n) = n := by
  induction fuel generalizing n with
  | zero => simp at h; simp [magnitudeBytes, h]
  | succ fuel ih =>
      simp only [magnitudeBytes]
      split
      · rename_i hn; simp [hn]
      · have hdiv : n / 256 < 256 ^ fuel := by
          rw [Nat.div_lt_iff_lt_mul (by omega)]
          simpa [pow_succ] using h
        rw [leNat_cons, ih _ hdiv, UInt8.toNat_ofNat']
        omega

theorem magnitudeBytes_eq_nil {fuel n : ℕ} (h : magnitudeBytes fuel n = []) (hf : fuel ≠ 0) :
    n = 0 := by
  cases fuel with
  | zero => exact absurd rfl hf
  | succ fuel =>
      simp only [magnitudeBytes] at h
      split at h
      · assumption
      · simp at h

/-! ### Encoding and decoding -/

/-- `serializeScriptNum`: sign-magnitude, little-endian, and zero is the empty string. -/
def serializeScriptNum (value : ℤ) : Bytes :=
  if value = 0 then []
  else
    let result := magnitudeBytes 8 value.natAbs
    let last := result.getLastD 0
    -- the highest bit already carries magnitude: the sign needs a byte of its own
    if 128 ≤ last.toNat then result ++ [if value < 0 then 0x80 else 0x00]
    else if value < 0 then result.dropLast ++ [last ||| 0x80]
    else result

def toInt (data : Bytes) : Option ℤ :=
  if data = [] then some 0
  else if 8 < data.length then none
  else
    let v := leNat data
    if 128 ≤ (data.getLastD 0).toNat then
      -- `v & mask`: the sign bit of the last byte is cleared
      let absVal := v - 128 * 256 ^ (data.length - 1)
      if 2 ^ 63 < absVal then none
      else if absVal = 2 ^ 63 then some (-2 ^ 63)
      else some (-absVal)
    else if 2 ^ 63 - 1 < v then none
    else some v

/-- Signed 64-bit arithmetic of the simulator, in two's complement. -/
def wrap64 (n : ℤ) : ℤ := n.bmod (2 ^ 64)

@[simp] theorem toInt_nil : toInt [] = some 0 := rfl

@[simp] theorem serializeScriptNum_zero : serializeScriptNum 0 = [] := rfl

@[simp] theorem serializeScriptNum_one : serializeScriptNum 1 = [0x01] := by decide

@[simp] theorem toInt_one : toInt [0x01] = some 1 := by decide

theorem leNat_eq_dropLast_add {bs : Bytes} (h : bs ≠ []) :
    leNat bs = leNat bs.dropLast + 256 ^ (bs.length - 1) * (bs.getLastD 0).toNat := by
  have hlast : bs.getLastD 0 = bs.getLast h := by
    rw [List.getLastD_eq_getLast?, List.getLast?_eq_some_getLast h, Option.getD_some]
  conv_lhs => rw [← List.dropLast_concat_getLast h]
  rw [leNat_append, hlast]
  simp

/-- A number of magnitude below `2 ^ 63` leaves the sign bit of an eighth digit free. -/
theorem magnitudeBytes_length_lt {n : ℕ} (hn : n < 2 ^ 63)
    (hlast : 128 ≤ ((magnitudeBytes 8 n).getLastD 0).toNat) :
    (magnitudeBytes 8 n).length < 8 := by
  by_contra hlen
  have hlen8 : (magnitudeBytes 8 n).length = 8 := by
    have := magnitudeBytes_length_le 8 n
    omega
  have hne : magnitudeBytes 8 n ≠ [] := by
    intro h; rw [h] at hlen8; simp at hlen8
  have hval : leNat (magnitudeBytes 8 n) = n :=
    magnitudeBytes_leNat 8 n (lt_trans hn (by norm_num))
  have hsplit := leNat_eq_dropLast_add hne
  have hpow : 256 ^ (8 - 1) = 2 ^ 56 := by norm_num
  rw [hval, hlen8, hpow] at hsplit
  omega

theorem or_128_toNat {b : UInt8} (h : b.toNat < 128) : (b ||| 0x80).toNat = b.toNat + 128 := by
  have hor := Nat.two_pow_add_eq_or_of_lt (show b.toNat < 2 ^ 7 by omega) 1
  rw [Nat.or_comm] at hor
  simp only [mul_one] at hor
  have h80 : (0x80 : UInt8).toNat = 2 ^ 7 := by decide
  rw [UInt8.toNat_or, h80, ← hor]
  omega

/-- **The decoder inverts the encoder.** -/
theorem toInt_serializeScriptNum {value : ℤ} (h : value.natAbs < 2 ^ 63) :
    toInt (serializeScriptNum value) = some value := by
  by_cases h0 : value = 0
  · subst h0; rfl
  have hmag : value.natAbs ≠ 0 := by omega
  set result := magnitudeBytes 8 value.natAbs with hresult
  set last := result.getLastD 0 with hlast
  have hne : result ≠ [] := fun hnil => hmag (magnitudeBytes_eq_nil hnil (by omega))
  have hval : leNat result = value.natAbs :=
    magnitudeBytes_leNat 8 _ (lt_trans h (by norm_num))
  have hpos : 0 < result.length := List.length_pos_iff.2 hne
  have hlen8 : result.length ≤ 8 := magnitudeBytes_length_le 8 _
  have hser : serializeScriptNum value =
      if 128 ≤ last.toNat then result ++ [if value < 0 then 0x80 else 0x00]
      else if value < 0 then result.dropLast ++ [last ||| 0x80] else result := by
    rw [serializeScriptNum, if_neg h0]
  by_cases hhigh : 128 ≤ last.toNat
  -- a sign byte is appended, and there is room for it
  · have hlen : result.length < 8 := magnitudeBytes_length_lt h hhigh
    rw [hser, if_pos hhigh]
    by_cases hneg : value < 0
    · have hv : leNat (result ++ [0x80]) - 128 * 256 ^ ((result ++ [0x80]).length - 1)
          = value.natAbs := by
        rw [leNat_append, hval]
        simp
        omega
      rw [if_pos hneg, toInt, if_neg (by simp), if_neg (by simp; omega)]
      simp only [List.getLastD_concat]
      rw [if_pos (by decide), hv, if_neg (by omega), if_neg (by omega)]
      congr 1
      omega
    · have hv : leNat (result ++ [0x00]) = value.natAbs := by
        rw [leNat_append, hval]; simp
      rw [if_neg hneg, toInt, if_neg (by simp), if_neg (by simp; omega)]
      simp only [List.getLastD_concat]
      rw [if_neg (by decide), hv, if_neg (by omega)]
      congr 1
      omega
  · rw [hser, if_neg hhigh]
    have hsplit := leNat_eq_dropLast_add hne
    by_cases hneg : value < 0
    -- the sign goes into the last digit
    · have hor : (last ||| 0x80).toNat = last.toNat + 128 := or_128_toNat (by omega)
      have hlen : (result.dropLast ++ [last ||| 0x80]).length = result.length := by
        simp; omega
      have hv : leNat (result.dropLast ++ [last ||| 0x80]) -
          128 * 256 ^ (result.length - 1) = value.natAbs := by
        rw [leNat_append, leNat_cons, leNat_nil, hor, List.length_dropLast, ← hval, hsplit, ← hlast]
        rw [Nat.mul_zero, Nat.add_zero, Nat.mul_add, Nat.mul_comm _ 128, ← Nat.add_assoc]
        exact Nat.add_sub_cancel _ _
      rw [if_pos hneg, toInt, if_neg (by simp), if_neg (by omega)]
      simp only [List.getLastD_concat, hlen]
      rw [if_pos (by omega), hv, if_neg (by omega), if_neg (by omega)]
      congr 1
      omega
    · rw [if_neg hneg, toInt, if_neg hne, if_neg (by omega)]
      simp only [← hlast]
      rw [if_neg hhigh, hval, if_neg (by omega)]
      congr 1
      omega

/-- The bytes of a number that is not zero, by its digits. -/
theorem serializeScriptNum_length_eq {value : ℤ} (h : value ≠ 0) :
    (serializeScriptNum value).length =
      (magnitudeBytes 8 value.natAbs).length +
        if 128 ≤ ((magnitudeBytes 8 value.natAbs).getLastD 0).toNat then 1 else 0 := by
  have hne : magnitudeBytes 8 value.natAbs ≠ [] := by
    intro hnil
    have := magnitudeBytes_eq_nil hnil (by omega)
    omega
  have hpos := List.length_pos_iff.2 hne
  rw [serializeScriptNum, if_neg h]
  by_cases hsign : 128 ≤ ((magnitudeBytes 8 value.natAbs).getLastD 0).toNat
  · simp only [if_pos hsign, List.length_append, List.length_singleton]
  · simp only [if_neg hsign]
    split_ifs
    · simp
      omega
    · rfl

end AtomicProof
