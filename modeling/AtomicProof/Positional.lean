/-
Positional arithmetic.

A number is written in a base as the list of its digits.  With the highest digit first, zeros may
stand in front of it: such a string of digits is a count of zeros and a number, and two bases write
the same pairs.  With the lowest digit first, a number is multiplied by a factor digit by digit while
a carry goes along.

Main definitions:

* `Positional.value` — the number that a string of digits writes;
* `Positional.convert` — the string that writes the same zeros and the same number in another base;
* `Positional.mulAdd` — multiplication by a factor, with a carry.

Main results:

* `Positional.convert_convert` — **a string comes back from another base**;
* `Positional.mulAdd_digits` — **multiplication with a carry** computes the digits of the result.
-/

import Mathlib.Data.Nat.Digits.Lemmas

set_option autoImplicit false

namespace AtomicProof

namespace Positional

variable {b c : ℕ} {ds : List ℕ}

/-! ### Strings of digits -/

/-- The number that a string of digits writes, the highest digit first. -/
def value (b : ℕ) (ds : List ℕ) : ℕ := ds.foldl (fun n d => b * n + d) 0

/-- The zeros in front of a string of digits. -/
def zeros (ds : List ℕ) : ℕ := (ds.takeWhile (· = 0)).length

/-- The string with so many zeros in front of a number. -/
def write (b zeros n : ℕ) : List ℕ := List.replicate zeros 0 ++ (Nat.digits b n).reverse

/-- The string that writes the same zeros and the same number in base `c`. -/
def convert (b c : ℕ) (ds : List ℕ) : List ℕ := write c (zeros ds) (value b ds)

theorem value_eq_ofDigits : value b ds = Nat.ofDigits b ds.reverse := by
  rw [Nat.ofDigits_eq_foldr, List.foldr_reverse, value]
  congr 1
  funext n d
  exact Nat.add_comm _ _

theorem value_zeros_append (k : ℕ) : value b (List.replicate k 0 ++ ds) = value b ds := by
  induction k with
  | zero => rfl
  | succ k ih => rw [List.replicate_succ, List.cons_append, ← ih, value, value, List.foldl_cons]; simp

theorem zeros_zeros_append (k : ℕ) : zeros (List.replicate k 0 ++ ds) = k + zeros ds := by
  induction k with
  | zero => rw [List.replicate_zero, List.nil_append, Nat.zero_add]
  | succ k ih =>
      have hcons : zeros (0 :: (List.replicate k 0 ++ ds)) =
          zeros (List.replicate k 0 ++ ds) + 1 := by
        simp [zeros]
      rw [List.replicate_succ, List.cons_append, hcons, ih]
      omega

theorem value_drop_zeros : value b (ds.drop (zeros ds)) = value b ds := by
  induction ds with
  | nil => rfl
  | cons d ds ih =>
      by_cases hd : d = 0
      · have hzeros : zeros (d :: ds) = zeros ds + 1 := by
          simp [zeros, hd]
        have hvalue : value b (d :: ds) = value b ds := by
          simp [value, hd]
        rw [hzeros, List.drop_succ_cons, ih, hvalue]
      · have hzeros : zeros (d :: ds) = 0 := by
          simp [zeros, hd]
        rw [hzeros, List.drop_zero]

theorem zeros_digits (n : ℕ) : zeros (Nat.digits b n).reverse = 0 := by
  by_cases hn : n = 0
  · rw [hn, Nat.digits_zero]
    rfl
  · have hne : Nat.digits b n ≠ [] := Nat.digits_ne_nil_iff_ne_zero.2 hn
    have hlast : (Nat.digits b n).getLast hne ≠ 0 := Nat.getLast_digit_ne_zero b hn
    rw [← List.dropLast_append_getLast hne, List.reverse_append, List.reverse_singleton,
      List.singleton_append, zeros, List.takeWhile_cons_of_neg (by simpa using hlast)]
    rfl

theorem zeros_write (k n : ℕ) : zeros (write b k n) = k := by
  rw [write, zeros_zeros_append, zeros_digits, Nat.add_zero]

theorem value_write (k n : ℕ) : value b (write b k n) = n := by
  rw [write, value_zeros_append, value_eq_ofDigits, List.reverse_reverse, Nat.ofDigits_digits]

/-- A string of digits is what is written for its zeros and its number. -/
theorem write_zeros_value (hb : 1 < b) (hds : ∀ d ∈ ds, d < b) :
    write b (zeros ds) (value b ds) = ds := by
  induction ds with
  | nil => simp [write, zeros, value]
  | cons d ds ih =>
      by_cases hd : d = 0
      · have hrest : write b (zeros ds) (value b ds) = ds :=
          ih fun d' hd' => hds d' (List.mem_cons_of_mem _ hd')
        have hzeros : zeros (d :: ds) = zeros ds + 1 := by
          simp [zeros, hd]
        have hvalue : value b (d :: ds) = value b ds := by
          simp [value, hd]
        rw [hzeros, hvalue, write, List.replicate_succ, List.cons_append, ← write, hrest, hd]
      -- the first digit is the highest of the number
      · have hzeros : zeros (d :: ds) = 0 := by
          simp [zeros, hd]
        rw [hzeros, write, List.replicate_zero, List.nil_append, value_eq_ofDigits,
          Nat.digits_ofDigits b hb, List.reverse_reverse]
        · intro d' hd'
          exact hds d' (List.mem_reverse.1 hd')
        · intro hne
          rwa [List.getLast_reverse]

theorem convert_lt (hc : 1 < c) : ∀ d ∈ convert b c ds, d < c := by
  intro d hd
  rw [convert, write, List.mem_append, List.mem_reverse] at hd
  rcases hd with hd | hd
  · rw [List.eq_of_mem_replicate hd]
    omega
  · exact Nat.digits_lt_base hc hd

/-- **A string comes back from another base.** -/
theorem convert_convert (hb : 1 < b) (hds : ∀ d ∈ ds, d < b) :
    convert c b (convert b c ds) = ds := by
  have hzeros : zeros (convert b c ds) = zeros ds := zeros_write _ _
  have hvalue : value c (convert b c ds) = value b ds := value_write _ _
  rw [convert, hzeros, hvalue, write_zeros_value hb hds]

/-! ### Multiplication with a carry -/

/-- Multiplication by a factor, the lowest digit first. -/
def mulAdd (b factor : ℕ) (carry : ℕ) : List ℕ → List ℕ
  | [] => Nat.digits b carry
  | d :: ds =>
      (carry + d * factor) % b :: mulAdd b factor ((carry + d * factor) / b) ds

/-- **Multiplication with a carry.** -/
theorem mulAdd_digits (hb : 1 < b) {factor : ℕ} (hfactor : 0 < factor) (carry n : ℕ) :
    mulAdd b factor carry (Nat.digits b n) = Nat.digits b (factor * n + carry) := by
  induction n using Nat.strong_induction_on generalizing carry with
  | _ n ih =>
      rcases Nat.eq_zero_or_pos n with rfl | hn
      · rw [Nat.digits_zero, mulAdd, Nat.mul_zero, Nat.zero_add]
      · have hless : n / b < n := Nat.div_lt_self hn hb
        have hpos : 0 < factor * n + carry := Nat.add_pos_left (Nat.mul_pos hfactor hn) _
        -- the product is split at its lowest digit
        have hsplit : factor * n + carry =
            (carry + n % b * factor) + b * (factor * (n / b)) := by
          calc factor * n + carry = factor * (n % b + b * (n / b)) + carry := by
                rw [Nat.mod_add_div]
            _ = (carry + n % b * factor) + b * (factor * (n / b)) := by ring
        have hmod : (factor * n + carry) % b = (carry + n % b * factor) % b := by
          rw [hsplit, Nat.add_mul_mod_self_left]
        have hdiv : (factor * n + carry) / b =
            factor * (n / b) + (carry + n % b * factor) / b := by
          rw [hsplit, Nat.add_mul_div_left _ _ (by omega), Nat.add_comm]
        rw [Nat.digits_def' hb hn, mulAdd, ih _ hless, Nat.digits_def' hb hpos, hmod, hdiv]

end Positional

end AtomicProof
