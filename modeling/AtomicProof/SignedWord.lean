/-
Signed 64-bit words.

A signed operation on `int64_t` whose exact result is no `int64_t` has no defined behaviour.  Code
that is to be exact has to keep away from such operations.  Here an operation on words is therefore a
partial function: it is defined where the exact result fits, and its value is then the exact result.

Main definitions:

* `Fits64` — the numbers of `int64_t`;
* `signed` — the word of a number, where it fits;
* `signedDiv`, `signedMod` — truncating division and its remainder.

Main results:

* `signed_eq_some` — a signed operation yields the exact result or nothing.
-/

import Mathlib.Algebra.Order.Group.Int
import Mathlib.Data.Int.Order.Basic
import Mathlib.Tactic.NormNum

set_option autoImplicit false

namespace AtomicProof

/-- The number is one of `int64_t`. -/
def Fits64 (n : ℤ) : Prop := -2 ^ 63 ≤ n ∧ n < 2 ^ 63

instance (n : ℤ) : Decidable (Fits64 n) := inferInstanceAs (Decidable (_ ∧ _))

theorem fits64_toInt (v : Int64) : Fits64 v.toInt := ⟨v.le_toInt, v.toInt_lt⟩

/-- The word of a number.  A signed operation with that exact result is undefined where the number
does not fit. -/
def signed (n : ℤ) : Option Int64 := if Fits64 n then some (Int64.ofInt n) else none

/-- **A signed operation yields the exact result or nothing.** -/
theorem signed_eq_some {n : ℤ} {v : Int64} : signed n = some v ↔ v.toInt = n := by
  unfold signed
  constructor
  · intro h
    split_ifs at h with hfits
    obtain rfl := Option.some.inj h
    exact Int64.toInt_ofInt_of_le hfits.1 hfits.2
  · rintro rfl
    rw [if_pos (fits64_toInt v), Int64.ofInt_toInt]

theorem signed_eq_none {n : ℤ} : signed n = none ↔ ¬ Fits64 n := by
  unfold signed
  split_ifs with hfits
  · exact iff_of_false nofun fun h => h hfits
  · exact iff_of_true rfl hfits

theorem exists_signed {n : ℤ} (h : Fits64 n) : ∃ v, signed n = some v ∧ v.toInt = n := by
  obtain ⟨v, hv⟩ := Option.ne_none_iff_exists'.1 fun hnone => signed_eq_none.1 hnone h
  exact ⟨v, hv, signed_eq_some.1 hv⟩

/-! ### Division -/

/-- Truncating division; a zero divisor leaves it undefined as well. -/
def signedDiv (a b : Int64) : Option Int64 :=
  if b = 0 then none else signed (a.toInt.tdiv b.toInt)

/-- The remainder of the truncating division; it is undefined where the quotient is. -/
def signedMod (a b : Int64) : Option Int64 :=
  if b = 0 ∨ ¬ Fits64 (a.toInt.tdiv b.toInt) then none else signed (a.toInt.tmod b.toInt)

theorem toInt_ne_zero {v : Int64} : v.toInt ≠ 0 ↔ v ≠ 0 := by
  rw [ne_eq, ne_eq, ← Int64.toInt_inj, Int64.toInt_zero]

/-- The quotient of two words fits but for the smallest number and minus one. -/
theorem fits64_tdiv_iff {a b : Int64} (h : b ≠ 0) :
    Fits64 (a.toInt.tdiv b.toInt) ↔ ¬ (a.toInt = -2 ^ 63 ∧ b.toInt = -1) := by
  have hlo := a.le_toInt
  have hhi := a.toInt_lt
  have hb := toInt_ne_zero.2 h
  constructor
  · rintro ⟨-, hlt⟩ ⟨ha, hone⟩
    rw [ha, hone] at hlt
    exact absurd hlt (by decide)
  · intro hnot
    have habs := Int.natAbs_tdiv_le_natAbs a.toInt b.toInt
    unfold Fits64
    by_contra hbad
    -- only a quotient as large as the dividend leaves the range
    have hmin : a.toInt = -2 ^ 63 := by omega
    have hquotient : a.toInt.tdiv b.toInt = 2 ^ 63 := by omega
    have hdivision := Int.tdiv_mul_add_tmod a.toInt b.toInt
    have hremainder := Int.natAbs_tmod a.toInt b.toInt
    have hsmall : a.toInt.natAbs % b.toInt.natAbs < b.toInt.natAbs := Nat.mod_lt _ (by omega)
    rw [hquotient, hmin] at hdivision
    rw [hmin] at hremainder hnot hsmall
    have hone : b.toInt = -1 := by omega
    exact hnot ⟨rfl, hone⟩

theorem fits64_tmod {a b : Int64} (h : b ≠ 0) : Fits64 (a.toInt.tmod b.toInt) := by
  have hlo := a.le_toInt
  have hhi := a.toInt_lt
  have hblo := b.le_toInt
  have hbhi := b.toInt_lt
  have hb := toInt_ne_zero.2 h
  have hremainder := Int.natAbs_tmod a.toInt b.toInt
  have hsmall : a.toInt.natAbs % b.toInt.natAbs < b.toInt.natAbs := Nat.mod_lt _ (by omega)
  have hle := Nat.mod_le a.toInt.natAbs b.toInt.natAbs
  unfold Fits64
  omega

end AtomicProof
