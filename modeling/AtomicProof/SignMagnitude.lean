/-
Sign-magnitude values.

Bytes of any length stand for a number: little-endian digits with the sign in the highest bit of the
last one.  `toInt` reads the short ones only.

Main definitions:

* `signedValue` — the number bytes stand for;
* `IsMinimalEncoding` — the shortest bytes that stand for a number.

Main results:

* `toInt_eq_some_iff` — the decoder reads the values of at most eight bytes;
* `isMinimalEncoding_serialize` — the encoder writes minimal encodings.
-/

import AtomicProof.BuiltinAgreement

set_option autoImplicit false

namespace AtomicProof

def signedValue (bytes : Bytes) : ℤ :=
  if 128 ≤ (bytes.getLastD 0).toNat then
    -((leNat bytes - 128 * 256 ^ (bytes.length - 1) : ℕ) : ℤ)
  else leNat bytes

variable {bytes : Bytes} {n : ℤ}

/-- **The decoder reads the values of at most eight bytes.** -/
theorem toInt_eq_some_iff : toInt bytes = some n ↔ bytes.length ≤ 8 ∧ signedValue bytes = n := by
  by_cases hlen : bytes.length ≤ 8
  · obtain ⟨m, hm, -, hvalue⟩ := toInt_of_length hlen
    have hsame : m = signedValue bytes := by
      unfold signedValue
      split_ifs at hvalue ⊢ <;> exact hvalue
    rw [hm, hsame, Option.some.injEq]
    simp [hlen]
  · rw [toInt_eq_none_of_length (by omega)]
    exact iff_of_false nofun fun h => hlen h.1

theorem natAbs_lt_of_toInt (h : toInt bytes = some n) : n.natAbs < 2 ^ 63 := by
  obtain ⟨m, hm, hlt, -⟩ := toInt_of_length (length_le_of_toInt h)
  obtain rfl := Option.some.inj (hm.symm.trans h)
  exact hlt

/-- Bytes that are not empty leave room for the sign. -/
theorem natAbs_signedValue_lt (hne : bytes ≠ []) :
    (signedValue bytes).natAbs < 128 * 256 ^ (bytes.length - 1) := by
  have hsplit := leNat_eq_dropLast_add hne
  have hlow := leNat_lt bytes.dropLast
  rw [List.length_dropLast] at hlow
  have hlast : (bytes.getLastD 0).toNat < 256 := (bytes.getLastD 0).toNat_lt
  unfold signedValue
  generalize 256 ^ (bytes.length - 1) = place at *
  split_ifs with hsign
  · have hmul : place * (bytes.getLastD 0).toNat ≤ place * 255 := Nat.mul_le_mul_left _ (by omega)
    omega
  · have hmul : place * (bytes.getLastD 0).toNat ≤ place * 127 := Nat.mul_le_mul_left _ (by omega)
    omega

/-- The bytes stand for a number, and no shorter ones do. -/
structure IsMinimalEncoding (bytes : Bytes) (n : ℤ) : Prop where
  value : signedValue bytes = n
  shortest : ∀ other, signedValue other = n → bytes.length ≤ other.length

theorem signedValue_serialize (h : n.natAbs ≤ 2 ^ 63) : signedValue (serializeScriptNum n) = n := by
  by_cases hlt : n.natAbs < 2 ^ 63
  · exact (toInt_eq_some_iff.1 (toInt_serializeScriptNum hlt)).2
  · have hcases : n = 2 ^ 63 ∨ n = -2 ^ 63 := by omega
    rcases hcases with rfl | rfl <;> decide

/-- **The encoder writes minimal encodings.** -/
theorem isMinimalEncoding_serialize (h : n.natAbs < 2 ^ 63) :
    IsMinimalEncoding (serializeScriptNum n) n := by
  refine ⟨signedValue_serialize h.le, ?_⟩
  intro other hother
  by_cases h0 : n = 0
  · simp [h0]
  · have hne : other ≠ [] := by
      rintro rfl
      exact h0 hother.symm
    have hpos := List.length_pos_iff.2 hne
    refine (length_serializeScriptNum_le_iff h0 h other.length).2 ⟨hpos, ?_⟩
    rw [← hother]
    exact natAbs_signedValue_lt hne

end AtomicProof
