/-
Numbers and sized bytes on the machine.

`OP_NUM2BIN` writes a number in a given number of bytes and `OP_BIN2NUM` reads one back.  The rest of
the machine has numbers in little-endian sign-magnitude form; these two write and read big-endian two's
complement, cut to the size and to a word.

Main definitions:

* `SizedExactly` — what is asked of the writer and of reading back what it writes;
* `SizeFits` — the numbers and sizes for which it is so;
* `ReadsMagnitude` — what is asked of the reader;
* `ReadsBothWays` — the bytes for which it is so.

Main results:

* `numberBytes_iff` — **the two conditions are exact**.
-/

import AtomicProof.SignMagnitude

set_option autoImplicit false

namespace AtomicProof

open Stack

/-! ### Words -/

theorem wrap64_congr {n m : ℤ} (h : n % 2 ^ 64 = m % 2 ^ 64) : wrap64 n = wrap64 m := by
  rw [wrap64, wrap64, Int.bmod_def, Int.bmod_def]
  simp only [Nat.cast_pow, Nat.cast_ofNat, h]

theorem wrap64_leNat (bytes : Bytes) : wrap64 (leNat bytes) = wrap64 (leNat (bytes.take 8)) := by
  by_cases hlen : bytes.length ≤ 8
  · rw [List.take_of_length_le hlen]
  · refine wrap64_congr ?_
    have hsplit := leNat_append (bytes.take 8) (bytes.drop 8)
    rw [List.take_append_drop, List.length_take, Nat.min_eq_left (by omega)] at hsplit
    rw [hsplit]
    push_cast
    omega

theorem IsMinimalEncoding.length_eq {bytes : Bytes} {n : ℤ} (h : IsMinimalEncoding bytes n)
    (hn : n.natAbs < 2 ^ 63) : bytes.length = (serializeScriptNum n).length := by
  have hself := isMinimalEncoding_serialize hn
  exact le_antisymm (h.shortest _ hself.value) (hself.shortest _ h.value)

/-! ### Writing and reading back -/

/-- The writer fails or pushes as many bytes as asked for; it fails exactly where the minimal encoding
is longer; and reading what it writes gives the minimal encoding of the number. -/
structure SizedExactly (x y : Bytes) (rest : Stack) (n size : ℤ) : Prop where
  sized : (∃ e, opNum2bin (y :: x :: rest) = .error e) ∨
    ∃ bytes, opNum2bin (y :: x :: rest) = .ok (bytes :: rest) ∧ (bytes.length : ℤ) = size
  fails : (∃ e, opNum2bin (y :: x :: rest) = .error e) ↔
    ∃ minimal, IsMinimalEncoding minimal n ∧ size < minimal.length
  inverse : ∀ bytes, opNum2bin (y :: x :: rest) = .ok (bytes :: rest) →
    ∃ back, opBin2num (bytes :: rest) = .ok (back :: rest) ∧ IsMinimalEncoding back n

/-- The size is negative, or the encoding of the number fits it and the number is not negative or
fills a word. -/
def SizeFits (n size : ℤ) : Prop :=
  size < 0 ∨ ((serializeScriptNum n).length ≤ size ∧ (0 ≤ n ∨ 8 ≤ size))

section Writing

variable {x y : Bytes} {n size : ℤ} {rest : Stack}

theorem opNum2bin_error (rest : Stack) (hx : toInt x = some n) (hy : toInt y = some size) (h : size < 0) :
    ∃ e, opNum2bin (y :: x :: rest) = .error e := by
  have heq := opNum2bin_eq hx hy rest
  rw [if_pos h] at heq
  cases hstep : opNum2bin (y :: x :: rest) with
  | error e => exact ⟨e, rfl⟩
  | ok after => exact nomatch (hstep ▸ heq : Except.toOption (.ok after) = none)

theorem opNum2bin_ok (rest : Stack) (hx : toInt x = some n) (hy : toInt y = some size) (h : 0 ≤ size) :
    opNum2bin (y :: x :: rest) = .ok (bigEndian n size.toNat :: rest) := by
  have heq := opNum2bin_eq hx hy rest
  rw [if_neg (by omega)] at heq
  cases hstep : opNum2bin (y :: x :: rest) with
  | error e => exact nomatch (hstep ▸ heq : Except.toOption (.error e) = some _)
  | ok after =>
      rw [hstep] at heq
      exact congrArg Except.ok (Option.some.inj heq)

theorem length_bigEndian (n : ℤ) (size : ℕ) : (bigEndian n size).length = size := by
  rw [bigEndian, List.length_reverse, ScriptCodec.littleEndian_length]

theorem leNat_reverse_bigEndian (n : ℤ) (size : ℕ) :
    (leNat (bigEndian n size).reverse : ℤ) = n % 256 ^ size := by
  have hpos : (0 : ℤ) < 256 ^ size := by positivity
  have hlow := Int.emod_nonneg n hpos.ne'
  have hhigh := Int.emod_lt_of_pos n hpos
  have hnat : (n % 256 ^ size).toNat < 256 ^ size := by
    zify
    rwa [Int.toNat_of_nonneg hlow]
  rw [bigEndian, List.reverse_reverse, ScriptCodec.leNat_littleEndian hnat, Int.toNat_of_nonneg hlow]

/-- A number whose encoding fits is read back from its bytes where it is not negative or fills a
word. -/
theorem wrap64_bigEndian_iff {size : ℕ} (hn : n.natAbs < 2 ^ 63)
    (hfits : (serializeScriptNum n).length ≤ size) :
    wrap64 (leNat (bigEndian n size).reverse) = n ↔ 0 ≤ n ∨ 8 ≤ size := by
  rw [leNat_reverse_bigEndian]
  by_cases hneg : n < 0
  · have hbounds := (length_serializeScriptNum_le_iff (by omega) hn size).1 hfits
    by_cases hlong : 8 ≤ size
    · refine iff_of_true ?_ (.inr hlong)
      have hdvd : (2 ^ 64 : ℤ) ∣ 256 ^ size :=
        (show (2 ^ 64 : ℤ) = 256 ^ 8 by norm_num) ▸ pow_dvd_pow 256 hlong
      rw [wrap64_congr (Int.emod_emod_of_dvd n hdvd), wrap64_of_lt (by omega) (by omega)]
    · refine iff_of_false ?_ (by omega)
      have hpow : (256 : ℤ) ^ size ≤ 256 ^ 7 := pow_le_pow_right₀ (by omega) (by omega)
      have hlow := Int.emod_nonneg n (show (256 : ℤ) ^ size ≠ 0 by positivity)
      have hhigh := Int.emod_lt_of_pos n (show (0 : ℤ) < 256 ^ size by positivity)
      rw [wrap64_of_lt (by omega) (by omega)]
      omega
  · refine iff_of_true ?_ (.inl (by omega))
    by_cases h0 : n = 0
    · subst h0
      rw [Int.zero_emod]
      decide
    · have hbounds := (length_serializeScriptNum_le_iff h0 hn size).1 hfits
      have hpow : 128 * 256 ^ (size - 1) ≤ 256 ^ size := by
        calc 128 * 256 ^ (size - 1) ≤ 256 * 256 ^ (size - 1) := Nat.mul_le_mul_right _ (by omega)
          _ = 256 ^ size := by rw [← Nat.pow_succ', Nat.succ_eq_add_one, Nat.sub_add_cancel hbounds.1]
      have hlt : n < 256 ^ size := by
        have hnat : n.natAbs < 256 ^ size := by omega
        zify at hnat
        rwa [abs_of_nonneg (by omega)] at hnat
      rw [Int.emod_eq_of_lt (by omega) hlt, wrap64_of_lt (by omega) (by omega)]

/-- **The writer is exact where the size fits the number.** -/
theorem sizedExactly_iff (hx : toInt x = some n) (hy : toInt y = some size) :
    SizedExactly x y rest n size ↔ SizeFits n size := by
  have hn := natAbs_lt_of_toInt hx
  have hlong : (∃ minimal, IsMinimalEncoding minimal n ∧ size < minimal.length) ↔
      size < (serializeScriptNum n).length := by
    constructor
    · rintro ⟨minimal, hminimal, hlt⟩
      rwa [hminimal.length_eq hn] at hlt
    · intro hlt
      exact ⟨_, isMinimalEncoding_serialize hn, hlt⟩
  by_cases hneg : size < 0
  · have herror := opNum2bin_error rest hx hy hneg
    refine iff_of_true ⟨.inl herror, iff_of_true herror (hlong.2 (by omega)), ?_⟩ (.inl hneg)
    intro bytes hok
    obtain ⟨e, he⟩ := herror
    exact nomatch he.symm.trans hok
  · have hok := opNum2bin_ok rest hx hy (by omega)
    have hnoerror : ¬ ∃ e, opNum2bin (y :: x :: rest) = .error e := by
      rintro ⟨e, he⟩
      exact nomatch hok.symm.trans he
    obtain ⟨k, rfl⟩ := Int.eq_ofNat_of_zero_le (by omega : 0 ≤ size)
    rw [Int.toNat_natCast] at hok
    have hread := opBin2num_eq (bigEndian n k) rest
    constructor
    · rintro ⟨-, hfails, hinverse⟩
      have hfits : (serializeScriptNum n).length ≤ k := by
        by_contra hnot
        exact hnoerror (hfails.2 (hlong.2 (by omega)))
      obtain ⟨back, hback, hminimal⟩ := hinverse _ hok
      have hsame := hread.symm.trans hback
      obtain ⟨rfl, -⟩ := List.cons.inj (Except.ok.inj hsame)
      have hvalue : wrap64 (leNat (bigEndian n k).reverse) = n := by
        have hword := wrap64_bounds (leNat (bigEndian n k).reverse)
        have hread := hminimal.value
        rwa [signedValue_serialize (by omega)] at hread
      rcases (wrap64_bigEndian_iff hn hfits).1 hvalue with h | h
      · exact .inr ⟨by omega, .inl h⟩
      · exact .inr ⟨by omega, .inr (by omega)⟩
    · rintro (h | ⟨hfits, hcase⟩)
      · omega
      have hvalue := (wrap64_bigEndian_iff hn (show _ ≤ k by omega)).2 (by omega)
      refine ⟨.inr ⟨_, hok, by rw [length_bigEndian]⟩, iff_of_false hnoerror ?_, ?_⟩
      · rw [hlong]
        omega
      · intro bytes hbytes
        obtain ⟨rfl, -⟩ := List.cons.inj (Except.ok.inj (hok.symm.trans hbytes))
        refine ⟨_, hread, ?_⟩
        rw [hvalue]
        exact isMinimalEncoding_serialize hn

end Writing

/-! ### Reading -/

/-- The reader fails on a value out of range, or pushes the minimal encoding of the value. -/
def ReadsMagnitude (bytes : Bytes) (rest : Stack) : Prop :=
  (∃ e, opBin2num (bytes :: rest) = .error e ∧ 2 ^ 63 ≤ (signedValue bytes).natAbs) ∨
    ∃ pushed, opBin2num (bytes :: rest) = .ok (pushed :: rest) ∧
      IsMinimalEncoding pushed (signedValue bytes)

/-- The bytes stand for the same number in both orders.  Either they are a number without a sign that
is the same read from both ends; or, from the ninth on, they are nothing but the sign, and the lowest
eight and the highest eight add up to `2 ^ 64`. -/
def ReadsBothWays (bytes : Bytes) : Prop :=
  (bytes.reverse = bytes ∧ (bytes.getLastD 0).toNat < 128 ∧ leNat bytes < 2 ^ 63) ∨
    (bytes.drop 8 = List.replicate (bytes.length - 9) 0x00 ++ [0x80] ∧
      leNat (bytes.take 8) < 2 ^ 63 ∧ leNat (bytes.take 8) + leNat (bytes.reverse.take 8) = 2 ^ 64)

section Reading

variable {bytes : Bytes}

theorem leNat_eq_zero_iff : leNat bytes = 0 ↔ ∀ b ∈ bytes, b = 0 := by
  induction bytes with
  | nil => simp
  | cons b bytes ih =>
      rw [leNat_cons, List.forall_mem_cons, ← ih, ← UInt8.toNat_inj]
      simp

theorem leNat_eq_take_add (h : 8 ≤ bytes.length) :
    leNat bytes = leNat (bytes.take 8) + 2 ^ 64 * leNat (bytes.drop 8) := by
  have hsplit := leNat_append (bytes.take 8) (bytes.drop 8)
  rw [List.take_append_drop, List.length_take, Nat.min_eq_left h] at hsplit
  rw [hsplit]
  norm_num

/-- Nothing but zeros from the ninth on, and the same lowest and highest eight: the same from both
ends. -/
theorem reverse_eq_of_take_eq (hzero : ∀ b ∈ bytes.drop 8, b = 0)
    (htake : bytes.reverse.take 8 = bytes.take 8) : bytes.reverse = bytes := by
  have hlow : ∀ i (hi : i < bytes.length), i < 8 → bytes[bytes.length - 1 - i] = bytes[i] := by
    intro i hi hi8
    have hget := congrArg (·[i]?) htake
    simp only [List.getElem?_take, if_pos hi8] at hget
    rw [List.getElem?_reverse hi, List.getElem?_eq_getElem (by omega), List.getElem?_eq_getElem hi]
      at hget
    exact Option.some.inj hget
  have hhigh : ∀ i (hi : i < bytes.length), 8 ≤ i → bytes[i] = 0 := by
    intro i hi hi8
    refine hzero _ (List.mem_iff_getElem.2 ⟨i - 8, by rw [List.length_drop]; omega, ?_⟩)
    rw [List.getElem_drop]
    congr 1
    omega
  refine List.ext_getElem (by simp) fun i hi hi' => ?_
  rw [List.getElem_reverse]
  by_cases hi8 : i < 8
  · exact hlow i hi' hi8
  · rw [hhigh i hi' (by omega)]
    by_cases hopposite : bytes.length - 1 - i < 8
    · have hsame := hlow (bytes.length - 1 - i) (by omega) hopposite
      rw [← hsame]
      exact hhigh _ _ (by omega)
    · exact hhigh _ _ (by omega)

theorem leNat_reverse_take_mod (h : 8 < bytes.length) :
    leNat (bytes.reverse.take 8) % 256 = (bytes.getLastD 0).toNat := by
  have hne : bytes ≠ [] := by
    rintro rfl
    simp at h
  have hfirst : bytes.reverse = bytes.getLastD 0 :: bytes.dropLast.reverse := by
    conv_lhs => rw [← List.dropLast_concat_getLast hne]
    rw [List.reverse_append, List.reverse_singleton, List.singleton_append,
      List.getLastD_eq_getLast?, List.getLast?_eq_some_getLast hne, Option.getD_some]
  have hlt := (bytes.getLastD 0).toNat_lt
  rw [hfirst, List.take_succ_cons, leNat_cons]
  omega

/-- The sign is the only thing from the ninth byte on, as far as numbers go. -/
theorem drop_eq_sign_iff (h : 8 < bytes.length) :
    bytes.drop 8 = List.replicate (bytes.length - 9) 0x00 ++ [0x80] ↔
      leNat (bytes.drop 8) = 128 * 256 ^ (bytes.length - 9) := by
  have hsign : leNat (List.replicate (bytes.length - 9) 0x00 ++ [0x80]) =
      128 * 256 ^ (bytes.length - 9) := by
    rw [leNat_append, leNat_replicate_zero, List.length_replicate]
    simp [Nat.mul_comm]
  constructor
  · intro hdrop
    rw [hdrop, hsign]
  · intro hvalue
    refine leNat_injective ?_ (hvalue.trans hsign.symm)
    rw [List.length_drop, List.length_append, List.length_replicate, List.length_singleton]
    omega

theorem getLastD_of_drop (h : bytes.drop 8 = List.replicate (bytes.length - 9) 0x00 ++ [0x80]) :
    (bytes.getLastD 0).toNat = 128 := by
  have hlast : (bytes.drop 8).getLast? = some 0x80 := by rw [h, List.getLast?_concat]
  rw [List.getLast?_drop] at hlast
  split_ifs at hlast
  rw [List.getLastD_eq_getLast?, hlast]
  rfl

theorem signedValue_of_unsigned (h : (bytes.getLastD 0).toNat < 128) :
    signedValue bytes = leNat bytes := by
  rw [signedValue, if_neg (by omega)]

/-- The value of long bytes with a sign: what the lowest eight leave out is what the others hold beside
the sign. -/
theorem signedValue_of_signed (hlen : 8 < bytes.length) (h : 128 ≤ (bytes.getLastD 0).toNat) :
    128 * 256 ^ (bytes.length - 9) ≤ leNat (bytes.drop 8) ∧
      signedValue bytes = -((leNat (bytes.take 8) +
        2 ^ 64 * (leNat (bytes.drop 8) - 128 * 256 ^ (bytes.length - 9)) : ℕ) : ℤ) := by
  have hne : bytes.drop 8 ≠ [] := by
    rw [ne_eq, List.drop_eq_nil_iff]
    omega
  have hlast : (bytes.drop 8).getLastD 0 = bytes.getLastD 0 := by
    rw [List.getLastD_eq_getLast?, List.getLastD_eq_getLast?, List.getLast?_drop,
      if_neg (by omega)]
  have hsplit := leNat_eq_dropLast_add hne
  rw [hlast, List.length_drop, show bytes.length - 8 - 1 = bytes.length - 9 by omega] at hsplit
  have hplace : 128 * 256 ^ (bytes.length - 9) ≤
      256 ^ (bytes.length - 9) * (bytes.getLastD 0).toNat := by
    rw [Nat.mul_comm]
    exact Nat.mul_le_mul_left _ h
  have hpow : 256 ^ (bytes.length - 1) = 2 ^ 64 * 256 ^ (bytes.length - 9) := by
    rw [show bytes.length - 1 = 8 + (bytes.length - 9) by omega, pow_add]
    norm_num
  refine ⟨by omega, ?_⟩
  rw [signedValue, if_pos h, leNat_eq_take_add (by omega), hpow]
  congr 2
  omega

/-- **The word that the reader computes is the value exactly for bytes that read both ways.** -/
theorem wrap64_eq_signedValue_iff :
    wrap64 (leNat bytes.reverse) = signedValue bytes ↔ ReadsBothWays bytes := by
  by_cases hlen : bytes.length ≤ 8
  · have hn : toInt bytes = some (signedValue bytes) := toInt_eq_some_iff.2 ⟨hlen, rfl⟩
    rw [eq_comm, eq_wrap64_iff hlen hn]
    constructor
    · rintro ⟨hsame, hlast⟩
      refine .inl ⟨hsame, hlast, ?_⟩
      have hsmall := natAbs_lt_of_toInt hn
      rwa [signedValue_of_unsigned hlast, Int.natAbs_natCast] at hsmall
    · rintro (⟨hsame, hlast, -⟩ | ⟨hdrop, -⟩)
      · exact ⟨hsame, hlast⟩
      · rw [List.drop_eq_nil_of_le hlen] at hdrop
        exact absurd hdrop.symm (by simp)
  -- longer values keep only the eight bytes at the end
  · have hword := wrap64_leNat bytes.reverse
    have hmod : leNat (bytes.reverse.take 8) % 256 = (bytes.getLastD 0).toNat :=
      leNat_reverse_take_mod (by omega)
    have hhigh : leNat (bytes.reverse.take 8) < 2 ^ 64 := by
      have h := leNat_lt (bytes.reverse.take 8)
      rw [List.length_take, List.length_reverse, Nat.min_eq_left (by omega)] at h
      exact h
    have hvalue : leNat bytes = leNat (bytes.take 8) + 2 ^ 64 * leNat (bytes.drop 8) :=
      leNat_eq_take_add (by omega)
    rw [hword]
    by_cases hsign : 128 ≤ (bytes.getLastD 0).toNat
    · obtain ⟨hplace, hsigned⟩ := signedValue_of_signed (by omega) hsign
      rw [hsigned]
      constructor
      · intro h
        right
        rw [drop_eq_sign_iff (by omega)]
        by_cases hbig : leNat (bytes.reverse.take 8) < 2 ^ 63
        · rw [wrap64_of_lt (by omega) (by omega)] at h
          omega
        · rw [wrap64_of_ge (by omega) (by omega)] at h
          omega
      · rintro (⟨-, hlast, -⟩ | ⟨hdrop, hlow, hsum⟩)
        · omega
        · rw [drop_eq_sign_iff (by omega)] at hdrop
          rw [wrap64_of_ge (by omega) (by omega)]
          omega
    · rw [signedValue_of_unsigned (by omega)]
      constructor
      · intro h
        have hsmall : leNat (bytes.reverse.take 8) < 2 ^ 63 := by
          by_contra hbig
          rw [wrap64_of_ge (by omega) (by omega)] at h
          omega
        rw [wrap64_of_lt (by omega) (by omega)] at h
        refine .inl ⟨reverse_eq_of_take_eq (leNat_eq_zero_iff.1 (by omega)) ?_, by omega, by omega⟩
        exact leNat_injective (by simp) (by omega)
      · rintro (⟨hsame, -, hlow⟩ | ⟨hdrop, -⟩)
        · rw [hsame, wrap64_of_lt (by omega) (by omega)]
          omega
        · exact absurd (getLastD_of_drop hdrop) (by omega)

theorem natAbs_signedValue_of_readsBothWays (h : ReadsBothWays bytes) :
    (signedValue bytes).natAbs < 2 ^ 63 := by
  rcases h with ⟨-, hlast, hsmall⟩ | ⟨hdrop, hlow, -⟩
  · rwa [signedValue_of_unsigned hlast, Int.natAbs_natCast]
  · have hlen : 8 < bytes.length := by
      by_contra hshort
      rw [List.drop_eq_nil_of_le (by omega)] at hdrop
      exact absurd hdrop.symm (by simp)
    have hsign := getLastD_of_drop hdrop
    obtain ⟨-, hvalue⟩ := signedValue_of_signed hlen (by omega)
    rw [drop_eq_sign_iff hlen] at hdrop
    rw [hvalue, hdrop]
    omega

/-- **The reader is exact on bytes that read both ways.** -/
theorem readsMagnitude_iff (rest : Stack) : ReadsMagnitude bytes rest ↔ ReadsBothWays bytes := by
  have hread := opBin2num_eq bytes rest
  have hword := wrap64_bounds (leNat bytes.reverse)
  rw [← wrap64_eq_signedValue_iff]
  constructor
  · rintro (⟨e, he, -⟩ | ⟨pushed, hpushed, hminimal⟩)
    · exact nomatch hread.symm.trans he
    · obtain ⟨rfl, -⟩ := List.cons.inj (Except.ok.inj (hread.symm.trans hpushed))
      have hvalue := hminimal.value
      rwa [signedValue_serialize (by omega)] at hvalue
  · intro h
    have hsmall := natAbs_signedValue_of_readsBothWays (wrap64_eq_signedValue_iff.1 h)
    refine .inr ⟨_, hread, ?_⟩
    rw [h]
    exact isMinimalEncoding_serialize hsmall

end Reading

/-! ### Both conversions -/

/-- The two conversions on operands `x` and `y` and on bytes. -/
structure ConvertsExactly (x y bytes : Bytes) (rest : Stack) : Prop where
  written : ∀ n size, toInt x = some n → toInt y = some size → SizedExactly x y rest n size
  read : ReadsMagnitude bytes rest

/-- **The two conditions are exact**: a number is written in sizes that are negative or fit its
encoding, a negative number only in sizes that fill a word; and bytes are read that stand for the same
number in both orders. -/
theorem numberBytes_iff (x y bytes : Bytes) (rest : Stack) :
    ConvertsExactly x y bytes rest ↔
      (∀ n size, toInt x = some n → toInt y = some size → SizeFits n size) ∧
        ReadsBothWays bytes := by
  constructor
  · rintro ⟨hwritten, hread⟩
    refine ⟨?_, (readsMagnitude_iff rest).1 hread⟩
    intro n size hx hy
    exact (sizedExactly_iff hx hy).1 (hwritten n size hx hy)
  · rintro ⟨hfits, hboth⟩
    refine ⟨?_, (readsMagnitude_iff rest).2 hboth⟩
    intro n size hx hy
    exact (sizedExactly_iff hx hy).2 (hfits n size hx hy)

/-- The number 256 is cut to one byte without an error, `-1` in two bytes reads back as 65535, and two
bytes for the number one are read as 256. -/
theorem opNum2bin_cuts :
    opNum2bin [[0x01], [0x00, 0x01]] = .ok [[0x00]] ∧
    ¬ ConvertsExactly [0x00, 0x01] [0x01] [] [] ∧
    opNum2bin [[0x02], [0x81]] = .ok [[0xff, 0xff]] ∧
    opBin2num [[0xff, 0xff]] = .ok [[0xff, 0xff, 0x00]] ∧
    ¬ ConvertsExactly [0x81] [0x02] [] [] ∧
    opBin2num [[0x01, 0x00]] = .ok [[0x00, 0x01]] ∧
    ¬ ConvertsExactly [] [] [0x01, 0x00] [] := by
  have hminus : opBin2num [[0xff, 0xff]] = .ok [[0xff, 0xff, 0x00]] := by decide +kernel
  have hone : opBin2num [[0x01, 0x00]] = .ok [[0x00, 0x01]] := by decide +kernel
  have hwrite : opNum2bin [[0x02], [0x81]] = .ok [[0xff, 0xff]] := by decide +kernel
  refine ⟨by decide, ?_, hwrite, hminus, ?_, hone, ?_⟩
  · rintro ⟨hwritten, -⟩
    obtain ⟨e, he⟩ := (hwritten 256 1 (by decide) (by decide)).fails.2
      ⟨[0x00, 0x01], isMinimalEncoding_serialize (n := 256) (by decide), by decide⟩
    exact nomatch he
  · rintro ⟨hwritten, -⟩
    obtain ⟨back, hback, hminimal⟩ :=
      (hwritten (-1) 2 (by decide) (by decide)).inverse [0xff, 0xff] hwrite
    obtain ⟨rfl, -⟩ := List.cons.inj (Except.ok.inj (hminus.symm.trans hback))
    exact absurd hminimal.value (by decide)
  · rintro ⟨-, ⟨e, he, -⟩ | ⟨pushed, hpushed, hminimal⟩⟩
    · exact nomatch he
    · obtain ⟨rfl, -⟩ := List.cons.inj (Except.ok.inj (hone.symm.trans hpushed))
      exact absurd hminimal.value (by decide)

end AtomicProof
