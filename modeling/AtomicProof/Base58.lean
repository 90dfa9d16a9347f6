/-
Base58.

`base58Decode` of `src/src/bytecode/bytecode_helper_fun.h` reads the text of an address.  It counts the
ones in front of the text, multiplies a little-endian number digit by digit, and puts as many zero
bytes in front of the number as there were ones.  The standard text of a byte string has one `1` for
every zero byte in front and then the digits of the number in base 58; both write a count of zeros and
a number, so the decoder inverts it.

Main definitions:

* `base58Encode` — the standard Base58 text of a byte string;
* `digitChar` — the letter of a digit.

Main results:

* `timesBase_eq_mulAdd` — the inner loops of the decoder multiply with a carry;
* `base58Decode_digits` — **the decoder converts the digits from base 58 to base 256**;
* `base58Decode_inverts_encode` — the decoder inverts the encoder, in both directions.
-/

import AtomicProof.Operands
import AtomicProof.Positional
import Mathlib.Data.List.GetD
import Mathlib.Data.List.TakeWhile

set_option autoImplicit false

namespace AtomicProof

open Positional

/-! ### The encoding -/

def digitChar (digit : ℕ) : Char := base58Chars.getD digit '1'

/-- The standard Base58 text of a byte string. -/
def base58Encode (bytes : Bytes) : List Char :=
  let zeroCount := (bytes.takeWhile (· = 0x00)).length
  let number := (bytes.map UInt8.toNat).foldl (fun n byte => 256 * n + byte) 0
  List.replicate zeroCount '1' ++ (Nat.digits 58 number).reverse.map digitChar

theorem base58Encode_eq (bytes : Bytes) :
    base58Encode bytes = (convert 256 58 (bytes.map UInt8.toNat)).map digitChar := by
  have hzeros : (bytes.takeWhile (· = 0x00)).length = zeros (bytes.map UInt8.toNat) := by
    rw [zeros, List.takeWhile_map, List.length_map]
    congr 2
    funext byte
    simp only [Function.comp_apply, decide_eq_decide]
    exact ⟨fun h => by rw [h]; rfl, fun h => UInt8.toNat_inj.1 h⟩
  rw [convert, write, List.map_append, List.map_replicate, ← hzeros]
  rfl

/-! ### The letters -/

theorem length_base58Chars : base58Chars.length = 58 := by
  decide +kernel

theorem nodup_base58Chars : base58Chars.Nodup := by
  decide +kernel

theorem idxOf?_digitChar {d : ℕ} (hd : d < 58) : base58Chars.idxOf? (digitChar d) = some d := by
  have hlt : d < base58Chars.length := by rwa [length_base58Chars]
  rw [digitChar, List.getD_eq_getElem _ _ hlt, List.idxOf?_eq_some_iff]
  refine ⟨hlt, rfl, fun j hj heq => ?_⟩
  exact hj.ne ((List.Nodup.getElem_inj_iff nodup_base58Chars).1 heq)

theorem digitChar_of_idxOf? {letter : Char} {d : ℕ} (h : base58Chars.idxOf? letter = some d) :
    d < 58 ∧ digitChar d = letter := by
  obtain ⟨hlt, heq, -⟩ := List.idxOf?_eq_some_iff.1 h
  refine ⟨by rwa [length_base58Chars] at hlt, ?_⟩
  rw [digitChar, List.getD_eq_getElem _ _ hlt, heq]

theorem digitChar_eq_one {d : ℕ} (hd : d < 58) : digitChar d = '1' ↔ d = 0 := by
  have hzero : digitChar 0 = '1' := by decide +kernel
  refine ⟨fun h => ?_, fun h => by rw [h, hzero]⟩
  have hfound := idxOf?_digitChar hd
  rw [h, ← hzero, idxOf?_digitChar (by omega)] at hfound
  exact (Option.some.inj hfound).symm

variable {text : List Char} {ds : List ℕ}

theorem exists_digits (h : ∀ letter ∈ text, letter ∈ base58Chars) :
    ∃ ds : List ℕ, (∀ d ∈ ds, d < 58) ∧ text = ds.map digitChar := by
  induction text with
  | nil => exact ⟨[], by simp, rfl⟩
  | cons letter text ih =>
      obtain ⟨ds, hds, rfl⟩ := ih fun c hc => h c (List.mem_cons_of_mem _ hc)
      obtain ⟨d, hd⟩ := Option.isSome_iff_exists.1 (List.isSome_idxOf?.2 (h letter List.mem_cons_self))
      obtain ⟨hlt, rfl⟩ := digitChar_of_idxOf? hd
      exact ⟨d :: ds, List.forall_mem_cons.2 ⟨hlt, hds⟩, rfl⟩

/-! ### The loops of the decoder -/

/-- The bytes of a carry that is left are its digits. -/
theorem carryBytes_digits {fuel carry : ℕ} (h : carry < 256 ^ fuel) :
    (carryBytes fuel carry).map UInt8.toNat = Nat.digits 256 carry := by
  induction fuel generalizing carry with
  | zero =>
      obtain rfl : carry = 0 := by simpa using h
      rw [carryBytes, Nat.digits_zero]
      rfl
  | succ fuel ih =>
      rw [carryBytes]
      split_ifs with hzero
      · rw [hzero, Nat.digits_zero]
        rfl
      · have hrest : carry / 256 < 256 ^ fuel := by
          rw [Nat.pow_succ] at h
          exact Nat.div_lt_of_lt_mul (by rwa [Nat.mul_comm])
        rw [List.map_cons, ih hrest, Nat.digits_def' (by omega) (Nat.pos_of_ne_zero hzero)]
        congr 1
        exact UInt8.toNat_ofNat_of_lt' (Nat.mod_lt _ (by omega))

/-- **The inner loops multiply with a carry**; the carry stays below the factor. -/
theorem timesBase_eq_mulAdd {carry : ℕ} (h : carry < 58) (num : Bytes) :
    (timesBase carry num).map UInt8.toNat = mulAdd 256 58 carry (num.map UInt8.toNat) := by
  induction num generalizing carry with
  | nil =>
      rw [timesBase, List.map_nil, mulAdd]
      exact carryBytes_digits (by omega)
  | cons byte num ih =>
      have hbyte := byte.toNat_lt
      have hcarry : (carry + byte.toNat * 58) / 256 < 58 := by omega
      rw [timesBase, List.map_cons, List.map_cons, mulAdd, ih hcarry]
      congr 1
      exact UInt8.toNat_ofNat_of_lt' (Nat.mod_lt _ (by omega))

theorem foldl_timesBase {ds : List ℕ} (hds : ∀ d ∈ ds, d < 58) {num : Bytes} {n : ℕ}
    (hnum : num.map UInt8.toNat = Nat.digits 256 n) :
    (ds.foldl (fun num digit => timesBase digit num) num).map UInt8.toNat =
      Nat.digits 256 (ds.foldl (fun n d => 58 * n + d) n) := by
  induction ds generalizing num n with
  | nil => exact hnum
  | cons d ds ih =>
      obtain ⟨hd, hrest⟩ := List.forall_mem_cons.1 hds
      rw [List.foldl_cons, List.foldl_cons]
      refine ih hrest ?_
      rw [timesBase_eq_mulAdd hd, hnum, mulAdd_digits (by omega) (by omega)]

theorem mapM_idxOf?_digitChar (hds : ∀ d ∈ ds, d < 58) :
    (ds.map digitChar).mapM (fun c => base58Chars.idxOf? c) = some ds := by
  induction ds with
  | nil => rfl
  | cons d ds ih =>
      obtain ⟨hd, hrest⟩ := List.forall_mem_cons.1 hds
      rw [List.map_cons, List.mapM_cons, idxOf?_digitChar hd, ih hrest]
      rfl

/-- The ones in front of a text are the zeros in front of its digits. -/
theorem takeWhile_digitChar (hds : ∀ d ∈ ds, d < 58) :
    ((ds.map digitChar).takeWhile (· = '1')).length = zeros ds := by
  induction ds with
  | nil => rfl
  | cons d ds ih =>
      obtain ⟨hd, hrest⟩ := List.forall_mem_cons.1 hds
      by_cases hzero : d = 0
      · have hone : digitChar d = '1' := (digitChar_eq_one hd).2 hzero
        rw [List.map_cons, List.takeWhile_cons_of_pos (by simpa using hone), List.length_cons,
          ih hrest, zeros, zeros, List.takeWhile_cons_of_pos (by simpa using hzero),
          List.length_cons]
      · have hone : ¬ digitChar d = '1' := fun h => hzero ((digitChar_eq_one hd).1 h)
        rw [List.map_cons, List.takeWhile_cons_of_neg (by simpa using hone), zeros,
          List.takeWhile_cons_of_neg (by simpa using hzero)]
        rfl

/-- **The decoder converts the digits from base 58 to base 256.** -/
theorem base58Decode_digits (hds : ∀ d ∈ ds, d < 58) :
    (base58Decode (ds.map digitChar)).map UInt8.toNat = convert 58 256 ds := by
  have hdrop : ∀ d ∈ ds.drop (zeros ds), d < 58 := fun d hd => hds d (List.mem_of_mem_drop hd)
  have hloop := @foldl_timesBase _ hdrop [] 0 (by simp)
  unfold base58Decode
  dsimp only
  rw [takeWhile_digitChar hds, ← List.map_drop, mapM_idxOf?_digitChar hdrop]
  dsimp only
  rw [List.map_append, List.map_replicate, List.map_reverse, hloop, convert, write,
    ← value_drop_zeros]
  rfl

theorem base58Decode_encode (bytes : Bytes) : base58Decode (base58Encode bytes) = bytes := by
  have hlt : ∀ d ∈ bytes.map UInt8.toNat, d < 256 := by
    intro d hd
    obtain ⟨byte, -, rfl⟩ := List.mem_map.1 hd
    exact byte.toNat_lt
  have hdigits : ∀ d ∈ convert 256 58 (bytes.map UInt8.toNat), d < 58 := convert_lt (by omega)
  have hdecode := base58Decode_digits hdigits
  rw [convert_convert (by omega) hlt, ← base58Encode_eq] at hdecode
  exact List.map_injective_iff.2 (fun _ _ h => UInt8.toNat_inj.1 h) hdecode

theorem base58Encode_decode (h : ∀ letter ∈ text, letter ∈ base58Chars) :
    base58Encode (base58Decode text) = text := by
  obtain ⟨ds, hds, rfl⟩ := exists_digits h
  rw [base58Encode_eq, base58Decode_digits hds, convert_convert (by omega) hds]

theorem isSome_of_mapM {α β : Type} {f : α → Option β} {xs : List α} {ys : List β} {x : α}
    (h : xs.mapM f = some ys) (hx : x ∈ xs) : (f x).isSome = true := by
  induction xs generalizing ys with
  | nil => cases hx
  | cons first xs ih =>
      rw [List.mapM_cons] at h
      obtain ⟨y, hy, h⟩ := Option.bind_eq_some_iff.1 h
      obtain ⟨rest, hrest, -⟩ := Option.bind_eq_some_iff.1 h
      rcases List.mem_cons.1 hx with rfl | hx
      · rw [hy]
        rfl
      · exact ih hrest hx

/-- A text with another character decodes to nothing. -/
theorem base58Decode_of_not_mem {letter : Char} (hletter : letter ∈ text)
    (h : letter ∉ base58Chars) : base58Decode text = [] := by
  have hone : ∀ c ∈ text.takeWhile (· = '1'), c = '1' := by
    intro c hc
    simpa using List.mem_takeWhile_imp hc
  -- the ones in front are letters, so the character is behind them
  have hbehind : letter ∈ text.drop (text.takeWhile (· = '1')).length := by
    obtain ⟨rest, hrest⟩ := List.takeWhile_prefix (l := text) (· = '1')
    have hdrop : text.drop (text.takeWhile (· = '1')).length = rest := by
      calc text.drop (text.takeWhile (· = '1')).length
          = (text.takeWhile (· = '1') ++ rest).drop (text.takeWhile (· = '1')).length := by
            rw [hrest]
        _ = rest := List.drop_left
    rw [← hrest, List.mem_append] at hletter
    rw [hdrop]
    refine hletter.resolve_left fun hfront => h ?_
    rw [hone letter hfront]
    decide +kernel
  unfold base58Decode
  dsimp only
  cases hdigits : (text.drop (text.takeWhile (· = '1')).length).mapM
      fun c => base58Chars.idxOf? c with
  | none => rfl
  | some digits =>
      have hsome := isSome_of_mapM hdigits hbehind
      exact absurd (List.isSome_idxOf?.1 hsome) h

/-- **The decoder inverts the encoder**: it reads every byte string back from its text, every text over
the alphabet is the text of one byte string, which is what the decoder returns, and a text with
another character gives nothing. -/
theorem base58Decode_inverts_encode :
    (∀ bytes : Bytes, base58Decode (base58Encode bytes) = bytes) ∧
      (∀ text : List Char, (∀ letter ∈ text, letter ∈ base58Chars) →
        ∀ bytes, base58Encode bytes = text ↔ bytes = base58Decode text) ∧
      ∀ text : List Char, (∃ letter ∈ text, letter ∉ base58Chars) → base58Decode text = [] := by
  refine ⟨base58Decode_encode, fun text htext bytes => ⟨?_, ?_⟩, ?_⟩
  · rintro rfl
    exact (base58Decode_encode bytes).symm
  · rintro rfl
    exact base58Encode_decode htext
  · rintro text ⟨letter, hletter, hother⟩
    exact base58Decode_of_not_mem hletter hother

/-- A zero byte and the number 255, and a text with a letter that the alphabet leaves out. -/
theorem base58Decode_inverts_encode_short :
    base58Encode [0x00, 0xff] = "15Q".toList ∧ base58Decode "15Q".toList = [0x00, 0xff] ∧
      base58Decode "15Q0".toList = [] := by
  have htext : "15Q".toList.all (fun letter => letter ∈ base58Chars) = true := by
    decide +kernel
  have hencode : base58Encode [0x00, 0xff] = "15Q".toList := by
    decide +kernel
  refine ⟨hencode, ?_, ?_⟩
  · refine ((base58Decode_inverts_encode.2.1 _ (fun letter hletter => ?_) _).1 hencode).symm
    simpa using List.all_eq_true.1 htext letter hletter
  · exact base58Decode_inverts_encode.2.2 _ ⟨'0', by decide +kernel, by decide +kernel⟩

end AtomicProof
