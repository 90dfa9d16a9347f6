/-
The codecs of script numbers.

Four pieces of code turn 64-bit numbers into bytes and back: `CScriptNum` of the compiler, the stack
elements of the machine, `runtime_codec` of the interpreter, and the pair `numberToScriptHex` and
`scriptHexToNumber` that works on the text of whole pushes.  They agree on every number but the
smallest, whose encoding takes nine bytes where the machine and the interpreter read eight.

Main definitions:

* `CScriptNum.serialize`, `CScriptNum.deserialize` — the compiler's codec;
* `scriptHexToNumber`, `isStrictScriptNumberHex` — the readers of the text of a push;
* `CodecsAgreeOn` — what is asked of the codecs at a number.

Main results:

* `CScriptNum.deserialize_eq_toInt` — the decoders agree on at most eight bytes;
* `serializeScriptNum_minimal` — the encoding of a number is the shortest;
* `codecsAgreeOn_iff` — **the codecs agree on every number but the smallest**.
-/

import AtomicProof.Generator
import AtomicProof.RuntimeCodec

set_option autoImplicit false

namespace AtomicProof

open ScriptCodec (stripHexPrefix encodePush)

/-! ### The compiler's codec -/

namespace CScriptNum

/-- `absvalue` of `CScriptNum::Serialize`. -/
def absvalue (value : ℤ) : ℕ := if value < 0 then (-(value + 1)).toNat + 1 else value.toNat

def serialize (value : ℤ) : Bytes :=
  if value = 0 then [] else serializeMagnitude (value < 0) (absvalue value)

/-- `deserializeScriptNumber`: the sign bit is cleared, the ninth byte has to be empty. -/
def deserializeScriptNumber (bytes : Bytes) : Option ℤ :=
  if bytes = [] then some 0
  else if 9 < bytes.length then none
  else
    let last := bytes.getLastD 0
    let digits := bytes.dropLast ++ [last &&& 0x7f]
    if (digits.drop 8).any (· ≠ 0) then none
    else
      let magnitude := leNat (digits.take 8)
      if 128 ≤ last.toNat then
        if 2 ^ 63 < magnitude then none
        else if magnitude = 2 ^ 63 then some (-2 ^ 63)
        else some (-magnitude)
      else if 2 ^ 63 - 1 < magnitude then none
      else some magnitude

/-- The constructor `CScriptNum(vch, false, maxSize)`; `none` where it throws. -/
def deserialize (vch : Bytes) (maxSize : ℕ) : Option ℤ :=
  if maxSize < vch.length then none else deserializeScriptNumber vch

theorem serialize_eq (value : ℤ) : serialize value = serializeScriptNum value := by
  have habs : absvalue value = value.natAbs := by
    unfold absvalue
    split_ifs <;> omega
  rw [serialize, serializeScriptNum_eq, habs]

theorem and_127_toNat (b : UInt8) : (b &&& 0x7f).toNat = b.toNat % 128 := by
  rw [UInt8.toNat_and]
  exact Nat.and_two_pow_sub_one_eq_mod b.toNat 7

/-- The value of a byte string whose last bit is cleared. -/
theorem leNat_clearSign {bytes : Bytes} (hne : bytes ≠ []) :
    leNat (bytes.dropLast ++ [bytes.getLastD 0 &&& 0x7f]) =
      if 128 ≤ (bytes.getLastD 0).toNat then leNat bytes - 128 * 256 ^ (bytes.length - 1)
      else leNat bytes := by
  have hsplit := leNat_eq_dropLast_add hne
  have hlast : (bytes.getLastD 0).toNat < 256 := (bytes.getLastD 0).toNat_lt
  rw [leNat_append, leNat_cons, leNat_nil, and_127_toNat, List.length_dropLast]
  by_cases hsign : 128 ≤ (bytes.getLastD 0).toNat
  · have hmod : (bytes.getLastD 0).toNat % 128 = (bytes.getLastD 0).toNat - 128 := by omega
    rw [if_pos hsign, hsplit, hmod, Nat.mul_zero, Nat.add_zero, Nat.mul_comm 128,
      Nat.add_sub_assoc (Nat.mul_le_mul_left _ hsign), Nat.mul_sub]
  · rw [if_neg hsign, hsplit, Nat.mod_eq_of_lt (by omega)]
    simp

/-- **The decoders agree on at most eight bytes.** -/
theorem deserialize_eq_toInt {bytes : Bytes} (h : bytes.length ≤ 8) :
    deserializeScriptNumber bytes = toInt bytes := by
  unfold deserializeScriptNumber toInt
  by_cases hnil : bytes = []
  · rw [if_pos hnil, if_pos hnil]
  have hpos : 0 < bytes.length := List.length_pos_iff.2 hnil
  have hdigits : (bytes.dropLast ++ [bytes.getLastD 0 &&& 0x7f]).length ≤ 8 := by
    simp
    omega
  have hvalue := leNat_clearSign hnil
  rw [if_neg hnil, if_neg hnil, if_neg (show ¬ 9 < bytes.length by omega),
    if_neg (show ¬ 8 < bytes.length by omega)]
  simp only [List.drop_eq_nil_of_le hdigits, List.take_of_length_le hdigits, hvalue,
    List.any_nil, Bool.false_eq_true, if_false]
  by_cases hsign : 128 ≤ (bytes.getLastD 0).toNat
  · simp only [if_pos hsign]
  · simp only [if_neg hsign]

end CScriptNum

/-! ### The text of a push -/

/-- The number that `scriptHexToNumber` reads from the opcodes that stand for one. -/
def numberOfOpcode : Bytes → Option ℤ
  | [opcode] =>
      if opcode = 0x00 then some 0
      else if opcode = 0x4f then some (-1)
      else if 0x51 ≤ opcode ∧ opcode ≤ 0x60 then some ((opcode - 0x50).toNat : ℤ)
      else none
  | _ => none

/-- Where `scriptHexToNumber` finds the data: its start and its length.  `none` is the early return
on data that is cut short; bytes that begin no push are all data. -/
def scriptNumberRange (bytes : Bytes) : Option (ℕ × ℕ) :=
  let first := bytes.headD 0
  let within (dataStart dataLen : ℕ) : Option (ℕ × ℕ) :=
    if bytes.length < dataStart + dataLen then none else some (dataStart, dataLen)
  if 1 ≤ first ∧ first ≤ 75 then within 1 first.toNat
  else if first = 0x4c then
    if bytes.length < 2 then none else within 2 (leNat ((bytes.drop 1).take 1))
  else if first = 0x4d then
    if bytes.length < 3 then none else within 3 (leNat ((bytes.drop 1).take 2))
  else if first = 0x4e then
    if bytes.length < 5 then none else within 5 (leNat ((bytes.drop 1).take 4))
  else some (0, bytes.length)

/-- `scriptHexToNumber` after the digits are read. -/
def scriptBytesToNumber (bytes : Bytes) : ℤ :=
  if bytes = [] then 0
  else
    match numberOfOpcode bytes with
    | some number => number
    | none =>
        match scriptNumberRange bytes with
        | none => 0
        | some (dataStart, dataLen) =>
            if dataLen = 0 then 0
            else (CScriptNum.deserialize ((bytes.drop dataStart).take dataLen) 9).getD 0

/-- `scriptHexToNumber`: an odd last digit is left out. -/
def scriptHexToNumber (hex : String) : ℤ :=
  let cleanHex := (hexData hex).toList
  scriptBytesToNumber ((hexPairs (cleanHex.take (cleanHex.length / 2 * 2))).getD [])

/-- The payload of the smallest number: `2 ^ 63` and a byte for the sign. -/
def minimumEncoding : Bytes := [0x00, 0x00, 0x00, 0x00, 0x00, 0x00, 0x00, 0x80, 0x80]

/-- The sizes of the header and of the data, as `isStrictScriptNumberHex` reads them. -/
def strictNumberSizes (bytes : Bytes) : Option (ℕ × ℕ) :=
  let first := bytes.headD 0
  if 1 ≤ first ∧ first ≤ 75 then some (1, first.toNat)
  else if first = 0x4c ∧ 2 ≤ bytes.length then some (2, leNat ((bytes.drop 1).take 1))
  else if first = 0x4d ∧ 3 ≤ bytes.length then some (3, leNat ((bytes.drop 1).take 2))
  else if first = 0x4e ∧ 5 ≤ bytes.length then some (5, leNat ((bytes.drop 1).take 4))
  else none

/-- `isStrictScriptNumberHex` after the digits are read. -/
def isStrictScriptNumber (bytes : Bytes) : Bool :=
  if (numberOfOpcode bytes).isSome then true
  else
    match strictNumberSizes bytes with
    | none => false
    | some (headerSize, dataSize) =>
        if dataSize < 1 ∨ 9 < dataSize ∨ bytes.length ≠ headerSize + dataSize then false
        else if dataSize = 9 then bytes.drop headerSize = minimumEncoding
        else true

def isStrictScriptNumberHex (hex : String) : Bool :=
  if (stripHexPrefix hex.toList).length = hex.toList.length then false
  else
    let cleanHex := (hexData hex).toList
    if cleanHex = [] ∨ cleanHex.length % 2 ≠ 0 then false
    else isStrictScriptNumber ((hexPairs cleanHex).getD [])

theorem scriptHexToNumber_bytesToHex (bytes : Bytes) :
    scriptHexToNumber ("0x" ++ String.ofList (bytesToHex bytes)) = scriptBytesToNumber bytes := by
  have hlen := bytesToHex_length bytes
  have htake : (bytesToHex bytes).take ((bytesToHex bytes).length / 2 * 2) = bytesToHex bytes := by
    apply List.take_of_length_le
    omega
  simp only [scriptHexToNumber, hexData_bytesToHex, String.toList_ofList, htake,
    hexPairs_bytesToHex, Option.getD_some]

variable {bytes : Bytes} {value : ℤ}

/-- The text of bytes, checked as a number. -/
theorem isStrictScriptNumberHex_bytesToHex (hne : bytes ≠ []) :
    isStrictScriptNumberHex ("0x" ++ String.ofList (bytesToHex bytes)) =
      isStrictScriptNumber bytes := by
  have hlen := bytesToHex_length bytes
  have hpos : 0 < bytes.length := List.length_pos_iff.2 hne
  have hchars : ("0x" ++ String.ofList (bytesToHex bytes)).toList =
      '0' :: 'x' :: bytesToHex bytes := by simp
  have hstrip : stripHexPrefix ('0' :: 'x' :: bytesToHex bytes) = bytesToHex bytes := rfl
  have hnil : bytesToHex bytes ≠ [] := by
    intro h
    rw [h, List.length_nil] at hlen
    omega
  simp only [isStrictScriptNumberHex, hexData_bytesToHex, String.toList_ofList, hchars, hstrip,
    hexPairs_bytesToHex, Option.getD_some, List.length_cons]
  rw [if_neg (by omega), if_neg (by simp [hnil]; omega)]

/-! ### The size of an encoding -/

theorem length_le_of_toInt (h : toInt bytes = some value) : bytes.length ≤ 8 := by
  by_contra hlen
  rw [toInt, if_neg (by rintro rfl; simp at hlen), if_pos (by omega)] at h
  simp at h

theorem serializeScriptNum_length_le (value : ℤ) : (serializeScriptNum value).length ≤ 9 := by
  by_cases h : value = 0
  · simp [h]
  · have := magnitudeBytes_length_le 8 value.natAbs
    rw [serializeScriptNum_length_eq h]
    split_ifs <;> omega

/-- The highest digit of a number is not zero. -/
theorem pow_le_of_magnitudeBytes {fuel n : ℕ} (h : n < 256 ^ fuel) (hn : n ≠ 0) :
    256 ^ ((magnitudeBytes fuel n).length - 1) ≤ n := by
  induction fuel generalizing n with
  | zero => simp at h; omega
  | succ fuel ih =>
      have hdiv : n / 256 < 256 ^ fuel := by
        rw [Nat.div_lt_iff_lt_mul (by omega), ← pow_succ]
        exact h
      rw [magnitudeBytes, if_neg hn, List.length_cons, Nat.add_sub_cancel]
      by_cases hsmall : n / 256 = 0
      · rw [hsmall, magnitudeBytes_zero, List.length_nil, pow_zero]
        omega
      · have hlow := ih hdiv hsmall
        have hpos : 0 < (magnitudeBytes fuel (n / 256)).length := by
          rw [List.length_pos_iff]
          intro hnil
          have hfuel : fuel ≠ 0 := by
            rintro rfl
            simp at hdiv
            omega
          exact hsmall (magnitudeBytes_eq_nil hnil hfuel)
        obtain ⟨k, hk⟩ := Nat.exists_eq_succ_of_ne_zero hpos.ne'
        rw [hk, Nat.succ_sub_one] at hlow
        rw [hk, pow_succ]
        exact le_trans (Nat.mul_le_mul_right 256 hlow) (Nat.div_mul_le_self n 256)

/-- A number needs as many bytes as its encoding has. -/
theorem le_natAbs_of_serializeScriptNum (hv : value.natAbs ≤ 2 ^ 63) {k : ℕ}
    (hlen : (serializeScriptNum value).length = k + 2) : 128 * 256 ^ k ≤ value.natAbs := by
  have h0 : value ≠ 0 := by
    rintro rfl
    simp at hlen
  have hlt : value.natAbs < 256 ^ 8 := lt_of_le_of_lt hv (by norm_num)
  have hval : leNat (magnitudeBytes 8 value.natAbs) = value.natAbs := magnitudeBytes_leNat 8 _ hlt
  have hne : magnitudeBytes 8 value.natAbs ≠ [] := by
    intro hnil
    have := magnitudeBytes_eq_nil hnil (by omega)
    omega
  rw [serializeScriptNum_length_eq h0] at hlen
  by_cases hsign : 128 ≤ ((magnitudeBytes 8 value.natAbs).getLastD 0).toNat
  · rw [if_pos hsign] at hlen
    have hsplit := leNat_eq_dropLast_add hne
    have hk : (magnitudeBytes 8 value.natAbs).length - 1 = k := by omega
    rw [hval, hk] at hsplit
    have := Nat.mul_le_mul_left (256 ^ k) hsign
    omega
  · rw [if_neg hsign] at hlen
    have hlow := pow_le_of_magnitudeBytes hlt (by omega : value.natAbs ≠ 0)
    have hk : (magnitudeBytes 8 value.natAbs).length - 1 = k + 1 := by omega
    rw [hk, pow_succ] at hlow
    omega

/-- Bytes that denote a number are enough for it. -/
theorem natAbs_lt_of_deserialize (hne : bytes ≠ [])
    (h : CScriptNum.deserializeScriptNumber bytes = some value) :
    value.natAbs < 128 * 256 ^ (bytes.length - 1) := by
  have hlast : (bytes.getLastD 0 &&& 0x7f).toNat < 128 := by
    rw [CScriptNum.and_127_toNat]
    exact Nat.mod_lt _ (by omega)
  have hdigits : leNat ((bytes.dropLast ++ [bytes.getLastD 0 &&& 0x7f]).take 8) ≤
      leNat (bytes.dropLast ++ [bytes.getLastD 0 &&& 0x7f]) := by
    conv_rhs => rw [← List.take_append_drop 8 (bytes.dropLast ++ [bytes.getLastD 0 &&& 0x7f])]
    rw [leNat_append]
    exact Nat.le_add_right _ _
  have hbound : leNat (bytes.dropLast ++ [bytes.getLastD 0 &&& 0x7f]) <
      128 * 256 ^ (bytes.length - 1) := by
    have hlow := leNat_lt bytes.dropLast
    rw [List.length_dropLast] at hlow
    rw [leNat_append, leNat_cons, leNat_nil, List.length_dropLast, Nat.mul_zero, Nat.add_zero]
    have := Nat.mul_le_mul_left (256 ^ (bytes.length - 1)) (Nat.le_sub_one_of_lt hlast)
    omega
  unfold CScriptNum.deserializeScriptNumber at h
  rw [if_neg hne] at h
  simp only at h
  generalize leNat ((bytes.dropLast ++ [bytes.getLastD 0 &&& 0x7f]).take 8) = magnitude at h hdigits
  split_ifs at h <;> obtain rfl := Option.some.inj h <;> omega

/-- **The encoding of a number is the shortest byte string that denotes it.** -/
theorem serializeScriptNum_minimal (hv : value.natAbs ≤ 2 ^ 63)
    (h : CScriptNum.deserializeScriptNumber bytes = some value) :
    (serializeScriptNum value).length ≤ bytes.length := by
  by_cases hnil : bytes = []
  · subst hnil
    obtain rfl : 0 = value := by simpa [CScriptNum.deserializeScriptNumber] using h
    simp
  have hpos := List.length_pos_iff.2 hnil
  by_contra hlong
  obtain ⟨k, hk⟩ : ∃ k, (serializeScriptNum value).length = k + 2 :=
    ⟨(serializeScriptNum value).length - 2, by omega⟩
  have hlow := le_natAbs_of_serializeScriptNum hv hk
  have hhigh := natAbs_lt_of_deserialize hnil h
  have hpow : 256 ^ k < 256 ^ (bytes.length - 1) := by omega
  have := (Nat.pow_lt_pow_iff_right (by omega)).1 hpow
  omega

/-! ### Reading back what was written -/

/-- The bytes of the push that `numberToScriptHex` writes. -/
def numberPush (value : ℤ) : Bytes :=
  match numberOpcode value with
  | some opcode => [opcode]
  | none => UInt8.ofNat (serializeScriptNum value).length :: serializeScriptNum value

theorem numberToScriptHex_eq (value : ℤ) :
    numberToScriptHex value = "0x" ++ String.ofList (bytesToHex (numberPush value)) := by
  unfold numberToScriptHex numberPush
  cases hop : numberOpcode value with
  | some opcode => simp [bytesToHex]
  | none =>
      have hlen := serializeScriptNum_length_le value
      have hencode : encodePush (serializeScriptNum value) .legacy =
          some (UInt8.ofNat (serializeScriptNum value).length :: serializeScriptNum value) := by
        have hprefix : ScriptCodec.legacyPushPrefix (serializeScriptNum value).length =
            some [UInt8.ofNat (serializeScriptNum value).length] := if_pos (by omega)
        simp only [encodePush, if_neg (show ¬ 4294967295 < (serializeScriptNum value).length by
          omega), hprefix]
        rfl
      simp only [encodePushData, hencode]

/-- The opcode of a number that has one stands for it. -/
theorem numberOfOpcode_numberOpcode {opcode : UInt8}
    (h : numberOpcode value = some opcode) : numberOfOpcode [opcode] = some value := by
  unfold numberOpcode at h
  split_ifs at h with hzero hneg hsmall
  · obtain rfl := Option.some.inj h
    rw [hzero]
    rfl
  · obtain rfl := Option.some.inj h
    rw [hneg]
    rfl
  · obtain rfl := Option.some.inj h
    have hall : ∀ n : Fin 17, 1 ≤ n.val →
        numberOfOpcode [0x50 + UInt8.ofNat n] = some (n.val : ℤ) := by decide
    have hone := hall ⟨value.toNat, by omega⟩ (by simp; omega)
    rw [hone]
    simp
    omega

theorem directPush_length {data : Bytes} (hne : data ≠ []) (hlen : data.length ≤ 9) :
    (UInt8.ofNat data.length).toNat = data.length ∧
      1 ≤ UInt8.ofNat data.length ∧ UInt8.ofNat data.length ≤ 75 := by
  have hnat : (UInt8.ofNat data.length).toNat = data.length := by
    rw [UInt8.toNat_ofNat']
    omega
  rw [UInt8.le_iff_toNat_le, UInt8.le_iff_toNat_le, hnat]
  exact ⟨rfl, List.length_pos_iff.2 hne, le_trans hlen (by decide)⟩

/-- The payload of a direct push of a number is read back. -/
theorem scriptBytesToNumber_push {data : Bytes} (hne : data ≠ []) (hlen : data.length ≤ 9) :
    scriptBytesToNumber (UInt8.ofNat data.length :: data) =
      (CScriptNum.deserializeScriptNumber data).getD 0 := by
  have hpos := List.length_pos_iff.2 hne
  obtain ⟨hnat, hfirst⟩ := directPush_length hne hlen
  have hop : numberOfOpcode (UInt8.ofNat data.length :: data) = none := by
    cases data with
    | nil => exact absurd rfl hne
    | cons b bs => rfl
  have hrange : scriptNumberRange (UInt8.ofNat data.length :: data) = some (1, data.length) := by
    simp only [scriptNumberRange, List.headD_cons, if_pos hfirst, hnat, List.length_cons]
    rw [if_neg (by omega)]
  simp only [scriptBytesToNumber, hop, hrange]
  rw [if_neg (by simp), if_neg (by omega), List.drop_succ_cons, List.drop_zero,
    List.take_length, CScriptNum.deserialize, if_neg (by omega)]

/-- A direct push of one to eight bytes, or of the smallest number, is strict. -/
theorem isStrictScriptNumber_push {data : Bytes} (hne : data ≠ []) (hlen : data.length ≤ 9)
    (hmin : data.length = 9 → data = minimumEncoding) :
    isStrictScriptNumber (UInt8.ofNat data.length :: data) = true := by
  have hpos := List.length_pos_iff.2 hne
  obtain ⟨hnat, hfirst⟩ := directPush_length hne hlen
  have hsizes : strictNumberSizes (UInt8.ofNat data.length :: data) = some (1, data.length) := by
    simp only [strictNumberSizes, List.headD_cons, if_pos hfirst, hnat]
  unfold isStrictScriptNumber
  by_cases hop : (numberOfOpcode (UInt8.ofNat data.length :: data)).isSome
  · rw [if_pos hop]
  rw [if_neg hop]
  simp only [hsizes, List.length_cons]
  rw [if_neg (by omega)]
  by_cases h9 : data.length = 9
  · rw [if_pos h9, List.drop_succ_cons, List.drop_zero, hmin h9]
    rfl
  · rw [if_neg h9]

theorem serializeScriptNum_of_length_nine (hlo : -2 ^ 63 ≤ value)
    (hhi : value < 2 ^ 63) (hlen : (serializeScriptNum value).length = 9) : value = -2 ^ 63 := by
  by_contra hne
  have hdec : toInt (serializeScriptNum value) = some value :=
    toInt_serializeScriptNum (by omega)
  have := length_le_of_toInt hdec
  omega

theorem CScriptNum.deserialize_serialize (hlo : -2 ^ 63 ≤ value) (hhi : value < 2 ^ 63) :
    CScriptNum.deserializeScriptNumber (serializeScriptNum value) = some value := by
  by_cases hmin : value = -2 ^ 63
  · subst hmin
    decide
  · have hdec : toInt (serializeScriptNum value) = some value :=
      toInt_serializeScriptNum (by omega)
    rw [CScriptNum.deserialize_eq_toInt (length_le_of_toInt hdec), hdec]

/-! ### Agreement -/

/-- What is asked of the codecs at a number: the text of its push is strict and read back, the
three encoders write the same bytes, no shorter bytes denote it, and the three decoders read these
bytes back. -/
structure CodecsAgreeOn (value : ℤ) : Prop where
  scriptHex : scriptHexToNumber (numberToScriptHex value) = value
  strict : isStrictScriptNumberHex (numberToScriptHex value) = true
  compiler : CScriptNum.serialize value = serializeScriptNum value
  interpreter : RuntimeCodec.serializeScriptNum value = serializeScriptNum value
  minimal : ∀ bytes, CScriptNum.deserializeScriptNumber bytes = some value →
    (serializeScriptNum value).length ≤ bytes.length
  compilerDecodes : CScriptNum.deserializeScriptNumber (serializeScriptNum value) = some value
  machineDecodes : toInt (serializeScriptNum value) = some value
  interpreterDecodes : RuntimeCodec.deserializeScriptNum (serializeScriptNum value) = .ok value

/-- The text of a number is read back. -/
theorem scriptHexToNumber_numberToScriptHex (hlo : -2 ^ 63 ≤ value)
    (hhi : value < 2 ^ 63) : scriptHexToNumber (numberToScriptHex value) = value := by
  rw [numberToScriptHex_eq, scriptHexToNumber_bytesToHex]
  unfold numberPush
  cases hop : numberOpcode value with
  | some opcode => simp [scriptBytesToNumber, numberOfOpcode_numberOpcode hop]
  | none =>
      have h0 : value ≠ 0 := by
        rintro rfl
        simp [numberOpcode] at hop
      simp only [scriptBytesToNumber_push (serializeScriptNum_length h0).1
        (serializeScriptNum_length_le value), CScriptNum.deserialize_serialize hlo hhi,
        Option.getD_some]

/-- The text of a number is a strict one. -/
theorem isStrictScriptNumberHex_numberToScriptHex (hlo : -2 ^ 63 ≤ value)
    (hhi : value < 2 ^ 63) : isStrictScriptNumberHex (numberToScriptHex value) = true := by
  have hne : numberPush value ≠ [] := by
    unfold numberPush
    cases numberOpcode value <;> simp
  rw [numberToScriptHex_eq, isStrictScriptNumberHex_bytesToHex hne]
  unfold numberPush
  cases hop : numberOpcode value with
  | some opcode => simp [isStrictScriptNumber, numberOfOpcode_numberOpcode hop]
  | none =>
      have h0 : value ≠ 0 := by
        rintro rfl
        simp [numberOpcode] at hop
      refine isStrictScriptNumber_push (serializeScriptNum_length h0).1
        (serializeScriptNum_length_le value) ?_
      intro hlen
      rw [serializeScriptNum_of_length_nine hlo hhi hlen]
      decide

/-- Eight bytes cannot carry the smallest number. -/
theorem codecsAgreeOn_min : ¬ CodecsAgreeOn (-2 ^ 63) := by
  intro h
  exact absurd h.machineDecodes (by decide)

/-- **The codecs agree on every 64-bit number but the smallest**, and decoders that accept the same
bytes read the same number from them. -/
theorem codecsAgreeOn_iff (value : ℤ) (hlo : -2 ^ 63 ≤ value) (hhi : value < 2 ^ 63) :
    (CodecsAgreeOn value ↔ value ≠ -2 ^ 63) ∧
    ∀ (bytes : Bytes) (first second : ℤ),
      (CScriptNum.deserializeScriptNumber bytes = some first → toInt bytes = some second →
        first = second) ∧
      (CScriptNum.deserializeScriptNumber bytes = some first →
        RuntimeCodec.deserializeScriptNum bytes = .ok second → first = second) ∧
      (toInt bytes = some first → RuntimeCodec.deserializeScriptNum bytes = .ok second →
        first = second) := by
  constructor
  · constructor
    · rintro h rfl
      exact codecsAgreeOn_min h
    · intro hne
      have hdec : toInt (serializeScriptNum value) = some value :=
        toInt_serializeScriptNum (by omega)
      have hruntime := RuntimeCodec.deserializeScriptNum_toOption (serializeScriptNum value)
      rw [hdec] at hruntime
      refine ⟨scriptHexToNumber_numberToScriptHex hlo hhi,
        isStrictScriptNumberHex_numberToScriptHex hlo hhi, CScriptNum.serialize_eq value,
        RuntimeCodec.serializeScriptNum_eq value,
        fun bytes h => serializeScriptNum_minimal (by omega) h,
        CScriptNum.deserialize_serialize hlo hhi, hdec, ?_⟩
      cases hok : RuntimeCodec.deserializeScriptNum (serializeScriptNum value) with
      | error error => simp [hok, Except.toOption] at hruntime
      | ok value' => simpa [hok, Except.toOption] using hruntime
  · intro bytes value value'
    have hruntime := RuntimeCodec.deserializeScriptNum_toOption bytes
    have hmachine : ∀ value', RuntimeCodec.deserializeScriptNum bytes = .ok value' →
        toInt bytes = some value' := by
      intro value' h
      rw [← hruntime, h]
      rfl
    have hboth : CScriptNum.deserializeScriptNumber bytes = some value →
        toInt bytes = some value' → value = value' := by
      intro h h'
      rw [CScriptNum.deserialize_eq_toInt (length_le_of_toInt h'), h'] at h
      exact (Option.some.inj h).symm
    refine ⟨hboth, fun h h' => hboth h (hmachine _ h'), ?_⟩
    intro h h'
    rw [hmachine _ h'] at h
    exact (Option.some.inj h).symm

/-- At the number `-1`. -/
theorem codecsAgreeOn_iff_neg_one : CodecsAgreeOn (-1) ↔ (-1 : ℤ) ≠ -2 ^ 63 :=
  (codecsAgreeOn_iff (-1) (by decide) (by decide)).1

end AtomicProof
