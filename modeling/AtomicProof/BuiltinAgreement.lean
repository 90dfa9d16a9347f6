/-
The builtins on the two execution levels.

A builtin that compiles to one opcode is evaluated twice: by `BuiltinRuntime::callFunction` on the
values of the interpreter, and by `BVMSimulator` on their script bytes.  The two agree on an
application when they fail together and otherwise leave the same bytes.  This module determines,
for every such builtin, the operands on which they agree.

Main definitions:

* `PureBuiltin` — the builtins, each with its name and its opcode;
* `Agrees` — both levels give the same result;
* `AgreesWhen` — the operands on which they do.

Main results:

* `operand_cases` — what the two levels read in an operand;
* `opBin2num_eq`, `opNum2bin_eq` — the machine writes numbers in big-endian order;
* `numToBin_eq` — the interpreter writes them in little-endian order;
* `builtin_agrees_iff` — **the condition is exact**.
-/

import AtomicProof.BuiltinRuntime
import AtomicProof.PushCodec
import AtomicProof.ScriptNumCodecs
import Mathlib.Data.List.Induction

set_option autoImplicit false

namespace AtomicProof

open BuiltinRuntime RuntimeValue ScriptCodec

/-! ### Builtins and their opcodes -/

/-- The builtins that compile to one opcode.  The compiler spells the last two comparisons
`LessOrEqual` and `GreaterOrEqual`, the interpreter `LessThanOrEqual` and `GreaterThanOrEqual`. -/
inductive PureBuiltin
  | add | sub | mul | div | mod | inc | dec | neg | abs | zeroNotEqual | numEqual | numNotEqual
  | lessThan | greaterThan | lessOrEqual | greaterOrEqual | lessThanOrEqual | greaterThanOrEqual
  | equal | cat | numToBin | binToNum
  deriving DecidableEq, Repr

def PureBuiltin.name : PureBuiltin → String
  | .add => "Add"
  | .sub => "Sub"
  | .mul => "Mul"
  | .div => "Div"
  | .mod => "Mod"
  | .inc => "Inc"
  | .dec => "Dec"
  | .neg => "Neg"
  | .abs => "Abs"
  | .zeroNotEqual => "ZeroNotEqual"
  | .numEqual => "NumEqual"
  | .numNotEqual => "NumNotEqual"
  | .lessThan => "LessThan"
  | .greaterThan => "GreaterThan"
  | .lessOrEqual => "LessOrEqual"
  | .greaterOrEqual => "GreaterOrEqual"
  | .lessThanOrEqual => "LessThanOrEqual"
  | .greaterThanOrEqual => "GreaterThanOrEqual"
  | .equal => "Equal"
  | .cat => "Cat"
  | .numToBin => "NumToBin"
  | .binToNum => "BinToNum"

/-- The opcode of `opCreators`. -/
def PureBuiltin.opcode : PureBuiltin → BytOpcode
  | .add => .opAdd
  | .sub => .opSub
  | .mul => .opMul
  | .div => .opDiv
  | .mod => .opMod
  | .inc => .op1add
  | .dec => .op1sub
  | .neg => .opNegate
  | .abs => .opAbs
  | .zeroNotEqual => .op0notequal
  | .numEqual => .opNumequal
  | .numNotEqual => .opNumnotequal
  | .lessThan => .opLessthan
  | .greaterThan => .opGreaterthan
  | .lessOrEqual => .opLessthanorequal
  | .greaterOrEqual => .opGreaterthanorequal
  | .lessThanOrEqual => .opLessthanorequal
  | .greaterThanOrEqual => .opGreaterthanorequal
  | .equal => .opEqual
  | .cat => .opCat
  | .numToBin => .opNum2bin
  | .binToNum => .opBin2num

def PureBuiltin.isUnary : PureBuiltin → Bool
  | .inc | .dec | .neg | .abs | .zeroNotEqual | .binToNum => true
  | _ => false

def PureBuiltin.arity (b : PureBuiltin) : ℕ := if b.isUnary then 1 else 2

/-! ### Operands -/

/-- A byte string or a number of `int64_t`. -/
inductive IsOperand : RuntimeValue → Prop
  | int {value : ℤ} {declaredType : String} (lo : -2 ^ 63 ≤ value) (hi : value < 2 ^ 63) :
      IsOperand (.int value declaredType)
  | bytes (data : Bytes) (declaredType : String) : IsOperand (.bytes data declaredType)

def scriptBytes (v : RuntimeValue) : Bytes := v.toScriptBytes.toOption.getD []

/-- The smallest number, whose encoding the machine does not read. -/
def IsInt64Min (v : RuntimeValue) : Prop := ∃ t, v = .int (-2 ^ 63) t

/-- A byte string that is too long for a number. -/
def IsLongBytes (v : RuntimeValue) : Prop := ∃ data t, v = .bytes data t ∧ 8 < data.length

@[simp] theorem scriptBytes_int (n : ℤ) (t : String) :
    scriptBytes (.int n t) = serializeScriptNum n := by
  rw [scriptBytes, toScriptBytes, RuntimeCodec.serializeScriptNum_eq]
  rfl

@[simp] theorem scriptBytes_bytes (data : Bytes) (t : String) :
    scriptBytes (.bytes data t) = data := by
  rw [scriptBytes, toScriptBytes]
  rfl

variable {bytes : Bytes} {n : ℤ} {b : PureBuiltin}

theorem toInt_eq_none_of_length (h : 8 < bytes.length) : toInt bytes = none := by
  rw [toInt, if_neg (by rintro rfl; simp at h), if_pos h]

/-- A byte string of at most eight bytes denotes a number of magnitude below `2 ^ 63`. -/
theorem toInt_of_length (h : bytes.length ≤ 8) : ∃ n, toInt bytes = some n ∧ n.natAbs < 2 ^ 63 ∧
      (if 128 ≤ (bytes.getLastD 0).toNat then
        n = -((leNat bytes - 128 * 256 ^ (bytes.length - 1) : ℕ) : ℤ)
      else n = leNat bytes) := by
  by_cases hnil : bytes = []
  · subst hnil
    exact ⟨0, rfl, by norm_num, by simp⟩
  have hpos : 0 < bytes.length := List.length_pos_iff.2 hnil
  have hsplit := leNat_eq_dropLast_add hnil
  have hlow := leNat_lt bytes.dropLast
  rw [List.length_dropLast] at hlow
  have hlast : (bytes.getLastD 0).toNat < 256 := (bytes.getLastD 0).toNat_lt
  have hpow : 256 ^ (bytes.length - 1) ≤ 2 ^ 56 := by
    calc 256 ^ (bytes.length - 1) ≤ 256 ^ 7 := Nat.pow_le_pow_right (by omega) (by omega)
      _ = 2 ^ 56 := by norm_num
  unfold toInt
  rw [if_neg hnil, if_neg (by omega)]
  generalize 256 ^ (bytes.length - 1) = place at *
  by_cases hsign : 128 ≤ (bytes.getLastD 0).toNat
  · have hbound : leNat bytes - 128 * place < 2 ^ 63 := by
      have hmul : place * (bytes.getLastD 0).toNat ≤ place * 255 :=
        Nat.mul_le_mul_left _ (by omega)
      omega
    refine ⟨-((leNat bytes - 128 * place : ℕ) : ℤ), ?_, by omega, by rw [if_pos hsign]⟩
    simp only [if_pos hsign]
    rw [if_neg (by omega), if_neg (by omega)]
  · have hbound : leNat bytes < 2 ^ 63 := by
      have hmul : place * (bytes.getLastD 0).toNat ≤ place * 127 :=
        Nat.mul_le_mul_left _ (by omega)
      omega
    refine ⟨leNat bytes, ?_, by omega, by rw [if_neg hsign]⟩
    simp only [if_neg hsign]
    rw [if_neg (by omega)]

/-- **What the two levels read in an operand.**  They read the same number, except that only the
interpreter reads the smallest one. -/
theorem operand_cases {v : RuntimeValue} (h : IsOperand v) :
    (∃ n : ℤ, v.toScriptNum.toOption = some n ∧ toInt (scriptBytes v) = some n ∧
      n.natAbs < 2 ^ 63 ∧ ¬ IsInt64Min v ∧ ¬ IsLongBytes v) ∨
    (v.toScriptNum.toOption = some (-2 ^ 63) ∧ toInt (scriptBytes v) = none ∧ IsInt64Min v ∧
      ¬ IsLongBytes v) ∨
    (v.toScriptNum.toOption = none ∧ toInt (scriptBytes v) = none ∧ ¬ IsInt64Min v ∧
      IsLongBytes v) := by
  cases h with
  | @int n t lo hi =>
      have hlong : ¬ IsLongBytes (.int n t) := by rintro ⟨_, _, h, _⟩; cases h
      by_cases hmin : n = -2 ^ 63
      · subst hmin
        exact .inr (.inl ⟨rfl, by rw [scriptBytes_int]; decide, ⟨t, rfl⟩, hlong⟩)
      · refine .inl ⟨n, rfl, ?_, by omega, ?_, hlong⟩
        · rw [scriptBytes_int]
          exact toInt_serializeScriptNum (by omega)
        · rintro ⟨_, h⟩
          cases h
          exact hmin rfl
  | bytes data t =>
      have hmin : ¬ IsInt64Min (.bytes data t) := by rintro ⟨_, h⟩; cases h
      have hread : (RuntimeValue.bytes data t).toScriptNum.toOption = toInt data :=
        RuntimeCodec.deserializeScriptNum_toOption data
      rw [scriptBytes_bytes, hread]
      by_cases hlen : 8 < data.length
      · have hnone := toInt_eq_none_of_length hlen
        exact .inr (.inr ⟨hnone, hnone, hmin, ⟨data, t, rfl, hlen⟩⟩)
      · obtain ⟨n, hn, habs, _⟩ := toInt_of_length (show data.length ≤ 8 by omega)
        refine .inl ⟨n, hn, hn, habs, hmin, ?_⟩
        rintro ⟨data', t', h, hlong⟩
        cases h
        exact hlen hlong

/-! ### Byte order -/

theorem leNat_replicate_zero (n : ℕ) : leNat (List.replicate n 0x00) = 0 := by
  induction n with
  | zero => rfl
  | succ n ih => rw [List.replicate_succ, leNat_cons, ih]; rfl

theorem leNat_injective {bs cs : Bytes} (hlen : bs.length = cs.length) (h : leNat bs = leNat cs) :
    bs = cs := by
  rw [← littleEndian_leNat bs, ← littleEndian_leNat cs, h, hlen]

/-- A number of which the digits in reverse order denote the complement of another sign-magnitude
number has one digit. -/
theorem leNat_add_reverse_ne {bs : Bytes} (hlen : 2 ≤ bs.length)
    (hlast : 128 ≤ (bs.getLastD 0).toNat) :
    leNat bs + leNat bs.reverse ≠ 384 * 256 ^ (bs.length - 1) := by
  obtain ⟨low, rest, rfl⟩ : ∃ low rest, bs = low :: rest := by
    cases bs with
    | nil => simp at hlen
    | cons low rest => exact ⟨low, rest, rfl⟩
  have hrest : rest ≠ [] := by rintro rfl; simp at hlen
  obtain ⟨middle, high, rfl⟩ : ∃ middle high, rest = middle ++ [high] :=
    ⟨rest.dropLast, rest.getLast hrest, (List.dropLast_concat_getLast hrest).symm⟩
  have hlow : low.toNat < 256 := low.toNat_lt
  have hhigh : high.toNat < 256 := high.toNat_lt
  have hsign : 128 ≤ high.toNat := by
    have hget : (low :: (middle ++ [high])).getLastD 0 = high := by
      rw [List.getLastD_cons]
      exact List.getLastD_concat
    rwa [hget] at hlast
  have hmiddle := leNat_lt middle
  have hreverse := leNat_lt middle.reverse
  rw [List.length_reverse] at hreverse
  have hplace : 256 ^ ((low :: (middle ++ [high])).length - 1) = 256 * 256 ^ middle.length := by
    simp [pow_succ, Nat.mul_comm]
  rw [hplace]
  simp only [leNat_cons, leNat_append, leNat_nil, List.reverse_cons, List.reverse_append,
    List.reverse_nil, List.nil_append, List.cons_append, List.length_reverse, Nat.mul_zero,
    Nat.add_zero]
  generalize leNat middle = m at *
  generalize leNat middle.reverse = m' at *
  generalize 256 ^ middle.length = place at *
  intro h
  -- the lowest digits add up to a multiple of 256, which can only be 256 itself
  have hsum : low.toNat + high.toNat = 256 := by
    have hmod : (low.toNat + high.toNat) % 256 = 0 := by
      have h1 : (low.toNat + 256 * (m + place * high.toNat)) +
          (high.toNat + 256 * (m' + place * low.toNat)) = 256 * (384 * place) := by
        nlinarith
      omega
    omega
  have hhighest : place * high.toNat + place * low.toNat = 256 * place := by
    rw [← Nat.mul_add, Nat.add_comm high.toNat, hsum, Nat.mul_comm]
  nlinarith

/-! ### The machine's conversions -/

theorem wrap64_of_lt (lo : -2 ^ 63 ≤ n) (hi : n < 2 ^ 63) : wrap64 n = n := by
  rw [wrap64, Int.bmod_def]
  split <;> omega

theorem wrap64_of_ge (lo : 2 ^ 63 ≤ n) (hi : n < 2 ^ 64) : wrap64 n = n - 2 ^ 64 := by
  rw [wrap64, Int.bmod_def]
  split <;> omega

theorem wrap64_mul_add (v a c : ℤ) : wrap64 (wrap64 v * a + c) = wrap64 (v * a + c) := by
  unfold wrap64
  rw [← Int.bmod_add_bmod, Int.bmod_mul_bmod, Int.bmod_add_bmod]

theorem foldl_bigEndian (x : Bytes) :
    x.foldl (fun v c => wrap64 (v * 256 + c.toNat)) 0 = wrap64 (leNat x.reverse) := by
  induction x using List.reverseRecOn with
  | nil =>
      rw [List.foldl_nil, List.reverse_nil, leNat_nil, Nat.cast_zero,
        wrap64_of_lt (by omega) (by omega)]
  | append_singleton x c ih =>
      have hvalue : (leNat x.reverse * 256 + c.toNat : ℤ) = leNat (x ++ [c]).reverse := by
        rw [List.reverse_append, List.reverse_singleton, List.singleton_append, leNat_cons]
        push_cast
        ring
      rw [List.foldl_concat, ih, wrap64_mul_add, hvalue]

theorem opBin2num_eq (x : Bytes) (s : Stack) :
    opBin2num (x :: s) = .ok (Stack.pushInt (wrap64 (leNat x.reverse)) s) := by
  rw [← foldl_bigEndian]
  rfl

/-- The digits of a number, from the highest to the lowest. -/
def bigEndian (n : ℤ) (size : ℕ) : Bytes :=
  (littleEndian (n % 256 ^ size).toNat size).reverse

theorem emod_mul_eq (v : ℤ) {a b : ℤ} (ha : 0 < a) (hb : 0 < b) :
    v % (a * b) = v % a + a * (v / a % b) := by
  have hlow := Int.emod_nonneg v ha.ne'
  have hlow' := Int.emod_lt_of_pos v ha
  have hhigh := Int.emod_nonneg (v / a) hb.ne'
  have hhigh' := Int.emod_lt_of_pos (v / a) hb
  have hv : v = v % a + a * (v / a % b) + a * b * (v / a / b) := by
    calc v = v % a + a * (v / a) := (Int.emod_add_mul_ediv v a).symm
      _ = v % a + a * (v / a % b + b * (v / a / b)) := by rw [Int.emod_add_mul_ediv (v / a)]
      _ = v % a + a * (v / a % b) + a * b * (v / a / b) := by ring
  conv_lhs => rw [hv]
  rw [Int.add_mul_emod_self_left]
  exact Int.emod_eq_of_lt (by nlinarith) (by nlinarith)

/-- The loop of `OP_NUM2BIN` together with the zeros put in front. -/
theorem num2binLoop_spec (len : ℕ) (v : ℤ) (bytes : Bytes) :
    (num2binLoop len v bytes).length ≤ len + bytes.length ∧
      List.replicate (len + bytes.length - (num2binLoop len v bytes).length) 0x00 ++
        num2binLoop len v bytes = bigEndian v len ++ bytes := by
  induction len generalizing v bytes with
  | zero => exact ⟨by simp [num2binLoop], by simp [num2binLoop, bigEndian, littleEndian]⟩
  | succ len ih =>
      rw [num2binLoop]
      by_cases hv : v = 0
      · subst hv
        have hzero : littleEndian 0 (len + 1) = List.replicate (len + 1) 0x00 := by
          have h := littleEndian_leNat (List.replicate (len + 1) 0x00)
          rwa [leNat_replicate_zero, List.length_replicate] at h
        rw [if_pos rfl]
        refine ⟨by omega, ?_⟩
        rw [bigEndian, Int.zero_emod, Int.toNat_zero, hzero, List.reverse_replicate]
        congr 2
        omega
      · rw [if_neg hv]
        obtain ⟨hlen, heq⟩ := ih (v / 256) (UInt8.ofNat (v % 256).toNat :: bytes)
        rw [List.length_cons] at hlen heq
        refine ⟨by omega, ?_⟩
        have hcount : len + 1 + bytes.length = len + (bytes.length + 1) := by omega
        have hdigits : littleEndian (v % 256 ^ (len + 1)).toNat (len + 1) =
            UInt8.ofNat (v % 256).toNat :: littleEndian (v / 256 % 256 ^ len).toNat len := by
          have hlow := Int.emod_nonneg v (show (256 : ℤ) ≠ 0 by omega)
          have hrest := Int.emod_nonneg (v / 256) (show (256 : ℤ) ^ len ≠ 0 by positivity)
          have hlt := Int.emod_lt_of_pos v (show (0 : ℤ) < 256 by omega)
          rw [pow_succ', emod_mul_eq v (by omega) (by positivity), littleEndian_succ]
          generalize v / 256 % 256 ^ len = rest at *
          congr 1
          · rw [← UInt8.toNat_inj, UInt8.toNat_ofNat', UInt8.toNat_ofNat']
            omega
          · congr 1
            omega
        rw [hcount, heq, bigEndian, bigEndian, hdigits, List.reverse_cons, List.append_assoc]
        rfl

/-- **`OP_NUM2BIN` writes a number in big-endian two's complement, cut to its size.** -/
theorem opNum2bin_eq {x y : Bytes} {size : ℤ} (hx : toInt x = some n) (hy : toInt y = some size)
    (s : Stack) :
    (opNum2bin (y :: x :: s)).toOption =
      if size < 0 then none else some (bigEndian n size.toNat :: s) := by
  obtain ⟨hlen, heq⟩ := num2binLoop_spec size.toNat n []
  rw [List.length_nil, Nat.add_zero] at hlen heq
  rw [List.append_nil] at heq
  rw [opNum2bin, Stack.pop_cons]
  simp only [bind, Except.bind, Stack.pop_cons, hx, hy]
  by_cases hneg : size < 0
  · rw [if_pos hneg, if_pos hneg]
    rfl
  · rw [if_neg hneg, if_neg hneg]
    by_cases hzero : size.toNat = 0
    · rw [if_pos hzero, hzero]
      rfl
    · rw [if_neg hzero, if_neg (by omega), heq]
      rfl

theorem opNum2bin_eq_none {x y : Bytes} (h : toInt x = none ∨ toInt y = none) (s : Stack) :
    (opNum2bin (y :: x :: s)).toOption = none := by
  rw [opNum2bin, Stack.pop_cons]
  simp only [bind, Except.bind, Stack.pop_cons]
  rcases h with h | h
  · rw [h]
    rfl
  · rw [h]
    cases toInt x <;> rfl

/-! ### The interpreter's conversion -/

theorem leNat_setSign (hne : bytes ≠ []) (h : leNat bytes < 128 * 256 ^ (bytes.length - 1)) :
    leNat (bytes.dropLast ++ [bytes.getLastD 0 ||| 0x80]) =
      leNat bytes + 128 * 256 ^ (bytes.length - 1) := by
  have hsplit := leNat_eq_dropLast_add hne
  have hlast : (bytes.getLastD 0).toNat < 128 := by
    by_contra hge
    have := Nat.mul_le_mul_left (256 ^ (bytes.length - 1)) (Nat.le_of_not_lt hge)
    omega
  rw [leNat_append, leNat_cons, leNat_nil, or_128_toNat hlast, List.length_dropLast, hsplit]
  ring

/-- The digits of the encoding of a number without the sign. -/
def magnitudeDigits (n : ℤ) : Bytes :=
  let bytes := serializeScriptNum n
  if 128 ≤ (bytes.getLastD 0).toNat then bytes.dropLast ++ [bytes.getLastD 0 &&& 0x7f] else bytes

section Encoding

variable {n : ℤ}

theorem serializeScriptNum_ne_nil (h0 : n ≠ 0) (habs : n.natAbs < 2 ^ 63) :
    serializeScriptNum n ≠ [] := by
  intro hnil
  have hread := toInt_serializeScriptNum habs
  rw [hnil, toInt_nil] at hread
  exact h0 (Option.some.inj hread).symm

theorem sign_serializeScriptNum (h0 : n ≠ 0) (habs : n.natAbs < 2 ^ 63) :
    128 ≤ ((serializeScriptNum n).getLastD 0).toNat ↔ n < 0 := by
  have hread := toInt_serializeScriptNum habs
  obtain ⟨m, hm, _, hvalue⟩ := toInt_of_length (length_le_of_toInt hread)
  obtain rfl : n = m := by rw [hread] at hm; exact Option.some.inj hm
  split_ifs at hvalue with h <;> omega

theorem leNat_magnitudeDigits (h0 : n ≠ 0) (habs : n.natAbs < 2 ^ 63) :
    leNat (magnitudeDigits n) = n.natAbs := by
  have hread := toInt_serializeScriptNum habs
  obtain ⟨m, hm, _, hvalue⟩ := toInt_of_length (length_le_of_toInt hread)
  obtain rfl : n = m := by rw [hread] at hm; exact Option.some.inj hm
  unfold magnitudeDigits
  by_cases h : 128 ≤ ((serializeScriptNum n).getLastD 0).toNat
  · simp only [if_pos h] at hvalue ⊢
    rw [CScriptNum.leNat_clearSign (serializeScriptNum_ne_nil h0 habs), if_pos h]
    omega
  · simp only [if_neg h] at hvalue ⊢
    omega

theorem length_magnitudeDigits (h0 : n ≠ 0) (habs : n.natAbs < 2 ^ 63) :
    (magnitudeDigits n).length = (serializeScriptNum n).length := by
  have hpos := List.length_pos_iff.2 (serializeScriptNum_ne_nil h0 habs)
  simp only [magnitudeDigits]
  split_ifs
  · simp
    omega
  · rfl

theorem leNat_magnitudeDigits_lt (h0 : n ≠ 0) (habs : n.natAbs < 2 ^ 63) :
    n.natAbs < 128 * 256 ^ ((serializeScriptNum n).length - 1) := by
  have hread := toInt_serializeScriptNum habs
  refine natAbs_lt_of_deserialize (serializeScriptNum_ne_nil h0 habs) ?_
  rw [CScriptNum.deserialize_eq_toInt (length_le_of_toInt hread), hread]

/-- A number fits a size exactly when its encoding does. -/
theorem length_serializeScriptNum_le_iff (h0 : n ≠ 0) (habs : n.natAbs < 2 ^ 63) (size : ℕ) :
    (serializeScriptNum n).length ≤ size ↔ 1 ≤ size ∧ n.natAbs < 128 * 256 ^ (size - 1) := by
  have hpos := List.length_pos_iff.2 (serializeScriptNum_ne_nil h0 habs)
  constructor
  · intro h
    refine ⟨by omega, lt_of_lt_of_le (leNat_magnitudeDigits_lt h0 habs) ?_⟩
    exact Nat.mul_le_mul_left 128 (Nat.pow_le_pow_right (by omega) (by omega))
  · rintro ⟨hsize, hfits⟩
    by_contra hlong
    obtain ⟨k, hk⟩ : ∃ k, (serializeScriptNum n).length = k + 2 :=
      ⟨(serializeScriptNum n).length - 2, by omega⟩
    have hlow := le_natAbs_of_serializeScriptNum (by omega) hk
    have hpow : 256 ^ (size - 1) ≤ 256 ^ k := Nat.pow_le_pow_right (by omega) (by omega)
    omega

end Encoding

/-- The digits of a number in sign-magnitude form, from the lowest to the highest. -/
def signMagnitude (n : ℤ) (size : ℕ) : Bytes :=
  littleEndian (n.natAbs + if n < 0 then 128 * 256 ^ (size - 1) else 0) size

/-- Filling up the digits of a number and putting its sign in. -/
theorem fill_magnitudeDigits (h0 : n ≠ 0) (habs : n.natAbs < 2 ^ 63) {size : ℕ}
    (hfits : (serializeScriptNum n).length ≤ size) :
    (let bytes := magnitudeDigits n ++ List.replicate (size - (magnitudeDigits n).length) 0x00
     if n < 0 then bytes.dropLast ++ [bytes.getLastD 0 ||| 0x80] else bytes) =
      signMagnitude n size := by
  obtain ⟨hsize, hbound⟩ := (length_serializeScriptNum_le_iff h0 habs size).1 hfits
  have hcount := length_magnitudeDigits h0 habs
  set bytes := magnitudeDigits n ++ List.replicate (size - (magnitudeDigits n).length) 0x00 with hbytes
  have hlen : bytes.length = size := by
    rw [hbytes, List.length_append, List.length_replicate]
    omega
  have hvalue : leNat bytes = n.natAbs := by
    rw [hbytes, leNat_append, leNat_magnitudeDigits h0 habs, leNat_replicate_zero, Nat.mul_zero,
      Nat.add_zero]
  have hne : bytes ≠ [] := by
    intro hnil
    rw [hnil] at hlen
    simp at hlen
    omega
  have hset := leNat_setSign hne (by rw [hvalue, hlen]; exact hbound)
  have hsetLen : (bytes.dropLast ++ [bytes.getLastD 0 ||| 0x80]).length = size := by
    simp
    omega
  simp only [signMagnitude]
  by_cases hneg : n < 0
  · rw [if_pos hneg, if_pos hneg, ← hvalue, ← hlen, ← hset, hlen, ← hsetLen, littleEndian_leNat]
  · rw [if_neg hneg, if_neg hneg, Nat.add_zero, ← hvalue, ← hlen, littleEndian_leNat]

/-- **`NumToBin` writes a number in little-endian sign-magnitude form, if it fits its size.** -/
theorem numToBin_eq {size : ℤ} (h0 : n ≠ 0) (habs : n.natAbs < 2 ^ 63) (hsize : 0 ≤ size) :
    (numToBin n size).toOption =
      if 1 ≤ size.toNat ∧ n.natAbs < 128 * 256 ^ (size.toNat - 1) then
        some (fromBytes (signMagnitude n size.toNat)) else none := by
  have hne := serializeScriptNum_ne_nil h0 habs
  have hsign := sign_serializeScriptNum h0 habs
  have hcount := length_magnitudeDigits h0 habs
  have hdigits : (if 128 ≤ ((serializeScriptNum n).getLastD 0).toNat then
      (serializeScriptNum n).dropLast ++ [(serializeScriptNum n).getLastD 0 &&& 0x7f]
      else serializeScriptNum n) = magnitudeDigits n := rfl
  rw [numToBin, if_neg (by omega)]
  simp only [RuntimeCodec.serializeScriptNum_eq, if_neg hne, hdigits, hcount]
  by_cases hfits : (serializeScriptNum n).length ≤ size.toNat
  · rw [if_neg (by omega), if_pos ((length_serializeScriptNum_le_iff h0 habs _).1 hfits),
      ← fill_magnitudeDigits h0 habs hfits, ← hcount]
    have hfilled : magnitudeDigits n ++ List.replicate (size.toNat - (magnitudeDigits n).length) 0x00 ≠ [] := by
      intro hnil
      have := List.length_pos_iff.2 hne
      rw [List.append_eq_nil_iff] at hnil
      rw [hnil.1] at hcount
      simp at hcount
      omega
    simp only [hsign, hfilled, ne_eq, not_false_eq_true, and_true]
    rfl
  · rw [if_pos (by omega), if_neg ((length_serializeScriptNum_le_iff h0 habs _).not.1 hfits)]
    rfl

/-! ### Agreement -/

/-- The script bytes of the value the interpreter computes. -/
def interpret (env : Env) (b : PureBuiltin) (args : List RuntimeValue) : Option Bytes :=
  (callFunction env b.name args).toOption.bind fun v => v.toScriptBytes.toOption

/-- **The two levels agree on an application**: on the script bytes of the arguments the opcode
fails when the interpreter does, and otherwise leaves the script bytes of the interpreter's value
and nothing else. -/
def Agrees (env : Env) (b : PureBuiltin) (args : List RuntimeValue) : Prop :=
  ∀ (vm : VM) (operand : Bytes), vm.isCurrentlyExecuting = true →
    (executeOpcode env ⟨b.opcode.toByte, operand⟩
      { vm with main := (args.map scriptBytes).reverse ++ vm.main }).toOption =
      (interpret env b args).map fun element => { vm with main := element :: vm.main }

theorem executeOpcode_main {env : Env} {op : BytOpcode} {operand : Bytes}
    {f : Stack → Except String Stack} (hop : mainOp env operand op = some f) (vm : VM)
    (hvm : vm.isCurrentlyExecuting = true) :
    (executeOpcode env ⟨op.toByte, operand⟩ vm).toOption =
      (f vm.main).toOption.map fun main => { vm with main } := by
  simp only [executeOpcode, BytOpcode.ofByte?_toByte, hvm, Bool.not_true, Bool.false_and,
    Bool.false_eq_true, if_false, executeKnown, hop, VM.onMain]
  cases f vm.main <;> rfl

/-- Agreement is equality of the two results. -/
theorem agrees_iff_eq {env : Env} {args : List RuntimeValue}
    {f : Stack → Except String Stack} {r : Option Bytes}
    (hop : ∀ operand, mainOp env operand b.opcode = some f)
    (hrun : ∀ s, (f ((args.map scriptBytes).reverse ++ s)).toOption = r.map (· :: s)) :
    Agrees env b args ↔ interpret env b args = r := by
  have hexec : ∀ (vm : VM) (operand : Bytes), vm.isCurrentlyExecuting = true →
      (executeOpcode env ⟨b.opcode.toByte, operand⟩
        { vm with main := (args.map scriptBytes).reverse ++ vm.main }).toOption =
        r.map fun element => { vm with main := element :: vm.main } := by
    intro vm operand hvm
    refine (executeOpcode_main (hop operand)
      { vm with main := (args.map scriptBytes).reverse ++ vm.main } hvm).trans ?_
    rw [hrun, Option.map_map]
    rfl
  constructor
  · intro h
    have heq := h ⟨[], [], [], false⟩ [] rfl
    rw [hexec _ _ rfl] at heq
    refine (Option.map_injective ?_ heq).symm
    intro x y hxy
    simpa using hxy
  · intro h vm operand hvm
    rw [hexec vm operand hvm, h]

/-! ### Reading numbers -/

section Numbers

variable {a c : RuntimeValue}

/-- No argument is the smallest number, unless another one is refused by both levels. -/
def NumbersAgree (args : List RuntimeValue) : Prop :=
  (∀ v ∈ args, ¬ IsInt64Min v) ∨ ∃ v ∈ args, IsLongBytes v

theorem read_one_iff (ha : IsOperand a) (g : ℤ → Bytes) :
    (a.toScriptNum.toOption.map g = (toInt (scriptBytes a)).map g) ↔ NumbersAgree [a] := by
  rcases operand_cases ha with ⟨n, hn, hm, _, hmin, hlong⟩ | ⟨hn, hm, hmin, hlong⟩ |
    ⟨hn, hm, hmin, hlong⟩
  all_goals simp [NumbersAgree, hn, hm, hmin, hlong]

theorem read_two_iff (ha : IsOperand a) (hc : IsOperand c) (g : ℤ → ℤ → Option Bytes) :
    (a.toScriptNum.toOption.bind fun n => c.toScriptNum.toOption.bind (g n)) =
      ((toInt (scriptBytes a)).bind fun n => (toInt (scriptBytes c)).bind (g n)) ↔
    NumbersAgree [a, c] ∨ ∃ n m, a.toScriptNum.toOption = some n ∧
      c.toScriptNum.toOption = some m ∧ g n m = none := by
  rcases operand_cases ha with ⟨n, hn, hm, _, hmin, hlong⟩ | ⟨hn, hm, hmin, hlong⟩ |
    ⟨hn, hm, hmin, hlong⟩ <;>
  rcases operand_cases hc with ⟨n', hn', hm', _, hmin', hlong'⟩ | ⟨hn', hm', hmin', hlong'⟩ |
    ⟨hn', hm', hmin', hlong'⟩
  all_goals simp [NumbersAgree, hn, hm, hmin, hlong, hn', hm', hmin', hlong']

theorem read_two_some_iff (ha : IsOperand a) (hc : IsOperand c) (g : ℤ → ℤ → Bytes) :
    (a.toScriptNum.toOption.bind fun n => c.toScriptNum.toOption.map (g n)) =
      ((toInt (scriptBytes a)).bind fun n => (toInt (scriptBytes c)).map (g n)) ↔
    NumbersAgree [a, c] := by
  have h := read_two_iff ha hc fun n m => some (g n m)
  simpa [Option.map_eq_bind, Function.comp_def] using h

end Numbers

/-! ### Families of builtins -/

section Families

variable {env : Env} {b : PureBuiltin} {x : Builtin} {a c : RuntimeValue} {error : String}

theorem interpret_of_name (hname : b.name = x.name) (args : List RuntimeValue) :
    interpret env b args = (call env x args).toOption.bind fun v => v.toScriptBytes.toOption := by
  rw [interpret, hname, callFunction_name]

theorem toScriptBytes_fromInt (n : ℤ) :
    (fromInt n).toScriptBytes.toOption = some (serializeScriptNum n) := by
  rw [fromInt, toScriptBytes, RuntimeCodec.serializeScriptNum_eq]
  rfl

theorem toScriptBytes_fromBool (p : Prop) [Decidable p] :
    (fromBool (decide p)).toScriptBytes.toOption =
      some (serializeScriptNum (if decide p = true then 1 else 0)) := by
  rw [fromBool, toScriptBytes]
  by_cases h : p
  · simp [h]
    rfl
  · simp [h]
    rfl

theorem numeric1_bytes {f : ℤ → RuntimeValue} {g : ℤ → ℤ}
    (hfg : ∀ n, (f n).toScriptBytes.toOption = some (serializeScriptNum (g n))) :
    ((numeric1 f a).toOption.bind fun v => v.toScriptBytes.toOption) =
      a.toScriptNum.toOption.map fun n => serializeScriptNum (g n) := by
  rw [numeric1]
  cases ha : a.toScriptNum with
  | error e => rfl
  | ok n => exact hfg n

theorem numeric2_bytes {f : ℤ → ℤ → RuntimeValue} {g : ℤ → ℤ → ℤ}
    (hfg : ∀ n m, (f n m).toScriptBytes.toOption = some (serializeScriptNum (g n m))) :
    ((numeric2 f a c).toOption.bind fun v => v.toScriptBytes.toOption) =
      a.toScriptNum.toOption.bind fun n =>
        c.toScriptNum.toOption.map fun m => serializeScriptNum (g n m) := by
  rw [numeric2]
  cases ha : a.toScriptNum with
  | error e => rfl
  | ok n =>
      cases hc : c.toScriptNum with
      | error e => rfl
      | ok m => exact hfg n m

theorem unaryNum_toOption (f : ℤ → ℤ) (y : Bytes) (s : Stack) :
    (Stack.unaryNum error f (y :: s)).toOption =
      ((toInt y).map fun n => serializeScriptNum (f n)).map (· :: s) := by
  rw [Stack.unaryNum, Stack.pop_cons]
  simp only [bind, Except.bind]
  cases toInt y <;> rfl

theorem binaryNum_toOption (f : ℤ → ℤ → ℤ) (y z : Bytes) (s : Stack) :
    (Stack.binaryNum error f (z :: y :: s)).toOption =
      ((toInt y).bind fun n =>
        (toInt z).map fun m => serializeScriptNum (f n m)).map (· :: s) := by
  rw [Stack.binaryNum, Stack.pop_cons]
  simp only [bind, Except.bind, Stack.pop_cons]
  cases toInt y with
  | none => rfl
  | some n => cases toInt z <;> rfl

theorem unary_agrees_iff (ha : IsOperand a) {f : ℤ → RuntimeValue} {g : ℤ → ℤ}
    (hname : b.name = x.name) (hcall : call env x [a] = numeric1 f a)
    (hop : ∀ operand, mainOp env operand b.opcode = some (Stack.unaryNum error g))
    (hfg : ∀ n, (f n).toScriptBytes.toOption = some (serializeScriptNum (g n))) :
    Agrees env b [a] ↔ NumbersAgree [a] := by
  rw [agrees_iff_eq hop fun s => unaryNum_toOption g (scriptBytes a) s, interpret_of_name hname,
    hcall, numeric1_bytes hfg]
  exact read_one_iff ha _

theorem binary_agrees_iff (ha : IsOperand a) (hc : IsOperand c) {f : ℤ → ℤ → RuntimeValue}
    {g : ℤ → ℤ → ℤ} (hname : b.name = x.name) (hcall : call env x [a, c] = numeric2 f a c)
    (hop : ∀ operand, mainOp env operand b.opcode = some (Stack.binaryNum error g))
    (hfg : ∀ n m, (f n m).toScriptBytes.toOption = some (serializeScriptNum (g n m))) :
    Agrees env b [a, c] ↔ NumbersAgree [a, c] := by
  rw [agrees_iff_eq hop fun s => binaryNum_toOption g (scriptBytes a) (scriptBytes c) s,
    interpret_of_name hname, hcall, numeric2_bytes hfg]
  exact read_two_some_iff ha hc _

/-- A comparison that the interpreter does not know by its name in a contract. -/
theorem unknown_agrees_iff (ha : IsOperand a) (hc : IsOperand c) {g : ℤ → ℤ → ℤ}
    (hname : Builtin.ofName? b.name = none)
    (hop : ∀ operand, mainOp env operand b.opcode = some (Stack.binaryNum error g)) :
    Agrees env b [a, c] ↔ ∃ v ∈ [a, c], IsInt64Min v ∨ IsLongBytes v := by
  have hnone : interpret env b [a, c] = none := by
    rw [interpret, callFunction, hname]
    rfl
  rw [agrees_iff_eq hop fun s => binaryNum_toOption g (scriptBytes a) (scriptBytes c) s, hnone]
  rcases operand_cases ha with ⟨n, _, hm, _, hmin, hlong⟩ | ⟨_, hm, hmin, hlong⟩ |
    ⟨_, hm, hmin, hlong⟩ <;>
  rcases operand_cases hc with ⟨n', _, hm', _, hmin', hlong'⟩ | ⟨_, hm', hmin', hlong'⟩ |
    ⟨_, hm', hmin', hlong'⟩
  all_goals simp [hm, hmin, hlong, hm', hmin', hlong']

theorem ok_of_toOption {n : ℤ} (h : a.toScriptNum.toOption = some n) : a.toScriptNum = .ok n := by
  cases ha : a.toScriptNum with
  | error e => rw [ha] at h; cases h
  | ok m => rw [ha] at h; rw [Option.some.inj h]

/-- Division and remainder fail on both levels where the divisor is zero. -/
theorem divide_agrees_iff (ha : IsOperand a) (hc : IsOperand c) {f : ℤ → ℤ → ℤ} {zero : String}
    (hname : b.name = x.name) (hcall : call env x [a, c] = BuiltinRuntime.divide x f a c)
    (hop : ∀ operand, mainOp env operand b.opcode = some (AtomicProof.divide error zero f)) :
    Agrees env b [a, c] ↔ NumbersAgree [a, c] ∨ c.toScriptNum = .ok 0 := by
  set g : ℤ → ℤ → Option Bytes := fun n m =>
    if m = 0 then none else some (serializeScriptNum (wrap64 (f n m))) with hg
  have hmachine : ∀ s, (AtomicProof.divide error zero f
      (([a, c].map scriptBytes).reverse ++ s)).toOption =
      ((toInt (scriptBytes a)).bind fun n => (toInt (scriptBytes c)).bind (g n)).map (· :: s) := by
    intro s
    rw [show ([a, c].map scriptBytes).reverse ++ s = scriptBytes c :: scriptBytes a :: s from rfl,
      AtomicProof.divide, Stack.pop_cons]
    simp only [bind, Except.bind, Stack.pop_cons, hg]
    cases toInt (scriptBytes a) with
    | none => rfl
    | some n =>
        cases toInt (scriptBytes c) with
        | none => rfl
        | some m =>
            simp only [Option.bind_some]
            by_cases hm : m = 0
            · simp only [if_pos hm]
              rfl
            · simp only [if_neg hm]
              rfl
  have hinterp : interpret env b [a, c] =
      a.toScriptNum.toOption.bind fun n => c.toScriptNum.toOption.bind (g n) := by
    rw [interpret_of_name hname, hcall, BuiltinRuntime.divide]
    -- the divisor is read first and tested before the other side is read
    cases hcn : c.toScriptNum with
    | error e => cases a.toScriptNum <;> rfl
    | ok m =>
        cases han : a.toScriptNum with
        | error e =>
            by_cases hm : m = 0
            · subst hm
              rfl
            · simp [bind, Except.bind, hm, Except.toOption]
        | ok n =>
            by_cases hm : m = 0
            · subst hm
              rfl
            · simpa [bind, Except.bind, hm, hg, Except.toOption, pure, Except.pure] using
                toScriptBytes_fromInt (wrap64 (f n m))
  rw [agrees_iff_eq hop hmachine, hinterp, read_two_iff ha hc g]
  constructor
  · rintro (h | ⟨n, m, _, hm, hzero⟩)
    · exact .inl h
    · obtain rfl : m = 0 := by
        by_contra hne
        simp [hg, hne] at hzero
      exact .inr (ok_of_toOption hm)
  · rintro (h | hzero)
    · exact .inl h
    · rcases operand_cases ha with ⟨n, hn, _⟩ | ⟨hn, _⟩ | ⟨_, _, _, hlong⟩
      · exact .inr ⟨n, 0, hn, by rw [hzero]; rfl, by simp [hg]⟩
      · exact .inr ⟨-2 ^ 63, 0, hn, by rw [hzero]; rfl, by simp [hg]⟩
      · exact .inl (.inr ⟨a, by simp, hlong⟩)

end Families

/-! ### Conversions between numbers and byte strings -/

section Conversions

variable {env : Env} {a c : RuntimeValue}

theorem serializeScriptNum_injective {n m : ℤ} (hn : -2 ^ 63 ≤ n) (hn' : n < 2 ^ 63)
    (hm : -2 ^ 63 ≤ m) (hm' : m < 2 ^ 63) (h : serializeScriptNum n = serializeScriptNum m) :
    n = m := by
  have hread := CScriptNum.deserialize_serialize hn hn'
  rw [h, CScriptNum.deserialize_serialize hm hm'] at hread
  exact (Option.some.inj hread).symm

theorem wrap64_bounds (n : ℤ) : -2 ^ 63 ≤ wrap64 n ∧ wrap64 n < 2 ^ 63 := by
  rw [wrap64, Int.bmod_def]
  split <;> omega

/-- The byte strings that `BinToNum` and `OP_BIN2NUM` read alike: at most eight bytes that are the
same in both orders, without a sign. -/
def ReadsAlike (bytes : Bytes) : Prop :=
  bytes.length ≤ 8 ∧ bytes.reverse = bytes ∧ (bytes.getLastD 0).toNat < 128

/-- The number that denotes itself in both byte orders. -/
theorem eq_wrap64_iff {bytes : Bytes} {n : ℤ} (hlen : bytes.length ≤ 8)
    (hn : toInt bytes = some n) :
    n = wrap64 (leNat bytes.reverse) ↔
      bytes.reverse = bytes ∧ (bytes.getLastD 0).toNat < 128 := by
  obtain ⟨m, hm, habs, hvalue⟩ := toInt_of_length hlen
  obtain rfl : n = m := by rw [hn] at hm; exact Option.some.inj hm
  have hrev := leNat_lt bytes.reverse
  rw [List.length_reverse] at hrev
  have hpow : 256 ^ bytes.length ≤ 2 ^ 64 := by
    calc 256 ^ bytes.length ≤ 256 ^ 8 := Nat.pow_le_pow_right (by omega) hlen
      _ = 2 ^ 64 := by norm_num
  by_cases hsign : 128 ≤ (bytes.getLastD 0).toNat
  · rw [if_pos hsign] at hvalue
    constructor
    · intro h
      exfalso
      have hne : bytes ≠ [] := by rintro rfl; simp at hsign
      have hfirst : bytes.reverse = bytes.getLastD 0 :: bytes.dropLast.reverse := by
        conv_lhs => rw [← List.dropLast_concat_getLast hne]
        rw [List.reverse_append, List.reverse_singleton, List.singleton_append,
          List.getLastD_eq_getLast?, List.getLast?_eq_some_getLast hne, Option.getD_some]
      have hlow : 128 ≤ leNat bytes.reverse := by
        rw [hfirst, leNat_cons]
        omega
      by_cases hbig : leNat bytes.reverse < 2 ^ 63
      · rw [wrap64_of_lt (by omega) (by omega)] at h
        omega
      · rw [wrap64_of_ge (by omega) (by omega)] at h
        have hlen8 : bytes.length = 8 := by
          by_contra hne8
          have hpow7 : 256 ^ bytes.length ≤ 2 ^ 56 := by
            calc 256 ^ bytes.length ≤ 256 ^ 7 := Nat.pow_le_pow_right (by omega) (by omega)
              _ = 2 ^ 56 := by norm_num
          omega
        have hdigits := leNat_add_reverse_ne (by omega) hsign
        have hsplit := leNat_eq_dropLast_add hne
        rw [hlen8] at hvalue hdigits hsplit
        omega
    · rintro ⟨_, hlast⟩
      omega
  · rw [if_neg hsign] at hvalue
    constructor
    · intro h
      refine ⟨?_, by omega⟩
      by_cases hbig : leNat bytes.reverse < 2 ^ 63
      · rw [wrap64_of_lt (by omega) (by omega)] at h
        exact leNat_injective (by simp) (by omega)
      · rw [wrap64_of_ge (by omega) (by omega)] at h
        omega
    · rintro ⟨hpalindrome, _⟩
      rw [hpalindrome, wrap64_of_lt (by omega) (by omega), hvalue]

theorem binToNum_agrees_iff (ha : IsOperand a) :
    Agrees env .binToNum [a] ↔ ReadsAlike (scriptBytes a) := by
  have hmachine : ∀ s, (opBin2num (([a].map scriptBytes).reverse ++ s)).toOption =
      (some (serializeScriptNum (wrap64 (leNat (scriptBytes a).reverse)))).map (· :: s) := by
    intro s
    have h := opBin2num_eq (scriptBytes a) s
    exact congrArg Except.toOption h
  have hinterp : interpret env .binToNum [a] = a.toScriptNum.toOption.map serializeScriptNum := by
    rw [interpret_of_name (x := .binToNum) rfl]
    exact numeric1_bytes toScriptBytes_fromInt
  rw [agrees_iff_eq (fun _ => rfl) hmachine, hinterp]
  rcases operand_cases ha with ⟨n, hn, hm, habs, _, _⟩ | ⟨hn, _, ⟨t, rfl⟩, _⟩ |
    ⟨hn, _, _, ⟨data, t, rfl, hlen⟩⟩
  · have hlen := length_le_of_toInt hm
    have hwrap := wrap64_bounds (leNat (scriptBytes a).reverse)
    rw [hn, Option.map_some, Option.some_inj, ReadsAlike, ← eq_wrap64_iff hlen hm]
    constructor
    · intro h
      exact ⟨hlen, serializeScriptNum_injective (by omega) (by omega) hwrap.1 hwrap.2 h⟩
    · rintro ⟨_, h⟩
      rw [← h]
  · rw [hn, scriptBytes_int]
    unfold ReadsAlike
    decide
  · rw [hn, scriptBytes_bytes]
    simp [ReadsAlike, hlen]

/-- The numbers and sizes for which `NumToBin` and `OP_NUM2BIN` write the same bytes or fail
alike.  A positive number has to fit and to be the same in both byte orders. -/
def SizedNumberAgrees (number size : ℤ) : Prop :=
  size < 0 ∨ number = 0 ∨ (number = -2 ^ 63 ∧ size ≤ 8) ∨ (number = -64 ∧ size = 1) ∨
    (0 < number ∧ 1 ≤ size ∧ number < 128 * 256 ^ (size.toNat - 1) ∧
      (littleEndian number.toNat size.toNat).reverse = littleEndian number.toNat size.toNat)

theorem bigEndian_zero (size : ℕ) : bigEndian 0 size = List.replicate size 0x00 := by
  have h := littleEndian_leNat (List.replicate size 0x00)
  rw [leNat_replicate_zero, List.length_replicate] at h
  rw [bigEndian, Int.zero_emod, Int.toNat_zero, h, List.reverse_replicate]

/-- A negative number is written alike in one case only. -/
theorem signMagnitude_eq_bigEndian_iff {n : ℤ} {size : ℕ} (hneg : n < 0) (hsize : 1 ≤ size)
    (hfits : n.natAbs < 128 * 256 ^ (size - 1)) :
    signMagnitude n size = bigEndian n size ↔ n = -64 ∧ size = 1 := by
  obtain ⟨k, rfl⟩ : ∃ k, size = k + 1 := ⟨size - 1, by omega⟩
  rw [Nat.add_sub_cancel] at hfits
  have hplace : 0 < 256 ^ k := by positivity
  have hmod : (n % 256 ^ (k + 1)).toNat = 256 * 256 ^ k - n.natAbs := by
    have hcast : (256 : ℤ) ^ (k + 1) = ((256 * 256 ^ k : ℕ) : ℤ) := by
      push_cast
      ring
    rw [hcast, ← Int.add_emod_right, Int.emod_eq_of_lt (by omega) (by omega)]
    omega
  have hX : n.natAbs + 128 * 256 ^ k < 256 ^ (k + 1) := by rw [pow_succ]; omega
  have hY : 256 * 256 ^ k - n.natAbs < 256 ^ (k + 1) := by rw [pow_succ]; omega
  rw [signMagnitude, bigEndian, if_pos hneg, Nat.add_sub_cancel, hmod]
  constructor
  · intro h
    set bytes := littleEndian (n.natAbs + 128 * 256 ^ k) (k + 1) with hbytes
    have hlen : bytes.length = k + 1 := littleEndian_length _ _
    have hvalue : leNat bytes = n.natAbs + 128 * 256 ^ k := leNat_littleEndian hX
    have hreverse : leNat bytes.reverse = 256 * 256 ^ k - n.natAbs := by
      rw [h, List.reverse_reverse, leNat_littleEndian hY]
    by_cases hk : k = 0
    · subst hk
      obtain ⟨byte, hbyte⟩ := List.length_eq_one_iff.1 hlen
      rw [hbyte, List.reverse_singleton] at hreverse
      rw [hbyte] at hvalue
      rw [hvalue] at hreverse
      omega
    · exfalso
      have hne : bytes ≠ [] := by
        intro hnil
        rw [hnil] at hlen
        simp at hlen
      have hsplit := leNat_eq_dropLast_add hne
      have hlow := leNat_lt bytes.dropLast
      rw [List.length_dropLast, hlen, Nat.add_sub_cancel] at hlow
      rw [hlen, Nat.add_sub_cancel] at hsplit
      have hsign : 128 ≤ (bytes.getLastD 0).toNat := by
        by_contra hlt
        have := Nat.mul_le_mul_left (256 ^ k)
          (show (bytes.getLastD 0).toNat ≤ 127 by omega)
        omega
      have hsum := leNat_add_reverse_ne (by omega) hsign
      rw [hvalue, hreverse, hlen, Nat.add_sub_cancel] at hsum
      omega
  · rintro ⟨rfl, hk⟩
    obtain rfl : k = 0 := by omega
    decide

theorem sizedNumber_iff {number size : ℤ} (habs : number.natAbs < 2 ^ 63) :
    (((numToBin number size).toOption.bind fun v => v.toScriptBytes.toOption) =
      if size < 0 then none else some (bigEndian number size.toNat)) ↔
    SizedNumberAgrees number size := by
  by_cases hsize : size < 0
  · rw [numToBin, if_pos hsize, if_pos hsize]
    simp [SizedNumberAgrees, hsize, Except.toOption]
  by_cases hzero : number = 0
  · subst hzero
    rw [numToBin, if_neg hsize, if_neg hsize, bigEndian_zero]
    simp [SizedNumberAgrees, RuntimeCodec.serializeScriptNum, Except.toOption, fromBytes,
      toScriptBytes]
  rw [numToBin_eq hzero habs (by omega), if_neg hsize]
  have hbytes : ∀ bytes, ((some (fromBytes bytes)).bind fun v => v.toScriptBytes.toOption) =
      some bytes := by
    intro bytes
    rw [Option.bind_some, fromBytes, toScriptBytes]
    rfl
  by_cases hfits : 1 ≤ size.toNat ∧ number.natAbs < 128 * 256 ^ (size.toNat - 1)
  · rw [if_pos hfits, hbytes, Option.some_inj]
    by_cases hneg : number < 0
    -- a negative number has its sign bit at the other end
    · rw [signMagnitude_eq_bigEndian_iff hneg hfits.1 hfits.2]
      constructor
      · rintro ⟨hn, hs⟩
        exact .inr (.inr (.inr (.inl ⟨hn, by omega⟩)))
      · rintro (h | h | ⟨h, _⟩ | ⟨hn, hs⟩ | ⟨h, _⟩)
        · omega
        · omega
        · omega
        · exact ⟨hn, by omega⟩
        · omega
    · have hplace : 128 * 256 ^ (size.toNat - 1) ≤ 256 ^ size.toNat := by
        obtain ⟨k, hk⟩ : ∃ k, size.toNat = k + 1 := ⟨size.toNat - 1, by omega⟩
        rw [hk, Nat.add_sub_cancel, pow_succ]
        omega
      have hmod : (number % 256 ^ size.toNat).toNat = number.toNat := by
        have hcast : (256 : ℤ) ^ size.toNat = ((256 ^ size.toNat : ℕ) : ℤ) := by push_cast; rfl
        rw [hcast, Int.emod_eq_of_lt (by omega) (by omega)]
      -- a number that is not negative differs in the order of the bytes only
      have hmagnitude : signMagnitude number size.toNat =
          littleEndian number.toNat size.toNat := by
        rw [signMagnitude, if_neg hneg, Nat.add_zero]
        congr 1
        omega
      rw [bigEndian, hmod, hmagnitude]
      constructor
      · intro h
        refine .inr (.inr (.inr (.inr ⟨by omega, by omega, ?_, h.symm⟩)))
        have hcast : (128 : ℤ) * 256 ^ (size.toNat - 1) =
            ((128 * 256 ^ (size.toNat - 1) : ℕ) : ℤ) := by push_cast; rfl
        rw [hcast]
        omega
      · rintro (h | h | ⟨h, _⟩ | ⟨h, _⟩ | ⟨_, _, _, h⟩)
        · omega
        · omega
        · omega
        · omega
        · exact h.symm
  · rw [if_neg hfits, Option.bind_none]
    constructor
    · intro h
      cases h
    · rintro (h | h | ⟨h, _⟩ | ⟨rfl, rfl⟩ | ⟨_, hs, hlt, _⟩)
      · omega
      · omega
      · omega
      · exact absurd (by decide) hfits
      · have hcast : (128 : ℤ) * 256 ^ (size.toNat - 1) =
            ((128 * 256 ^ (size.toNat - 1) : ℕ) : ℤ) := by push_cast; rfl
        rw [hcast] at hlt
        exact absurd ⟨by omega, by omega⟩ hfits

/-- The smallest number needs nine bytes. -/
theorem numToBin_min_eq_none_iff (size : ℤ) :
    ((numToBin (-2 ^ 63) size).toOption.bind fun v => v.toScriptBytes.toOption) = none ↔
      size ≤ 8 := by
  have hbytes : RuntimeCodec.serializeScriptNum (-2 ^ 63) = minimumEncoding := by decide
  have hne : minimumEncoding ≠ [] := by decide
  have hsign : 128 ≤ (minimumEncoding.getLastD 0).toNat := by decide
  have hlen : (minimumEncoding.dropLast ++ [minimumEncoding.getLastD 0 &&& 0x7f]).length = 9 := by
    decide
  unfold numToBin
  by_cases hneg : size < 0
  · rw [if_pos hneg]
    exact ⟨fun _ => by omega, fun _ => rfl⟩
  · simp only [if_neg hneg, hbytes, if_neg hne, if_pos hsign, hlen]
    by_cases hsize : size.toNat < 9
    · rw [if_pos hsize]
      exact ⟨fun _ => by omega, fun _ => rfl⟩
    · rw [if_neg hsize]
      refine ⟨fun h => ?_, fun _ => by omega⟩
      cases h

theorem numToBin_agrees_iff (ha : IsOperand a) (hc : IsOperand c) :
    Agrees env .numToBin [a, c] ↔ (IsLongBytes a ∨ IsLongBytes c) ∨
      ∃ number size, a.toScriptNum = .ok number ∧ c.toScriptNum = .ok size ∧
        SizedNumberAgrees number size := by
  have hmachine : ∀ s, (opNum2bin (([a, c].map scriptBytes).reverse ++ s)).toOption =
      ((toInt (scriptBytes a)).bind fun number => (toInt (scriptBytes c)).bind fun size =>
        if size < 0 then none else some (bigEndian number size.toNat)).map (· :: s) := by
    intro s
    rw [show ([a, c].map scriptBytes).reverse ++ s = scriptBytes c :: scriptBytes a :: s from rfl]
    cases hx : toInt (scriptBytes a) with
    | none => exact opNum2bin_eq_none (.inl hx) s
    | some number =>
        cases hy : toInt (scriptBytes c) with
        | none => exact opNum2bin_eq_none (.inr hy) s
        | some size =>
            rw [opNum2bin_eq hx hy, Option.bind_some, Option.bind_some]
            split_ifs <;> rfl
  have hinterp : interpret env .numToBin [a, c] =
      a.toScriptNum.toOption.bind fun number => c.toScriptNum.toOption.bind fun size =>
        (numToBin number size).toOption.bind fun v => v.toScriptBytes.toOption := by
    rw [interpret_of_name (x := .numToBin) rfl, call, withTwo]
    cases a.toScriptNum with
    | error e => rfl
    | ok number => cases c.toScriptNum <;> rfl
  rw [agrees_iff_eq (fun _ => rfl) hmachine, hinterp]
  rcases operand_cases ha with ⟨n, hn, hm, habs, _, hlong⟩ | ⟨hn, hm, hmin, hlong⟩ |
    ⟨hn, hm, hmin, hlong⟩
  · rcases operand_cases hc with ⟨n', hn', hm', habs', _, hlong'⟩ | ⟨hn', hm', hmin', hlong'⟩ |
      ⟨hn', hm', hmin', hlong'⟩
    · rw [hn, hm, hn', hm']
      simp only [Option.bind_some]
      rw [sizedNumber_iff habs, ok_of_toOption hn, ok_of_toOption hn']
      simp [hlong, hlong']
    · rw [hn, hm, hn', hm']
      simp only [Option.bind_some, Option.bind_none]
      rw [ok_of_toOption hn, ok_of_toOption hn', numToBin, if_pos (by omega)]
      simp [hlong, hlong', SizedNumberAgrees, Except.toOption]
    · simp [hn, hm, hn', hm', hlong']
  · rcases operand_cases hc with ⟨n', hn', hm', habs', _, hlong'⟩ | ⟨hn', hm', hmin', hlong'⟩ |
      ⟨hn', hm', hmin', hlong'⟩
    · rw [hn, hm, hn', hm']
      simp only [Option.bind_some, Option.bind_none]
      rw [ok_of_toOption hn, ok_of_toOption hn', numToBin_min_eq_none_iff]
      simp [hlong, hlong', SizedNumberAgrees]
      omega
    · rw [hn, hm, hn', hm']
      simp only [Option.bind_some, Option.bind_none]
      rw [ok_of_toOption hn, ok_of_toOption hn', numToBin, if_pos (by omega)]
      simp [hlong, hlong', SizedNumberAgrees, Except.toOption]
    · simp [hn, hm, hn', hm', hlong']
  · simp [hn, hm, hlong]

end Conversions

/-! ### The other builtins -/

section Others

variable {env : Env} {a c : RuntimeValue}

/-- The machine takes a byte string that is too long for a number for zero. -/
theorem zeroNotEqual_agrees_iff (ha : IsOperand a) :
    Agrees env .zeroNotEqual [a] ↔ ¬ IsInt64Min a ∧ ¬ IsLongBytes a := by
  have hmachine : ∀ s, (op0notequal (([a].map scriptBytes).reverse ++ s)).toOption =
      (some (serializeScriptNum (if (toInt (scriptBytes a)).getD 0 ≠ 0 then 1 else 0))).map
        (· :: s) := by
    intro s
    rw [show ([a].map scriptBytes).reverse ++ s = scriptBytes a :: s from rfl, op0notequal,
      Stack.pop_cons]
    simp only [bind, Except.bind]
    cases toInt (scriptBytes a) <;> rfl
  have hinterp : interpret env .zeroNotEqual [a] =
      a.toScriptNum.toOption.map fun n => serializeScriptNum (if n ≠ 0 then 1 else 0) := by
    rw [interpret_of_name (x := .zeroNotEqual) rfl]
    refine (numeric1_bytes fun n => toScriptBytes_fromBool (n ≠ 0)).trans ?_
    simp
  rw [agrees_iff_eq (fun _ => rfl) hmachine, hinterp]
  rcases operand_cases ha with ⟨n, hn, hm, _, hmin, hlong⟩ | ⟨hn, hm, hmin, hlong⟩ |
    ⟨hn, hm, hmin, hlong⟩
  all_goals simp [hn, hm, hmin, hlong]

theorem toScriptBytes_of_operand (ha : IsOperand a) :
    a.toScriptBytes.toOption = some (scriptBytes a) := by
  cases ha with
  | int _ _ => rw [scriptBytes, toScriptBytes]; rfl
  | bytes _ _ => rw [scriptBytes, toScriptBytes]; rfl

theorem isScalar_of_operand (ha : IsOperand a) : a.isScalar = true := by
  cases ha <;> rfl

theorem equal_agrees (ha : IsOperand a) (hc : IsOperand c) : Agrees env .equal [a, c] := by
  have hmachine : ∀ s, (opEqual (([a, c].map scriptBytes).reverse ++ s)).toOption =
      (some (serializeScriptNum (if scriptBytes a = scriptBytes c then 1 else 0))).map
        (· :: s) := fun s => rfl
  have hinterp : interpret env .equal [a, c] =
      some (serializeScriptNum (if scriptBytes a = scriptBytes c then 1 else 0)) := by
    rw [interpret_of_name (x := .equal) rfl, call, withTwo,
      eq_of_scalar (isScalar_of_operand ha) (isScalar_of_operand hc),
      toScriptBytes_of_operand ha, toScriptBytes_of_operand hc]
    simpa [Except.toOption] using toScriptBytes_fromBool (scriptBytes a = scriptBytes c)
  rw [agrees_iff_eq (fun _ => rfl) hmachine, hinterp]

theorem cat_agrees (ha : IsOperand a) (hc : IsOperand c) : Agrees env .cat [a, c] := by
  have hmachine : ∀ s, (opCat (([a, c].map scriptBytes).reverse ++ s)).toOption =
      (some (scriptBytes a ++ scriptBytes c)).map (· :: s) := fun s => rfl
  have hinterp : interpret env .cat [a, c] = some (scriptBytes a ++ scriptBytes c) := by
    have hx := toScriptBytes_of_operand ha
    have hy := toScriptBytes_of_operand hc
    rw [interpret_of_name (x := .cat) rfl, call, withTwo, BuiltinRuntime.cat]
    cases hax : a.toScriptBytes with
    | error e => rw [hax] at hx; cases hx
    | ok x =>
        cases hcy : c.toScriptBytes with
        | error e => rw [hcy] at hy; cases hy
        | ok y =>
            rw [hax] at hx
            rw [hcy] at hy
            obtain rfl : x = scriptBytes a := Option.some.inj hx
            obtain rfl : y = scriptBytes c := Option.some.inj hy
            rfl
  rw [agrees_iff_eq (fun _ => rfl) hmachine, hinterp]

end Others

/-! ### The exact condition -/

/-- The operands on which the two levels agree. -/
def AgreesWhen (b : PureBuiltin) (args : List RuntimeValue) : Prop :=
  match b, args with
  | .equal, _ => True
  | .cat, _ => True
  | .zeroNotEqual, _ => ∀ v ∈ args, ¬ IsInt64Min v ∧ ¬ IsLongBytes v
  | .lessOrEqual, _ => ∃ v ∈ args, IsInt64Min v ∨ IsLongBytes v
  | .greaterOrEqual, _ => ∃ v ∈ args, IsInt64Min v ∨ IsLongBytes v
  | .div, [_, c] => NumbersAgree args ∨ c.toScriptNum = .ok 0
  | .mod, [_, c] => NumbersAgree args ∨ c.toScriptNum = .ok 0
  | .binToNum, _ => ∀ v ∈ args, ReadsAlike (scriptBytes v)
  | .numToBin, [a, c] => (IsLongBytes a ∨ IsLongBytes c) ∨
      ∃ number size, a.toScriptNum = .ok number ∧ c.toScriptNum = .ok size ∧
        SizedNumberAgrees number size
  | _, _ => NumbersAgree args

theorem agrees_one_iff (env : Env) (hb : b.isUnary = true) {a : RuntimeValue}
    (ha : IsOperand a) : Agrees env b [a] ↔ AgreesWhen b [a] := by
  cases b with
  | inc =>
      exact unary_agrees_iff (x := .inc) ha rfl rfl (fun _ => rfl)
        fun _ => toScriptBytes_fromInt _
  | dec =>
      exact unary_agrees_iff (x := .dec) ha rfl rfl (fun _ => rfl)
        fun _ => toScriptBytes_fromInt _
  | neg =>
      exact unary_agrees_iff (x := .neg) ha rfl rfl (fun _ => rfl)
        fun _ => toScriptBytes_fromInt _
  | abs =>
      exact unary_agrees_iff (x := .abs) ha rfl rfl (fun _ => rfl)
        fun _ => toScriptBytes_fromInt _
  | zeroNotEqual => simpa [AgreesWhen] using zeroNotEqual_agrees_iff ha
  | binToNum => simpa [AgreesWhen] using binToNum_agrees_iff ha
  | _ => cases hb

theorem agrees_two_iff (env : Env) (hb : b.isUnary = false)
    {a c : RuntimeValue} (ha : IsOperand a) (hc : IsOperand c) :
    Agrees env b [a, c] ↔ AgreesWhen b [a, c] := by
  cases b with
  | add =>
      exact binary_agrees_iff (x := .add) ha hc rfl rfl (fun _ => rfl)
        fun _ _ => toScriptBytes_fromInt _
  | sub =>
      exact binary_agrees_iff (x := .sub) ha hc rfl rfl (fun _ => rfl)
        fun _ _ => toScriptBytes_fromInt _
  | mul =>
      exact binary_agrees_iff (x := .mul) ha hc rfl rfl (fun _ => rfl)
        fun _ _ => toScriptBytes_fromInt _
  | div => exact divide_agrees_iff (x := .div) ha hc rfl rfl fun _ => rfl
  | mod => exact divide_agrees_iff (x := .mod) ha hc rfl rfl fun _ => rfl
  | numEqual =>
      exact binary_agrees_iff (x := .numEqual) ha hc rfl rfl (fun _ => rfl)
        fun n m => toScriptBytes_fromBool (n = m)
  | numNotEqual =>
      exact binary_agrees_iff (x := .numNotEqual) ha hc rfl rfl (fun _ => rfl)
        fun n m => by simpa using toScriptBytes_fromBool (n ≠ m)
  | lessThan =>
      exact binary_agrees_iff (x := .lessThan) ha hc rfl rfl (fun _ => rfl)
        fun n m => toScriptBytes_fromBool (n < m)
  | greaterThan =>
      exact binary_agrees_iff (x := .greaterThan) ha hc rfl rfl (fun _ => rfl)
        fun n m => toScriptBytes_fromBool (n > m)
  | lessOrEqual => exact unknown_agrees_iff ha hc (by decide) fun _ => rfl
  | greaterOrEqual => exact unknown_agrees_iff ha hc (by decide) fun _ => rfl
  | lessThanOrEqual =>
      exact binary_agrees_iff (x := .lessThanOrEqual) ha hc rfl rfl
        (fun _ => rfl) fun n m => toScriptBytes_fromBool (n ≤ m)
  | greaterThanOrEqual =>
      exact binary_agrees_iff (x := .greaterThanOrEqual) ha hc rfl rfl
        (fun _ => rfl) fun n m => toScriptBytes_fromBool (n ≥ m)
  | equal => exact iff_of_true (equal_agrees ha hc) trivial
  | cat => exact iff_of_true (cat_agrees ha hc) trivial
  | numToBin => exact numToBin_agrees_iff ha hc
  | _ => cases hb

/-- **The two levels agree on an application of a builtin exactly under its condition.** -/
theorem builtin_agrees_iff (env : Env) (b : PureBuiltin) (args : List RuntimeValue)
    (harity : args.length = b.arity) (hargs : ∀ v ∈ args, IsOperand v) :
    Agrees env b args ↔ AgreesWhen b args := by
  cases hb : b.isUnary with
  | true =>
      rw [PureBuiltin.arity, if_pos hb] at harity
      obtain ⟨a, rfl⟩ := List.length_eq_one_iff.1 harity
      exact agrees_one_iff env hb (hargs a (by simp))
  | false =>
      rw [PureBuiltin.arity, if_neg (by simp [hb])] at harity
      obtain ⟨a, c, rfl⟩ := List.length_eq_two.1 harity
      exact agrees_two_iff env hb (hargs a (by simp)) (hargs c (by simp))

/-- One byte is the same in both orders. -/
theorem builtin_agrees_iff_one :
    Agrees ScriptEnv.plain.toEnv .numToBin [fromInt 1, fromInt 1] ↔
      AgreesWhen .numToBin [fromInt 1, fromInt 1] :=
  builtin_agrees_iff ScriptEnv.plain.toEnv .numToBin [fromInt 1, fromInt 1] rfl (by
    intro v hv
    simp only [List.mem_cons, List.not_mem_nil, or_false, or_self] at hv
    subst hv
    exact .int (by omega) (by omega))

/-- `NumToBin(10, 2)` is `0a00` for the interpreter and `000a` for the machine. -/
theorem builtin_disagrees :
    ¬ ∀ (env : Env) (b : PureBuiltin) (args : List RuntimeValue), args.length = b.arity →
      (∀ v ∈ args, IsOperand v) → Agrees env b args := by
  intro h
  have hargs : ∀ v ∈ [fromInt 10, fromInt 2], IsOperand v := by
    intro v hv
    simp only [List.mem_cons, List.not_mem_nil, or_false] at hv
    rcases hv with rfl | rfl
    · exact .int (by omega) (by omega)
    · exact .int (by omega) (by omega)
  have hrun := h ScriptEnv.plain.toEnv .numToBin [fromInt 10, fromInt 2] rfl hargs
    ⟨[], [], [], false⟩ [] rfl
  exact absurd hrun (by decide +kernel)

end AtomicProof
